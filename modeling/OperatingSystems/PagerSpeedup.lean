import OperatingSystems.PagerBasicLength
import OperatingSystems.PagerPredictRoom
import OperatingSystems.SimulatorMakespan

/-!
What parallel work brings. `pager-basic` works on one job at a time and `pager-lru`, given room, on
as many as there are processors, so the second is at most that many times faster than the first; and
it is never slower.
-/

namespace OperatingSystems.Simulator

open ListScheduling

variable {config : Config} {s₀ s s' : State} {fuel fuel' : Nat}

/-- The jobs need what they need under `pager-basic`, and those loaded at the start a tick more. -/
theorem sum_needs (config : Config) (s : State) :
    ∑ job ∈ Finset.range queueSize, config.needs s job =
      ∑ k, ((s.queue k).compute + pageWait.toNat * (s.queue k).pagesUsed.card) + config.procs := by
  have hlate : ∑ k, config.late k = config.procs := by
    have hprocs : config.procs ≤ queueSize := config.procs_le.trans (by decide)
    simp only [Config.late]
    rw [← Finset.card_filter, Fin.card_filter_val_lt, min_eq_right hprocs]
  have hneed : ∀ k : Fin queueSize, config.needs s k =
      (s.queue k).compute + pageWait.toNat * (s.queue k).pagesUsed.card + config.late k :=
    fun k => dif_pos k.isLt
  rw [Finset.sum_range, Finset.sum_congr rfl fun k _ => hneed k, Finset.sum_add_distrib, hlate]

/-- Under `pager-predict`, given room, the main loop ends as under `pager-lru`. -/
theorem lru_of_predict (htable : config.table = programs) (hroomy : config.Roomy)
    (h : config.Starts s₀) (hloop : mainLoop predict config.procs fuel (predict.init, s₀) = some s) :
    mainLoop lru config.procs fuel (lru.init, s₀) = some s := by
  obtain ⟨l₀, hlogged, rfl⟩ := startsLogged_of_starts h
  rwa [mainLoop_predict hlogged htable hroomy] at hloop

/-- **What the processors bring.** With frames enough for all processors, a simulation under
`pager-lru` or `pager-predict` takes no longer than the same simulation under `pager-basic`, and at
least its part for one of the processors. -/
theorem speedup_le_procs (config : Config) (htable : config.table = programs)
    (hroomy : config.Roomy) (s₀ : State) (h : config.Starts s₀) (pager : Pager)
    (hpager : pager = lru ∨ pager = predict) (fuel fuel' : Nat) (s s' : State)
    (hloop : mainLoop pager config.procs fuel (pager.init, s₀) = some s)
    (hbasic : mainLoop basic config.procs fuel' (basic.init, s₀) = some s') :
    s.sysclock ≤ s'.sysclock ∧ s'.sysclock ≤ config.procs * s.sysclock := by
  have hlru : mainLoop lru config.procs fuel (lru.init, s₀) = some s := by
    rcases hpager with rfl | rfl
    · exact hloop
    · exact lru_of_predict htable hroomy h hloop
  have hprocs : config.procs ≤ queueSize := config.procs_le.trans (by decide)
  have hpos := config.procs_pos
  have htotal := sum_needs config s
  have hserial : s'.sysclock =
      ∑ k, ((s.queue k).compute + pageWait.toNat * (s.queue k).pagesUsed.card) + 1 := by
    rw [basic_sysclock h htable hbasic, Finset.sum_congr rfl
      fun k _ => cost_unique rfl rfl h h hlru hbasic k]
  have hclock := lru_sysclock htable hroomy h hlru
  constructor
  · have hshared : makespan config.procs (config.needs s) queueSize + (config.procs - 1) ≤
        ∑ job ∈ Finset.range queueSize, config.needs s job :=
      makespan_add_le hpos hprocs fun job hjob => needs_pos htable hroomy h hlru hjob
    omega
  · calc s'.sysclock ≤ ∑ job ∈ Finset.range queueSize, config.needs s job := by omega
      _ ≤ config.procs * makespan config.procs (config.needs s) queueSize :=
          sum_le_mul_makespan hpos
      _ = config.procs * s.sysclock := by rw [hclock]

theorem speedup_le_procs_five : ∃ s₀ fuel fuel' s s', fiveConfig.Starts s₀ ∧
    mainLoop predict fiveConfig.procs fuel (predict.init, s₀) = some s ∧
    mainLoop basic fiveConfig.procs fuel' (basic.init, s₀) = some s' ∧
    s.sysclock ≤ s'.sysclock ∧ s'.sysclock ≤ 5 * s.sysclock := by
  have hroomy : fiveConfig.Roomy := by unfold Config.Roomy; decide
  obtain ⟨s₀, hstart⟩ : ∃ s₀, fiveConfig.Starts s₀ := starts_of_alternating rfl rfl
  obtain ⟨fuel, s, hloop⟩ := (live_terminates rfl predict_live hstart).1
  obtain ⟨n, hdone⟩ := basic_ends rfl hstart
  obtain ⟨fuel', s', hbasic⟩ := mainLoop_ends hdone
  exact ⟨s₀, fuel, fuel', s, s', hstart, hloop, hbasic, speedup_le_procs fiveConfig rfl hroomy s₀
    hstart predict (Or.inr rfl) fuel fuel' s s' hloop hbasic⟩

end OperatingSystems.Simulator
