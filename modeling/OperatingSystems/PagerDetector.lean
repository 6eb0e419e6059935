import OperatingSystems.SimulatorDetector
import OperatingSystems.PagerBasicLength
import OperatingSystems.PagerLruRoom
import OperatingSystems.PagerResidence

/-!
When the pagers of the repository let the detector report a deadlock. `pager-basic` always has the
page of the first job, or waits for it; the others ask for that page first, so that all frames are
in use when it is out after a call, which takes more processors than there are frames for.
-/

namespace OperatingSystems.Simulator

open Loop Runs Frames CallTree

section Run

variable {config : Config} {pager : Pager} {s₀ : State} {n : Nat}

/-- A pager that asks for the page of the first job is reported only when all frames are in use. -/
theorem live_report_full {inv : pager.State → Prop} (live : pager.Live inv)
    (h : config.Starts s₀) (htable : config.table = programs)
    (hreport : allblocked config.procs (config.run pager s₀ (n + 1)).2 = true) :
    (config.run pager s₀ (n + 1)).2.pool.avail = 0 := by
  have hwait := pageWait_pos
  obtain ⟨fuel, jobs, -, hsched⟩ := run_scheduled pager h
  obtain ⟨hloaded, hout⟩ := (allblocked_iff (hsched (n + 1)).toPlaced).mp hreport
  obtain ⟨slot, k, hslot, hbefore⟩ := first_loaded hloaded
  have hpaged := run_succ_paged config pager s₀ n
  have hreach := shown_reaches pager h n
  have hserved := (run_succ_requested pager n).2 hreach.npages
  have hpage := hreach.page_lt htable k
  have hgone : (config.run pager s₀ (n + 1)).2.pool.cell (k, ⟨_, hpage⟩) < -pageWait := by
    have hnow := hout slot k hslot
    rw [hpaged.still.page k] at hnow
    exact hnow
  -- The page was out before the call, since nothing that goes is out at once.
  have hshown : (config.shown pager s₀ n).pool.cell (k, ⟨_, hpage⟩) < -pageWait := by
    rcases hserved.cell (k, ⟨_, hpage⟩) with hsame | hleft | hcame <;> omega
  have havail : (config.shown pager s₀ n).pool.avail = 0 := by
    by_contra hfree
    have hasked : (callyou pager config.procs ((config.run pager s₀ n).1,
        config.shown pager s₀ n)).2.pool.cell (k, ⟨_, hpage⟩) = pageWait :=
      callyou_first live hreach (hpaged.processes ▸ hslot)
        (fun other hother => hpaged.processes ▸ hbefore other hother) rfl hshown hfree
    rw [← run_succ_called] at hasked
    omega
  have hle := hserved.avail_le
  have hnonneg := hserved.avail_nonneg hreach.framed.avail_nonneg
  omega

/-- With `pager-basic` nothing is ever reported. -/
theorem basic_no_report (h : config.Starts s₀) (htable : config.table = programs) :
    allblocked config.procs (config.run basic s₀ (n + 1)).2 = false := by
  have hwait := pageWait_pos
  obtain ⟨fuel, jobs, -, hsched⟩ := run_scheduled basic h
  rw [Bool.eq_false_iff, Ne, allblocked_iff (hsched (n + 1)).toPlaced]
  rintro ⟨hloaded, hout⟩
  obtain ⟨slot, k, hslot, hbefore⟩ := first_loaded hloaded
  have hnot : ∀ m, m ≤ n → alldone config.procs (config.run basic s₀ m).2 = false := by
    intro m hm
    by_contra hdone
    have hidle := fun k =>
      (hsched m).idle_of_alldone config.procs_pos (Bool.not_eq_false _ ▸ hdone) k
    obtain ⟨d, hd⟩ := Nat.exists_eq_add_of_le (show m ≤ n + 1 by omega)
    have hlater : Later (config.run basic s₀ m).2 (config.run basic s₀ (n + 1)).2 := by
      rw [hd]
      exact run_later basic m d
    rcases hlater.loaded slot k hslot with hheld | hqueued
    · exact (hidle k).2 slot hheld
    · have hlt := (hidle k).1
      omega
  have hattended := (basic_spent h htable hnot).2 slot k ⟨hslot, hbefore⟩
  have hnow := hout slot k hslot
  have hlower := hattended.lower
  omega

end Run

/-- **When a deadlock is reported.** With `pager-basic` no deadlock is ever reported; with
`pager-lru` and `pager-predict` one is reported only while all frames are in use, and so never as
long as there is a frame for every page of every processor. -/
theorem report_strategy (config : Config) (htable : config.table = programs) (strategy : Strategy)
    (s₀ : State) (h : config.Starts s₀) (n : Nat) :
    allblocked config.procs (config.run strategy.pager s₀ (n + 1)).2 = false ∨
      strategy ≠ .basic ∧ (config.run strategy.pager s₀ (n + 1)).2.pagesavail = 0 ∧
        physicalPages < config.procs * maxProcPages := by
  have hwait := pageWait_pos
  have hfull : ∀ {pager : Pager} {inv : pager.State → Prop}, pager.Live inv →
      allblocked config.procs (config.run pager s₀ (n + 1)).2 = true →
      (config.run pager s₀ (n + 1)).2.pagesavail = 0 ∧
        physicalPages < config.procs * maxProcPages := by
    intro pager inv live hreport
    have havail := live_report_full live h htable hreport
    refine ⟨havail, not_le.mp fun hroomy => ?_⟩
    have hreach := run_reaches pager h (n + 1)
    obtain ⟨fuel, jobs, -, hsched⟩ := run_scheduled pager h
    obtain ⟨⟨slot, k, hslot⟩, hout⟩ := (allblocked_iff (hsched (n + 1)).toPlaced).mp hreport
    exact Config.Roomy.avail_ne hroomy hreach (c := (k, ⟨_, hreach.page_lt htable k⟩)) hslot
      (hout slot k hslot) havail
  rw [or_iff_not_imp_left, Bool.not_eq_false]
  intro hreport
  cases strategy with
  | basic =>
      have hnone := basic_no_report (n := n) h htable
      exact absurd (hnone.symm.trans hreport) Bool.false_ne_true
  | lru => exact ⟨nofun, hfull lru_live hreport⟩
  | predict => exact ⟨nofun, hfull predict_live hreport⟩

theorem report_strategy_five : ∃ s₀, fiveConfig.Starts s₀ ∧
    allblocked 5 (fiveConfig.run predict s₀ 1000).2 = false := by
  obtain ⟨s₀, hstart⟩ : ∃ s₀, fiveConfig.Starts s₀ := starts_of_alternating rfl rfl
  refine ⟨s₀, hstart, ?_⟩
  rcases report_strategy fiveConfig rfl .predict s₀ hstart 999 with hnone | ⟨-, -, hmany⟩
  · exact hnone
  · exact absurd hmany (by decide)

end OperatingSystems.Simulator
