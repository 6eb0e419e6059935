import OperatingSystems.PagerBasic
import OperatingSystems.PagerLruProgress
import OperatingSystems.PagerPredict
import OperatingSystems.SimulatorResidence

/-!
The pagers of the repository leave the page alone that a process executes. None of them looks at
what its own calls have changed; it is enough that each is silent about a process whose page is
resident in the snapshot.
-/

namespace OperatingSystems.Simulator

/-- The pagers that the simulator is built with, apart from the test of its interface. -/
inductive Strategy where
  | basic
  | lru
  | predict

def Strategy.pager : Strategy → Pager
  | .basic => Simulator.basic
  | .lru => Simulator.lru
  | .predict => Simulator.predict

theorem strategy_keeps (strategy : Strategy) : strategy.pager.Keeps := by
  cases strategy with
  | basic => exact basic_keeps
  | lru => exact fun _ _ _ => lru_keeps
  | predict => exact fun _ _ _ => predict_keeps

/-- **The page being executed stays.** In every run with one of the three pagers, no call of the
pager takes from memory the page that the program counter of a job is on; so once a job has
computed on a page, no blocked tick is charged to it as long as its program counter stays there. -/
theorem executed_page_stays (config : Config) (htable : config.table = programs)
    (strategy : Strategy) (s₀ : State) (h : config.Starts s₀) (n : Nat) (k : Fin queueSize) :
    let run := fun n => (config.run strategy.pager s₀ n).2
    (∀ r s, (r, s) ∈ config.calls strategy.pager s₀ n →
      (s.queue k).pages (s.queue k).page = 0 →
        ((r.answer config.procs s).2.queue k).pages (s.queue k).page = 0) ∧
    (((run (n + 1)).queue k).compute = ((run n).queue k).compute + 1 →
      ∀ m, n ≤ m →
        (∀ i, n ≤ i → i ≤ m → ((run i).queue k).page = ((run n).queue k).page) →
          ((run (m + 1)).queue k).block = ((run n).queue k).block) := by
  intro run
  have keeps := strategy_keeps strategy
  refine ⟨?_, ?_⟩
  · intro r s hcall hin
    exact calls_keep hcall keeps htable h k hin
  · intro hcompute m hle hpage
    obtain ⟨d, rfl⟩ := Nat.exists_eq_add_of_le hle
    have hon := onPage_of_compute h hcompute
    exact (onPage_run keeps htable h hon d fun i hi => hpage (n + i) (by omega) (by omega)).2

theorem executed_page_stays_alternating : ∃ s₀, alternatingConfig.Starts s₀ ∧
    ∀ r s, (r, s) ∈ alternatingConfig.calls predict s₀ 3 →
      (s.queue 0).pages (s.queue 0).page = 0 →
        ((r.answer alternatingConfig.procs s).2.queue 0).pages (s.queue 0).page = 0 := by
  obtain ⟨s₀, hstart⟩ := alternatingConfig_starts
  exact ⟨s₀, hstart, (executed_page_stays alternatingConfig rfl .predict s₀ hstart 3 0).1⟩

end OperatingSystems.Simulator
