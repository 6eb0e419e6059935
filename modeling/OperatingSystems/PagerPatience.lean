import OperatingSystems.PagerLruProgress
import OperatingSystems.PagerPredict
import OperatingSystems.SimulatorSpent

/-!
How long the simulation can go on without computing. A pager that leaves a frozen system within
some calls lets a job compute within a fixed number of ticks, so that the length of a run is
bounded by what its jobs compute.
-/

namespace OperatingSystems.Simulator

variable {config : Config} {pager : Pager} {inv : pager.State → Prop} {calls : Nat}

/-- The pager does not stay in a frozen system for that many calls. -/
def Pager.Leaves (pager : Pager) (inv : pager.State → Prop) (calls : Nat) : Prop :=
  ∀ {q st log}, (∀ t, inv (st t)) → ¬FrozenFor pager calls q st log

/-! ### Windows -/

section Windows

variable (htable : config.table = programs) (live : pager.Live inv)
  (hleaves : pager.Leaves inv calls)

include htable live hleaves

/-- While a job is loaded, some job computes in every window of `stallTicks calls` ticks. -/
theorem computes_within (s : pager.State × State) (h : config.Reaches s.2) (hmemory : inv s.1)
    (hnot : alldone config.procs s.2 = false) :
    s.2.computeTotal < ((tick pager config.procs)^[stallTicks calls] s).2.computeTotal := by
  by_contra hnone
  have hstuck : StuckFor config pager inv (stallTicks calls)
      fun n => (tick pager config.procs)^[n] s := by
    refine ⟨h, hmemory, fun n => Function.iterate_succ_apply' _ n s, fun n hn => ?_,
      loaded_of_not_alldone hnot, h.page_lt htable⟩
    by_contra hbusy
    apply hnone
    obtain ⟨left, hleft⟩ := Nat.exists_eq_add_of_le (Nat.succ_le_of_lt hn)
    calc
      s.2.computeTotal ≤ ((tick pager config.procs)^[n] s).2.computeTotal :=
        ticks_computeTotal_mono pager config.procs s n
      _ < ((tick pager config.procs)^[n + 1] s).2.computeTotal := by
        rw [Function.iterate_succ_apply']
        exact tick_computeTotal_lt pager _ (h.ticks pager s n) hbusy
      _ ≤ ((tick pager config.procs)^[left] ((tick pager config.procs)^[n + 1] s)).2.computeTotal :=
        ticks_computeTotal_mono pager config.procs _ left
      _ = ((tick pager config.procs)^[stallTicks calls] s).2.computeTotal := by
        rw [← Function.iterate_add_apply, hleft, Nat.add_comm]
  exact hstuck.absurd live hleaves

variable {s₀ : State} (h : config.Starts s₀)

include h

theorem run_computes_within {n : Nat}
    (hnot : alldone config.procs (config.run pager s₀ n).2 = false) :
    (config.run pager s₀ n).2.computeTotal <
      (config.run pager s₀ (n + stallTicks calls)).2.computeTotal := by
  have hreach : config.Reaches s₀ := ⟨s₀, h, .refl⟩
  have hwithin := computes_within htable live hleaves (config.run pager s₀ n)
    (Config.Reaches.ticks pager (pager.init, s₀) hreach n)
    (memory_ticks live config.procs (pager.init, s₀) live.init n) hnot
  rwa [Config.run, ← Function.iterate_add_apply, Nat.add_comm] at hwithin

/-- What has been computed after so many windows. -/
theorem windows_le_computeTotal {n : Nat}
    (hnot : ∀ m, m < n → alldone config.procs (config.run pager s₀ m).2 = false) (windows : Nat)
    (hin : windows * stallTicks calls ≤ n) :
    windows ≤ (config.run pager s₀ (windows * stallTicks calls)).2.computeTotal := by
  induction windows with
  | zero => exact Nat.zero_le _
  | succ windows ih =>
      rw [Nat.succ_mul] at hin ⊢
      have hpos : 0 < stallTicks calls := Nat.lt_of_lt_of_le (by decide) (Nat.le_add_left 403 calls)
      have hbefore := ih (by omega)
      exact Nat.lt_of_le_of_lt hbefore
        (run_computes_within htable live hleaves h (hnot _ (by omega)))

/-- The length of a run. -/
theorem sysclock_lt {fuel : Nat} {s : State}
    (hloop : mainLoop pager config.procs fuel (pager.init, s₀) = some s) :
    s.sysclock < stallTicks calls * (s.computeTotal + 1) := by
  obtain ⟨n, rfl, hnot, -⟩ := mainLoop_run h hloop
  have hpos : 0 < stallTicks calls := Nat.lt_of_lt_of_le (by decide) (Nat.le_add_left 403 calls)
  set windows := (n + 1) / stallTicks calls with hwindows
  have hin : windows * stallTicks calls ≤ n + 1 := Nat.div_mul_le_self _ _
  obtain ⟨left, hleft⟩ := Nat.exists_eq_add_of_le hin
  have hcomputed : windows ≤ (config.run pager s₀ (n + 1)).2.computeTotal :=
    calc
      windows ≤ (config.run pager s₀ (windows * stallTicks calls)).2.computeTotal :=
        windows_le_computeTotal htable live hleaves h
          (fun m hm => hnot m (Nat.le_of_lt_succ hm)) windows hin
      _ ≤ (config.run pager s₀ (n + 1)).2.computeTotal := by
        rw [hleft, Nat.add_comm, Config.run, Config.run, Function.iterate_add_apply]
        exact ticks_computeTotal_mono pager config.procs _ left
  calc
    (config.run pager s₀ (n + 1)).2.sysclock = n + 1 := run_sysclock pager h (n + 1)
    _ < stallTicks calls * (windows + 1) := Nat.lt_mul_div_succ (n + 1) hpos
    _ ≤ stallTicks calls * ((config.run pager s₀ (n + 1)).2.computeTotal + 1) :=
      Nat.mul_le_mul_left _ (Nat.succ_le_succ hcomputed)

end Windows

/-! ### The pagers -/

theorem lru_leaves : lru.Leaves Lru.Past maxProcPages := fun hpast => lru_thaws hpast

theorem predict_leaves : predict.Leaves (fun _ => True) (maxProcesses + 1) := fun _ => predict_thaws

/-- The clock of `pager-lru` counts the calls. -/
theorem run_clock (config : Config) (s₀ : State) (n : Nat) :
    Lru.tick (config.run lru s₀ n).1 = n + 1 := by
  induction n with
  | zero => rfl
  | succ n ih =>
      have hpast : Lru.Past (config.run lru s₀ n).1 :=
        memory_ticks lru_live config.procs (lru.init, s₀) lru_live.init n
      obtain ⟨log, htalk⟩ : ∃ log, CallTree.Talk
          (lru.pageit (config.shown lru s₀ n).pentry (config.run lru s₀ n).1) log
          (config.run lru s₀ (n + 1)).1 := run_talk lru n
      rw [(hpast.pageit htalk).2, ih]

/-- **Under `pager-lru` no stall is long.** Whatever the random stream and the number of
processors, while a job is loaded some job computes in any 423 ticks, and a run that ends takes
less than 423 ticks for each tick that is computed, and as many more. After `n` ticks the clock of
the pager stands at `n + 1`: it is taken as unbounded, and the code's is an `int`, so that what is
said holds of the code as long as that number is one. -/
theorem lru_stalls_bounded (config : Config) (htable : config.table = programs) (s₀ : State)
    (h : config.Starts s₀) :
    (∀ n, Lru.tick (config.run lru s₀ n).1 = n + 1) ∧
    (∀ n, alldone config.procs (config.run lru s₀ n).2 = false →
      (config.run lru s₀ n).2.computeTotal < (config.run lru s₀ (n + 423)).2.computeTotal) ∧
    ∀ fuel s, mainLoop lru config.procs fuel (lru.init, s₀) = some s →
      s.sysclock < 423 * (s.computeTotal + 1) :=
  ⟨run_clock config s₀, fun _ => run_computes_within htable lru_live lru_leaves h,
    fun _ _ => sysclock_lt htable lru_live lru_leaves h⟩

theorem lru_stalls_bounded_alternating : ∃ s₀ fuel s, alternatingConfig.Starts s₀ ∧
    mainLoop lru alternatingConfig.procs fuel (lru.init, s₀) = some s ∧
      s.sysclock < 423 * (s.computeTotal + 1) := by
  obtain ⟨s₀, hstart⟩ := alternatingConfig_starts
  obtain ⟨fuel, s, hloop⟩ := (live_terminates rfl lru_live hstart).1
  exact ⟨s₀, fuel, s, hstart, hloop,
    (lru_stalls_bounded alternatingConfig rfl s₀ hstart).2.2 fuel s hloop⟩

/-- **Under `pager-predict` no stall is long.** Whatever the random stream and the number of
processors, while a job is loaded some job computes in any 424 ticks, and a run that ends takes
less than 424 ticks for each tick that is computed, and as many more. -/
theorem predict_stalls_bounded (config : Config) (htable : config.table = programs) (s₀ : State)
    (h : config.Starts s₀) :
    (∀ n, alldone config.procs (config.run predict s₀ n).2 = false →
      (config.run predict s₀ n).2.computeTotal <
        (config.run predict s₀ (n + 424)).2.computeTotal) ∧
    ∀ fuel s, mainLoop predict config.procs fuel (predict.init, s₀) = some s →
      s.sysclock < 424 * (s.computeTotal + 1) :=
  ⟨fun _ => run_computes_within htable predict_live predict_leaves h,
    fun _ _ => sysclock_lt htable predict_live predict_leaves h⟩

theorem predict_stalls_bounded_alternating : ∃ s₀ fuel s, alternatingConfig.Starts s₀ ∧
    mainLoop predict alternatingConfig.procs fuel (predict.init, s₀) = some s ∧
      s.sysclock < 424 * (s.computeTotal + 1) := by
  obtain ⟨s₀, hstart⟩ := alternatingConfig_starts
  obtain ⟨fuel, s, hloop⟩ := (live_terminates rfl predict_live hstart).1
  exact ⟨s₀, fuel, s, hstart, hloop,
    (predict_stalls_bounded alternatingConfig rfl s₀ hstart).2 fuel s hloop⟩

end OperatingSystems.Simulator
