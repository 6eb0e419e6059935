import OperatingSystems.SimulatorModel
import OperatingSystems.LibraryRuns

/-!
Runs of the simulator. The main loop performs the phases of a tick slot by slot and in a fixed
order; for the invariants the slots, and the single requests of a pager, may come in any order.
-/

namespace OperatingSystems.Simulator

open Loop Runs

/-- What is fixed before the simulation starts: the table of programs, `-procs` and the random
stream that the seed gives. -/
structure Config where
  table : Fin programCount → Program
  procs : Nat
  rand : Stream
  procs_pos : 1 ≤ procs
  procs_le : procs ≤ maxProcesses

/-- `allinit` has ended with the state. -/
def Config.Starts (config : Config) (s : State) : Prop :=
  ∃ fuel, allinit config.table config.procs config.rand fuel = some s

/-- The phases of a tick, one slot or one request of the pager at a time. -/
inductive Phase where
  | step (slot : Nat)
  | age (slot : Nat)
  | request (r : PageCall)
  | clock

def phase (procs : Nat) (s : State) : Phase → Option State
  | .step slot => if slot < procs then some (s.stepSlot slot) else none
  | .age slot => if slot < procs then some (s.ageSlot slot) else none
  | .request r => some (r.answer procs s).2
  | .clock => some { s with sysclock := s.sysclock + 1 }

/-- The states that any phases, in any order, lead to. -/
def Config.Reaches (config : Config) (s : State) : Prop :=
  ∃ s₀, config.Starts s₀ ∧ Reachable (phase config.procs) s₀ s

/-! ### The main loop -/

variable {pager : Pager} {procs : Nat} {s : pager.State × State}

theorem callyou_reach (s : pager.State × State) :
    Reachable (phase procs) s.2 (callyou pager procs s).2 :=
  CallTree.run_relates (fun _ => .refl) (fun _ _ _ => Reach.trans)
    (fun r s => reachable_step (show phase procs s (.request r) = _ from rfl)) _ _

theorem allstep_reach (s : State) : Reachable (phase procs) s (allstep procs s) :=
  (loop_relates (fun _ => True) (Reachable (phase procs)) (fun _ => .refl)
    (fun _ _ _ => Reach.trans) trivial fun slot s hslot _ =>
      ⟨trivial, reachable_step (show phase procs s (.step slot) = _ from if_pos hslot)⟩).2

theorem allage_reach (s : State) : Reachable (phase procs) s (allage procs s) :=
  (loop_relates (fun _ => True) (Reachable (phase procs)) (fun _ => .refl)
    (fun _ _ _ => Reach.trans) trivial fun slot s hslot _ =>
      ⟨trivial, reachable_step (show phase procs s (.age slot) = _ from if_pos hslot)⟩).2

theorem tick_reach (s : pager.State × State) :
    Reachable (phase procs) s.2 (tick pager procs s).2 := by
  have hcall := @callyou_reach pager procs (s.1, allage procs (allstep procs s.2))
  exact (((allstep_reach s.2).trans (allage_reach _)).trans hcall).trans
    (reachable_step (show phase procs _ .clock = _ from rfl))

theorem ticks_reach (n : Nat) (s : pager.State × State) :
    Reachable (phase procs) s.2 ((tick pager procs)^[n] s).2 := by
  induction n generalizing s with
  | zero => exact .refl
  | succ n ih => exact (tick_reach s).trans (ih _)

/-- The main loop ends in the first state after some number of ticks in which all is done. -/
theorem mainLoop_eq_some {fuel : Nat} {s' : State} (h : mainLoop pager procs fuel s = some s') :
    ∃ n, s' = ((tick pager procs)^[n] s).2 ∧ alldone procs s' = true := by
  induction fuel generalizing s with
  | zero => simp [mainLoop] at h
  | succ fuel ih =>
      rw [mainLoop] at h
      split at h
      · rename_i hdone
        exact ⟨0, (Option.some.inj h).symm, Option.some.inj h ▸ hdone⟩
      · obtain ⟨n, hn, hdone⟩ := ih h
        exact ⟨n + 1, hn, hdone⟩

/-- If all is done after some number of ticks, the main loop ends. -/
theorem mainLoop_ends {n : Nat} (h : alldone procs ((tick pager procs)^[n] s).2 = true) :
    ∃ fuel s', mainLoop pager procs fuel s = some s' := by
  induction n generalizing s with
  | zero => exact ⟨1, s.2, if_pos h⟩
  | succ n ih =>
      obtain ⟨fuel, s', hloop⟩ := ih h
      by_cases hdone : alldone procs s.2 = true
      · exact ⟨1, s.2, if_pos hdone⟩
      · exact ⟨fuel + 1, s', by rw [mainLoop, if_neg hdone, hloop]⟩

theorem Config.Reaches.ticks {config : Config} (pager : Pager) (s : pager.State × State)
    (h : config.Reaches s.2) (n : Nat) :
    config.Reaches ((tick pager config.procs)^[n] s).2 := by
  obtain ⟨s₀, hstart, hreach⟩ := h
  exact ⟨s₀, hstart, hreach.trans (ticks_reach n s)⟩

end OperatingSystems.Simulator
