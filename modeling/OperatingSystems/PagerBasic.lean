import OperatingSystems.SimulatorStall

/-!
The pager `pager-basic`. All its work goes to the first active process: the page that this one is
on is asked for and, when it is refused, one other page of the process is given up.
-/

namespace OperatingSystems.Simulator

open CallTree

/-- The loop over `oldpage`: the first other page that goes ends it. -/
def swapOut (q : Snapshot) (proc page : Nat) : CallTree PageCall Bool (Bool × Unit) :=
  sweepUntil (fun oldpage _ =>
    if oldpage ≠ page then do
      let going ← ask (.pageout proc oldpage)
      pure (!going, ())
    else pure (true, ())) (q proc).npages ()

/-- The body of the loop over the processes; it says whether the loop goes on. -/
def basicServe (q : Snapshot) (proc : Nat) (_ : Unit) : CallTree PageCall Bool (Bool × Unit) :=
  if (q proc).active then
    let page := (q proc).page
    if (q proc).pages page then pure (false, ())
    else do
      let coming ← ask (.pagein proc page)
      if coming then pure (false, ())
      else do
        let _ ← swapOut q proc page
        pure (false, ())
  else pure (true, ())

/-- `pageit` of `pager-basic`. -/
def basic : Pager where
  State := Unit
  init := ()
  pageit q _ := do
    let r ← sweepUntil (basicServe q) maxProcesses ()
    pure r.2

theorem basic_pageit (q : Snapshot) (st : basic.State) :
    basic.pageit q st = sweepUntil (basicServe q) maxProcesses () >>= fun r => ret r.2 := rfl

variable {q : Snapshot} {proc : Nat}

theorem swapOut_only (q : Snapshot) (proc page : Nat) :
    Only (fun r : PageCall => r.process = proc) (swapOut q proc page) := by
  apply Only.sweepUntil
  intro oldpage _ _
  split_ifs
  · exact .call rfl fun _ => .ret _
  · exact .ret _

/-- Serving a process makes requests for this process only. -/
theorem basicServe_only (q : Snapshot) (proc : Nat) (st : Unit) :
    Only (fun r : PageCall => r.process = proc) (basicServe q proc st) := by
  unfold basicServe
  by_cases hactive : (q proc).active = true
  · simp only [if_pos hactive, ask_bind]
    split
    · exact .ret _
    · refine .call rfl fun coming => ?_
      split
      · exact .ret _
      · exact (swapOut_only q proc _).bind fun _ => .ret _
  · rw [if_neg hactive]
    exact .ret _

theorem basicServe_resident (hactive : (q proc).active = true)
    (hpage : (q proc).pages (q proc).page = true) (st : Unit) :
    basicServe q proc st = ret (false, ()) := by
  rw [basicServe, if_pos hactive]
  exact if_pos hpage

theorem basic_keeps : basic.Keeps := by
  intro q st slot hactive hpage
  have hserve := serve_keeps (basicServe_only q)
    fun st => ⟨_, basicServe_resident hactive hpage st⟩
  rw [basic_pageit]
  exact (Only.sweepUntil (fun proc st _ => hserve proc st) ()).bind fun _ => .ret _

end OperatingSystems.Simulator
