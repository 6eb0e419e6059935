import OperatingSystems.SimulatorLog
import OperatingSystems.SimulatorCharges
import OperatingSystems.LibraryIntervals

/-!
The intervals in which a job is blocked. A flag of a job that is set always belongs to the page of
its program counter, because a blocked job does not move; so the records of one job in `output.csv`
mark off intervals, and the length of these intervals is what the job has been charged as blocked.
-/

namespace OperatingSystems.Simulator

open Loop Intervals

/-! ### The history of a job -/

/-- The records of one job. -/
def Logged.history (l : Logged) (k : Fin queueSize) : List OutputRecord :=
  l.output.filter fun r => r.pid = k.val

/-- The intervals between a `blocked` record and an `unblocked` record with the same `pc`. -/
def blockMarks : Marks OutputRecord where
  opens r := decide (r.comment = .blocked)
  closes r := decide (r.comment = .unblocked)
  time r := r.time
  fits a b := a.pc = b.pc

/-- The job has been found blocked, and has not run since. -/
def Process.Blocked (q : Process) : Prop := q.active = true ∧ q.blocked q.page = true

/-- The records that a loaded job gets in one step. -/
def State.tickRecords (s : State) (slot : Nat) (q : Process) : List OutputRecord :=
  (q.entries.map fun e => s.outputRecord slot q e.1 e.2) ++
    if (processStep q).1 then []
    else [s.outputRecord slot (processStep q).2 (processStep q).2.pc .unload]

/-- The job that is loaded next into a slot gets a record. -/
def State.loadRecords (s : State) (slot : Nat) : List OutputRecord :=
  if hleft : s.queueend < queueSize then
    let q := s.queue ⟨s.queueend, hleft⟩
    [s.outputRecord slot q q.pc .load]
  else []

theorem tickRecords_congr {s s' : State} (h : s'.sysclock = s.sysclock) (slot : Nat)
    (q : Process) : s'.tickRecords slot q = s.tickRecords slot q := by
  simp only [State.tickRecords, State.outputRecord, h]

/-- The jobs carry the numbers of their places in the queue. -/
def Numbered (s : State) : Prop := ∀ k, (s.queue k).pid = k.val

theorem Paged.numbered {s s' : State} (h : Paged s s') (hnumbered : Numbered s) : Numbered s' :=
  fun k => (h.same (·.pid) (fun _ _ => rfl) k).trans (hnumbered k)

theorem stepped_pid (q : Process) : q.stepped.pid = q.pid := by
  rw [← (processStep_kept q).2.2]
  unfold Process.stepped
  split_ifs <;> rfl

/-- A job may be replaced by one with the same number. -/
theorem Numbered.update {s s' : State} (h : Numbered s) {k : Fin queueSize} {q : Process}
    (hqueue : s'.queue = Function.update s.queue k q) (hpid : q.pid = (s.queue k).pid) :
    Numbered s' := by
  intro k'
  rw [hqueue]
  by_cases hk : k' = k
  · rw [hk, Function.update_self, hpid, h k]
  · rw [Function.update_of_ne hk]
    exact h k'

theorem Numbered.stepSlot {s : State} (h : Numbered s) (slot : Nat) :
    Numbered (s.stepSlot slot) := by
  have hqueue := stepSlot_queue s slot
  cases hslot : s.processes slot with
  | none =>
      simp only [hslot] at hqueue
      intro k
      rw [hqueue]
      exact h k
  | some k =>
      simp only [hslot] at hqueue
      exact h.update hqueue (stepped_pid _)

/-! ### The records of one slot -/

variable {procs : Nat} {jobs : Fin queueSize → Process}

/-- What one slot of `allstep` writes. -/
theorem stepSlot_output (l : Logged) (slot : Nat)
    (hactive : ∀ k, l.state.processes slot = some k → (l.state.queue k).active = true) :
    (l.stepSlot slot).output = l.output ++
      match l.state.processes slot with
      | none => l.state.loadRecords slot
      | some k => l.state.tickRecords slot (l.state.queue k) ++
          if (processStep (l.state.queue k)).1 then [] else
            ((l.state.setJob k (processStep (l.state.queue k)).2).processUnload k).loadRecords
              slot := by
  unfold Logged.stepSlot
  cases hslot : l.state.processes slot with
  | none => rfl
  | some k =>
      have hstill : ((l.processStep slot k).2.state.queue k).active = true := by
        show ((l.state.setJob k (processStep (l.state.queue k)).2).queue k).active = true
        rw [setJob_self, (processStep_kept _).2.1, hactive k hslot]
      have hgoes : (l.processStep slot k).1 = (processStep (l.state.queue k)).1 := rfl
      simp only [hstill, if_true, hgoes, State.tickRecords]
      split_ifs with hon
      · simp only [List.append_nil]
        rfl
      · simp only [Logged.reload, Logged.processUnload, Logged.processStep, setJob_self,
          List.append_assoc]
        rfl

theorem tickRecords_pid {s : State} {slot : Nat} {q : Process} {r : OutputRecord}
    (h : r ∈ s.tickRecords slot q) : r.pid = q.pid := by
  rcases List.mem_append.mp h with hentry | hunload
  · obtain ⟨e, -, rfl⟩ := List.mem_map.mp hentry
    rfl
  · split_ifs at hunload
    · cases hunload
    · rw [List.mem_singleton] at hunload
      rw [hunload]
      exact (processStep_kept q).2.2

/-- A load record belongs to the job that waits at the head of the queue. -/
theorem loadRecords_history {s : State} (hnumbered : Numbered s) (slot : Nat)
    (k : Fin queueSize) :
    (∀ r ∈ (s.loadRecords slot).filter fun r => r.pid = k.val, r.comment = .load) ∧
      (k.val < s.queueend → (s.loadRecords slot).filter (fun r => r.pid = k.val) = []) := by
  unfold State.loadRecords
  split_ifs with hleft
  · refine ⟨?_, ?_⟩
    · intro r hr
      rw [List.mem_singleton.mp (List.mem_of_mem_filter hr)]
      rfl
    · intro hk
      rw [List.filter_cons, if_neg, List.filter_nil]
      rw [decide_eq_true_eq]
      show (s.queue ⟨s.queueend, hleft⟩).pid ≠ k.val
      rw [hnumbered]
      exact Nat.ne_of_gt hk
  · exact ⟨fun r hr => absurd hr List.not_mem_nil, fun _ => rfl⟩

theorem tickRecords_history {s : State} (hnumbered : Numbered s) (slot : Nat)
    (j k : Fin queueSize) :
    (s.tickRecords slot (s.queue j)).filter (fun r => r.pid = k.val) =
      if j = k then s.tickRecords slot (s.queue j) else [] := by
  split_ifs with hk
  · rw [List.filter_eq_self]
    intro r hr
    rw [decide_eq_true_eq, tickRecords_pid hr, hnumbered, hk]
  · rw [List.filter_eq_nil_iff]
    intro r hr
    rw [decide_eq_true_eq, tickRecords_pid hr, hnumbered]
    exact fun heq => hk (Fin.ext heq)

/-- The step of a slot adds to the history of its own job, and may load the next job. -/
theorem stepSlot_history {l : Logged} (hnumbered : Numbered l.state) (slot : Nat)
    (hactive : ∀ k, l.state.processes slot = some k → (l.state.queue k).active = true)
    (k : Fin queueSize) :
    ∃ loads, (∀ r ∈ loads, r.comment = .load) ∧ (k.val < l.state.queueend → loads = []) ∧
      (l.stepSlot slot).history k = l.history k ++
        (if l.state.processes slot = some k then l.state.tickRecords slot (l.state.queue k)
          else []) ++ loads := by
  have houtput := stepSlot_output l slot hactive
  cases hslot : l.state.processes slot with
  | none =>
      obtain ⟨hloads, hwaits⟩ := loadRecords_history hnumbered slot k
      refine ⟨_, hloads, hwaits, ?_⟩
      rw [Logged.history, houtput, hslot, List.filter_append, if_neg (by simp), List.append_nil]
      rfl
  | some j =>
      have hown : ((l.state.tickRecords slot (l.state.queue j)).filter fun r => r.pid = k.val) =
          if some j = some k then l.state.tickRecords slot (l.state.queue k) else [] := by
        rw [tickRecords_history hnumbered slot j k]
        by_cases hk : j = k
        · rw [hk]
          simp only [if_true]
        · simp only [hk, Option.some.injEq, if_false]
      simp only [hslot] at houtput
      rw [Logged.history, houtput, List.filter_append, List.filter_append, hown,
        ← List.append_assoc]
      cases hgoes : (processStep (l.state.queue j)).1 with
      | true => exact ⟨[], fun r hr => absurd hr List.not_mem_nil, fun _ => rfl, rfl⟩
      | false =>
          set unloaded := (l.state.setJob j (processStep (l.state.queue j)).2).processUnload j
            with hunloaded
          have hqueue : unloaded.queue = Function.update l.state.queue j
              (processStep (l.state.queue j)).2.unload := by
            rw [hunloaded, processUnload_queue, setJob_self]
            exact Function.update_idem ..
          have hqueueend : unloaded.queueend = l.state.queueend := processUnload_queueend _ j
          have hnumbered' := hnumbered.update hqueue (processStep_kept _).2.2
          obtain ⟨hloads, hwaits⟩ := loadRecords_history hnumbered' slot k
          rw [hqueueend] at hwaits
          exact ⟨_, hloads, hwaits, rfl⟩

/-! ### The records of one tick -/

/-- How far the loop over the slots has come with the histories. -/
structure RecordedTo (l : Logged) (n : Nat) (l' : Logged) : Prop where
  stepped : SteppedTo l.state n l'.state
  numbered : Numbered l'.state
  queueend_le : l.state.queueend ≤ l'.state.queueend
  sysclock : l'.state.sysclock = l.state.sysclock
  loaded : ∀ slot k, slot < n → l.state.processes slot = some k →
    l'.history k = l.history k ++ l.state.tickRecords slot (l.state.queue k)
  idle : ∀ k, (∀ slot, slot < n → l.state.processes slot ≠ some k) →
    ∃ loads, (∀ r ∈ loads, r.comment = .load) ∧ (k.val < l.state.queueend → loads = []) ∧
      l'.history k = l.history k ++ loads

theorem RecordedTo.stepSlot {l l' : Logged} {n : Nat} (hplaced : Placed procs jobs l.state)
    (h : RecordedTo l n l') : RecordedTo l (n + 1) (l'.stepSlot n) := by
  have hslot := h.stepped.processes n le_rfl
  have hstepped := h.stepped.stepSlot hplaced
  have hbefore : ∀ slot k, l.state.processes n = some k → slot < n →
      l.state.processes slot ≠ some k := by
    intro slot k hk hlt heq
    exact absurd (hplaced.one_slot slot n k heq hk) (Nat.ne_of_lt hlt)
  have hactive : ∀ k, l'.state.processes n = some k → (l'.state.queue k).active = true := by
    intro k hk
    rw [hslot] at hk
    rw [h.stepped.idle k fun slot => hbefore slot k hk]
    exact (hplaced.running n k hk).active
  have hhistory := stepSlot_history h.numbered n hactive
  rw [hslot] at hhistory
  refine ⟨?_, ?_, ?_, ?_, ?_, ?_⟩
  · rw [stepSlot_state]
    exact hstepped
  · rw [stepSlot_state]
    exact h.numbered.stepSlot n
  · rw [stepSlot_state]
    exact h.queueend_le.trans (stepSlot_move l'.state n).later.queueend_le
  · rw [stepSlot_state, stepSlot_sysclock]
    exact h.sysclock
  · intro slot k hlt hk
    have hleft := hplaced.loaded_lt slot k hk
    obtain ⟨loads, -, hnone, hnow⟩ := hhistory k
    rw [hnow, hnone (hleft.trans_le h.queueend_le), List.append_nil]
    rcases Nat.lt_succ_iff_lt_or_eq.mp hlt with hbefore' | rfl
    · rw [if_neg fun heq => hbefore slot k heq hbefore' hk, List.append_nil]
      exact h.loaded slot k hbefore' hk
    · obtain ⟨loads', -, hnone', hthen⟩ := h.idle k fun other => hbefore other k hk
      rw [if_pos hk, tickRecords_congr h.sysclock, h.stepped.idle k fun other => hbefore other k hk,
        hthen, hnone' hleft, List.append_nil]
  · intro k hidle
    obtain ⟨loads, hloads, hnone, hnow⟩ := hhistory k
    obtain ⟨loads', hloads', hnone', hthen⟩ := h.idle k fun slot hlt =>
      hidle slot (Nat.lt_succ_of_lt hlt)
    refine ⟨loads' ++ loads, ?_, ?_, ?_⟩
    · intro r hr
      rcases List.mem_append.mp hr with hr | hr
      · exact hloads' r hr
      · exact hloads r hr
    · intro hk
      rw [hnone' hk, hnone (hk.trans_le h.queueend_le), List.append_nil]
    · rw [hnow, if_neg (hidle n (Nat.lt_succ_self n)), List.append_nil, hthen, List.append_assoc]

theorem recordedTo_loop {l : Logged} (hplaced : Placed procs jobs l.state)
    (hnumbered : Numbered l.state) (n : Nat) : RecordedTo l n (loop Logged.stepSlot n l) := by
  refine loop_invariant (RecordedTo l) ⟨?_, hnumbered, le_rfl, rfl, ?_, ?_⟩ fun _ _ _ =>
    RecordedTo.stepSlot hplaced
  · exact steppedTo_loop hplaced 0
  · exact fun _ _ hlt => absurd hlt (Nat.not_lt_zero _)
  · exact fun k _ => ⟨[], fun r hr => absurd hr List.not_mem_nil, fun _ => rfl,
      (List.append_nil _).symm⟩

theorem agePage_output (l : Logged) (slot : Nat) (k : Fin queueSize) (page : Nat) :
    (l.agePage slot k page).output = l.output := rfl

theorem ageSlot_output (l : Logged) (slot : Nat) : (l.ageSlot slot).output = l.output := by
  unfold Logged.ageSlot
  split
  · rfl
  · split_ifs
    · exact loop_keeps Logged.output (fun l' page => agePage_output l' slot _ page) _ l
    · rfl

theorem allage_output (procs : Nat) (l : Logged) : (l.allage procs).output = l.output :=
  loop_keeps Logged.output ageSlot_output procs l

theorem callyou_output (pager : Pager) (procs : Nat) (l : pager.State × Logged) :
    (Logged.callyou pager procs l).2.output = l.2.output :=
  CallTree.run_keeps Logged.output (fun _ _ => rfl) _ l.2

/-- A tick writes into `output.csv` only while the jobs step. -/
theorem tick_output (pager : Pager) (procs : Nat) (l : pager.State × Logged) :
    (Logged.tick pager procs l).2.output = (l.2.allstep procs).output :=
  (callyou_output pager procs _).trans (allage_output procs _)

/-! ### Blocked time -/

/-- The records of a job account for what it has been charged as blocked. A flag that is set
belongs to the page of the program counter, and the open interval to the program counter. -/
structure Accounted (now : Int) (q : Process) (log : List OutputRecord) : Prop where
  wellFormed : WellFormed blockMarks log
  isOpen : isOpen blockMarks log = true ↔ q.Blocked
  flags : q.active = true → ∀ j, q.blocked j = true → j = q.page
  pc : ∀ a ∈ log.getLast?, blockMarks.opens a = true → a.pc = q.pc
  block : (q.block : Int) = closedTime blockMarks log + openTime blockMarks log now

variable {now : Int} {q : Process} {log : List OutputRecord}

theorem not_blocked_of_flags (hflags : q.active = true → ∀ j, q.blocked j = false) :
    ¬ q.Blocked := by
  intro hblocked
  rw [Process.Blocked, hflags hblocked.1] at hblocked
  cases hblocked.2

theorem Accounted.closed (h : Accounted now q log) (hfree : ¬ q.Blocked) :
    Intervals.isOpen blockMarks log = false :=
  Bool.eq_false_iff.mpr (h.isOpen.not.mpr hfree)

/-- Other records may follow while the job is not blocked. -/
theorem Accounted.append_plain (h : Accounted now q log) (hfree : ¬ q.Blocked)
    {more : List OutputRecord} (hplain : ∀ r ∈ more, blockMarks.Plain r) {q' : Process}
    (hflags : q'.active = true → ∀ j, q'.blocked j = false)
    (hblock : q'.block = q.block) (now' : Int) : Accounted now' q' (log ++ more) := by
  have hclosed := h.closed hfree
  obtain ⟨hwell, hstill, htime⟩ := Intervals.append_plain hplain h.wellFormed hclosed
  refine ⟨hwell, ?_, ?_, ?_, ?_⟩
  · rw [hstill]
    exact iff_of_false Bool.false_ne_true (not_blocked_of_flags hflags)
  · intro hactive j hj
    rw [hflags hactive] at hj
    cases hj
  · intro a ha hopens
    rw [opens_of_not_open hstill ha] at hopens
    cases hopens
  · rw [hblock, h.block, htime, openTime_of_not_open hclosed, openTime_of_not_open hstill]

/-! ### The records of one step -/

/-- The records that a compute tick adds after the page test. -/
def State.instructionRecords (s : State) (slot : Nat) (q : Process) : List OutputRecord :=
  (q.toControl.entries.map fun e => s.outputRecord slot q e.1 e.2) ++
    if (processStep q).1 then []
    else [s.outputRecord slot (processStep q).2 (processStep q).2.pc .unload]

theorem blockMarks_plain {r : OutputRecord} (hopens : r.comment ≠ .blocked)
    (hcloses : r.comment ≠ .unblocked) : blockMarks.Plain r :=
  ⟨decide_eq_false hopens, decide_eq_false hcloses⟩

theorem entries_plain {c : Control} {e : Int × Comment} (h : e ∈ c.entries) :
    e.2 ≠ .blocked ∧ e.2 ≠ .unblocked := by
  unfold Control.entries at h
  split at h
  · rw [List.mem_singleton.mp h]
    exact ⟨nofun, nofun⟩
  · split at h
    · unfold dobranchEntries at h
      split_ifs at h
      · cases h
      · simp only [List.mem_cons, List.not_mem_nil, or_false] at h
        rcases h with rfl | rfl <;> exact ⟨nofun, nofun⟩
      · cases h
    · split_ifs at h
      · simp only [List.mem_cons, List.not_mem_nil, or_false] at h
        rcases h with rfl | rfl <;> exact ⟨nofun, nofun⟩
      · cases h

/-- Branches, exits and unloading do not come between `blocked` and `unblocked`. -/
theorem instructionRecords_plain {s : State} {slot : Nat} {r : OutputRecord}
    (h : r ∈ s.instructionRecords slot q) : blockMarks.Plain r := by
  rcases List.mem_append.mp h with hentry | hunload
  · obtain ⟨e, he, rfl⟩ := List.mem_map.mp hentry
    obtain ⟨hopens, hcloses⟩ := entries_plain he
    exact blockMarks_plain hopens hcloses
  · split_ifs at hunload
    · cases hunload
    · rw [List.mem_singleton.mp hunload]
      exact blockMarks_plain nofun nofun

section Step

variable {s : State} (hactive : q.active = true) (slot : Nat)

include hactive

theorem tickRecords_blocked (hout : q.pages q.page ≠ 0) :
    s.tickRecords slot q =
      if q.blocked q.page then [] else [s.outputRecord slot q q.pc .blocked] := by
  rw [State.tickRecords, processStep_blocked hactive hout, if_pos rfl, Process.entries,
    if_neg (by simp [hactive]), if_pos hout, List.append_nil]
  split_ifs <;> rfl

theorem tickRecords_compute (hin : q.pages q.page = 0) :
    s.tickRecords slot q =
      (if q.blocked q.page then [s.outputRecord slot q q.pc .unblocked] else []) ++
        s.instructionRecords slot q := by
  rw [State.tickRecords, Process.entries, if_neg (by simp [hactive]), if_neg (not_not.mpr hin),
    List.map_append, List.append_assoc, State.instructionRecords]
  split_ifs <;> rfl

/-- A blocked tick opens an interval, unless one is open already. -/
theorem Accounted.step_blocked (h : Accounted s.sysclock q log) (hout : q.pages q.page ≠ 0) :
    Accounted (s.sysclock + 1) q.stepped (log ++ s.tickRecords slot q) := by
  have hnow : q.chargeBlock.Blocked := ⟨hactive, Function.update_self ..⟩
  have hflags : ∀ j, q.chargeBlock.blocked j = true → j = q.chargeBlock.page := by
    intro j hj
    by_cases hpage : j = q.page
    · exact hpage
    · have hj : Function.update q.blocked q.page true j = true := hj
      rw [Function.update_of_ne hpage] at hj
      exact h.flags hactive j hj
  have hblock : (q.chargeBlock.block : Int) = q.block + 1 := Nat.cast_succ q.block
  rw [tickRecords_blocked hactive slot hout, stepped_blocked hactive hout]
  split_ifs with hflag
  · -- The job was blocked before, and only the time goes on.
    have hopen := h.isOpen.mpr ⟨hactive, hflag⟩
    rw [List.append_nil]
    refine ⟨h.wellFormed, iff_of_true hopen hnow, fun _ => hflags, h.pc, ?_⟩
    rw [hblock, h.block, openTime_of_open hopen]
    omega
  · have hclosed := h.closed fun hblocked => hflag hblocked.2
    refine ⟨h.wellFormed.concat_of_not_open hclosed rfl, ?_, fun _ => hflags, ?_, ?_⟩
    · rw [isOpen_concat]
      exact iff_of_true rfl hnow
    · rw [List.getLast?_concat]
      intro a ha _
      rw [← Option.some.inj ha]
      rfl
    · rw [hblock, h.block, closedTime_concat, openTime_concat, openTime_of_not_open hclosed]
      simp [blockMarks, State.outputRecord]

theorem Accounted.chargeCompute_flags (h : Accounted now q log) (j : Nat) :
    q.chargeCompute.blocked j = false := by
  show Function.update q.blocked q.page false j = false
  by_cases hj : j = q.page
  · rw [hj, Function.update_self]
  · rw [Function.update_of_ne hj, Bool.eq_false_iff]
    exact fun hflag => hj (h.flags hactive j hflag)

/-- The page test of a compute tick closes the interval that is open. -/
theorem Accounted.unblock (h : Accounted s.sysclock q log) :
    Accounted s.sysclock q.chargeCompute
      (log ++ if q.blocked q.page then [s.outputRecord slot q q.pc .unblocked] else []) := by
  have hnone := h.chargeCompute_flags hactive
  have hfree : ¬ q.chargeCompute.Blocked := not_blocked_of_flags fun _ => hnone
  have hflags : q.chargeCompute.active = true → ∀ j, q.chargeCompute.blocked j = true →
      j = q.chargeCompute.page := by
    intro _ j hj
    rw [hnone] at hj
    cases hj
  split_ifs with hflag
  · have hopen := h.isOpen.mpr ⟨hactive, hflag⟩
    refine ⟨h.wellFormed.concat hopen h.pc, ?_, hflags, ?_, ?_⟩
    · rw [isOpen_concat]
      exact iff_of_false Bool.false_ne_true hfree
    · rw [List.getLast?_concat]
      intro a ha _
      rw [← Option.some.inj ha]
      rfl
    · rw [closedTime_concat, openTime_concat]
      exact h.block.trans (by simp [blockMarks, State.outputRecord])
  · rw [List.append_nil]
    refine ⟨h.wellFormed, ?_, hflags, h.pc, h.block⟩
    rw [h.isOpen]
    exact iff_of_false (fun hblocked => hflag hblocked.2) hfree

theorem Accounted.step_compute (h : Accounted s.sysclock q log) (hin : q.pages q.page = 0) :
    Accounted (s.sysclock + 1) q.stepped (log ++ s.tickRecords slot q) := by
  have hnone := h.chargeCompute_flags hactive
  have hflags : q.stepped.active = true → ∀ j, q.stepped.blocked j = false := by
    intro hstill
    cases hnext : q.toControl.next with
    | none =>
        rw [stepped_exit hactive hin hnext] at hstill
        cases hstill
    | some c =>
        rw [stepped_compute hactive hin hnext]
        exact hnone
  rw [tickRecords_compute hactive slot hin, ← List.append_assoc]
  exact (h.unblock hactive slot).append_plain (not_blocked_of_flags fun _ => hnone)
    (fun _ => instructionRecords_plain) hflags (stepped_block hactive hin) _

theorem Accounted.step (h : Accounted s.sysclock q log) :
    Accounted (s.sysclock + 1) q.stepped (log ++ s.tickRecords slot q) := by
  by_cases hin : q.pages q.page = 0
  · exact h.step_compute hactive slot hin
  · exact h.step_blocked hactive slot hin

end Step

/-- What happens to the pages does not matter. -/
theorem Accounted.of_pages (h : Accounted now q log) (pages : Nat → Int) :
    Accounted now { q with pages } log :=
  ⟨h.wellFormed, h.isOpen, h.flags, h.pc, h.block⟩

/-! ### The run -/

/-- Every job is accounted for. -/
structure AllAccounted (l : Logged) : Prop where
  numbered : Numbered l.state
  accounted : ∀ k, Accounted l.state.sysclock (l.state.queue k) (l.history k)

theorem load_plain {r : OutputRecord} (h : r.comment = .load) : blockMarks.Plain r :=
  blockMarks_plain (by rw [h]; nofun) (by rw [h]; nofun)

theorem allAccounted_tick {l : Logged} (h : AllAccounted l) (hplaced : Placed procs jobs l.state)
    (hstart : ∀ k j, (jobs k).blocked j = false) (pager : Pager) (p : pager.State) :
    AllAccounted (Logged.tick pager procs (p, l)).2 := by
  have hrecorded := recordedTo_loop hplaced h.numbered procs
  have hstate : tick pager procs (p, l.state) = ((Logged.tick pager procs (p, l)).1,
      (Logged.tick pager procs (p, l)).2.state) := tick_state pager procs (p, l)
  have hpaged : Paged (allstep procs l.state) (Logged.tick pager procs (p, l)).2.state := by
    have hpaged := paged_tick pager procs (p, l.state)
    rwa [hstate] at hpaged
  have hclock : (Logged.tick pager procs (p, l)).2.state.sysclock = l.state.sysclock + 1 := by
    have hclock := tick_sysclock pager procs (p, l.state)
    rwa [hstate] at hclock
  have hhistory : ∀ k, (Logged.tick pager procs (p, l)).2.history k =
      (loop Logged.stepSlot procs l).history k := by
    intro k
    rw [Logged.history, tick_output]
    rfl
  have hnumbered : Numbered (allstep procs l.state) := by
    rw [← allstep_state]
    exact hrecorded.numbered
  refine ⟨hpaged.numbered hnumbered, ?_⟩
  intro k
  obtain ⟨pages, hk⟩ := hpaged.queue k
  rw [hk, hhistory, hclock, Nat.cast_succ]
  apply Accounted.of_pages
  by_cases hslot : ∃ slot, l.state.processes slot = some k
  · obtain ⟨slot, hslot⟩ := hslot
    rw [allstep_queue_of_loaded hplaced hslot,
      hrecorded.loaded slot k (hplaced.slot_lt slot k hslot) hslot]
    exact (h.accounted k).step (hplaced.running slot k hslot).active slot
  · have hidle := not_exists.mp hslot
    obtain ⟨loads, hloads, -, hthen⟩ := hrecorded.idle k fun slot _ => hidle slot
    have hflags : (l.state.queue k).active = true → ∀ j, (l.state.queue k).blocked j = false := by
      intro hactive
      rcases hplaced.job_cases k with ⟨-, hwaits⟩ | ⟨slot, hslot, -⟩ | ⟨-, -, hended⟩
      · rw [hwaits]
        exact hstart k
      · exact absurd hslot (hidle slot)
      · rw [hended.active] at hactive
        cases hactive
    rw [allstep_queue_of_idle hplaced hidle, hthen]
    exact (h.accounted k).append_plain (not_blocked_of_flags hflags)
      (fun r hr => load_plain (hloads r hr)) hflags rfl _

variable {config : Config}

theorem startsLogged_accounted {l₀ : Logged} (h : config.StartsLogged l₀) : AllAccounted l₀ := by
  obtain ⟨fuel, jobs, hjobs, hqueue, -, hclock⟩ := start_boot (startsLogged_state h)
  have hloads : ∀ r ∈ l₀.output, r.comment = .load := by
    obtain ⟨fuel, hstart⟩ := h
    rw [Logged.allinit, Option.map_eq_some_iff] at hstart
    obtain ⟨queue, -, rfl⟩ := hstart
    refine loop_invariant (fun _ (l : Logged) => ∀ r ∈ l.output, r.comment = .load)
      (fun r hr => absurd hr List.not_mem_nil) ?_
    intro slot l _ hl r hr
    rcases List.mem_append.mp hr with hr | hr
    · exact hl r hr
    · split_ifs at hr
      · rw [List.mem_singleton.mp hr]
        rfl
      · cases hr
  refine ⟨fun k => by rw [hqueue, (initqueue_start hjobs k).2.2], ?_⟩
  intro k
  obtain ⟨hblock, hflags, -⟩ := initqueue_start hjobs k
  have hempty : Accounted 0 (jobs k) [] := by
    refine ⟨wellFormed_nil, ?_, ?_, ?_, ?_⟩
    · exact iff_of_false Bool.false_ne_true (not_blocked_of_flags fun _ => hflags)
    · intro _ j hj
      rw [hflags] at hj
      cases hj
    · intro a ha
      cases ha
    · rw [hblock]
      rfl
  have hplain : ∀ r ∈ l₀.history k, blockMarks.Plain r := fun r hr =>
    load_plain (hloads r (List.mem_of_mem_filter hr))
  rw [hqueue, hclock]
  exact hempty.append_plain (not_blocked_of_flags fun _ => hflags) hplain (fun _ => hflags) rfl 0

theorem loggedRun_accounted (pager : Pager) {l₀ : Logged} (h : config.StartsLogged l₀) (n : Nat) :
    AllAccounted (config.loggedRun pager l₀ n).2 := by
  obtain ⟨fuel, jobs, hjobs, hsched⟩ := run_scheduled pager (startsLogged_state h)
  induction n with
  | zero => exact startsLogged_accounted h
  | succ n ih =>
      have hplaced := (hsched n).toPlaced
      rw [← loggedRun_state] at hplaced
      rw [Config.loggedRun, Function.iterate_succ_apply']
      exact allAccounted_tick ih hplaced (fun k => (initqueue_start hjobs k).2.1) pager _

theorem opens_iff (r : OutputRecord) :
    blockMarks.opens r = true ↔ r.comment.text = "blocked" := by
  show decide (r.comment = .blocked) = true ↔ _
  cases r.comment <;> simp [Comment.text]

theorem closes_iff (r : OutputRecord) :
    blockMarks.closes r = true ↔ r.comment.text = "unblocked" := by
  show decide (r.comment = .unblocked) = true ↔ _
  cases r.comment <;> simp [Comment.text]

/-- **Blocked intervals account for the block score.** For every configuration and pager, after any
number of iterations: in the records of a job, `blocked` is followed at once by `unblocked` with the
same `pc` unless it is the last record, and `unblocked` comes only so; the block counter of the job
is the sum of the times between the two and, if the job is blocked now, of the time since its last
record, the open `blocked`. -/
theorem blocked_intervals (config : Config) (pager : Pager) (l₀ : Logged)
    (h : config.StartsLogged l₀) (n : Nat) (k : Fin queueSize) :
    let l := (config.loggedRun pager l₀ n).2
    let q := l.state.queue k
    let log := l.history k
    (∀ before a b after, log = before ++ a :: b :: after →
      (a.comment.text = "blocked" ↔ b.comment.text = "unblocked") ∧
      (a.comment.text = "blocked" → a.pc = b.pc)) ∧
    (∀ a after, log = a :: after → a.comment.text ≠ "unblocked") ∧
    (¬ q.Blocked → (∀ a ∈ log.getLast?, a.comment.text ≠ "blocked") ∧
      (q.block : Int) = closedTime blockMarks log) ∧
    (q.Blocked → ∃ a ∈ log.getLast?, a.comment.text = "blocked" ∧ a.pc = q.pc ∧
      (q.block : Int) = closedTime blockMarks log + (l.state.sysclock - a.time)) := by
  intro l q log
  have haccounted : Accounted l.state.sysclock q log := (loggedRun_accounted pager h n).accounted k
  refine ⟨?_, ?_, ?_, ?_⟩
  · intro before a b after hlog
    obtain ⟨hboth, hfits⟩ := List.isChain_iff_forall_rel_of_append_cons_cons.mp
      haccounted.wellFormed.follow hlog
    refine ⟨?_, fun hopens => hfits ((opens_iff a).mpr hopens)⟩
    rw [← opens_iff, hboth, closes_iff]
  · intro a after hlog
    have hfirst := haccounted.wellFormed.first a (by rw [hlog]; rfl)
    rw [Ne, ← closes_iff, hfirst]
    exact Bool.false_ne_true
  · intro hfree
    have hclosed : Intervals.isOpen blockMarks log = false :=
      Bool.eq_false_iff.mpr (haccounted.isOpen.not.mpr hfree)
    refine ⟨?_, ?_⟩
    · intro a ha
      rw [Ne, ← opens_iff, opens_of_not_open hclosed ha]
      exact Bool.false_ne_true
    · rw [haccounted.block, openTime_of_not_open hclosed, add_zero]
  · intro hblocked
    have hopen := haccounted.isOpen.mpr hblocked
    obtain ⟨a, ha, hopens, htime⟩ := exists_of_open hopen
    refine ⟨a, ha, (opens_iff a).mp hopens, haccounted.pc a ha hopens, ?_⟩
    rw [haccounted.block, htime]
    rfl

theorem blocked_intervals_alternating : ∃ l₀, alternatingConfig.StartsLogged l₀ ∧
    let l := (alternatingConfig.loggedRun eager l₀ 100).2
    ((l.state.queue 0).block : Int) = closedTime blockMarks (l.history 0) ∨
      ∃ a ∈ (l.history 0).getLast?, a.comment.text = "blocked" ∧
        ((l.state.queue 0).block : Int) =
          closedTime blockMarks (l.history 0) + (l.state.sysclock - a.time) := by
  obtain ⟨s₀, hstart⟩ := alternatingConfig_starts
  obtain ⟨l₀, hlogged, -⟩ := startsLogged_of_starts hstart
  obtain ⟨-, -, hfree, hblocked⟩ := blocked_intervals alternatingConfig eager l₀ hlogged 100 0
  refine ⟨l₀, hlogged, ?_⟩
  by_cases hnow : ((alternatingConfig.loggedRun eager l₀ 100).2.state.queue 0).Blocked
  · obtain ⟨a, ha, hopens, -, hblock⟩ := hblocked hnow
    exact Or.inr ⟨a, ha, hopens, hblock⟩
  · exact Or.inl (hfree hnow).2

end OperatingSystems.Simulator
