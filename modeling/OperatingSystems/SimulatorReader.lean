import OperatingSystems.SimulatorBlocked
import OperatingSystems.SimulatorTransfers

/-!
What can be read off `output.csv`. The jobs write a record only when something happens to them, and
yet the last record of a job, with the time that has gone by since, tells where the job is, its
program counter, and whether it is blocked.
-/

namespace OperatingSystems.Simulator

open Loop Intervals

/-! ### The reader of `output.csv` -/

/-- The program counter at a time after the record. A job that is not blocked goes on by one in each
tick; after a record of a jump, from the next tick on. -/
def OutputRecord.pcAt (r : OutputRecord) (now : Int) : Int :=
  match r.comment with
  | .unblocked => r.pc + (now - r.time)
  | .branchTo | .restart => r.pc + (now - r.time - 1)
  | _ => r.pc

/-- The branches of the program lead into it and do not stand at its end, so that `process_dobranch`
never sets the counter back without a record. Of an empty table this is asked of slot `0`, which
must be the one that the search finds. -/
structure Program.StaysInside (p : Program) : Prop where
  branches : ∀ b ∈ p.branches,
    0 ≤ b.whereto ∧ b.whereto < p.size ∧ 0 ≤ b.wherefrom + 1 ∧ b.wherefrom + 1 < p.size
  spare : p.branches.length = 0 → 0 ≤ (p.spare 0).whereto ∧ (p.spare 0).whereto < p.size ∧
    0 ≤ (p.spare 0).wherefrom + 1 ∧ (p.spare 0).wherefrom + 1 < p.size ∧
    (p.spare (-1)).wherefrom = (p.spare 0).wherefrom

instance (p : Program) : Decidable p.StaysInside :=
  decidable_of_iff _ ⟨fun h => ⟨h.1, h.2⟩, fun h => And.intro h.branches h.spare⟩

/-- The search finds a slot that has a context, and its branch stays inside. -/
theorem Program.StaysInside.found {p : Program} (h : p.StaysInside) {pc k : Int}
    (hfound : bisect (fun k => (p.branch k).wherefrom) pc 0 (p.branches.length - 1) = some k) :
    0 ≤ k ∧ 0 ≤ (p.branch k).whereto ∧ (p.branch k).whereto < p.size ∧
      0 ≤ pc + 1 ∧ pc + 1 < p.size := by
  by_cases hempty : p.branches = []
  · obtain ⟨hto, hsize, hlow, hhigh, hbefore⟩ := h.spare (List.length_eq_zero_iff.mpr hempty)
    rw [bisect_empty hempty] at hfound
    split_ifs at hfound with hfrom hfrom'
    · obtain rfl := Option.some.inj hfound
      rw [Program.branch_of_empty hempty, hfrom]
      exact ⟨le_rfl, hto, hsize, hlow, hhigh⟩
    · exact absurd (hfrom'.trans hbefore) hfrom
  · have hpos := List.length_pos_iff.mpr hempty
    obtain ⟨hmin, hmax, hkey⟩ := bisect_sound (by omega) hfound
    obtain ⟨hto, hsize, hlow, hhigh⟩ :=
      h.branches _ (Program.branch_mem_of_lt hmin (by omega : k < p.branches.length))
    rw [hkey] at hlow hhigh
    exact ⟨hmin, hto, hsize, hlow, hhigh⟩

/-- An instruction goes on by one and writes nothing, or its last record tells where it jumps. -/
theorem Control.entries_of_next {c d : Control} (hinside : c.program.StaysInside)
    (h : c.next = some d) :
    (c.entries = [] ∧ d.pc = c.pc + 1) ∨
      ∃ e, c.entries.getLast? = some e ∧ e.1 = d.pc ∧ (e.2 = .branchTo ∨ e.2 = .restart) := by
  unfold Control.next at h
  unfold Control.entries
  cases hexit : bisect c.program.exit c.pc 0 (c.program.exits.length - 1) with
  | some k =>
      simp only [hexit] at h
      cases h
  | none =>
      cases hfound : bisect (fun k => (c.program.branch k).wherefrom) c.pc 0
          (c.program.branches.length - 1) with
      | some k =>
          obtain ⟨hk, hto, hsize, hlow, hhigh⟩ := hinside.found hfound
          obtain ⟨k, rfl⟩ := Int.eq_ofNat_of_zero_le hk
          simp only [hexit, hfound, if_neg (by omega : ¬ (k : Int) < 0), Int.toNat_natCast] at h ⊢
          obtain rfl := Option.some.inj h
          unfold dobranchEntries processDobranch
          cases hdecision : (bcontextDecide (c.bcontexts k)).1 with
          | true =>
              refine Or.inr ⟨_, rfl, ?_, Or.inl rfl⟩
              simp only [hdecision, if_true]
              exact (if_neg (by omega)).symm
          | false =>
              refine Or.inl ⟨rfl, ?_⟩
              simp only [hdecision, Bool.false_eq_true, if_false]
              exact if_neg (by omega)
      | none =>
          simp only [hexit, hfound] at h ⊢
          obtain rfl := Option.some.inj h
          by_cases hout : c.pc + 1 < 0 ∨ c.pc + 1 > c.program.size
          · refine Or.inr ⟨(0, .restart), ?_, ?_, Or.inr rfl⟩
            · rw [if_pos hout]
              rfl
            · exact (if_pos hout).symm
          · exact Or.inl ⟨if_neg hout, if_neg hout⟩

/-! ### The history of a loaded job -/

/-- The record is made in a tick in which the job computes and goes on. -/
def Comment.runs : Comment → Bool
  | .unblocked | .branchTo | .restart => true
  | _ => false

theorem pcAt_succ {r : OutputRecord} (h : r.comment.runs = true) (now : Int) :
    r.pcAt (now + 1) = r.pcAt now + 1 := by
  unfold OutputRecord.pcAt
  cases hcomment : r.comment with
  | unblocked | branchTo | restart =>
      simp only
      omega
  | load | unload | blocked | branchFrom | exit | outOfRange => simp [hcomment, Comment.runs] at h

/-- A record of a loaded job that tells its slot and its program counter. -/
structure Tells (now : Int) (slot : Nat) (q : Process) (r : OutputRecord) : Prop where
  process : r.process = slot
  pc : r.pcAt now = q.pc
  kind : r.comment = .load ∨ r.comment = .blocked ∨ r.comment.runs = true

/-- The last record of a loaded job tells where it is; while it is the record of its loading, the
job does not have the page it needs. -/
def Told (now : Int) (slot : Nat) (q : Process) (log : List OutputRecord) : Prop :=
  ∃ r, log.getLast? = some r ∧ Tells now slot q r ∧ (r.comment = .load → q.pages q.page ≠ 0)

section Step

variable {s : State} {slot : Nat} {q : Process} {log : List OutputRecord}

theorem blocked_iff (haccounted : Accounted s.sysclock q log) (hactive : q.active = true)
    {r : OutputRecord} (hlast : log.getLast? = some r) :
    r.comment = .blocked ↔ q.blocked q.page = true := by
  have hopen := haccounted.isOpen
  rw [isOpen, hlast, Option.any_some, Process.Blocked, hactive] at hopen
  simpa [blockMarks] using hopen

/-- A blocked tick. -/
theorem Told.step_blocked (h : Told s.sysclock slot q log)
    (haccounted : Accounted s.sysclock q log) (hactive : q.active = true)
    (hout : q.pages q.page ≠ 0) :
    ∃ r, (log ++ s.tickRecords slot q).getLast? = some r ∧
      Tells (s.sysclock + 1) slot q.stepped r ∧ r.comment = .blocked := by
  obtain ⟨r, hlast, htells, -⟩ := h
  rw [tickRecords_blocked hactive slot hout, stepped_blocked hactive hout]
  split_ifs with hblocked
  · have hcomment := (blocked_iff haccounted hactive hlast).mpr hblocked
    refine ⟨r, by rw [List.append_nil, hlast], ⟨htells.process, ?_, Or.inr (Or.inl hcomment)⟩,
      hcomment⟩
    have hpc := htells.pc
    unfold OutputRecord.pcAt at hpc ⊢
    rw [hcomment] at hpc ⊢
    exact hpc
  · exact ⟨_, List.getLast?_concat, ⟨rfl, rfl, Or.inr (Or.inl rfl)⟩, rfl⟩

/-- The page test of a compute tick. -/
theorem Told.unblock (h : Told s.sysclock slot q log) (haccounted : Accounted s.sysclock q log)
    (hactive : q.active = true) (hin : q.pages q.page = 0) :
    ∃ r, (log ++ if q.blocked q.page then [s.outputRecord slot q q.pc .unblocked]
        else []).getLast? = some r ∧
      r.process = slot ∧ r.pcAt s.sysclock = q.pc ∧ r.comment.runs = true := by
  obtain ⟨r, hlast, htells, hload⟩ := h
  split_ifs with hblocked
  · refine ⟨_, List.getLast?_concat, rfl, ?_, rfl⟩
    show q.pc + ((s.sysclock : Int) - s.sysclock) = q.pc
    omega
  · refine ⟨r, by rw [List.append_nil, hlast], htells.process, htells.pc, ?_⟩
    rcases htells.kind with hfirst | hopens | hruns
    · exact absurd hin (hload hfirst)
    · exact absurd ((blocked_iff haccounted hactive hlast).mp hopens) hblocked
    · exact hruns

/-- A compute tick that is not the last. -/
theorem Told.step_compute (h : Told s.sysclock slot q log)
    (haccounted : Accounted s.sysclock q log) (hactive : q.active = true)
    (hin : q.pages q.page = 0) (hinside : q.program.StaysInside) {c : Control}
    (hnext : q.toControl.next = some c) :
    ∃ r, (log ++ s.tickRecords slot q).getLast? = some r ∧
      Tells (s.sysclock + 1) slot q.stepped r ∧ r.comment.runs = true := by
  obtain ⟨r, hlast, hprocess, hpc, hruns⟩ := h.unblock haccounted hactive hin
  have hgoes : (processStep q).1 = true := by rw [processStep_compute hactive hin hnext]
  rw [tickRecords_compute hactive slot hin, ← List.append_assoc, State.instructionRecords, hgoes,
    if_pos rfl, List.append_nil, stepped_compute hactive hin hnext]
  rcases Control.entries_of_next hinside hnext with ⟨hnone, hsucc⟩ | ⟨e, he, hto, hjump⟩
  · rw [hnone, List.map_nil, List.append_nil]
    refine ⟨r, hlast, ⟨hprocess, ?_, Or.inr (Or.inr hruns)⟩, hruns⟩
    rw [pcAt_succ hruns, hpc]
    exact hsucc.symm
  · have hruns' : e.2.runs = true := by rcases hjump with h | h <;> rw [h] <;> rfl
    refine ⟨s.outputRecord slot q e.1 e.2, ?_, ⟨rfl, ?_, Or.inr (Or.inr hruns')⟩, hruns'⟩
    · rw [List.getLast?_append, List.getLast?_map, he]
      rfl
    · show OutputRecord.pcAt _ _ = c.pc
      rw [← hto]
      unfold OutputRecord.pcAt
      rcases hjump with h | h <;>
      · simp only [State.outputRecord, h]
        omega

/-- A tick of a loaded job: the last record tells where it is now. A job that goes on has a record
that is not that of its loading. -/
theorem Told.step (h : Told s.sysclock slot q log) (haccounted : Accounted s.sysclock q log)
    (hactive : q.active = true) (hinside : q.program.StaysInside)
    (hgoes : (processStep q).1 = true) :
    ∃ r, (log ++ s.tickRecords slot q).getLast? = some r ∧
      Tells (s.sysclock + 1) slot q.stepped r ∧ r.comment ≠ .load := by
  by_cases hin : q.pages q.page = 0
  · cases hnext : q.toControl.next with
    | none =>
        rw [processStep_exit hactive hin hnext] at hgoes
        cases hgoes
    | some c =>
        obtain ⟨r, hlast, htells, hruns⟩ := h.step_compute haccounted hactive hin hinside hnext
        refine ⟨r, hlast, htells, fun hload => ?_⟩
        rw [hload] at hruns
        cases hruns
  · obtain ⟨r, hlast, htells, hblocked⟩ := h.step_blocked haccounted hactive hin
    refine ⟨r, hlast, htells, fun hload => ?_⟩
    rw [hload] at hblocked
    cases hblocked

theorem of_ends (hactive : q.active = true) (hends : (processStep q).1 = false) :
    q.pages q.page = 0 ∧ q.toControl.next = none := by
  by_cases hin : q.pages q.page = 0
  · refine ⟨hin, ?_⟩
    cases hnext : q.toControl.next with
    | none => rfl
    | some c =>
        rw [processStep_compute hactive hin hnext] at hends
        cases hends
  · rw [processStep_blocked hactive hin] at hends
    cases hends

/-- The last tick of a job. -/
theorem tickRecords_last (hends : (processStep q).1 = false) :
    ∃ r, (log ++ s.tickRecords slot q).getLast? = some r ∧ r.comment = .unload := by
  refine ⟨s.outputRecord slot (processStep q).2 (processStep q).2.pc .unload, ?_, rfl⟩
  rw [State.tickRecords, hends, if_neg Bool.false_ne_true, ← List.append_assoc]
  exact List.getLast?_concat

end Step

/-! ### The loop over the slots -/

/-- How far the loop over the slots has come. The records of the jobs in the slots before tell where
they are in the next tick, the records of the others where they are in this one; a job that waits
has no record, and the last record of one that has left its slot is that of its unloading. -/
structure ToldTo (procs : Nat) (jobs : Fin queueSize → Process) (n : Nat) (l : Logged) : Prop where
  placed : Placed procs jobs l.state
  numbered : Numbered l.state
  before : ∀ slot k, slot < n → l.state.processes slot = some k →
    ∃ r, (l.history k).getLast? = some r ∧
      Tells (l.state.sysclock + 1) slot (l.state.queue k) r ∧
      (r.comment = .load → l.state.queue k = jobs k)
  after : ∀ slot k, n ≤ slot → l.state.processes slot = some k →
    Told l.state.sysclock slot (l.state.queue k) (l.history k) ∧
      Accounted l.state.sysclock (l.state.queue k) (l.history k)
  waiting : ∀ k : Fin queueSize, l.state.queueend ≤ k.val → l.history k = []
  left : ∀ k, l.state.Left k → ∃ r, (l.history k).getLast? = some r ∧ r.comment = .unload

theorem reload_history {l : Logged} (hnumbered : Numbered l.state) (slot : Nat)
    (k : Fin queueSize) :
    (l.reload slot).history k = l.history k ++
      if l.state.queueend = k.val then
        [l.state.outputRecord slot (l.state.queue k) (l.state.queue k).pc .load]
      else [] := by
  rw [Logged.history, Logged.reload, List.filter_append, Logged.history]
  congr 1
  split_ifs with hleft hk hk
  · obtain rfl : k = ⟨l.state.queueend, hleft⟩ := Fin.ext hk.symm
    exact List.filter_cons_of_pos (decide_eq_true (hnumbered _))
  · refine List.filter_cons_of_neg fun hpid => hk ?_
    rw [decide_eq_true_eq] at hpid
    exact (hnumbered ⟨l.state.queueend, hleft⟩).symm.trans hpid
  · exact absurd (hk ▸ k.isLt) hleft
  · rfl

theorem vacate_processes {s : State} {slot other : Nat} {k : Fin queueSize} :
    (s.vacate slot).processes other = some k ↔ other ≠ slot ∧ s.processes other = some k := by
  show Function.update s.processes slot none other = some k ↔ _
  by_cases hother : other = slot
  · simp [hother]
  · rw [Function.update_of_ne hother]
    exact (and_iff_right hother).symm

theorem reload_head {s : State} {slot : Nat} {k : Fin queueSize} (h : s.queueend = k.val) :
    (s.reload slot).processes slot = some k ∧ (s.reload slot).queueend = k.val + 1 := by
  have hleft : s.queueend < queueSize := h ▸ k.isLt
  rw [State.reload, dif_pos hleft]
  refine ⟨?_, congrArg Nat.succ h⟩
  simp only [Function.update_self, Option.some.injEq]
  exact Fin.ext h

theorem reload_queueend_le (s : State) (slot : Nat) :
    (s.reload slot).queueend ≤ s.queueend + 1 := by
  unfold State.reload
  split_ifs
  · exact le_rfl
  · exact Nat.le_succ _

variable {procs : Nat} {jobs : Fin queueSize → Process} {n : Nat} {l : Logged}

/-- The slot is filled again. -/
theorem ToldTo.reload (h : ToldTo procs jobs n { l with state := l.state.vacate n })
    (hfresh : ∀ k, (jobs k).Running (jobs k)) (hn : n < procs) :
    ToldTo procs jobs (n + 1) (l.reload n) := by
  have hnumbered : Numbered l.state := h.numbered
  have hqueue : ∀ k, (l.reload n).state.queue k = l.state.queue k := fun k =>
    congrFun (reload_queue l.state n) k
  have hclock : (l.reload n).state.sysclock = l.state.sysclock := reload_sysclock l.state n
  have hhistory : ∀ k : Fin queueSize, l.state.queueend ≠ k.val →
      (l.reload n).history k = l.history k := by
    intro k hk
    rw [reload_history hnumbered, if_neg hk, List.append_nil]
  have hother : ∀ slot k, slot ≠ n → (l.reload n).state.processes slot = some k →
      (l.state.vacate n).processes slot = some k ∧ l.state.queueend ≠ k.val := by
    intro slot k hne hslot
    have hbefore : (l.state.vacate n).processes slot = some k :=
      vacate_processes.mpr ⟨hne, (reload_processes_of_ne l.state hne).symm.trans hslot⟩
    exact ⟨hbefore, (h.placed.loaded_lt slot k hbefore).ne'⟩
  have hlater := (later_reload l.state n).queueend_le
  refine ⟨?_, ?_, ?_, ?_, ?_, ?_⟩
  · rw [show (l.reload n).state = _ from reload_eq l.state n]
    exact h.placed.loadNext hfresh hn (Function.update_self ..)
  · intro k
    rw [hqueue]
    exact h.numbered k
  · intro slot k hlt hslot
    rw [hqueue, hclock]
    by_cases hsame : slot = n
    · subst hsame
      obtain ⟨hleft, rfl⟩ := reload_processes_self hslot
      rw [reload_history hnumbered, if_pos rfl]
      exact ⟨_, List.getLast?_concat, ⟨rfl, rfl, Or.inl rfl⟩, fun _ => h.placed.waiting _ le_rfl⟩
    · obtain ⟨hbefore, hne⟩ := hother slot k hsame hslot
      rw [hhistory k hne]
      exact h.before slot k (by omega) hbefore
  · intro slot k hle hslot
    obtain ⟨hbefore, hne⟩ := hother slot k (by omega) hslot
    rw [hqueue, hclock, hhistory k hne]
    exact h.after slot k (by omega) hbefore
  · intro k hk
    by_cases hhead : l.state.queueend = k.val
    · have hnext := (@reload_head l.state n k hhead).2
      rw [show (l.reload n).state.queueend = _ from hnext] at hk
      omega
    · rw [hhistory k hhead]
      exact h.waiting k (hlater.trans hk)
  · intro k hleft
    obtain ⟨hlt, hidle⟩ := hleft
    by_cases hhead : l.state.queueend = k.val
    · exact absurd (@reload_head l.state n k hhead).1 (hidle n)
    · rw [hhistory k hhead]
      refine h.left k ⟨?_, ?_⟩
      · have hbound : k.val < l.state.queueend + 1 := hlt.trans_le (reload_queueend_le l.state n)
        exact lt_of_le_of_ne (Nat.le_of_lt_succ hbound) fun heq => hhead heq.symm
      · intro slot hslot
        obtain ⟨hne, hbefore⟩ := vacate_processes.mp hslot
        exact hidle slot ((reload_processes_of_ne l.state hne).trans hbefore)

section Loaded

variable {j : Fin queueSize}

theorem history_of_output {l' : Logged} (hnumbered : Numbered l.state)
    (houtput : l'.output = l.output ++ l.state.tickRecords n (l.state.queue j))
    (k : Fin queueSize) :
    l'.history k =
      l.history k ++ if j = k then l.state.tickRecords n (l.state.queue j) else [] := by
  rw [Logged.history, houtput, List.filter_append, tickRecords_history hnumbered]
  rfl

/-- The job of the slot goes on. -/
theorem ToldTo.goesOn (h : ToldTo procs jobs n l) (hn : n < procs)
    (hfresh : ∀ k, (jobs k).Running (jobs k)) (hinside : ∀ k, (jobs k).program.StaysInside)
    (hslot : l.state.processes n = some j) (hgoes : (processStep (l.state.queue j)).1 = true) :
    ToldTo procs jobs (n + 1) (l.processStep n j).2 := by
  have hrunning := h.placed.running n j hslot
  have hprogram : (l.state.queue j).program = (jobs j).program := by
    rw [show (l.state.queue j).program = (l.state.queue j).toControl.program from rfl,
      hrunning.control, Control.course_program]
  have hstate : (l.processStep n j).2.state = l.state.stepSlot n := by
    simp only [State.stepSlot, hslot, hgoes, if_true]
    rfl
  have hqueue : (l.processStep n j).2.state.queue =
      Function.update l.state.queue j (l.state.queue j).stepped := by
    rw [hstate, stepSlot_queue, hslot]
  have houtput : (l.processStep n j).2.output =
      l.output ++ l.state.tickRecords n (l.state.queue j) := by
    rw [State.tickRecords, hgoes, if_pos rfl, List.append_nil]
    rfl
  have hhistory := history_of_output h.numbered houtput
  obtain ⟨htold, haccounted⟩ := h.after n j le_rfl hslot
  refine ⟨?_, ?_, ?_, ?_, ?_, ?_⟩
  · rw [hstate]
    exact (stepSlot_move l.state n).placed h.placed hfresh hn
  · exact h.numbered.update hqueue (stepped_pid _)
  · intro slot k hlt hk
    rw [hqueue, hhistory]
    by_cases hj : j = k
    · subst hj
      obtain rfl := h.placed.one_slot slot n j hk hslot
      obtain ⟨r, hlast, htells, hnot⟩ :=
        htold.step haccounted hrunning.active (hprogram ▸ hinside j) hgoes
      rw [if_pos rfl, Function.update_self]
      exact ⟨r, hlast, htells, fun hload => absurd hload hnot⟩
    · have hne : slot ≠ n := by
        rintro rfl
        exact hj (Option.some.inj (hslot.symm.trans hk))
      rw [if_neg hj, List.append_nil, Function.update_of_ne (Ne.symm hj)]
      exact h.before slot k (by omega) hk
  · intro slot k hle hk
    have hj : j ≠ k := by
      rintro rfl
      have hsame := h.placed.one_slot slot n j hk hslot
      omega
    rw [hqueue, hhistory, if_neg hj, List.append_nil, Function.update_of_ne hj.symm]
    exact h.after slot k (by omega) hk
  · intro k hk
    have hj : j ≠ k := by
      rintro rfl
      exact absurd (h.placed.loaded_lt n j hslot) (not_lt.mpr hk)
    rw [hhistory, if_neg hj, List.append_nil]
    exact h.waiting k hk
  · intro k hleft
    have hj : j ≠ k := fun hj => hleft.2 n (hj ▸ hslot)
    rw [hhistory, if_neg hj, List.append_nil]
    exact h.left k hleft

/-- The job of the slot ends and is unloaded. -/
theorem ToldTo.ends (h : ToldTo procs jobs n l) (hslot : l.state.processes n = some j)
    (hends : (processStep (l.state.queue j)).1 = false) :
    let l' := (l.processStep n j).2.processUnload n j
    ToldTo procs jobs n { l' with state := l'.state.vacate n } := by
  intro l'
  have hqueue : l'.state.queue = Function.update l.state.queue j
      (processStep (l.state.queue j)).2.unload := by
    rw [show l'.state = (l.state.setJob j (processStep (l.state.queue j)).2).processUnload j
      from rfl, processUnload_queue, setJob_self]
    exact Function.update_idem ..
  have hprocesses : l'.state.processes = l.state.processes := processUnload_processes _ j
  have hclock : l'.state.sysclock = l.state.sysclock := processUnload_sysclock _ j
  have hqueueend : l'.state.queueend = l.state.queueend := processUnload_queueend _ j
  have houtput : l'.output = l.output ++ l.state.tickRecords n (l.state.queue j) := by
    rw [State.tickRecords, hends, if_neg Bool.false_ne_true, ← List.append_assoc]
    simp only [l', Logged.processUnload, Logged.processStep, setJob_self]
    rfl
  have hhistory := history_of_output h.numbered houtput
  have hother : ∀ slot k, (l'.state.vacate n).processes slot = some k →
      slot ≠ n ∧ l.state.processes slot = some k ∧ j ≠ k := by
    intro slot k hk
    rw [vacate_processes, hprocesses] at hk
    refine ⟨hk.1, hk.2, ?_⟩
    rintro rfl
    exact hk.1 (h.placed.one_slot slot n j hk.2 hslot)
  refine ⟨?_, ?_, ?_, ?_, ?_, ?_⟩
  · obtain ⟨avail, pages, blocked, hunload⟩ :=
      processUnload_eq (l.state.setJob j (processStep (l.state.queue j)).2) j
    have hrunning := h.placed.running n j hslot
    obtain ⟨hin, hnext⟩ := of_ends hrunning.active hends
    show Placed procs jobs (((l.state.setJob j (processStep (l.state.queue j)).2).processUnload
      j).vacate n)
    rw [hunload, setJob_self, setJob_avail_setJob]
    apply h.placed.retire hslot
    rw [processStep_exit hrunning.active hin hnext]
    exact hrunning.ended hnext
  · exact h.numbered.update hqueue (processStep_kept _).2.2
  · intro slot k hlt hk
    obtain ⟨-, hbefore, hj⟩ := hother slot k hk
    show ∃ r, (l'.history k).getLast? = some r ∧
      Tells (l'.state.sysclock + 1) slot (l'.state.queue k) r ∧
      (r.comment = .load → l'.state.queue k = jobs k)
    rw [hqueue, hclock, hhistory, if_neg hj, List.append_nil, Function.update_of_ne hj.symm]
    exact h.before slot k hlt hbefore
  · intro slot k hle hk
    obtain ⟨-, hbefore, hj⟩ := hother slot k hk
    show Told l'.state.sysclock slot (l'.state.queue k) (l'.history k) ∧
      Accounted l'.state.sysclock (l'.state.queue k) (l'.history k)
    rw [hqueue, hclock, hhistory, if_neg hj, List.append_nil, Function.update_of_ne hj.symm]
    exact h.after slot k hle hbefore
  · intro k hk
    have hk : l.state.queueend ≤ k.val := hqueueend ▸ hk
    have hj : j ≠ k := by
      rintro rfl
      exact absurd (h.placed.loaded_lt n j hslot) (not_lt.mpr hk)
    show l'.history k = []
    rw [hhistory, if_neg hj, List.append_nil]
    exact h.waiting k hk
  · rintro k ⟨hlt, hidle⟩
    show ∃ r, (l'.history k).getLast? = some r ∧ r.comment = .unload
    rw [hhistory]
    by_cases hj : j = k
    · subst hj
      rw [if_pos rfl]
      exact tickRecords_last hends
    · rw [if_neg hj, List.append_nil]
      refine h.left k ⟨hqueueend ▸ hlt, fun slot hk => hidle slot ?_⟩
      refine vacate_processes.mpr ⟨?_, (congrFun hprocesses slot).trans hk⟩
      rintro rfl
      exact hj (Option.some.inj (hslot.symm.trans hk))

end Loaded

theorem ToldTo.stepSlot (h : ToldTo procs jobs n l) (hn : n < procs)
    (hfresh : ∀ k, (jobs k).Running (jobs k)) (hinside : ∀ k, (jobs k).program.StaysInside) :
    ToldTo procs jobs (n + 1) (l.stepSlot n) := by
  unfold Logged.stepSlot
  cases hslot : l.state.processes n with
  | none =>
      apply ToldTo.reload _ hfresh hn
      rwa [vacate_of_none hslot]
  | some j =>
      have hstill : ((l.processStep n j).2.state.queue j).active = true := by
        show ((l.state.setJob j (processStep (l.state.queue j)).2).queue j).active = true
        rw [setJob_self, (processStep_kept _).2.1, (h.placed.running n j hslot).active]
      simp only [hstill, if_true]
      split_ifs with hgoes
      · exact h.goesOn hn hfresh hinside hslot hgoes
      · exact (h.ends hslot (Bool.eq_false_iff.mpr hgoes)).reload hfresh hn

/-! ### The run -/

/-- The records of all jobs tell where they are. -/
structure AllTold (l : Logged) : Prop where
  loaded : ∀ slot k, l.state.processes slot = some k →
    Told l.state.sysclock slot (l.state.queue k) (l.history k)
  waiting : ∀ k : Fin queueSize, l.state.queueend ≤ k.val → l.history k = []
  left : ∀ k, l.state.Left k → ∃ r, (l.history k).getLast? = some r ∧ r.comment = .unload

theorem AllTold.toldTo (h : AllTold l) (hplaced : Placed procs jobs l.state)
    (haccounted : AllAccounted l) : ToldTo procs jobs 0 l where
  placed := hplaced
  numbered := haccounted.numbered
  before _ _ hlt := absurd hlt (Nat.not_lt_zero _)
  after slot k _ hslot := ⟨h.loaded slot k hslot, haccounted.accounted k⟩
  waiting := h.waiting
  left := h.left

variable {config : Config} {pager : Pager}

/-- A job that has just been loaded does not have the page it needs at the end of the tick. -/
theorem run_succ_fresh {s₀ : State} (h : config.Starts s₀) {k : Fin queueSize} {q : Process}
    {p : Program} {kind : Fin programCount} (hq : q.Fresh p kind)
    (hk : (allstep config.procs (config.run pager s₀ n).2).queue k = q) :
    ((config.run pager s₀ (n + 1)).2.queue k).pages 0 ≠ 0 := by
  have hwait := pageWait_pos
  have hstep : (allstep config.procs (config.run pager s₀ n).2).pool.cell (k, 0) =
      -pageWait - 1 := by
    show ((allstep config.procs (config.run pager s₀ n).2).queue k).pages 0 = -pageWait - 1
    rw [hk, hq.pages]
  have hshown := (aged_allage (run_reaches pager h n).allstep).cell (k, 0)
  rw [hstep, Frames.ageCell, if_pos (Or.inr (by omega))] at hshown
  have hserved := (run_succ_requested pager n).2 (shown_reaches pager h n).npages
  have hcell : Frames.Shifted pageWait (-pageWait - 1)
      (((config.run pager s₀ (n + 1)).2.queue k).pages 0) := hshown ▸ hserved.cell (k, 0)
  unfold Frames.Shifted at hcell
  omega

/-- A tick of the run. -/
theorem AllTold.succ {l₀ : Logged} (h : AllTold (config.loggedRun pager l₀ n).2)
    (hinside : ∀ kind, (config.table kind).StaysInside) (hstart : config.StartsLogged l₀) :
    AllTold (config.loggedRun pager l₀ (n + 1)).2 := by
  have hstart' := startsLogged_state hstart
  obtain ⟨fuel, jobs, hjobs, hsched⟩ := run_scheduled pager hstart'
  have hfresh := initqueue_fresh hjobs
  have hprograms : ∀ k, (jobs k).program.StaysInside := by
    intro k
    rw [(hfresh k).program]
    exact hinside _
  have hrun : (config.loggedRun pager l₀ n).2.state = (config.run pager l₀.state n).2 :=
    congrArg Prod.snd (loggedRun_state pager l₀ n)
  have hthen : (config.loggedRun pager l₀ (n + 1)).2.state =
      (config.run pager l₀.state (n + 1)).2 :=
    congrArg Prod.snd (loggedRun_state pager l₀ (n + 1))
  have haccounted := loggedRun_accounted pager hstart n
  set l := (config.loggedRun pager l₀ n).2
  set l' := (config.loggedRun pager l₀ (n + 1)).2 with hl'
  have hplaced : Placed config.procs jobs l.state := hrun ▸ (hsched n).toPlaced
  have hloop : ToldTo config.procs jobs config.procs (l.allstep config.procs) :=
    loop_invariant (ToldTo config.procs jobs) (h.toldTo hplaced haccounted) fun _ _ hi htold =>
      htold.stepSlot hi (fun k => (hfresh k).running) hprograms
  have hstepped : (l.allstep config.procs).state = allstep config.procs l.state :=
    allstep_state config.procs l
  have hhistory : ∀ k, l'.history k = (l.allstep config.procs).history k := by
    intro k
    rw [Logged.history, hl', Config.loggedRun, Function.iterate_succ_apply', tick_output]
    rfl
  have hpaged : Paged (l.allstep config.procs).state l'.state := by
    rw [hstepped, hthen, hrun, run_succ]
    exact paged_tick pager config.procs _
  have hclock : l'.state.sysclock = (l.allstep config.procs).state.sysclock + 1 := by
    rw [hstepped, allstep_sysclock, hthen, hrun, run_sysclock pager hstart',
      run_sysclock pager hstart']
  refine ⟨?_, ?_, ?_⟩
  · intro slot k hslot
    rw [hpaged.processes] at hslot
    obtain ⟨r, hlast, htells, hjob⟩ :=
      hloop.before slot k (hloop.placed.slot_lt slot k hslot) hslot
    obtain ⟨pages, hk⟩ := hpaged.queue k
    rw [hhistory, hclock, Nat.cast_succ]
    refine ⟨r, hlast, ⟨htells.process, ?_, htells.kind⟩, ?_⟩
    · rw [htells.pc, hk]
    · intro hload
      have hjob := hjob hload
      have hpage : (l'.state.queue k).page = 0 := by
        rw [hk, hjob, Process.page, (hfresh k).pc]
        rfl
      rw [hpage, hthen]
      rw [hstepped, hrun] at hjob
      exact run_succ_fresh hstart' (hfresh k) hjob
  · intro k hk
    rw [hpaged.queueend] at hk
    rw [hhistory]
    exact hloop.waiting k hk
  · rintro k ⟨hlt, hidle⟩
    rw [hpaged.queueend] at hlt
    rw [hpaged.processes] at hidle
    rw [hhistory]
    exact hloop.left k ⟨hlt, hidle⟩

end OperatingSystems.Simulator
