import OperatingSystems.SimulatorProgress

/-!
A step of all slots as one job sees it. What happens to a job depends on the job alone: the slots
do not reach into each other's jobs, so a loaded job makes exactly one step, by itself, and a job
that is in no slot stays as it is.
-/

namespace OperatingSystems.Simulator

open Loop Runs Frames

/-! ### The step of one job -/

/-- The job without its first `n` pages. -/
def Process.release (q : Process) (n : Nat) : Process :=
  { q with
    pages := fun j => if j < n ∧ q.pages j ≥ -pageWait then -pageWait - 1 else q.pages j
    blocked := fun j => if j < n ∧ q.pages j ≥ -pageWait then true else q.blocked j }

/-- What `process_unload` makes of the job. -/
def Process.unload (q : Process) : Process := { q.release q.npages with active := false }

/-- What `allstep` makes of a loaded job. -/
def Process.stepped (q : Process) : Process :=
  if (processStep q).1 then (processStep q).2
  else if (processStep q).2.active then (processStep q).2.unload
  else (processStep q).2

section Step

variable {q : Process} (hactive : q.active = true)

include hactive

theorem stepped_blocked (hout : q.pages q.page ≠ 0) : q.stepped = q.chargeBlock := by
  simp only [Process.stepped, processStep_blocked hactive hout, if_true]

theorem stepped_compute {c : Control} (hin : q.pages q.page = 0)
    (hnext : q.toControl.next = some c) :
    q.stepped = { q.chargeCompute with toControl := c } := by
  simp only [Process.stepped, processStep_compute hactive hin hnext, if_true]

theorem stepped_exit (hin : q.pages q.page = 0) (hnext : q.toControl.next = none) :
    q.stepped = q.chargeCompute.unload := by
  have hstill : q.chargeCompute.active = true := hactive
  simp only [Process.stepped, processStep_exit hactive hin hnext, hstill, Bool.false_eq_true,
    if_false, if_true]

/-- A job on its page is not blocked. -/
theorem stepped_block (hin : q.pages q.page = 0) : q.stepped.block = q.block := by
  cases hnext : q.toControl.next with
  | none =>
      rw [stepped_exit hactive hin hnext]
      rfl
  | some c =>
      rw [stepped_compute hactive hin hnext]
      rfl

/-- A job that does not end in its step keeps its pages. -/
theorem stepped_pages (hstill : q.stepped.active = true) : q.stepped.pages = q.pages := by
  by_cases hin : q.pages q.page = 0
  · cases hnext : q.toControl.next with
    | none =>
        rw [stepped_exit hactive hin hnext] at hstill
        cases hstill
    | some c =>
        rw [stepped_compute hactive hin hnext]
        rfl
  · rw [stepped_blocked hactive hin]
    rfl

end Step

theorem release_zero (q : Process) : q.release 0 = q := by
  simp [Process.release]

theorem release_pages_self (q : Process) (n : Nat) : (q.release n).pages n = q.pages n := by
  simp [Process.release]

theorem release_succ (q : Process) (n : Nat) :
    q.release (n + 1) =
      if q.pages n ≥ -pageWait then
        { q.release n with
          pages := Function.update (q.release n).pages n (-pageWait - 1)
          blocked := Function.update (q.release n).blocked n true }
      else q.release n := by
  have hsame : ∀ j, j ≠ n → (j < n + 1 ↔ j < n) := fun j hj => by omega
  split_ifs with hheld
  · simp only [Process.release, Process.mk.injEq, true_and]
    refine ⟨?_, ?_, trivial⟩ <;>
    · funext j
      by_cases hj : j = n
      · simp [hj, hheld]
      · simp [hj, hsame j hj]
  · simp only [Process.release, Process.mk.injEq, true_and]
    refine ⟨?_, ?_, trivial⟩ <;>
    · funext j
      by_cases hj : j = n
      · simp [hj, hheld]
      · simp [hsame j hj]

theorem processUnload_queue (s : State) (k : Fin queueSize) :
    (s.processUnload k).queue = Function.update s.queue k (s.queue k).unload := by
  have hrelease : ∀ n, (loop (fun s page => s.unloadPage k page) n s).queue =
      Function.update s.queue k ((s.queue k).release n) := by
    intro n
    induction n with
    | zero => rw [loop_zero, release_zero, Function.update_eq_self]
    | succ n ih =>
        rw [loop_succ, release_succ]
        generalize loop (fun s page => s.unloadPage k page) n s = t at ih ⊢
        have hqueue : t.queue k = (s.queue k).release n := by
          rw [ih, Function.update_self]
        simp only [State.unloadPage, hqueue, release_pages_self]
        split_ifs
        · simp only [State.setJob, ih, Function.update_idem]
        · exact ih
  simp only [State.processUnload, State.setJob, hrelease, Function.update_idem,
    Function.update_self, Process.unload]

/-- The step of a slot changes its own job only. -/
theorem stepSlot_queue (s : State) (slot : Nat) :
    (s.stepSlot slot).queue =
      match s.processes slot with
      | none => s.queue
      | some k => Function.update s.queue k (s.queue k).stepped := by
  unfold State.stepSlot
  cases hslot : s.processes slot with
  | none => exact reload_queue s slot
  | some k =>
      simp only [Process.stepped, setJob_self]
      split_ifs
      · rfl
      · rw [reload_queue, processUnload_queue, setJob_self]
        exact Function.update_idem ..
      · rw [reload_queue]
        rfl

theorem reload_processes_of_ne (s : State) {slot other : Nat} (hne : other ≠ slot) :
    (s.reload slot).processes other = s.processes other := by
  unfold State.reload
  split_ifs <;> simp only [Function.update_of_ne hne]

/-- A slot that is filled again holds the next job of the queue. -/
theorem reload_processes_self {s : State} {slot : Nat} {k : Fin queueSize}
    (h : (s.reload slot).processes slot = some k) :
    ∃ hleft : s.queueend < queueSize, k = ⟨s.queueend, hleft⟩ := by
  unfold State.reload at h
  split_ifs at h with hleft
  · simp only [Function.update_self, Option.some.injEq] at h
    exact ⟨hleft, h.symm⟩
  · simp at h

theorem processUnload_queueend (s : State) (k : Fin queueSize) :
    (s.processUnload k).queueend = s.queueend := by
  obtain ⟨avail, pages, blocked, hunload⟩ := processUnload_eq s k
  rw [hunload]
  rfl

theorem processUnload_processes (s : State) (k : Fin queueSize) :
    (s.processUnload k).processes = s.processes := by
  obtain ⟨avail, pages, blocked, hunload⟩ := processUnload_eq s k
  rw [hunload]
  rfl

section Replaced

variable {s : State} {slot : Nat} {k : Fin queueSize}

theorem replaced_queue_self :
    ((s.processUnload k).reload slot).queue k = (s.queue k).unload := by
  rw [reload_queue, processUnload_queue, Function.update_self]

theorem replaced_queue_of_ne {k' : Fin queueSize} (hne : k' ≠ k) :
    ((s.processUnload k).reload slot).queue k' = s.queue k' := by
  rw [reload_queue, processUnload_queue, Function.update_of_ne hne]

/-- When a job has left its slot, the slot holds the next job of the queue, and the other slots
what they held before. -/
theorem replaced_processes {other : Nat} {k' : Fin queueSize}
    (h : ((s.processUnload k).reload slot).processes other = some k') :
    (other = slot ∧ k'.val = s.queueend) ∨ (other ≠ slot ∧ s.processes other = some k') := by
  by_cases heq : other = slot
  · subst heq
    obtain ⟨hleft, rfl⟩ := reload_processes_self h
    exact Or.inl ⟨rfl, processUnload_queueend _ _⟩
  · rw [reload_processes_of_ne _ heq, processUnload_processes] at h
    exact Or.inr ⟨heq, h⟩

end Replaced

theorem stepSlot_processes_of_ne (s : State) {slot other : Nat} (hne : other ≠ slot) :
    (s.stepSlot slot).processes other = s.processes other := by
  unfold State.stepSlot
  split
  · exact reload_processes_of_ne s hne
  · simp only
    split_ifs
    · rfl
    · rw [reload_processes_of_ne _ hne, processUnload_processes]
      rfl
    · rw [reload_processes_of_ne _ hne]
      rfl

/-- A job that goes on stays in its slot. -/
theorem stepSlot_processes_of_goesOn {s : State} {slot : Nat} {k : Fin queueSize}
    (hslot : s.processes slot = some k) (hgoes : (processStep (s.queue k)).1 = true) :
    (s.stepSlot slot).processes slot = some k := by
  simp only [State.stepSlot, hslot, hgoes, if_true]
  exact hslot

/-! ### The step of all slots -/

variable {procs : Nat} {jobs : Fin queueSize → Process} {s : State}

/-- How far the loop over the slots has come: the jobs of the slots before have made their step,
everything else is as it was. -/
structure SteppedTo (s : State) (n : Nat) (s' : State) : Prop where
  loaded : ∀ slot k, slot < n → s.processes slot = some k → s'.queue k = (s.queue k).stepped
  idle : ∀ k, (∀ slot, slot < n → s.processes slot ≠ some k) → s'.queue k = s.queue k
  processes : ∀ slot, n ≤ slot → s'.processes slot = s.processes slot
  goesOn : ∀ slot k, slot < n → s.processes slot = some k → (processStep (s.queue k)).1 = true →
    s'.processes slot = some k

theorem SteppedTo.stepSlot (hplaced : Placed procs jobs s) {n : Nat} {s' : State}
    (h : SteppedTo s n s') : SteppedTo s (n + 1) (s'.stepSlot n) := by
  have hslot := h.processes n le_rfl
  refine ⟨?_, ?_, ?_, ?_⟩
  · intro slot k hlt hk
    rw [stepSlot_queue, hslot]
    rcases Nat.lt_succ_iff_lt_or_eq.mp hlt with hbefore | rfl
    · cases hn : s.processes n with
      | none => exact h.loaded slot k hbefore hk
      | some k' =>
          have hne : k ≠ k' := by
            rintro rfl
            exact absurd (hplaced.one_slot slot n k hk hn) (Nat.ne_of_lt hbefore)
          simp only [Function.update_of_ne hne]
          exact h.loaded slot k hbefore hk
    · simp only [hk, Function.update_self]
      rw [h.idle k]
      intro other hother heq
      exact absurd (hplaced.one_slot other slot k heq hk) (Nat.ne_of_lt hother)
  · intro k hidle
    rw [stepSlot_queue, hslot]
    have hbefore := h.idle k fun slot hlt => hidle slot (Nat.lt_succ_of_lt hlt)
    cases hn : s.processes n with
    | none => exact hbefore
    | some k' =>
        have hne : k ≠ k' := by
          rintro rfl
          exact hidle n (Nat.lt_succ_self n) hn
        simp only [Function.update_of_ne hne]
        exact hbefore
  · intro slot hle
    rw [stepSlot_processes_of_ne s' (by omega)]
    exact h.processes slot (Nat.le_of_succ_le hle)
  · intro slot k hlt hk hgoes
    rcases Nat.lt_succ_iff_lt_or_eq.mp hlt with hbefore | rfl
    · rw [stepSlot_processes_of_ne s' (Nat.ne_of_lt hbefore)]
      exact h.goesOn slot k hbefore hk hgoes
    · apply stepSlot_processes_of_goesOn (hslot.trans hk)
      rwa [h.idle k]
      intro other hother heq
      exact absurd (hplaced.one_slot other slot k heq hk) (Nat.ne_of_lt hother)

theorem steppedTo_loop (hplaced : Placed procs jobs s) (n : Nat) :
    SteppedTo s n (loop State.stepSlot n s) :=
  loop_invariant (SteppedTo s)
    ⟨fun _ _ hlt => absurd hlt (Nat.not_lt_zero _), fun _ _ => rfl, fun _ _ => rfl,
      fun _ _ hlt => absurd hlt (Nat.not_lt_zero _)⟩
    fun _ _ _ => SteppedTo.stepSlot hplaced

/-- A loaded job makes one step. -/
theorem allstep_queue_of_loaded (hplaced : Placed procs jobs s) {slot : Nat}
    {k : Fin queueSize} (hslot : s.processes slot = some k) :
    (allstep procs s).queue k = (s.queue k).stepped :=
  (steppedTo_loop hplaced procs).loaded slot k (hplaced.slot_lt slot k hslot) hslot

/-- The other jobs make none. -/
theorem allstep_queue_of_idle (hplaced : Placed procs jobs s) {k : Fin queueSize}
    (hidle : ∀ slot, s.processes slot ≠ some k) : (allstep procs s).queue k = s.queue k :=
  (steppedTo_loop hplaced procs).idle k fun slot _ => hidle slot

/-- A job that goes on is still in its slot after the step. -/
theorem allstep_processes_of_goesOn (hplaced : Placed procs jobs s) {slot : Nat}
    {k : Fin queueSize} (hslot : s.processes slot = some k)
    (hgoes : (processStep (s.queue k)).1 = true) : (allstep procs s).processes slot = some k :=
  (steppedTo_loop hplaced procs).goesOn slot k (hplaced.slot_lt slot k hslot) hslot hgoes

/-! ### The clock -/

theorem reload_sysclock (s : State) (slot : Nat) : (s.reload slot).sysclock = s.sysclock := by
  unfold State.reload
  split_ifs <;> rfl

theorem processUnload_sysclock (s : State) (k : Fin queueSize) :
    (s.processUnload k).sysclock = s.sysclock := by
  obtain ⟨avail, pages, blocked, hunload⟩ := processUnload_eq s k
  rw [hunload]
  rfl

theorem stepSlot_sysclock (s : State) (slot : Nat) :
    (s.stepSlot slot).sysclock = s.sysclock := by
  unfold State.stepSlot
  split
  · exact reload_sysclock s slot
  · simp only
    split_ifs
    · rfl
    · rw [reload_sysclock, processUnload_sysclock]
      rfl
    · rw [reload_sysclock]
      rfl

theorem agePage_sysclock (s : State) (k : Fin queueSize) (page : Nat) :
    (s.agePage k page).sysclock = s.sysclock := by
  simp only [State.agePage]
  split_ifs <;> rfl

theorem ageSlot_sysclock (s : State) (slot : Nat) : (s.ageSlot slot).sysclock = s.sysclock := by
  unfold State.ageSlot
  split
  · rfl
  · split_ifs
    · exact loop_keeps State.sysclock (fun s' page => agePage_sysclock s' _ page) _ s
    · rfl

theorem answer_sysclock (procs : Nat) (r : PageCall) (s : State) :
    (r.answer procs s).2.sysclock = s.sysclock := by
  cases r with
  | pagein process page =>
      simp only [PageCall.answer, pagein]
      split
      · rfl
      · split_ifs <;> rfl
  | pageout process page =>
      simp only [PageCall.answer, pageout]
      split
      · rfl
      · split_ifs <;> rfl

theorem allstep_sysclock (procs : Nat) (s : State) : (allstep procs s).sysclock = s.sysclock :=
  loop_keeps State.sysclock stepSlot_sysclock procs s

theorem allage_sysclock (procs : Nat) (s : State) : (allage procs s).sysclock = s.sysclock :=
  loop_keeps State.sysclock ageSlot_sysclock procs s

theorem callyou_sysclock (pager : Pager) (procs : Nat) (s : pager.State × State) :
    (callyou pager procs s).2.sysclock = s.2.sysclock :=
  CallTree.run_keeps State.sysclock (answer_sysclock procs) _ s.2

theorem tick_sysclock (pager : Pager) (procs : Nat) (s : pager.State × State) :
    (tick pager procs s).2.sysclock = s.2.sysclock + 1 := by
  have hcall := callyou_sysclock pager procs (s.1, allage procs (allstep procs s.2))
  rw [allage_sysclock, allstep_sysclock] at hcall
  exact congrArg (· + 1) hcall

/-- After the step of the slots a tick changes nothing but pages and the clock. -/
theorem paged_tick (pager : Pager) (procs : Nat) (s : pager.State × State) :
    Paged (allstep procs s.2) (tick pager procs s).2 := by
  have hcall := paged_callyou pager procs (s.1, allage procs (allstep procs s.2))
  exact ((paged_allage procs _).trans hcall).trans (paged_clock _ _)

/-! ### The run -/

/-- The states of the main loop: what its iterations make of a start state. -/
def Config.run (config : Config) (pager : Pager) (s₀ : State) (n : Nat) : pager.State × State :=
  (tick pager config.procs)^[n] (pager.init, s₀)

section Run

variable {config : Config} (pager : Pager) {s₀ : State}

theorem run_succ (n : Nat) :
    config.run pager s₀ (n + 1) = tick pager config.procs (config.run pager s₀ n) :=
  Function.iterate_succ_apply' _ n _

theorem run_reaches (h : config.Starts s₀) (n : Nat) :
    config.Reaches (config.run pager s₀ n).2 :=
  Config.Reaches.ticks pager (pager.init, s₀) ⟨s₀, h, .refl⟩ n

/-- A start state has the jobs as they were put into the queue, all frames, and time zero. -/
theorem start_boot (h : config.Starts s₀) :
    ∃ fuel jobs, initqueue config.table config.rand fuel = some jobs ∧ s₀.queue = jobs ∧
      s₀.pagesavail = physicalPages ∧ s₀.sysclock = 0 := by
  obtain ⟨fuel, hstart⟩ := h
  rw [allinit, Option.map_eq_some_iff] at hstart
  obtain ⟨jobs, hjobs, rfl⟩ := hstart
  refine ⟨fuel, jobs, hjobs, ?_⟩
  refine loop_invariant (fun _ (s : State) => s.queue = jobs ∧ s.pagesavail = physicalPages ∧
    s.sysclock = 0) ⟨rfl, rfl, rfl⟩ ?_
  rintro slot s - ⟨hqueue, havail, hclock⟩
  refine ⟨(reload_queue s slot).trans hqueue, ?_, (reload_sysclock s slot).trans hclock⟩
  exact (congrArg Pool.avail (pool_reload s slot)).trans havail

theorem start_sysclock (h : config.Starts s₀) : s₀.sysclock = 0 := by
  obtain ⟨fuel, jobs, -, -, -, hclock⟩ := start_boot h
  exact hclock

theorem run_sysclock (h : config.Starts s₀) (n : Nat) :
    (config.run pager s₀ n).2.sysclock = n := by
  induction n with
  | zero => exact start_sysclock h
  | succ n ih => rw [run_succ, tick_sysclock, ih]

/-- A run has one queue of jobs, in which it is scheduled throughout. -/
theorem run_scheduled (h : config.Starts s₀) :
    ∃ fuel jobs, initqueue config.table config.rand fuel = some jobs ∧
      ∀ n, Scheduled config.procs jobs (config.run pager s₀ n).2 := by
  obtain ⟨fuel, jobs, hjobs, -⟩ := (run_reaches pager h 0).scheduled
  refine ⟨fuel, jobs, hjobs, ?_⟩
  intro n
  obtain ⟨fuel', jobs', hjobs', hsched⟩ := (run_reaches pager h n).scheduled
  obtain rfl := initqueue_unique hjobs hjobs'
  exact hsched

theorem run_later (n d : Nat) :
    Later (config.run pager s₀ n).2 (config.run pager s₀ (n + d)).2 := by
  have hreach : Reachable (phase config.procs) (config.run pager s₀ n).2
      ((tick pager config.procs)^[d] (config.run pager s₀ n)).2 := ticks_reach d _
  rw [Config.run, ← Function.iterate_add_apply, Nat.add_comm d n] at hreach
  exact reachable_later hreach

/-- No job has a page before the first iteration. -/
theorem start_unpaged (h : config.Starts s₀) (k : Fin queueSize) :
    (s₀.queue k).page = 0 ∧ ∀ j, (s₀.queue k).pages j = -pageWait - 1 := by
  obtain ⟨fuel, jobs, hjobs, hqueue, -⟩ := start_boot h
  have hfresh := initqueue_fresh hjobs k
  rw [hqueue]
  refine ⟨?_, hfresh.pages⟩
  rw [Process.page, hfresh.pc]
  rfl

/-! ### Ticks in which nothing is computed -/

theorem run_quietTick (h : config.Starts s₀) {n : Nat} (hquiet : (config.run pager s₀ n).2.Quiet) :
    QuietTick (config.run pager s₀ n).2 (midTick config.procs (config.run pager s₀ n).2)
      (config.run pager s₀ (n + 1)).2 := by
  rw [run_succ]
  exact quietTick (config.run pager s₀ n) (run_reaches pager h n) hquiet

/-- As long as no job has its page, nothing moves. -/
theorem still_of_quiet (h : config.Starts s₀) {n d : Nat}
    (hquiet : ∀ e, e < d → (config.run pager s₀ (n + e)).2.Quiet) :
    Still (config.run pager s₀ n).2 (config.run pager s₀ (n + d)).2 := by
  induction d with
  | zero => exact ⟨rfl, fun _ => rfl⟩
  | succ d ih =>
      have htick := run_quietTick pager h (hquiet d (Nat.lt_succ_self d))
      exact (ih fun e he => hquiet e (Nat.lt_succ_of_lt he)).trans
        (htick.still_mid.trans htick.still)

/-- Pages that are out do not arrive in the next `PAGEWAIT` ticks. -/
theorem fetching_run (h : config.Starts s₀) (htable : config.table = programs) {n : Nat}
    (hout : ∀ slot k, (config.run pager s₀ n).2.processes slot = some k →
      ((config.run pager s₀ n).2.queue k).pages ((config.run pager s₀ n).2.queue k).page <
        -pageWait) {d : Nat} (hd : d ≤ pageWait) :
    (∀ e, e < d → (config.run pager s₀ (n + e)).2.Quiet) ∧
      ∀ slot k, (config.run pager s₀ (n + d)).2.processes slot = some k →
        Fetching pageWait d (((config.run pager s₀ (n + d)).2.queue k).pages
          ((config.run pager s₀ (n + d)).2.queue k).page) := by
  induction d with
  | zero =>
      exact ⟨fun e he => absurd he (Nat.not_lt_zero e), fun slot k hk => Or.inl (hout slot k hk)⟩
  | succ d ih =>
      obtain ⟨hquiet, hfetching⟩ := ih (by omega)
      have hnow : (config.run pager s₀ (n + d)).2.Quiet := fun slot k hk =>
        (hfetching slot k hk).ne_zero (by omega)
      have htick := run_quietTick pager h hnow
      have hstill := htick.still_mid.trans htick.still
      refine ⟨fun e he => ?_, fun slot k hk => ?_⟩
      · rcases Nat.lt_succ_iff_lt_or_eq.mp he with hlt | rfl
        · exact hquiet e hlt
        · exact hnow
      · have hk' : (config.run pager s₀ (n + d)).2.processes slot = some k := hstill.processes ▸ hk
        have hpage := (run_reaches pager h (n + d)).page_lt htable k
        have hserved := htick.served.cell (k, ⟨_, hpage⟩)
        rw [htick.aged.cell] at hserved
        have hnext := (hfetching slot k hk').succ (by omega) hserved
        have hsame := hstill.page k
        rw [← Nat.add_assoc, hsame]
        exact hnext

/-- Before the first page can arrive, all jobs are where they were at the start. -/
theorem still_start (h : config.Starts s₀) (htable : config.table = programs) {n : Nat}
    (hn : n ≤ pageWait.toNat + 1) : Still s₀ (config.run pager s₀ n).2 := by
  have hwait := pageWait_pos
  have hquiet : ∀ e, e < n → (config.run pager s₀ (0 + e)).2.Quiet := by
    intro e he slot k hk
    have hle : (e : Int) ≤ pageWait := by omega
    refine ((fetching_run pager h htable (fun slot k _ => ?_) hle).2 slot k hk).ne_zero hle
    have hout := (start_unpaged h k).2 (s₀.queue k).page
    change (s₀.queue k).pages (s₀.queue k).page < -pageWait
    omega
  rw [← Nat.zero_add n]
  exact still_of_quiet pager h hquiet

end Run

end OperatingSystems.Simulator
