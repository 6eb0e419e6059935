import OperatingSystems.SimulatorFreeze
import OperatingSystems.ProgramHalting

/-!
Termination of the main loop. The compute ticks of all jobs together never become fewer and are
bounded, since every program ends; and as long as a job is loaded, a pager that keeps to the rules
lets some job compute sooner or later.
-/

namespace OperatingSystems.Simulator

open Loop Runs

/-- The compute ticks of all jobs. -/
def State.computeTotal (s : State) : Nat := ∑ k, (s.queue k).compute

variable {procs : Nat} {jobs : Fin queueSize → Process} {s s' : State}

/-! ### Compute ticks -/

theorem reload_queue (s : State) (slot : Nat) : (s.reload slot).queue = s.queue := by
  unfold State.reload
  split_ifs <;> rfl

/-- A move of a slot leaves the jobs of the other slots alone. -/
theorem SlotMove.frame {slot other : Nat} {k : Fin queueSize} (h : SlotMove s slot s')
    (hplaced : Placed procs jobs s) (hne : other ≠ slot) (hk : s.processes other = some k) :
    s'.processes other = some k ∧ s'.queue k = s.queue k := by
  have hreload : ∀ t : State, t.processes other = some k →
      (t.reload slot).processes other = some k := by
    intro t ht
    unfold State.reload
    split_ifs <;> simpa only [Function.update_of_ne hne] using ht
  have hother : ∀ k', s.processes slot = some k' → k ≠ k' := by
    rintro k' hk' rfl
    exact hne (hplaced.one_slot other slot k hk hk')
  cases h with
  | vacant _ => exact ⟨hreload s hk, by rw [reload_queue]⟩
  | blocked k' hk' => exact ⟨hk, setJob_of_ne _ _ (hother k' hk')⟩
  | compute k' c hk' => exact ⟨hk, setJob_of_ne _ _ (hother k' hk')⟩
  | exit k' hk' =>
      obtain ⟨avail, pages, blocked, hunload⟩ :=
        processUnload_eq (s.setJob k' (s.queue k').chargeCompute) k'
      rw [hunload, reload_queue]
      refine ⟨hreload _ hk, ?_⟩
      rw [setJob_of_ne _ _ (hother k' hk')]
      exact setJob_of_ne _ _ (hother k' hk')
  | inactive _ _ => exact ⟨hreload s hk, by rw [reload_queue]⟩

/-- The compute ticks of a job after a move of a slot. -/
theorem SlotMove.compute_eq {slot : Nat} (h : SlotMove s slot s') (k : Fin queueSize) :
    (s'.queue k).compute = (s.queue k).compute +
      if s.processes slot = some k ∧ (s.queue k).active = true ∧
        (s.queue k).pages (s.queue k).page = 0 then 1 else 0 := by
  cases h with
  | vacant hnone => simp [reload_queue, hnone]
  | blocked k' hk' _ hout =>
      by_cases hk : k = k'
      · subst hk
        simp [hout, Process.chargeBlock]
      · simp [setJob_of_ne _ _ hk, hk', Ne.symm hk]
  | compute k' c hk' hactive hin =>
      by_cases hk : k = k'
      · subst hk
        simp [hk', hactive, hin, Process.chargeCompute]
      · simp [setJob_of_ne _ _ hk, hk', Ne.symm hk]
  | exit k' hk' hactive hin =>
      obtain ⟨avail, pages, blocked, hunload⟩ :=
        processUnload_eq (s.setJob k' (s.queue k').chargeCompute) k'
      rw [hunload, reload_queue]
      by_cases hk : k = k'
      · subst hk
        simp [hk', hactive, hin, Process.chargeCompute]
      · rw [setJob_of_ne _ _ hk]
        have hsame : (s.setJob k' (s.queue k').chargeCompute).queue k = s.queue k :=
          setJob_of_ne _ _ hk
        simp [hk', Ne.symm hk, hsame]
  | inactive k' hk' hinactive =>
      rw [reload_queue]
      by_cases hk : k = k'
      · subst hk
        simp [hinactive]
      · simp [hk', Ne.symm hk]

theorem allstep_compute_le (procs : Nat) (s : State) (k : Fin queueSize) :
    (s.queue k).compute ≤ ((allstep procs s).queue k).compute := by
  refine loop_invariant (fun _ (s' : State) => (s.queue k).compute ≤ (s'.queue k).compute) le_rfl ?_
  intro slot s' _ hle
  rw [(stepSlot_move s' slot).compute_eq k]
  exact Nat.le_add_right_of_le hle

/-- A loaded job that has its page computes in the step of all slots. -/
theorem allstep_compute_lt (hfresh : ∀ k, (jobs k).Running (jobs k))
    (hplaced : Placed procs jobs s) {slot : Nat} {k : Fin queueSize}
    (hslot : s.processes slot = some k) (hin : (s.queue k).pages (s.queue k).page = 0) :
    (s.queue k).compute < ((allstep procs s).queue k).compute := by
  have hlt := hplaced.slot_lt slot k hslot
  have hloop : Placed procs jobs (allstep procs s) ∧
      (procs ≤ slot → (allstep procs s).processes slot = some k ∧
        (allstep procs s).queue k = s.queue k) ∧
      (slot < procs → (s.queue k).compute < ((allstep procs s).queue k).compute) := by
    refine loop_invariant (fun i s' => Placed procs jobs s' ∧
      (i ≤ slot → s'.processes slot = some k ∧ s'.queue k = s.queue k) ∧
      (slot < i → (s.queue k).compute < (s'.queue k).compute)) ?_ ?_
    · exact ⟨hplaced, fun _ => ⟨hslot, rfl⟩, fun h => absurd h (Nat.not_lt_zero _)⟩
    · rintro i s' hi ⟨hs', hbefore, hafter⟩
      have hmove := stepSlot_move s' i
      refine ⟨hmove.placed hs' hfresh hi, fun hle => ?_, fun hgt => ?_⟩
      · obtain ⟨hk, hqueue⟩ := hbefore (by omega)
        obtain ⟨hk', hqueue'⟩ := hmove.frame hs' (by omega) hk
        exact ⟨hk', hqueue'.trans hqueue⟩
      · rw [hmove.compute_eq k]
        rcases Nat.lt_succ_iff_lt_or_eq.mp hgt with hlt' | rfl
        · exact Nat.lt_add_right _ (hafter hlt')
        · obtain ⟨hk, hqueue⟩ := hbefore le_rfl
          have hactive : (s.queue k).active = true := (hplaced.running slot k hslot).active
          rw [hqueue, if_pos ⟨hk, hactive, hin⟩]
          exact Nat.lt_succ_self _
  exact hloop.2.2 hlt

theorem tick_compute (pager : Pager) (procs : Nat) (s : pager.State × State)
    (k : Fin queueSize) :
    ((tick pager procs s).2.queue k).compute = ((allstep procs s.2).queue k).compute := by
  calc
    ((tick pager procs s).2.queue k).compute = ((midTick procs s.2).queue k).compute :=
      (paged_callyou pager procs (s.1, midTick procs s.2)).compute k
    _ = ((allstep procs s.2).queue k).compute :=
      (paged_allage procs (allstep procs s.2)).compute k

theorem tick_computeTotal_le (pager : Pager) (procs : Nat) (s : pager.State × State) :
    s.2.computeTotal ≤ (tick pager procs s).2.computeTotal :=
  Finset.sum_le_sum fun k _ => by
    rw [tick_compute]
    exact allstep_compute_le procs s.2 k

theorem tick_computeTotal_lt {config : Config} (pager : Pager) (s : pager.State × State)
    (h : config.Reaches s.2) (hbusy : ¬ s.2.Quiet) :
    s.2.computeTotal < (tick pager config.procs s).2.computeTotal := by
  obtain ⟨fuel, jobs, hjobs, hsched⟩ := h.scheduled
  simp only [State.Quiet, not_forall, not_not] at hbusy
  obtain ⟨slot, k, hslot, hin⟩ := hbusy
  refine Finset.sum_lt_sum (fun k _ => ?_) ⟨k, Finset.mem_univ k, ?_⟩
  · rw [tick_compute]
    exact allstep_compute_le config.procs s.2 k
  · rw [tick_compute]
    exact allstep_compute_lt (fun k => (initqueue_fresh hjobs k).running) hsched.toPlaced hslot hin

theorem ticks_computeTotal_mono (pager : Pager) (procs : Nat) (s : pager.State × State) (n : Nat) :
    s.2.computeTotal ≤ ((tick pager procs)^[n] s).2.computeTotal := by
  induction n generalizing s with
  | zero => exact le_rfl
  | succ n ih => exact (tick_computeTotal_le pager procs s).trans (ih _)

theorem memory_ticks {pager : Pager} {inv : pager.State → Prop} (live : pager.Live inv)
    (procs : Nat) (s : pager.State × State) (hmemory : inv s.1) (n : Nat) :
    inv ((tick pager procs)^[n] s).1 := by
  induction n generalizing s with
  | zero => exact hmemory
  | succ n ih =>
      exact ih _ (live.call hmemory (CallTree.talk_exchanges (PageCall.answer procs) _ _))

/-! ### Bounds -/

theorem Process.Fresh.toControl_eq {p : Program} {kind : Fin programCount} {q : Process}
    (h : q.Fresh p kind) : q.toControl = ⟨p, q.bcontexts, 0⟩ := by
  have hprogram : q.toControl.program = p := h.program
  have hpc : q.toControl.pc = 0 := h.pc
  rw [← hprogram, ← hpc]

section Bounds

variable {config : Config} (htable : config.table = programs)

include htable

/-- A job of the five programs stands somewhere in its course. -/
theorem Config.Reaches.control (h : config.Reaches s) (k : Fin queueSize) :
    ∃ t contexts n, (s.queue k).toControl = (⟨programs t, contexts, 0⟩ : Control).course n := by
  obtain ⟨fuel, jobs, hjobs, hsched⟩ := h.scheduled
  have hstart := (initqueue_fresh hjobs k).toControl_eq
  rw [htable] at hstart
  refine ⟨shuffle config.rand k, (jobs k).bcontexts, ?_⟩
  rw [← hstart]
  rcases hsched.job_cases k with ⟨-, hk⟩ | ⟨slot, -, hk⟩ | ⟨-, -, hk⟩
  · exact ⟨0, by rw [hk]; rfl⟩
  · exact ⟨_, hk.control⟩
  · obtain ⟨n, -, hcontrol, -⟩ := hk.ended
    exact ⟨n, hcontrol⟩

/-- The counters stay below `MAXPC`. -/
theorem Config.Reaches.page_lt (h : config.Reaches s) (k : Fin queueSize) :
    (s.queue k).page < maxProcPages := by
  have hsize : ∀ t, 0 ≤ (programs t).size ∧ (programs t).size < maxProcPages * pageSize := by
    decide
  obtain ⟨t, contexts, n, hcontrol⟩ := h.control htable k
  obtain ⟨hnonneg, hle⟩ := Control.course_pc (c := ⟨programs t, contexts, 0⟩) (hsize t).1
    ⟨le_rfl, (hsize t).1⟩ n
  rw [← hcontrol] at hnonneg hle
  have hlt := hle.trans_lt (hsize t).2
  simp only [maxProcPages, pageSize] at hlt
  simp only [Process.page, pageSize, maxProcPages]
  omega

/-- The compute ticks of all jobs together are bounded. -/
theorem Config.Reaches.computeTotal_bounded (h : config.Reaches s) :
    ∃ bound, ∀ s', config.Reaches s' → s'.computeTotal ≤ bound := by
  obtain ⟨fuel, jobs, hjobs, -⟩ := h.scheduled
  have hends : ∀ k, ∃ n, (jobs k).toControl.EndsAt n := by
    intro k
    rw [(initqueue_fresh hjobs k).toControl_eq, htable]
    exact programs_end _ _
  choose length hlength using hends
  refine ⟨∑ k, (length k + 1), fun s' h' => Finset.sum_le_sum fun k _ => ?_⟩
  obtain ⟨fuel', jobs', hjobs', hsched⟩ := h'.scheduled
  obtain rfl := initqueue_unique hjobs hjobs'
  rcases hsched.job_cases k with ⟨-, hk⟩ | ⟨slot, -, hk⟩ | ⟨-, -, hk⟩
  · rw [hk, (initqueue_fresh hjobs k).compute]
    exact Nat.zero_le _
  · by_contra hgt
    have hlast := hk.lasts (length k) (by omega)
    simp [(hlength k).2] at hlast
  · obtain ⟨n, hend, -, hcompute, -⟩ := hk.ended
    rw [hcompute, hend.unique (hlength k)]

/-! ### Termination -/

omit htable in
theorem loaded_of_not_alldone {s : State} (h : alldone procs s = false) :
    ∃ slot k, s.processes slot = some k := by
  by_contra hempty
  have hall : alldone procs s = true := by
    refine List.all_eq_true.mpr fun slot _ => ?_
    cases hslot : s.processes slot with
    | none => rfl
    | some k => exact absurd ⟨slot, k, hslot⟩ hempty
  rw [hall] at h
  cases h

/-- If some job computes sooner or later as long as not all is done, all is done in the end. -/
theorem ends_of_progress {pager : Pager} {s : pager.State × State} (h : config.Reaches s.2)
    (hprogress : ∀ n, alldone config.procs ((tick pager config.procs)^[n] s).2 = false →
      ∃ m, ((tick pager config.procs)^[n] s).2.computeTotal <
        ((tick pager config.procs)^[m] s).2.computeTotal) :
    ∃ n, alldone config.procs ((tick pager config.procs)^[n] s).2 = true := by
  obtain ⟨bound, hbound⟩ := h.computeTotal_bounded htable
  suffices hfrom : ∀ left n, bound - ((tick pager config.procs)^[n] s).2.computeTotal = left →
      ∃ n, alldone config.procs ((tick pager config.procs)^[n] s).2 = true from
    hfrom _ 0 rfl
  intro left
  induction left using Nat.strong_induction_on with
  | _ left ih =>
      intro n hleft
      by_cases hdone : alldone config.procs ((tick pager config.procs)^[n] s).2 = true
      · exact ⟨n, hdone⟩
      · obtain ⟨m, hm⟩ := hprogress n (by simpa using hdone)
        have hle := hbound _ (h.ticks pager s m)
        exact ih _ (by omega) m rfl

variable {pager : Pager} {inv : pager.State → Prop} (live : pager.Live inv)

include live

/-- As long as a job is loaded, some job computes sooner or later. -/
theorem live_progress (s : pager.State × State) (h : config.Reaches s.2) (hmemory : inv s.1)
    (hnot : alldone config.procs s.2 = false) :
    ∃ n, s.2.computeTotal < ((tick pager config.procs)^[n] s).2.computeTotal := by
  by_contra hnone
  have hnone : ∀ n, ((tick pager config.procs)^[n] s).2.computeTotal ≤ s.2.computeTotal :=
    fun n => not_lt.mp (not_exists.mp hnone n)
  have hloaded := loaded_of_not_alldone hnot
  have hstep : ∀ n, (tick pager config.procs)^[n + 1] s =
      tick pager config.procs ((tick pager config.procs)^[n] s) :=
    fun n => Function.iterate_succ_apply' _ n s
  have hstuck : Stuck config pager inv (fun n => (tick pager config.procs)^[n] s) := by
    refine ⟨h, hmemory, hstep, fun n => ?_, hloaded, h.page_lt htable⟩
    by_contra hbusy
    apply absurd (hnone (n + 1))
    rw [not_le]
    calc
      s.2.computeTotal ≤ ((tick pager config.procs)^[n] s).2.computeTotal :=
        ticks_computeTotal_mono pager config.procs s n
      _ < ((tick pager config.procs)^[n + 1] s).2.computeTotal := by
        rw [hstep]
        exact tick_computeTotal_lt pager _ (h.ticks pager s n) hbusy
  exact hstuck.absurd live

/-- The main loop ends. -/
theorem live_ends (s : pager.State × State) (h : config.Reaches s.2) (hmemory : inv s.1) :
    ∃ n, alldone config.procs ((tick pager config.procs)^[n] s).2 = true := by
  apply ends_of_progress htable h
  intro n hnot
  obtain ⟨m, hm⟩ := live_progress htable live _ (h.ticks pager s n)
    (memory_ticks live config.procs s hmemory n) hnot
  exact ⟨m + n, by rw [Function.iterate_add_apply]; exact hm⟩

/-- With a pager that keeps to the rules the simulation ends, and until then some job computes
time and again. -/
theorem live_terminates (h : config.Starts s) :
    (∃ fuel s', mainLoop pager config.procs fuel (pager.init, s) = some s') ∧
    ∀ n, alldone config.procs ((tick pager config.procs)^[n] (pager.init, s)).2 = false →
      ∃ m, n < m ∧ ((tick pager config.procs)^[n] (pager.init, s)).2.computeTotal <
        ((tick pager config.procs)^[m] (pager.init, s)).2.computeTotal := by
  have hreach : config.Reaches s := ⟨s, h, .refl⟩
  refine ⟨?_, fun n hnot => ?_⟩
  · obtain ⟨n, hn⟩ := live_ends htable live (pager.init, s) hreach live.init
    exact mainLoop_ends hn
  · obtain ⟨m, hm⟩ := live_progress htable live _
      (Config.Reaches.ticks pager (pager.init, s) hreach n)
      (memory_ticks live config.procs (pager.init, s) live.init n) hnot
    refine ⟨m + n, ?_, by rw [Function.iterate_add_apply]; exact hm⟩
    cases m with
    | zero => exact absurd hm (lt_irrefl _)
    | succ m => omega

end Bounds

end OperatingSystems.Simulator
