import OperatingSystems.LibraryListScheduling
import OperatingSystems.SimulatorFloor
import OperatingSystems.SimulatorIdle
import OperatingSystems.PagerLruRoom
import Mathlib.Algebra.BigOperators.Fin

/-!
The processors as machines. The slots take the jobs from the queue as in list scheduling: each job
goes to the slot that is free first, and of several to the one with the least number, because
`allstep` goes through the slots in their order. The ticks that the jobs are charged are their
durations, whatever the pager makes of them, and the simulation ends with the last of them.
-/

namespace OperatingSystems.Simulator

open Loop ListScheduling

/-! ### The slots by their clocks -/

/-- How long the jobs of the queue have been in their slots. -/
def State.durations (s : State) (job : Nat) : Nat :=
  if h : job < queueSize then (s.queue ⟨job, h⟩).charges else 0

theorem durations_eq (s : State) (k : Fin queueSize) : s.durations k = (s.queue k).charges :=
  dif_pos k.isLt

/-- The slots follow the schedule, each as far as its own clock says. -/
structure Listed (procs : Nat) (duration clock : Nat → Nat) (s : State) : Prop where
  machine_eq : ∀ slot k, s.processes slot = some k → machine procs duration k.val = slot
  elapsed : ∀ slot k, s.processes slot = some k →
    start procs duration k.val + (s.queue k).charges = clock slot
  busy : ∀ slot k, s.processes slot = some k → clock slot < start procs duration k.val + duration k
  free_eq : ∀ slot k, s.processes slot = some k →
    freeAfter procs duration s.queueend slot = start procs duration k.val + duration k
  free_le : ∀ slot, slot < procs → s.processes slot = none →
    freeAfter procs duration s.queueend slot ≤ clock slot
  left : ∀ k : Fin queueSize, k.val < s.queueend → (∀ slot, s.processes slot ≠ some k) →
    start procs duration k.val + duration k ≤ clock (machine procs duration k.val)

variable {procs : Nat} {jobs : Fin queueSize → Process} {duration clock : Nat → Nat}
  {s s' : State} {slot : Nat}

theorem Listed.free_lt (h : Listed procs duration clock s) {k : Fin queueSize}
    (hslot : s.processes slot = some k) :
    clock slot < freeAfter procs duration s.queueend slot := by
  rw [h.free_eq slot k hslot]
  exact h.busy slot k hslot

/-- Only the clocks of the processors count. -/
theorem Listed.congr (h : Listed procs duration clock s) (hplaced : Placed procs jobs s)
    (hprocs : 0 < procs) {clock' : Nat → Nat}
    (hclock : ∀ slot, slot < procs → clock' slot = clock slot) :
    Listed procs duration clock' s where
  machine_eq := h.machine_eq
  elapsed slot k hslot := by
    rw [hclock slot (hplaced.slot_lt slot k hslot)]
    exact h.elapsed slot k hslot
  busy slot k hslot := by
    rw [hclock slot (hplaced.slot_lt slot k hslot)]
    exact h.busy slot k hslot
  free_eq := h.free_eq
  free_le slot hlt hnone := by
    rw [hclock slot hlt]
    exact h.free_le slot hlt hnone
  left k hk hidle := by
    rw [hclock _ (machine_lt hprocs)]
    exact h.left k hk hidle

theorem Listed.paged (h : Listed procs duration clock s) (hpaged : Paged s s') :
    Listed procs duration clock s' := by
  have hcharges : ∀ k, (s'.queue k).charges = (s.queue k).charges :=
    hpaged.same Process.charges fun _ _ => rfl
  obtain ⟨hmachine, helapsed, hbusy, hfree, hempty, hleft⟩ := h
  refine ⟨?_, ?_, ?_, ?_, ?_, ?_⟩ <;> simpa only [hpaged.processes, hpaged.queueend, hcharges]

/-- The job of a slot goes on for a tick. -/
theorem Listed.goesOn (h : Listed procs duration clock s) (hplaced : Placed procs jobs s)
    {k : Fin queueSize} (hslot : s.processes slot = some k) {q : Process}
    (hq : q.charges = (s.queue k).charges + 1) (hmore : q.charges < duration k) :
    Listed procs duration (Function.update clock slot (clock slot + 1)) (s.setJob k q) := by
  have helapsed := h.elapsed slot k hslot
  refine ⟨h.machine_eq, ?_, ?_, h.free_eq, ?_, ?_⟩
  · intro other k' hother
    by_cases heq : other = slot
    · subst heq
      obtain rfl := Option.some.inj (hslot.symm.trans hother)
      rw [setJob_self, Function.update_self]
      omega
    · have hne : k' ≠ k := by
        rintro rfl
        exact heq (hplaced.one_slot other slot k' hother hslot)
      rw [setJob_of_ne _ _ hne, Function.update_of_ne heq]
      exact h.elapsed other k' hother
  · intro other k' hother
    by_cases heq : other = slot
    · subst heq
      obtain rfl := Option.some.inj (hslot.symm.trans hother)
      rw [Function.update_self]
      omega
    · rw [Function.update_of_ne heq]
      exact h.busy other k' hother
  · intro other hlt hnone
    have hne : other ≠ slot := by
      rintro rfl
      exact Option.some_ne_none k (hslot.symm.trans hnone)
    rw [Function.update_of_ne hne]
    exact h.free_le other hlt hnone
  · intro k' hk' hidle
    refine (h.left k' hk' hidle).trans ?_
    rw [Function.update_apply]
    split_ifs with heq
    · rw [heq]
      exact Nat.le_succ _
    · exact le_rfl

/-- The job of a slot ends with this tick. -/
theorem Listed.retire (h : Listed procs duration clock s) (hplaced : Placed procs jobs s)
    {k : Fin queueSize} (hslot : s.processes slot = some k) {q : Process} {avail : Int}
    (hlast : (s.queue k).charges + 1 = duration k) :
    Listed procs duration (Function.update clock slot (clock slot + 1))
      (({ s with pagesavail := avail }.setJob k q).vacate slot) := by
  have helapsed := h.elapsed slot k hslot
  have hkept : ∀ other k',
      (({ s with pagesavail := avail }.setJob k q).vacate slot).processes other = some k' →
        other ≠ slot ∧ k' ≠ k ∧ s.processes other = some k' := by
    intro other k' hother
    replace hother : Function.update s.processes slot none other = some k' := hother
    by_cases heq : other = slot
    · simp [heq] at hother
    · rw [Function.update_of_ne heq] at hother
      refine ⟨heq, ?_, hother⟩
      intro hk
      exact heq (hplaced.one_slot other slot k' hother (hk ▸ hslot))
  refine ⟨?_, ?_, ?_, ?_, ?_, ?_⟩
  · intro other k' hother
    exact h.machine_eq other k' (hkept other k' hother).2.2
  · intro other k' hother
    obtain ⟨heq, hne, hbefore⟩ := hkept other k' hother
    rw [Function.update_of_ne heq]
    show start procs duration k' + ((State.setJob _ k q).queue k').charges = _
    rw [setJob_of_ne _ _ hne]
    exact h.elapsed other k' hbefore
  · intro other k' hother
    obtain ⟨heq, -, hbefore⟩ := hkept other k' hother
    rw [Function.update_of_ne heq]
    exact h.busy other k' hbefore
  · intro other k' hother
    exact h.free_eq other k' (hkept other k' hother).2.2
  · intro other hlt hnone
    have hnone : Function.update s.processes slot none other = none := hnone
    show freeAfter procs duration s.queueend other ≤ _
    by_cases heq : other = slot
    · subst heq
      rw [Function.update_self, h.free_eq other k hslot]
      omega
    · rw [Function.update_of_ne heq] at hnone ⊢
      exact h.free_le other hlt hnone
  · intro k' hk' hidle
    by_cases hne : k' = k
    · subst hne
      rw [h.machine_eq slot k' hslot, Function.update_self]
      omega
    · have hidle' : ∀ other, s.processes other ≠ some k' := by
        intro other hother
        apply hidle other
        show Function.update s.processes slot none other = some k'
        rw [Function.update_of_ne, hother]
        rintro rfl
        exact hne (Option.some.inj (hother.symm.trans hslot))
      refine (h.left k' hk' hidle').trans ?_
      rw [Function.update_apply]
      split_ifs with heq
      · rw [heq]
        exact Nat.le_succ _
      · exact le_rfl

/-- An empty slot that is free first takes the next job. -/
theorem Listed.loadNext (h : Listed procs duration clock s) (hslot : slot < procs)
    (hnone : s.processes slot = none)
    (hfree : freeAfter procs duration s.queueend slot = clock slot)
    (hfirst : s.queueend < queueSize → ∀ other, other < procs →
      clock slot ≤ freeAfter procs duration s.queueend other ∧
        (other < slot → clock slot < freeAfter procs duration s.queueend other))
    (hfresh : ∀ k : Fin queueSize, s.queueend ≤ k.val → (s.queue k).charges = 0)
    (hpos : ∀ k : Fin queueSize, 0 < duration k) :
    Listed procs duration clock (s.loadNext slot) := by
  unfold State.loadNext
  split_ifs with hleft
  swap
  · exact h
  have hmachine : machine procs duration s.queueend = slot := by
    refine (firstFree_eq_iff (Nat.zero_lt_of_lt hslot)).mpr ⟨hslot, fun j hj => ?_, fun j hj => ?_⟩
    · rw [hfree]
      exact (hfirst hleft j hj).1
    · rw [hfree]
      exact (hfirst hleft j (hj.trans hslot)).2 hj
  have hstart : start procs duration s.queueend = clock slot := by
    rw [start, hmachine, hfree]
  have hnext : freeAfter procs duration (s.queueend + 1) slot =
      start procs duration s.queueend + duration s.queueend := by
    rw [← freeAfter_machine, hmachine]
  have hother : ∀ other, other ≠ slot → freeAfter procs duration (s.queueend + 1) other =
      freeAfter procs duration s.queueend other :=
    fun other hne => freeAfter_of_ne (hmachine.symm ▸ hne)
  have hcases : ∀ other k,
      Function.update s.processes slot (some ⟨s.queueend, hleft⟩) other = some k →
        (other = slot ∧ k = ⟨s.queueend, hleft⟩) ∨
          (other ≠ slot ∧ s.processes other = some k) := by
    intro other k hk
    rcases loaded_cases hk with hnew | hold
    · exact Or.inl hnew
    · refine Or.inr ⟨?_, hold⟩
      rintro rfl
      exact Option.some_ne_none k (hold.symm.trans hnone)
  refine ⟨?_, ?_, ?_, ?_, ?_, ?_⟩
  · intro other k hk
    rcases hcases other k hk with ⟨rfl, rfl⟩ | ⟨-, hold⟩
    · exact hmachine
    · exact h.machine_eq other k hold
  · intro other k hk
    rcases hcases other k hk with ⟨rfl, rfl⟩ | ⟨-, hold⟩
    · show start procs duration s.queueend + _ = _
      rw [hfresh _ le_rfl, hstart, Nat.add_zero]
    · exact h.elapsed other k hold
  · intro other k hk
    rcases hcases other k hk with ⟨rfl, rfl⟩ | ⟨-, hold⟩
    · show _ < start procs duration s.queueend + duration s.queueend
      rw [hstart]
      exact Nat.lt_add_of_pos_right (hpos ⟨s.queueend, hleft⟩)
    · exact h.busy other k hold
  · intro other k hk
    rcases hcases other k hk with ⟨rfl, rfl⟩ | ⟨hne, hold⟩
    · exact hnext
    · exact (hother other hne).trans (h.free_eq other k hold)
  · intro other hlt hempty
    have hne : other ≠ slot := by
      rintro rfl
      simp at hempty
    simp only [Function.update_of_ne hne] at hempty
    exact (hother other hne).trans_le (h.free_le other hlt hempty)
  · intro k hk hidle
    have hne : k.val ≠ s.queueend := by
      intro heq
      apply hidle slot
      show Function.update s.processes slot _ slot = some k
      rw [Function.update_self, Option.some.injEq]
      exact Fin.ext heq.symm
    refine h.left k (lt_of_le_of_ne (Nat.le_of_lt_succ hk) hne) fun other hold => hidle other ?_
    show Function.update s.processes slot _ other = some k
    rw [Function.update_of_ne, hold]
    rintro rfl
    exact Option.some_ne_none k (hold.symm.trans hnone)

/-- The clock of an empty slot goes on. -/
theorem Listed.idle (h : Listed procs duration clock s) (hnone : s.processes slot = none) :
    Listed procs duration (Function.update clock slot (clock slot + 1)) s := by
  have hne : ∀ other k, s.processes other = some k → other ≠ slot := by
    rintro other k hother rfl
    exact Option.some_ne_none k (hother.symm.trans hnone)
  have hle : ∀ other, clock other ≤ Function.update clock slot (clock slot + 1) other := by
    intro other
    rw [Function.update_apply]
    split_ifs with heq
    · rw [heq]
      exact Nat.le_succ _
    · exact le_rfl
  refine ⟨h.machine_eq, ?_, ?_, h.free_eq, ?_, ?_⟩
  · intro other k hother
    rw [Function.update_of_ne (hne other k hother)]
    exact h.elapsed other k hother
  · intro other k hother
    rw [Function.update_of_ne (hne other k hother)]
    exact h.busy other k hother
  · intro other hlt hempty
    exact (h.free_le other hlt hempty).trans (hle other)
  · intro k hk hidle
    exact (h.left k hk hidle).trans (hle _)

/-! ### A tick -/

/-- A slot steps when no clock is behind its own, and those of the slots before are ahead. -/
theorem Listed.stepSlot (h : Listed procs duration clock s) (hsched : Scheduled procs jobs s)
    (hslot : slot < procs)
    (hclock : ∀ other, other < procs →
      clock slot ≤ clock other ∧ (other < slot → clock slot < clock other))
    (hfresh : ∀ k, (jobs k).charges = 0) (hpos : ∀ k : Fin queueSize, 0 < duration k)
    (hgoes : ∀ k, s.processes slot = some k → (s.queue k).stepped.active = true →
      (s.queue k).charges + 1 < duration k)
    (hends : ∀ k, s.processes slot = some k → (s.queue k).stepped.active = false →
      (s.queue k).charges + 1 = duration k) :
    Listed procs duration (Function.update clock slot (clock slot + 1)) (s.stepSlot slot) := by
  have hmove := stepSlot_move s slot
  generalize s.stepSlot slot = s' at hmove ⊢
  cases hmove with
  | vacant hnone =>
      rw [reload_of_empty (hsched.filled slot hslot hnone) hnone]
      exact h.idle hnone
  | blocked k hk hactive hout =>
      have hgoes := hgoes k hk (by rw [stepped_blocked hactive hout]; exact hactive)
      have hcharges : (s.queue k).chargeBlock.charges = (s.queue k).charges + 1 :=
        Nat.succ_add _ _
      exact h.goesOn hsched.toPlaced hk hcharges (hcharges ▸ hgoes)
  | compute k c hk hactive hin hnext =>
      have hgoes := hgoes k hk (by rw [stepped_compute hactive hin hnext]; exact hactive)
      exact h.goesOn hsched.toPlaced hk rfl hgoes
  | inactive k hk hactive =>
      rw [(hsched.running slot k hk).active] at hactive
      cases hactive
  | exit k hk hactive hin hnext =>
      have hends := hends k hk (by rw [stepped_exit hactive hin hnext]; rfl)
      have hfree := h.free_eq slot k hk
      have helapsed := h.elapsed slot k hk
      obtain ⟨avail, pages, blocked, hunload⟩ :=
        processUnload_eq (s.setJob k (s.queue k).chargeCompute) k
      rw [reload_eq, hunload, setJob_self, setJob_avail_setJob]
      refine (h.retire hsched.toPlaced hk hends).loadNext hslot (Function.update_self ..) ?_ ?_ ?_
        hpos
      · show freeAfter procs duration s.queueend slot = _
        rw [Function.update_self]
        omega
      · intro hleft other hother
        rw [Function.update_self]
        show clock slot + 1 ≤ freeAfter procs duration s.queueend other ∧
          (other < slot → clock slot + 1 < freeAfter procs duration s.queueend other)
        by_cases heq : other = slot
        · subst heq
          exact ⟨by omega, fun hlt => absurd hlt (lt_irrefl _)⟩
        · cases hload : s.processes other with
          | none => exact absurd (hsched.filled other hother hload) (not_le.mpr hleft)
          | some k' =>
              have hlater := h.free_lt hload
              have hclock := hclock other hother
              omega
      · intro k' hk'
        have hne : k' ≠ k := by
          rintro rfl
          exact absurd (hsched.loaded_lt slot k' hk) (not_lt.mpr hk')
        show ((State.setJob _ k _).queue k').charges = 0
        rw [setJob_of_ne _ _ hne]
        exact (congrArg Process.charges (hsched.waiting k' hk')).trans (hfresh k')

/-- In a tick the clocks go on one after the other. -/
theorem Listed.allstep {n : Nat} (h : Listed procs duration (fun _ => n) s)
    (hsched : Scheduled procs jobs s) (hprocs : 0 < procs)
    (hrunning : ∀ k, (jobs k).Running (jobs k)) (hfresh : ∀ k, (jobs k).charges = 0)
    (hpos : ∀ k : Fin queueSize, 0 < duration k)
    (hgoes : ∀ slot k, s.processes slot = some k → (s.queue k).stepped.active = true →
      (s.queue k).charges + 1 < duration k)
    (hends : ∀ slot k, s.processes slot = some k → (s.queue k).stepped.active = false →
      (s.queue k).charges + 1 = duration k) :
    Listed procs duration (fun _ => n + 1) (allstep procs s) := by
  let clockAt : Nat → Nat → Nat := fun i slot => if slot < i then n + 1 else n
  obtain ⟨hsched', hlisted⟩ : Scheduled procs jobs (loop State.stepSlot procs s) ∧
      Listed procs duration (clockAt procs) (loop State.stepSlot procs s) := by
    refine (loop_invariant (fun i s' => SteppedTo s i s' ∧ Scheduled procs jobs s' ∧
      Listed procs duration (clockAt i) s') ⟨?_, hsched, ?_⟩ ?_).2
    · exact steppedTo_loop hsched.toPlaced 0
    · simpa only [clockAt, Nat.not_lt_zero, if_false] using h
    · rintro i s' hi ⟨hstepped, hsched', hlisted⟩
      have hqueue : ∀ k, s'.processes i = some k →
          s.processes i = some k ∧ s'.queue k = s.queue k := by
        intro k hk
        rw [hstepped.processes i le_rfl] at hk
        refine ⟨hk, hstepped.idle k fun slot hlt hslot => ?_⟩
        exact absurd (hsched.one_slot slot i k hslot hk) hlt.ne
      refine ⟨hstepped.stepSlot hsched.toPlaced, ?_, ?_⟩
      · have hphase : phase procs s' (.step i) = some (s'.stepSlot i) := if_pos hi
        exact phase_scheduled hrunning hsched' hphase
      · have hclock : clockAt (i + 1) = Function.update (clockAt i) i (clockAt i i + 1) := by
          funext slot
          rw [Function.update_apply]
          simp only [clockAt]
          split_ifs <;> omega
        rw [hclock]
        refine hlisted.stepSlot hsched' hi ?_ hfresh hpos ?_ ?_
        · intro other _
          simp only [clockAt]
          split_ifs <;> omega
        · intro k hk hactive
          obtain ⟨hslot, hsame⟩ := hqueue k hk
          rw [hsame] at hactive ⊢
          exact hgoes i k hslot hactive
        · intro k hk hactive
          obtain ⟨hslot, hsame⟩ := hqueue k hk
          rw [hsame] at hactive ⊢
          exact hends i k hslot hactive
  exact hlisted.congr hsched'.toPlaced hprocs fun slot hslot => (if_pos hslot).symm

/-- The slots are filled in their order. -/
theorem listed_start (hrunning : ∀ k, (jobs k).Running (jobs k))
    (hfresh : ∀ k, (jobs k).charges = 0) (hpos : ∀ k : Fin queueSize, 0 < duration k) :
    Listed procs duration (fun _ => 0) (loop State.reload procs (boot jobs)) := by
  refine (loop_invariant (fun i s => Loading procs jobs i s ∧
    Listed procs duration (fun _ => 0) s) ⟨⟨boot_placed jobs, fun slot hslot =>
      absurd hslot (Nat.not_lt_zero _), fun _ _ => rfl⟩, ?_⟩ ?_).2
  · refine ⟨?_, ?_, ?_, ?_, fun _ _ _ => Nat.zero_le _, fun k hk => absurd hk (Nat.not_lt_zero _)⟩
    all_goals
      intro slot k hslot
      exact absurd hslot.symm (Option.some_ne_none _)
  · rintro i s hi ⟨⟨hplaced, hfilled, hempty⟩, hlisted⟩
    have hnone := hempty i le_rfl
    refine ⟨⟨?_, ?_, hempty.reload⟩, ?_⟩
    · rw [reload_eq, vacate_of_none hnone]
      exact hplaced.loadNext hrunning hi hnone
    · refine reload_filled fun other hother hne => hfilled other ?_
      omega
    · rw [reload_eq, vacate_of_none hnone]
      refine hlisted.loadNext hi hnone (Nat.le_zero.mp (hlisted.free_le i hi hnone)) ?_ ?_ hpos
      · intro hleft other hother
        refine ⟨Nat.zero_le _, fun hlt => ?_⟩
        cases hload : s.processes other with
        | none => exact absurd (hfilled other hlt hload) (not_le.mpr hleft)
        | some k => exact hlisted.free_lt hload
      · intro k hk
        rw [hplaced.waiting k hk]
        exact hfresh k

/-! ### The run -/

section Run

variable {config : Config} (pager : Pager) {s₀ : State}

/-- A job that has left its slot does not come back. -/
theorem left_of_left {n m : Nat} (hle : n ≤ m) {k : Fin queueSize}
    (hk : k.val < (config.run pager s₀ n).2.queueend)
    (hidle : ∀ slot, (config.run pager s₀ n).2.processes slot ≠ some k) (slot : Nat) :
    (config.run pager s₀ m).2.processes slot ≠ some k := by
  intro hslot
  obtain ⟨d, rfl⟩ := Nat.exists_eq_add_of_le hle
  rcases (run_later pager n d).loaded slot k hslot with hbefore | hwaits
  · exact hidle slot hbefore
  · exact absurd hk (not_lt.mpr hwaits)

variable (h : config.Starts s₀)

include h

/-- A job is charged while it is in a slot. -/
theorem charges_next (n : Nat) (k : Fin queueSize) :
    ((∃ slot, (config.run pager s₀ n).2.processes slot = some k) ∧
      ((config.run pager s₀ (n + 1)).2.queue k).charges =
        ((config.run pager s₀ n).2.queue k).charges + 1) ∨
    ((∀ slot, (config.run pager s₀ n).2.processes slot ≠ some k) ∧
      ((config.run pager s₀ (n + 1)).2.queue k).charges =
        ((config.run pager s₀ n).2.queue k).charges) := by
  obtain ⟨fuel, jobs, -, hsched⟩ := run_scheduled pager h
  rw [run_succ]
  by_cases hloaded : ∃ slot, (config.run pager s₀ n).2.processes slot = some k
  · obtain ⟨slot, hslot⟩ := hloaded
    exact Or.inl ⟨⟨slot, hslot⟩, (tick_charges_loaded pager (hsched n).toPlaced hslot).charges⟩
  · have hidle := not_exists.mp hloaded
    obtain ⟨hblock, hcompute⟩ := tick_charges_idle pager (hsched n).toPlaced hidle
    exact Or.inr ⟨hidle, congrArg₂ (· + ·) hblock hcompute⟩

theorem charges_mono {n m : Nat} (hle : n ≤ m) (k : Fin queueSize) :
    ((config.run pager s₀ n).2.queue k).charges ≤ ((config.run pager s₀ m).2.queue k).charges := by
  induction m, hle using Nat.le_induction with
  | base => exact le_rfl
  | succ m _ ih => rcases charges_next pager h m k with ⟨-, hnext⟩ | ⟨-, hnext⟩ <;> omega

theorem charges_of_left {n m : Nat} (hle : n ≤ m) {k : Fin queueSize}
    (hk : k.val < (config.run pager s₀ n).2.queueend)
    (hidle : ∀ slot, (config.run pager s₀ n).2.processes slot ≠ some k) :
    ((config.run pager s₀ m).2.queue k).charges = ((config.run pager s₀ n).2.queue k).charges := by
  induction m, hle using Nat.le_induction with
  | base => rfl
  | succ m hle ih =>
      rcases charges_next pager h m k with ⟨⟨slot, hslot⟩, -⟩ | ⟨-, hnext⟩
      · exact absurd hslot (left_of_left pager hle hk hidle slot)
      · exact hnext.trans ih

variable {last : Nat}
  (hlast : ∀ k : Fin queueSize, k.val < (config.run pager s₀ last).2.queueend ∧
    ∀ slot, (config.run pager s₀ last).2.processes slot ≠ some k)

include hlast

/-- A job in a slot is charged at least once more before the run is over. -/
theorem charges_lt_last {n slot : Nat} {k : Fin queueSize}
    (hslot : (config.run pager s₀ n).2.processes slot = some k) :
    ((config.run pager s₀ n).2.queue k).charges <
      ((config.run pager s₀ last).2.queue k).charges := by
  rcases Nat.lt_or_ge n last with hlt | hge
  · rcases charges_next pager h n k with ⟨-, hnext⟩ | ⟨hidle, -⟩
    · have hmono := charges_mono pager h (show n + 1 ≤ last from hlt) k
      omega
    · exact absurd hslot (hidle slot)
  · exact absurd hslot (left_of_left pager hge (hlast k).1 (hlast k).2 slot)

theorem charges_eq_last {n : Nat} {k : Fin queueSize}
    (hk : k.val < (config.run pager s₀ n).2.queueend)
    (hidle : ∀ slot, (config.run pager s₀ n).2.processes slot ≠ some k) :
    ((config.run pager s₀ n).2.queue k).charges =
      ((config.run pager s₀ last).2.queue k).charges := by
  rcases Nat.le_total n last with hle | hge
  · exact (charges_of_left pager h hle hk hidle).symm
  · exact charges_of_left pager h hge (hlast k).1 (hlast k).2

/-- Every job is charged in the end. -/
theorem charges_pos (htable : config.table = programs) (k : Fin queueSize) :
    0 < ((config.run pager s₀ last).2.queue k).charges := by
  obtain ⟨m, slot, -, -, hslot⟩ := @loaded_once config pager s₀ h htable last k (hlast k).1
  exact Nat.zero_lt_of_lt (charges_lt_last pager h hlast hslot)

/-- The whole run follows the schedule. -/
theorem run_listed (htable : config.table = programs) (n : Nat) :
    Listed config.procs (config.run pager s₀ last).2.durations (fun _ => n)
      (config.run pager s₀ n).2 := by
  set duration := (config.run pager s₀ last).2.durations with hduration
  have hfinal : ∀ k : Fin queueSize,
      ((config.run pager s₀ last).2.queue k).charges = duration k := fun k => (durations_eq _ k).symm
  have hpos : ∀ k : Fin queueSize, 0 < duration k := fun k =>
    hfinal k ▸ charges_pos pager h hlast htable k
  obtain ⟨fuel, jobs, hjobs, hsched⟩ := run_scheduled pager h
  have hrunning : ∀ k, (jobs k).Running (jobs k) := fun k => (initqueue_fresh hjobs k).running
  have hfresh : ∀ k, (jobs k).charges = 0 := fun k => by
    rw [Process.charges, (initqueue_start hjobs k).1, (initqueue_fresh hjobs k).compute]
  induction n with
  | zero =>
      obtain ⟨fuel', hstart⟩ := h
      rw [allinit, Option.map_eq_some_iff] at hstart
      obtain ⟨jobs', hjobs', rfl⟩ := hstart
      obtain rfl := initqueue_unique hjobs hjobs'
      exact listed_start hrunning hfresh hpos
  | succ n ih =>
      rw [run_succ]
      refine (ih.allstep (hsched n) config.procs_pos hrunning hfresh hpos ?_ ?_).paged
        (paged_tick pager config.procs _)
      all_goals
        intro slot k hslot hactive
        have hnext : ((config.run pager s₀ (n + 1)).2.queue k).active =
            ((config.run pager s₀ n).2.queue k).stepped.active := by
          rw [run_succ, (paged_tick pager config.procs _).active,
            allstep_queue_of_loaded (hsched n).toPlaced hslot]
        have hmore := (tick_charges_loaded pager (hsched n).toPlaced hslot).charges
        rw [← run_succ] at hmore
        have hk := ((hsched n).loaded_lt slot k hslot).trans_le (run_later pager n 1).queueend_le
        have hloaded := loaded_iff_active (hsched (n + 1)) hk
        rw [hnext, hactive] at hloaded
      · obtain ⟨slot', hslot'⟩ := hloaded.mpr rfl
        rw [← hmore, ← hfinal k]
        exact charges_lt_last pager h hlast hslot'
      · rw [← hmore, ← hfinal k]
        exact charges_eq_last pager h hlast hk (not_exists.mp fun hslot' => by
          cases hloaded.mp hslot')

/-- A job is in its slot from its start until its end. -/
theorem run_loaded_iff (htable : config.table = programs) (n slot : Nat) (k : Fin queueSize) :
    (config.run pager s₀ n).2.processes slot = some k ↔
      machine config.procs (config.run pager s₀ last).2.durations k = slot ∧
        start config.procs (config.run pager s₀ last).2.durations k ≤ n ∧
        n < start config.procs (config.run pager s₀ last).2.durations k +
          ((config.run pager s₀ last).2.queue k).charges := by
  have hlisted := run_listed pager h hlast htable n
  rw [← durations_eq]
  set duration := (config.run pager s₀ last).2.durations
  obtain ⟨fuel, jobs, -, hsched⟩ := run_scheduled pager h
  constructor
  · intro hslot
    have helapsed := hlisted.elapsed slot k hslot
    exact ⟨hlisted.machine_eq slot k hslot, by omega, hlisted.busy slot k hslot⟩
  · rintro ⟨rfl, hstart, hend⟩
    by_cases hwaits : (config.run pager s₀ n).2.queueend ≤ k.val
    · cases hload : (config.run pager s₀ n).2.processes (machine config.procs duration k) with
      | none =>
          have hempty := (hsched n).filled _ (machine_lt config.procs_pos) hload
          exact absurd (k.isLt.trans_le hempty) (not_lt.mpr hwaits)
      | some k' =>
          have hfree := (hlisted.free_lt hload).trans_le (freeAfter_mono hwaits)
          exact absurd hfree (not_lt.mpr hstart)
    · by_cases hloaded : ∃ slot, (config.run pager s₀ n).2.processes slot = some k
      · obtain ⟨slot, hslot⟩ := hloaded
        rwa [hlisted.machine_eq slot k hslot]
      · exact absurd (hlisted.left k (not_le.mp hwaits) (not_exists.mp hloaded)) (not_le.mpr hend)

/-- The run is over when the last job has ended. -/
theorem last_eq_makespan (htable : config.table = programs) {n : Nat} (hlast' : last = n + 1)
    (hnot : alldone config.procs (config.run pager s₀ n).2 = false) :
    last = makespan config.procs (config.run pager s₀ last).2.durations queueSize := by
  set duration := (config.run pager s₀ last).2.durations
  obtain ⟨fuel, jobs, -, hsched⟩ := run_scheduled pager h
  have hempty : queueSize ≤ (config.run pager s₀ last).2.queueend :=
    Nat.succ_le_of_lt (hlast ⟨queueSize - 1, by decide⟩).1
  apply le_antisymm
  · obtain ⟨slot, k, hslot⟩ := loaded_of_not_alldone hnot
    have hlt := (run_listed pager h hlast htable n).free_lt hslot
    calc last ≤ freeAfter config.procs duration (config.run pager s₀ n).2.queueend slot := by
          rw [hlast']
          exact hlt
      _ ≤ freeAfter config.procs duration queueSize slot := freeAfter_mono (hsched n).queueend_le
      _ ≤ makespan config.procs duration queueSize :=
          freeAfter_le_makespan ((hsched n).slot_lt slot k hslot)
  · refine makespan_le fun slot hslot => ?_
    have hfree := (run_listed pager h hlast htable last).free_le slot hslot
      (Option.eq_none_iff_forall_ne_some.mpr fun k => (hlast k).2 slot)
    exact (freeAfter_mono hempty).trans hfree

end Run

/-- The jobs' durations over the queue. -/
theorem sum_durations (s : State) :
    ∑ job ∈ Finset.range queueSize, s.durations job = ∑ k, (s.queue k).charges := by
  rw [Finset.sum_range]
  exact Finset.sum_congr rfl fun k _ => durations_eq s k

/-- **The simulation is list scheduling.** Whatever the pager, the random stream and the number of
processors: take as the duration of a job the ticks that it has been charged in the end. Then the
schedule that puts job after job on the processor that is free first tells which job is in which
slot at all times; the run ends with the last job of the schedule; and so it takes at most the
average load of the processors and most of one job. -/
theorem run_lists (config : Config) (htable : config.table = programs) (pager : Pager)
    (s₀ s : State) (h : config.Starts s₀) (fuel : Nat)
    (hloop : mainLoop pager config.procs fuel (pager.init, s₀) = some s) :
    (∀ n slot k, (config.run pager s₀ n).2.processes slot = some k ↔
      machine config.procs s.durations k = slot ∧
        start config.procs s.durations k ≤ n ∧
        n < start config.procs s.durations k + (s.queue k).charges) ∧
    s.sysclock = makespan config.procs s.durations queueSize ∧
    ∀ longest, (∀ k, (s.queue k).charges ≤ longest) →
      config.procs * s.sysclock ≤
        ∑ k, (s.queue k).charges + (config.procs - 1) * longest := by
  obtain ⟨n, rfl, hnot, hidle⟩ := mainLoop_run h hloop
  have hclock : (config.run pager s₀ (n + 1)).2.sysclock =
      makespan config.procs (config.run pager s₀ (n + 1)).2.durations queueSize := by
    rw [run_sysclock pager h]
    exact last_eq_makespan pager h hidle htable rfl (hnot n le_rfl)
  refine ⟨run_loaded_iff pager h hidle htable, hclock, fun longest hlongest => ?_⟩
  rw [hclock, ← sum_durations]
  refine mul_makespan_le config.procs_pos fun job hjob => ?_
  exact (durations_eq _ ⟨job, hjob⟩).trans_le (hlongest ⟨job, hjob⟩)

theorem run_lists_alternating : ∃ s₀ fuel s, alternatingConfig.Starts s₀ ∧
    mainLoop predict alternatingConfig.procs fuel (predict.init, s₀) = some s ∧
    s.sysclock = makespan maxProcesses s.durations queueSize := by
  obtain ⟨s₀, hstart⟩ := alternatingConfig_starts
  obtain ⟨fuel, s, hloop⟩ := (live_terminates rfl predict_live hstart).1
  exact ⟨s₀, fuel, s, hstart, hloop,
    (run_lists alternatingConfig rfl predict s₀ s hstart fuel hloop).2.1⟩

/-! ### With room for all pages -/

/-- The ticks that a job needs when it waits for each of its pages once. -/
def Config.needs (config : Config) (s : State) (job : Nat) : Nat :=
  if h : job < queueSize then
    (s.queue ⟨job, h⟩).compute + pageWait.toNat * (s.queue ⟨job, h⟩).pagesUsed.card +
      config.late ⟨job, h⟩
  else 0

section Room

variable {config : Config} {s₀ s : State} (htable : config.table = programs)
  (hroomy : config.Roomy) (h : config.Starts s₀) {fuel : Nat}
  (hloop : mainLoop lru config.procs fuel (lru.init, s₀) = some s)

include htable hroomy h hloop

/-- Under `pager-lru` and with frames enough a job is in its slot for what it needs. -/
theorem needs_eq : config.needs s = s.durations := by
  obtain ⟨n, rfl, -, hidle⟩ := mainLoop_run h hloop
  funext job
  unfold Config.needs State.durations
  split_ifs with hjob
  · rw [Process.charges, block_of_attends h htable (lru_attends h htable hroomy) (hidle _).1
      (hidle _).2]
    omega
  · rfl

theorem needs_pos {job : Nat} (hjob : job < queueSize) : 0 < config.needs s job := by
  rw [needs_eq htable hroomy h hloop]
  obtain ⟨n, rfl, -, hidle⟩ := mainLoop_run h hloop
  rw [durations_eq _ ⟨job, hjob⟩]
  exact charges_pos lru h hidle htable ⟨job, hjob⟩

theorem lru_sysclock : s.sysclock = makespan config.procs (config.needs s) queueSize := by
  rw [needs_eq htable hroomy h hloop]
  obtain ⟨n, rfl, hnot, hidle⟩ := mainLoop_run h hloop
  rw [run_sysclock lru h]
  exact last_eq_makespan lru h hidle htable rfl (hnot n le_rfl)

end Room

/-- **The length of a simulation with room.** Under `pager-lru` and with frames enough for all
processors a job is in its slot for its instructions and one wait for each of its pages, so the
schedule of these times gives the length of the simulation; and no other distribution of the jobs
over the processors would be twice as fast. -/
theorem lru_lists (config : Config) (htable : config.table = programs)
    (hroomy : config.Roomy) (s₀ s : State)
    (h : config.Starts s₀) (fuel : Nat)
    (hloop : mainLoop lru config.procs fuel (lru.init, s₀) = some s) :
    s.sysclock = makespan config.procs (config.needs s) queueSize ∧
    ∀ (on : Nat → Nat) (latest : Nat), (∀ job, job < queueSize → on job < config.procs) →
      (∀ slot, slot < config.procs → load (config.needs s) queueSize on slot ≤ latest) →
        config.procs * s.sysclock ≤ (2 * config.procs - 1) * latest := by
  have hclock := lru_sysclock htable hroomy h hloop
  refine ⟨hclock, fun on latest hon hlatest => ?_⟩
  rw [hclock]
  exact mul_makespan_le_load config.procs_pos hon hlatest

theorem lru_lists_five : ∃ s₀ fuel s, fiveConfig.Starts s₀ ∧
    mainLoop lru fiveConfig.procs fuel (lru.init, s₀) = some s ∧
    s.sysclock = makespan 5 (fiveConfig.needs s) queueSize := by
  have hroomy : fiveConfig.Roomy := by unfold Config.Roomy; decide
  obtain ⟨s₀, hstart⟩ : ∃ s₀, fiveConfig.Starts s₀ := starts_of_alternating rfl rfl
  obtain ⟨fuel, s, hloop⟩ := (live_terminates rfl lru_live hstart).1
  exact ⟨s₀, fuel, s, hstart, hloop, (lru_lists fiveConfig rfl hroomy s₀ s hstart fuel hloop).1⟩

end OperatingSystems.Simulator
