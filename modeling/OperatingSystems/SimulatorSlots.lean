import OperatingSystems.SimulatorJobs
import OperatingSystems.SimulatorRuns

/-!
The slots of the simulator and the way of a job through them: it waits in the queue, is loaded into
one slot, and is finished when it has reached an exit. Ageing and the requests of a pager move
nothing but pages; the step of a slot is one of a few moves, listed once.
-/

namespace OperatingSystems.Simulator

open Loop Runs

/-! ### Updating one job -/

section Updates

variable (s : State) (k : Fin queueSize) (q : Process)

@[simp] theorem setJob_self : (s.setJob k q).queue k = q := Function.update_self ..

@[simp] theorem setJob_of_ne {k k' : Fin queueSize} (h : k' ≠ k) :
    (s.setJob k q).queue k' = s.queue k' :=
  Function.update_of_ne h ..

@[simp] theorem setJob_processes : (s.setJob k q).processes = s.processes := rfl

@[simp] theorem setJob_queueend : (s.setJob k q).queueend = s.queueend := rfl

@[simp] theorem setJob_pagesavail : (s.setJob k q).pagesavail = s.pagesavail := rfl

theorem setJob_setJob (q' : Process) : (s.setJob k q).setJob k q' = s.setJob k q' := by
  simp only [State.setJob, Function.update_idem]

theorem setJob_avail_setJob (q' : Process) (avail : Int) :
    { s.setJob k q with pagesavail := avail }.setJob k q' =
      { s with pagesavail := avail }.setJob k q' := by
  simp only [State.setJob, Function.update_idem]

theorem setJob_queue_self : s.setJob k (s.queue k) = s := by
  simp only [State.setJob, Function.update_eq_self]

end Updates

/-! ### Operations on pages -/

/-- The states differ in the frames and in pages of loaded jobs only. -/
structure Paged (s s' : State) : Prop where
  processes : s'.processes = s.processes
  queueend : s'.queueend = s.queueend
  queue : ∀ k, ∃ pages, s'.queue k = { s.queue k with pages }
  idle : ∀ k, (∀ slot, s.processes slot ≠ some k) → s'.queue k = s.queue k

/-- Whatever does not depend on the pages of a job stays. -/
theorem Paged.same {α : Type} {s s' : State} (h : Paged s s') (f : Process → α)
    (hf : ∀ q pages, f { q with pages } = f q) (k : Fin queueSize) :
    f (s'.queue k) = f (s.queue k) := by
  obtain ⟨pages, hk⟩ := h.queue k
  rw [hk, hf]

theorem Paged.npages {s s' : State} (h : Paged s s') (k : Fin queueSize) :
    (s'.queue k).npages = (s.queue k).npages :=
  h.same (·.npages) (fun _ _ => rfl) k

theorem Paged.active {s s' : State} (h : Paged s s') (k : Fin queueSize) :
    (s'.queue k).active = (s.queue k).active :=
  h.same (·.active) (fun _ _ => rfl) k

theorem Paged.compute {s s' : State} (h : Paged s s') (k : Fin queueSize) :
    (s'.queue k).compute = (s.queue k).compute :=
  h.same (·.compute) (fun _ _ => rfl) k

theorem Paged.block {s s' : State} (h : Paged s s') (k : Fin queueSize) :
    (s'.queue k).block = (s.queue k).block :=
  h.same (·.block) (fun _ _ => rfl) k

theorem Paged.refl (s : State) : Paged s s :=
  ⟨rfl, rfl, fun k => ⟨(s.queue k).pages, rfl⟩, fun _ _ => rfl⟩

theorem Paged.trans {s s' s'' : State} (h : Paged s s') (h' : Paged s' s'') : Paged s s'' where
  processes := h'.processes.trans h.processes
  queueend := h'.queueend.trans h.queueend
  queue k := by
    obtain ⟨pages, hk⟩ := h.queue k
    obtain ⟨pages', hk'⟩ := h'.queue k
    exact ⟨pages', by rw [hk', hk]⟩
  idle k hk := (h'.idle k (h.processes ▸ hk)).trans (h.idle k hk)

theorem paged_setPage {s : State} {slot : Nat} {k : Fin queueSize}
    (hslot : s.processes slot = some k) (j : Nat) (v avail : Int) :
    Paged s { s.setPage k j v with pagesavail := avail } where
  processes := rfl
  queueend := rfl
  queue k' := by
    by_cases hk : k' = k
    · subst hk
      exact ⟨_, setJob_self ..⟩
    · exact ⟨(s.queue k').pages, setJob_of_ne _ _ hk⟩
  idle k' hidle := setJob_of_ne _ _ fun heq => hidle slot (heq ▸ hslot)

/-- The arguments that `pagein` and `pageout` accept. -/
theorem target_cases {procs : Nat} {s : State} {process page : Int} {k : Fin queueSize} {j : Nat}
    (h : s.target procs process page = some (k, j)) :
    0 ≤ process ∧ process < procs ∧ s.processes process.toNat = some k ∧
      (s.queue k).active = true ∧ 0 ≤ page ∧ page.toNat < (s.queue k).npages ∧
      j = page.toNat := by
  unfold State.target at h
  split_ifs at h with hrange
  cases hslot : s.processes process.toNat with
  | none => simp [hslot] at h
  | some k' =>
      simp only [hslot, Option.ite_none_left_eq_some, Option.some.injEq, Prod.mk.injEq] at h
      obtain ⟨hpage, rfl, rfl⟩ := h
      simp only [not_or, Bool.not_eq_false] at hpage
      exact ⟨by omega, by omega, rfl, hpage.1, by omega, by omega, rfl⟩

/-- The page of a running job is accepted. -/
theorem target_eq {procs slot : Nat} {s : State} {k : Fin queueSize} {j : Nat}
    (hslot : s.processes slot = some k) (hlt : slot < procs) (hactive : (s.queue k).active = true)
    (hj : j < (s.queue k).npages) : s.target procs slot j = some (k, j) := by
  rw [State.target, if_neg (by omega), Int.toNat_natCast, hslot]
  simp only [hactive, Bool.true_eq_false, false_or, Int.toNat_natCast]
  rw [if_neg (by omega)]

theorem paged_answer (procs : Nat) (r : PageCall) (s : State) : Paged s (r.answer procs s).2 := by
  cases r with
  | pagein process page =>
      simp only [PageCall.answer, pagein]
      split
      · exact .refl s
      · rename_i k j htarget
        split_ifs
        · exact .refl s
        · exact .refl s
        · exact .refl s
        · exact paged_setPage (target_cases htarget).2.2.1 ..
  | pageout process page =>
      simp only [PageCall.answer, pageout]
      split
      · exact .refl s
      · rename_i k j htarget
        split_ifs
        · exact .refl s
        · exact .refl s
        · exact paged_setPage (target_cases htarget).2.2.1 ..

theorem paged_agePage {s : State} {slot : Nat} {k : Fin queueSize}
    (hslot : s.processes slot = some k) (j : Nat) : Paged s (s.agePage k j) := by
  simp only [State.agePage]
  split_ifs
  · exact .refl s
  · exact .refl s
  · exact paged_setPage hslot ..
  · exact paged_setPage hslot ..
  · exact paged_setPage hslot ..

theorem paged_ageSlot (s : State) (slot : Nat) : Paged s (s.ageSlot slot) := by
  unfold State.ageSlot
  split
  · exact .refl s
  · rename_i k hslot
    split_ifs
    · refine (loop_relates (fun s => s.processes slot = some k) Paged .refl
        (fun _ _ _ => .trans) hslot fun j s _ hslot => ?_).2
      have hpaged := paged_agePage hslot j
      exact ⟨hpaged.processes ▸ hslot, hpaged⟩
    · exact .refl s

theorem paged_allage (procs : Nat) (s : State) : Paged s (allage procs s) :=
  (loop_relates (fun _ => True) Paged .refl (fun _ _ _ => .trans) trivial
    fun slot s _ _ => ⟨trivial, paged_ageSlot s slot⟩).2

theorem paged_callyou (pager : Pager) (procs : Nat) (s : pager.State × State) :
    Paged s.2 (callyou pager procs s).2 :=
  CallTree.run_relates .refl (fun _ _ _ => .trans) (fun r s => paged_answer procs r s) _ _

/-- Unloading a job changes its pages, the frames, and that it is active. -/
theorem processUnload_eq (s : State) (k : Fin queueSize) :
    ∃ avail pages blocked, s.processUnload k =
      { s with pagesavail := avail }.setJob k
        { s.queue k with pages, blocked, active := false } := by
  have hpages : ∃ avail pages blocked,
      loop (fun s page => s.unloadPage k page) (s.queue k).npages s =
        { s with pagesavail := avail }.setJob k { s.queue k with pages, blocked } := by
    refine loop_invariant (fun _ s' => ∃ avail pages blocked,
      s' = { s with pagesavail := avail }.setJob k { s.queue k with pages, blocked }) ?_ ?_
    · exact ⟨s.pagesavail, (s.queue k).pages, (s.queue k).blocked, (setJob_queue_self s k).symm⟩
    · rintro j _ - ⟨avail, pages, blocked, rfl⟩
      unfold State.unloadPage
      split_ifs
      · simp only [setJob_self]
        exact ⟨_, _, _, setJob_setJob { s with pagesavail := _ } ..⟩
      · exact ⟨avail, pages, blocked, rfl⟩
  obtain ⟨avail, pages, blocked, hloop⟩ := hpages
  refine ⟨avail, pages, blocked, ?_⟩
  simp only [State.processUnload, hloop, setJob_self, setJob_setJob]

/-! ### The moves of a slot -/

/-- The slot without its job. -/
def State.vacate (s : State) (slot : Nat) : State :=
  { s with processes := Function.update s.processes slot none }

/-- The next job of the queue goes into the slot, if one is left. -/
def State.loadNext (s : State) (slot : Nat) : State :=
  if hleft : s.queueend < queueSize then
    { s with
      processes := Function.update s.processes slot (some ⟨s.queueend, hleft⟩)
      queueend := s.queueend + 1 }
  else s

theorem reload_eq (s : State) (slot : Nat) : s.reload slot = (s.vacate slot).loadNext slot := by
  unfold State.reload State.loadNext State.vacate
  split_ifs
  · simp only [Function.update_idem]
  · rfl

/-- The moves of a slot in `allstep`. -/
inductive SlotMove (s : State) (slot : Nat) : State → Prop where
  | vacant (hslot : s.processes slot = none) : SlotMove s slot (s.reload slot)
  | blocked (k : Fin queueSize) (hslot : s.processes slot = some k)
      (hactive : (s.queue k).active = true)
      (hout : (s.queue k).pages (s.queue k).page ≠ 0) :
      SlotMove s slot (s.setJob k (s.queue k).chargeBlock)
  | compute (k : Fin queueSize) (c : Control) (hslot : s.processes slot = some k)
      (hactive : (s.queue k).active = true)
      (hin : (s.queue k).pages (s.queue k).page = 0)
      (hnext : (s.queue k).toControl.next = some c) :
      SlotMove s slot (s.setJob k { (s.queue k).chargeCompute with toControl := c })
  | exit (k : Fin queueSize) (hslot : s.processes slot = some k)
      (hactive : (s.queue k).active = true)
      (hin : (s.queue k).pages (s.queue k).page = 0)
      (hnext : (s.queue k).toControl.next = none) :
      SlotMove s slot
        (((s.setJob k (s.queue k).chargeCompute).processUnload k).reload slot)
  | inactive (k : Fin queueSize) (hslot : s.processes slot = some k)
      (hactive : (s.queue k).active = false) : SlotMove s slot (s.reload slot)

section Step

variable {q : Process} (hactive : q.active = true)

include hactive

theorem processStep_blocked (hout : q.pages q.page ≠ 0) :
    processStep q = (true, q.chargeBlock) := by
  simp [processStep, hactive, hout]

theorem processStep_compute {c : Control} (hin : q.pages q.page = 0)
    (hnext : q.toControl.next = some c) :
    processStep q = (true, { q.chargeCompute with toControl := c }) := by
  simp [processStep, hactive, hin, hnext]

theorem processStep_exit (hin : q.pages q.page = 0) (hnext : q.toControl.next = none) :
    processStep q = (false, q.chargeCompute) := by
  simp [processStep, hactive, hin, hnext]

end Step

/-- A step moves no page of the job, and leaves it active. -/
theorem processStep_kept (q : Process) :
    (processStep q).2.pages = q.pages ∧ (processStep q).2.active = q.active ∧
      (processStep q).2.pid = q.pid := by
  unfold processStep
  split_ifs
  · exact ⟨rfl, rfl, rfl⟩
  · exact ⟨rfl, rfl, rfl⟩
  · cases q.toControl.next with
    | none => exact ⟨rfl, rfl, rfl⟩
    | some c => exact ⟨rfl, rfl, rfl⟩

theorem stepSlot_move (s : State) (slot : Nat) : SlotMove s slot (s.stepSlot slot) := by
  unfold State.stepSlot
  cases hslot : s.processes slot with
  | none => exact .vacant hslot
  | some k =>
      cases hactive : (s.queue k).active with
      | false =>
          have hstep : processStep (s.queue k) = (false, s.queue k) := by
            simp [processStep, hactive]
          simp only [hstep, setJob_queue_self, hactive, Bool.false_eq_true, if_false]
          exact .inactive k hslot hactive
      | true =>
          by_cases hin : (s.queue k).pages (s.queue k).page = 0
          · cases hnext : (s.queue k).toControl.next with
            | none =>
                have hstill : (s.queue k).chargeCompute.active = true := hactive
                simp only [processStep_exit hactive hin hnext, setJob_self, hstill,
                  Bool.false_eq_true, if_false, if_true]
                exact .exit k hslot hactive hin hnext
            | some c =>
                simp only [processStep_compute hactive hin hnext, if_true]
                exact .compute k c hslot hactive hin hnext
          · simp only [processStep_blocked hactive hin, if_true]
            exact .blocked k hslot hactive hin

/-! ### The way of a job -/

/-- Where the jobs are: those before `queueend` are each in one slot, running, or have ended; the
others are as they were put into the queue. -/
structure Placed (procs : Nat) (jobs : Fin queueSize → Process) (s : State) : Prop where
  slot_lt : ∀ slot k, s.processes slot = some k → slot < procs
  loaded_lt : ∀ slot k, s.processes slot = some k → k.val < s.queueend
  one_slot : ∀ slot slot' k, s.processes slot = some k → s.processes slot' = some k → slot = slot'
  running : ∀ slot k, s.processes slot = some k → (jobs k).Running (s.queue k)
  waiting : ∀ k : Fin queueSize, s.queueend ≤ k.val → s.queue k = jobs k
  ended : ∀ k : Fin queueSize, k.val < s.queueend → (∀ slot, s.processes slot ≠ some k) →
    (jobs k).Ended (s.queue k)
  queueend_le : s.queueend ≤ queueSize

variable {procs : Nat} {jobs : Fin queueSize → Process} {s s' : State}

/-- A job is as it was put into the queue, is running in a slot, or has ended. -/
theorem Placed.job_cases (h : Placed procs jobs s) (k : Fin queueSize) :
    (s.queueend ≤ k.val ∧ s.queue k = jobs k) ∨
    (∃ slot, s.processes slot = some k ∧ (jobs k).Running (s.queue k)) ∨
    (k.val < s.queueend ∧ (∀ slot, s.processes slot ≠ some k) ∧ (jobs k).Ended (s.queue k)) := by
  by_cases hwait : s.queueend ≤ k.val
  · exact Or.inl ⟨hwait, h.waiting k hwait⟩
  · by_cases hslot : ∃ slot, s.processes slot = some k
    · obtain ⟨slot, hslot⟩ := hslot
      exact Or.inr (Or.inl ⟨slot, hslot, h.running slot k hslot⟩)
    · have hidle := not_exists.mp hslot
      exact Or.inr (Or.inr ⟨not_le.mp hwait, hidle, h.ended k (not_le.mp hwait) hidle⟩)

theorem Placed.npages (h : Placed procs jobs s) (k : Fin queueSize) :
    (s.queue k).npages = (jobs k).npages := by
  rcases h.job_cases k with ⟨-, hk⟩ | ⟨slot, -, hk⟩ | ⟨-, -, hk⟩
  · rw [hk]
  · exact hk.npages
  · exact hk.npages

theorem Placed.kind_eq (h : Placed procs jobs s) (k : Fin queueSize) :
    (s.queue k).kind = (jobs k).kind := by
  rcases h.job_cases k with ⟨-, hk⟩ | ⟨slot, -, hk⟩ | ⟨-, -, hk⟩
  · rw [hk]
  · exact hk.kind_eq
  · exact hk.kind_eq

theorem Placed.of_paged (h : Placed procs jobs s) (hpaged : Paged s s') :
    Placed procs jobs s' where
  slot_lt := hpaged.processes ▸ h.slot_lt
  loaded_lt := by
    rw [hpaged.processes, hpaged.queueend]
    exact h.loaded_lt
  one_slot := hpaged.processes ▸ h.one_slot
  running slot k hslot := by
    obtain ⟨pages, hk⟩ := hpaged.queue k
    rw [hpaged.processes] at hslot
    rw [hk]
    exact (h.running slot k hslot).congr rfl rfl rfl rfl rfl rfl
  waiting k hk := by
    rw [hpaged.queueend] at hk
    rw [hpaged.idle k fun slot hslot => absurd (h.loaded_lt slot k hslot) (by omega)]
    exact h.waiting k hk
  ended k hk hslot := by
    obtain ⟨pages, hq⟩ := hpaged.queue k
    rw [hpaged.processes] at hslot
    rw [hq]
    exact (h.ended k (hpaged.queueend ▸ hk) hslot).congr
  queueend_le := hpaged.queueend ▸ h.queueend_le

/-- A running job that goes on running stays where it is. -/
theorem Placed.setJob (h : Placed procs jobs s) {slot : Nat} {k : Fin queueSize} {q : Process}
    (hslot : s.processes slot = some k) (hq : (jobs k).Running q) :
    Placed procs jobs (s.setJob k q) where
  slot_lt := h.slot_lt
  loaded_lt := h.loaded_lt
  one_slot := h.one_slot
  running slot' k' hslot' := by
    by_cases hk : k' = k
    · subst hk
      rwa [setJob_self]
    · rw [setJob_of_ne _ _ hk]
      exact h.running slot' k' hslot'
  waiting k' hk' := by
    have hk : k' ≠ k := by
      rintro rfl
      exact absurd (h.loaded_lt slot k' hslot) (by simpa using hk')
    rw [setJob_of_ne _ _ hk]
    exact h.waiting k' hk'
  ended k' hk' hidle := by
    have hk : k' ≠ k := fun heq => hidle slot (heq ▸ hslot)
    rw [setJob_of_ne _ _ hk]
    exact h.ended k' hk' hidle
  queueend_le := h.queueend_le

/-- A job that has ended leaves its slot. -/
theorem Placed.retire (h : Placed procs jobs s) {slot : Nat} {k : Fin queueSize} {q : Process}
    {avail : Int} (hslot : s.processes slot = some k) (hq : (jobs k).Ended q) :
    Placed procs jobs (({ s with pagesavail := avail }.setJob k q).vacate slot) := by
  have hkept : ∀ slot' k', (s.vacate slot).processes slot' = some k' →
      s.processes slot' = some k' ∧ k' ≠ k := by
    intro slot' k' hslot'
    by_cases heq : slot' = slot
    · simp [State.vacate, heq] at hslot'
    · have hslot' : Function.update s.processes slot none slot' = some k' := hslot'
      rw [Function.update_of_ne heq] at hslot'
      refine ⟨hslot', ?_⟩
      rintro rfl
      exact heq (h.one_slot slot' slot k' hslot' hslot)
  refine ⟨fun slot' k' hs => h.slot_lt slot' k' (hkept slot' k' hs).1,
    fun slot' k' hs => h.loaded_lt slot' k' (hkept slot' k' hs).1,
    fun slot₁ slot₂ k' h₁ h₂ => h.one_slot slot₁ slot₂ k' (hkept slot₁ k' h₁).1
      (hkept slot₂ k' h₂).1, ?_, ?_, ?_, h.queueend_le⟩
  · intro slot' k' hs
    obtain ⟨hslot', hk⟩ := hkept slot' k' hs
    show (jobs k').Running ((s.setJob k q).queue k')
    rw [setJob_of_ne _ _ hk]
    exact h.running slot' k' hslot'
  · intro k' hk'
    have hk' : s.queueend ≤ k'.val := hk'
    have hk : k' ≠ k := by
      rintro rfl
      exact absurd (h.loaded_lt slot k' hslot) (by omega)
    show (s.setJob k q).queue k' = jobs k'
    rw [setJob_of_ne _ _ hk]
    exact h.waiting k' hk'
  · intro k' hk' hidle
    show (jobs k').Ended ((s.setJob k q).queue k')
    by_cases hk : k' = k
    · subst hk
      rwa [setJob_self]
    · rw [setJob_of_ne _ _ hk]
      refine h.ended k' hk' fun slot' hs => hidle slot' ?_
      show Function.update s.processes slot none slot' = some k'
      rw [Function.update_of_ne, hs]
      rintro rfl
      exact hk (Option.some.inj (hs.symm.trans hslot))

/-- After a loading, a slot holds the loaded job or what it held before. -/
theorem loaded_cases {slot slot' : Nat} {next k : Fin queueSize}
    (hs : Function.update s.processes slot (some next) slot' = some k) :
    (slot' = slot ∧ k = next) ∨ s.processes slot' = some k := by
  by_cases heq : slot' = slot
  · subst heq
    rw [Function.update_self, Option.some.injEq] at hs
    exact Or.inl ⟨rfl, hs.symm⟩
  · rw [Function.update_of_ne heq] at hs
    exact Or.inr hs

/-- The next job goes from the queue into an empty slot. -/
theorem Placed.loadNext (h : Placed procs jobs s)
    (hfresh : ∀ k, (jobs k).Running (jobs k)) {slot : Nat} (hslot : slot < procs)
    (hempty : s.processes slot = none) : Placed procs jobs (s.loadNext slot) := by
  unfold State.loadNext
  split_ifs with hleft
  · have hunloaded : ∀ slot', s.processes slot' ≠ some ⟨s.queueend, hleft⟩ := fun slot' hs =>
      absurd (h.loaded_lt slot' _ hs) (lt_irrefl _)
    refine ⟨?_, ?_, ?_, ?_, ?_, ?_, hleft⟩
    · intro slot' k hs
      rcases loaded_cases hs with ⟨rfl, -⟩ | hold
      · exact hslot
      · exact h.slot_lt slot' k hold
    · intro slot' k hs
      rcases loaded_cases hs with ⟨-, rfl⟩ | hold
      · exact Nat.lt_succ_self _
      · exact Nat.lt_succ_of_lt (h.loaded_lt slot' k hold)
    · intro slot₁ slot₂ k h₁ h₂
      rcases loaded_cases h₁ with ⟨rfl, rfl⟩ | hold₁ <;>
        rcases loaded_cases h₂ with ⟨rfl, hk⟩ | hold₂
      · rfl
      · exact absurd hold₂ (hunloaded slot₂)
      · exact absurd (hk ▸ hold₁) (hunloaded slot₁)
      · exact h.one_slot slot₁ slot₂ k hold₁ hold₂
    · intro slot' k hs
      rcases loaded_cases hs with ⟨-, rfl⟩ | hold
      · show (jobs ⟨s.queueend, hleft⟩).Running (s.queue ⟨s.queueend, hleft⟩)
        rw [h.waiting _ le_rfl]
        exact hfresh _
      · exact h.running slot' k hold
    · intro k hk
      exact h.waiting k (Nat.le_of_succ_le hk)
    · intro k hk hidle
      have hne : k.val ≠ s.queueend := fun heq =>
        hidle slot ((Function.update_self ..).trans (congrArg some (Fin.ext heq.symm)))
      refine h.ended k (lt_of_le_of_ne (Nat.le_of_lt_succ hk) hne) fun slot' hs => hidle slot' ?_
      show Function.update s.processes slot _ slot' = some k
      rw [Function.update_of_ne, hs]
      rintro rfl
      exact Option.some_ne_none k (hs.symm.trans hempty)
  · exact h

theorem vacate_of_none {slot : Nat} (hslot : s.processes slot = none) : s.vacate slot = s := by
  unfold State.vacate
  rw [Function.update_eq_self_iff.mpr hslot.symm]

/-- With the queue empty a vacant slot stays as it is. -/
theorem reload_of_empty {slot : Nat} (hempty : queueSize ≤ s.queueend)
    (hslot : s.processes slot = none) : s.reload slot = s := by
  rw [State.reload, dif_neg (not_lt.mpr hempty)]
  exact vacate_of_none hslot

theorem SlotMove.placed {slot : Nat} (h : SlotMove s slot s') (hplaced : Placed procs jobs s)
    (hfresh : ∀ k, (jobs k).Running (jobs k)) (hslot : slot < procs) :
    Placed procs jobs s' := by
  cases h with
  | vacant hnone =>
      rw [reload_eq, vacate_of_none hnone]
      exact hplaced.loadNext hfresh hslot hnone
  | blocked k hk =>
      exact hplaced.setJob hk ((hplaced.running slot k hk).congr rfl rfl rfl rfl rfl rfl)
  | compute k c hk _ _ hnext =>
      exact hplaced.setJob hk ((hplaced.running slot k hk).compute hnext)
  | exit k hk _ _ hnext =>
      obtain ⟨avail, pages, blocked, hunload⟩ :=
        processUnload_eq (s.setJob k (s.queue k).chargeCompute) k
      rw [reload_eq, hunload, setJob_self, setJob_avail_setJob]
      refine (hplaced.retire hk ?_).loadNext hfresh hslot (Function.update_self ..)
      exact (hplaced.running slot k hk).ended hnext
  | inactive k hk hactive =>
      simp [(hplaced.running slot k hk).active] at hactive

/-! ### The phases -/

/-- A phase is a move of a slot, or changes nothing but pages and the clock. -/
theorem phase_cases {a : Phase} (h : phase procs s a = some s') :
    (∃ slot, slot < procs ∧ SlotMove s slot s') ∨ (∃ slot, s' = s.ageSlot slot) ∨
      (∃ r : PageCall, s' = (r.answer procs s).2) ∨ s' = { s with sysclock := s.sysclock + 1 } := by
  cases a with
  | step slot =>
      rw [phase, Option.ite_none_right_eq_some] at h
      obtain ⟨hslot, h⟩ := h
      exact Or.inl ⟨slot, hslot, Option.some.inj h ▸ stepSlot_move s slot⟩
  | age slot =>
      rw [phase, Option.ite_none_right_eq_some] at h
      exact Or.inr (Or.inl ⟨slot, (Option.some.inj h.2).symm⟩)
  | request r => exact Or.inr (Or.inr (Or.inl ⟨r, (Option.some.inj h).symm⟩))
  | clock => exact Or.inr (Or.inr (Or.inr (Option.some.inj h).symm))

theorem paged_clock (s : State) (sysclock : Nat) : Paged s { s with sysclock } :=
  ⟨rfl, rfl, fun k => ⟨(s.queue k).pages, rfl⟩, fun _ _ => rfl⟩

/-- A phase is a move of a slot, or changes nothing but pages. -/
theorem phase_move_or_paged {a : Phase} (h : phase procs s a = some s') :
    (∃ slot, slot < procs ∧ SlotMove s slot s') ∨ Paged s s' := by
  rcases phase_cases h with hmove | ⟨slot, rfl⟩ | ⟨r, rfl⟩ | rfl
  · exact Or.inl hmove
  · exact Or.inr (paged_ageSlot s slot)
  · exact Or.inr (paged_answer procs r s)
  · exact Or.inr (paged_clock s _)

end OperatingSystems.Simulator
