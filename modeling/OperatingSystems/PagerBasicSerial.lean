import OperatingSystems.PagerBasic
import OperatingSystems.SimulatorResidence

/-!
The pager `pager-basic` runs the jobs one after the other. It serves the first active process only,
so the others stay as they were loaded; the frames are then held by a single job, no request is
ever refused, and no page is ever given up.
-/

namespace OperatingSystems.Simulator

open Loop Runs Frames CallTree

/-! ### The call -/

section Call

variable {q : Snapshot} {slot : Nat}

theorem basicServe_inactive {proc : Nat} (hinactive : (q proc).active = false) (st : Unit) :
    basicServe q proc st = ret (true, ()) := by
  rw [basicServe, hinactive, if_neg (by decide)]
  rfl

theorem basicServe_absent {proc : Nat} (hactive : (q proc).active = true)
    (hpage : (q proc).pages (q proc).page = false) (st : Unit) :
    ∃ next, basicServe q proc st = call (.pagein proc (q proc).page) next ∧
      next true = ret (false, ()) := by
  rw [basicServe, if_pos hactive]
  simp only [hpage, Bool.false_eq_true, if_false, ask_bind]
  exact ⟨_, rfl, rfl⟩

theorem basic_idle (hinactive : ∀ proc, proc < maxProcesses → (q proc).active = false)
    (st : basic.State) : ∃ st', basic.pageit q st = ret st' := by
  have hsweep : ∀ n, n ≤ maxProcesses → sweepUntil (basicServe q) n () = ret (true, ()) := by
    intro n hn
    induction n with
    | zero => rfl
    | succ n ih =>
        rw [sweepUntil, ih (Nat.le_of_succ_le hn), ret_bind, if_pos rfl,
          basicServe_inactive (hinactive n hn)]
  refine ⟨(), ?_⟩
  rw [basic_pageit, hsweep maxProcesses le_rfl, ret_bind]
  rfl

variable (hslot : slot < maxProcesses) (hactive : (q slot).active = true)
  (hbefore : ∀ other, other < slot → (q other).active = false)

include hbefore in
theorem basicServe_before (other : Nat) (st : Unit) (hother : other < slot) :
    ∃ st', basicServe q other st = ret (true, st') :=
  ⟨(), basicServe_inactive (hbefore other hother) st⟩

include hslot hactive hbefore

/-- If the first active process has its page, the pager makes no call. -/
theorem basic_resident (hpage : (q slot).pages (q slot).page = true) (st : basic.State) :
    ∃ st', basic.pageit q st = ret st' := by
  obtain ⟨st₁, next, hreach, hbreak⟩ := sweepUntil_reach hslot (basicServe_before hbefore) ()
  refine ⟨(), ?_⟩
  rw [basic_pageit, hreach, basicServe_resident hactive hpage, ret_bind, hbreak _ rfl, ret_bind]
  rfl

/-- Otherwise it asks for the page, and makes no other call if this one is granted. -/
theorem basic_absent (hpage : (q slot).pages (q slot).page = false) (st : basic.State) :
    ∃ next st', basic.pageit q st = call (.pagein slot (q slot).page) next ∧
      next true = ret st' := by
  obtain ⟨st₁, rest, hreach, hbreak⟩ := sweepUntil_reach hslot (basicServe_before hbefore) ()
  obtain ⟨next, hnext, hgranted⟩ := basicServe_absent hactive hpage st₁
  refine ⟨fun given => (next given >>= rest) >>= fun r => ret r.2, (), ?_, ?_⟩
  · rw [basic_pageit, hreach, hnext, call_bind, call_bind]
    rfl
  · simp only [hgranted, ret_bind, hbreak (false, ()) rfl]

end Call

/-! ### The invariant -/

/-- A job that has not computed and holds no page. -/
def Process.Untouched (q : Process) : Prop :=
  q.pc = 0 ∧ q.compute = 0 ∧ ∀ page : Fin maxProcPages, q.pages page = -pageWait - 1

/-- No page of the job is on its way out. -/
def Process.Undisturbed (q : Process) : Prop :=
  ∀ page : Fin maxProcPages, q.pages page = -pageWait - 1 ∨ 0 ≤ q.pages page

/-- Only the first loaded job has been touched, no page is on its way out, and each slot holds the
job that it got at the start, or is slot 0. -/
structure State.Serial (procs : Nat) (s : State) : Prop where
  untouched : ∀ first slot k k', first < slot → s.processes first = some k →
    s.processes slot = some k' → (s.queue k').Untouched
  undisturbed : ∀ k, (s.queue k).Undisturbed
  received : ∀ slot k, s.processes slot = some k →
    k.val = slot ∧ slot < procs ∨ slot = 0 ∧ procs ≤ k.val
  begun : procs ≤ s.queueend

variable {procs : Nat} {jobs : Fin queueSize → Process} {s s' : State}

theorem Process.Undisturbed.unload {q : Process} (h : q.Undisturbed)
    (hnpages : q.npages = maxProcPages) (page : Fin maxProcPages) :
    q.unload.pages page = -pageWait - 1 := by
  have hwait := pageWait_pos
  simp only [Process.unload, Process.release, hnpages]
  split_ifs with hheld
  · rfl
  · have hlt := page.isLt
    have := h page
    omega

/-- A job that has its page is in the first slot that is loaded. -/
theorem State.Serial.first (h : s.Serial procs) {slot : Nat} {k : Fin queueSize}
    (hslot : s.processes slot = some k) (hpage : (s.queue k).page < maxProcPages)
    (hin : (s.queue k).pages (s.queue k).page = 0) {other : Nat} (hother : other < slot) :
    s.processes other = none := by
  have hwait := pageWait_pos
  rw [Option.eq_none_iff_forall_ne_some]
  intro k' hk'
  have hout := (h.untouched other slot k' k hother hk' hslot).2.2 ⟨_, hpage⟩
  have hout : (s.queue k).pages (s.queue k).page = -pageWait - 1 := hout
  omega

/-- What changes the job of one slot only, and leaves it there, keeps the order if the job stays
undisturbed, and untouched unless it is the first. -/
theorem State.Serial.setJob (h : s.Serial procs) (hplaced : Placed procs jobs s) {slot : Nat}
    {k : Fin queueSize} {q : Process} (hslot : s.processes slot = some k) (hq : q.Undisturbed)
    (huntouched : ∀ first k', first < slot → s.processes first = some k' → q.Untouched) :
    (s.setJob k q).Serial procs where
  untouched first other k₁ k₂ hlt hfirst hother := by
    by_cases hk : k₂ = k
    · subst hk
      obtain rfl := hplaced.one_slot other slot k₂ hother hslot
      rw [setJob_self]
      exact huntouched first k₁ hlt hfirst
    · rw [setJob_of_ne _ _ hk]
      exact h.untouched first other k₁ k₂ hlt hfirst hother
  undisturbed k' := by
    by_cases hk : k' = k
    · rw [hk, setJob_self]
      exact hq
    · rw [setJob_of_ne _ _ hk]
      exact h.undisturbed k'
  received := h.received
  begun := h.begun

/-- The step of a slot. -/
theorem SlotMove.serial {slot : Nat} (h : SlotMove s slot s') (hserial : s.Serial procs)
    (hsched : Scheduled procs jobs s) (hslot : slot < procs)
    (hpage : ∀ k, (s.queue k).page < maxProcPages)
    (hnpages : ∀ k, (s.queue k).npages = maxProcPages) : s'.Serial procs := by
  have hlater := h.later
  cases h with
  | vacant hnone =>
      rw [reload_of_empty (hsched.filled slot hslot hnone) hnone]
      exact hserial
  | inactive k hk hinactive =>
      rw [(hsched.running slot k hk).active] at hinactive
      cases hinactive
  | blocked k hk =>
      exact hserial.setJob hsched.toPlaced hk (hserial.undisturbed k)
        fun first k' hlt hfirst => hserial.untouched first slot k' k hlt hfirst hk
  | compute k c hk _ hin =>
      refine hserial.setJob hsched.toPlaced hk (hserial.undisturbed k) ?_
      intro first k' hlt hfirst
      rw [hserial.first hk (hpage k) hin hlt] at hfirst
      cases hfirst
  | exit k hk _ hin =>
      have hbefore : ∀ other, other < slot → s.processes other = none := fun _ =>
        hserial.first hk (hpage k) hin
      -- If a job is left, slot 0 is loaded, so it is the slot that is filled again.
      have hzero : s.queueend < queueSize → slot = 0 := by
        intro hleft
        by_contra hne
        have hfilled := hsched.filled 0 (by omega) (hbefore 0 (by omega))
        omega
      refine ⟨?_, ?_, ?_, hserial.begun.trans hlater.queueend_le⟩
      · intro first other k₁ k₂ hlt _ hother
        rcases replaced_processes hother with ⟨rfl, hnext⟩ | ⟨hne, hold⟩
        · have hfirst := hzero (hnext ▸ k₂.isLt)
          omega
        · have hk₂ : k₂ ≠ k := fun heq =>
            hne (hsched.one_slot other slot k (heq ▸ hold) hk)
          rw [replaced_queue_of_ne hk₂, setJob_of_ne _ _ hk₂]
          rcases Nat.lt_or_gt_of_ne hne with hbelow | habove
          · cases (hbefore other hbelow).symm.trans hold
          · exact hserial.untouched slot other k k₂ habove hk hold
      · intro k'
        by_cases hk' : k' = k
        · intro page
          left
          rw [hk', replaced_queue_self, setJob_self]
          exact (hserial.undisturbed k).unload (hnpages k) page
        · rw [replaced_queue_of_ne hk', setJob_of_ne _ _ hk']
          exact hserial.undisturbed k'
      · intro other k' hother
        rcases replaced_processes hother with ⟨rfl, hnext⟩ | ⟨-, hold⟩
        · exact Or.inr ⟨hzero (hnext ▸ k'.isLt), hnext ▸ hserial.begun⟩
        · exact hserial.received other k' hold

/-- What moves pages only, and none of the jobs behind the first. -/
theorem State.Serial.of_paged (h : s.Serial procs) (hpaged : Paged s s')
    (hundisturbed : ∀ k, (s'.queue k).Undisturbed)
    (hbehind : ∀ first slot k k', first < slot → s.processes first = some k →
      s.processes slot = some k' → ∀ page : Fin maxProcPages,
        (s'.queue k').pages page = (s.queue k').pages page) : s'.Serial procs where
  untouched first slot k k' hlt hfirst hslot := by
    rw [hpaged.processes] at hfirst hslot
    obtain ⟨hpc, hcompute, hpages⟩ := h.untouched first slot k k' hlt hfirst hslot
    have hsame : (s'.queue k').pc = (s.queue k').pc := hpaged.same (·.pc) (fun _ _ => rfl) k'
    refine ⟨hsame.trans hpc, (hpaged.compute k').trans hcompute, fun page => ?_⟩
    rw [hbehind first slot k k' hlt hfirst hslot page, hpages page]
  undisturbed := hundisturbed
  received := hpaged.processes ▸ h.received
  begun := hpaged.queueend ▸ h.begun

theorem State.Serial.clock (h : s.Serial procs) (sysclock : Nat) :
    ({ s with sysclock } : State).Serial procs :=
  ⟨h.untouched, h.undisturbed, h.received, h.begun⟩

theorem State.Serial.ageSlot (h : s.Serial procs) (hplaced : Placed procs jobs s)
    (hnpages : ∀ k, (s.queue k).npages = maxProcPages) (slot : Nat) :
    (s.ageSlot slot).Serial procs := by
  have hwait := pageWait_pos
  have hcell : ∀ c, (s.ageSlot slot).pool.cell c = s.pool.cell c ∨
      (s.ageSlot slot).pool.cell c = ageCell pageWait (s.pool.cell c) := by
    intro c
    rw [pool_ageSlot slot hnpages fun k hk => (hplaced.running slot k hk).active,
      (foldl_age (slotCells_nodup s slot) s.pool).1]
    split_ifs
    · exact Or.inr rfl
    · exact Or.inl rfl
  have hout : ∀ c, s.pool.cell c = -pageWait - 1 →
      (s.ageSlot slot).pool.cell c = -pageWait - 1 := by
    intro c hc
    rcases hcell c with hsame | haged
    · rw [hsame, hc]
    · rw [haged, hc, ageCell, if_pos (by omega)]
  refine h.of_paged (paged_ageSlot s slot) (fun k page => ?_) fun first other k k' hlt hk hk' page => ?_
  · rcases h.undisturbed k page with hgone | hin
    · exact Or.inl (hout (k, page) hgone)
    · have hin : 0 ≤ s.pool.cell (k, page) := hin
      right
      show 0 ≤ (s.ageSlot slot).pool.cell (k, page)
      rcases hcell (k, page) with hsame | haged
      · omega
      · rw [haged, ageCell]
        split_ifs <;> omega
  · have hgone := (h.untouched first other k k' hlt hk hk').2.2 page
    exact (hout (k', page) hgone).trans hgone.symm

/-! ### Requests -/

/-- The frames are all with the first job. -/
theorem State.Serial.avail_ne (h : s.Serial procs) (hframed : Framed s) : s.pool.avail ≠ 0 := by
  have hwait := pageWait_pos
  obtain ⟨k, hothers⟩ : ∃ k, ∀ k', k' ≠ k → ∀ page, s.pool.cell (k', page) = -pageWait - 1 := by
    by_cases hloaded : ∃ slot k, s.processes slot = some k
    · obtain ⟨first, k, hk, hbefore⟩ := first_loaded hloaded
      refine ⟨k, fun k' hne page => ?_⟩
      by_cases hslot : ∃ slot, s.processes slot = some k'
      · obtain ⟨slot, hslot⟩ := hslot
        rcases Nat.lt_trichotomy slot first with hlt | rfl | hgt
        · rw [hbefore slot hlt] at hslot
          cases hslot
        · exact absurd (Option.some.inj (hslot.symm.trans hk)) hne
        · exact (h.untouched first slot k k' hgt hk hslot).2.2 page
      · exact hframed.idle k' (not_exists.mp hslot) page
    · exact ⟨0, fun k' _ page =>
        hframed.idle k' (fun slot hslot => hloaded ⟨slot, k', hslot⟩) page⟩
  have hheld : ∑ c, held pageWait (s.pool.cell c) ≤ maxProcPages := by
    calc
      ∑ c, held pageWait (s.pool.cell c) =
          ∑ k', ∑ page, held pageWait (s.pool.cell (k', page)) := Fintype.sum_prod_type _
      _ = ∑ page, held pageWait (s.pool.cell (k, page)) := by
        apply Finset.sum_eq_single k
        · intro k' _ hne
          apply Finset.sum_eq_zero
          intro page _
          rw [hothers k' hne page, held, if_neg (by omega)]
        · intro hk
          exact absurd (Finset.mem_univ k) hk
      _ ≤ ∑ _page : Fin maxProcPages, 1 := by
        apply Finset.sum_le_sum
        intro page _
        unfold held
        split_ifs <;> omega
      _ = maxProcPages := by simp
  have htotal := hframed.balanced.total
  simp only [physicalPages, maxProcPages] at htotal hheld
  omega

section Requests

variable {config : Config} {slot : Nat} {k : Fin queueSize}

/-- A request for a page of the first job is granted, and leaves the jobs in their order. -/
theorem State.Serial.grants (h : s.Serial config.procs) (hreach : config.Reaches s)
    (hslot : s.processes slot = some k) (hfirst : ∀ other, other < slot → s.processes other = none)
    (page : Fin maxProcPages) :
    ((PageCall.pagein slot page).answer config.procs s).1 = true ∧
      ((PageCall.pagein slot page).answer config.procs s).2.Serial config.procs ∧
      ((s.queue k).pages page < -pageWait →
        (((PageCall.pagein slot page).answer config.procs s).2.queue k).pages page = pageWait) := by
  have hwait := pageWait_pos
  obtain ⟨fuel, jobs, -, hsched⟩ := hreach.scheduled
  have htarget : s.target config.procs slot page = some (k, page.val) := by
    apply target_eq hslot (hsched.slot_lt slot k hslot) (hsched.running slot k hslot).active
    rw [hreach.npages]
    exact page.isLt
  obtain ⟨hanswer, hpool⟩ := answer_perform (r := .pagein slot page) (c := (k, page)) htarget
  have havail := h.avail_ne hreach.framed
  have hcell : s.pool.cell (k, page) = -pageWait - 1 ∨ 0 ≤ s.pool.cell (k, page) :=
    h.undisturbed k page
  have htake := take_of_avail havail
    (show s.pool.cell (k, page) < -pageWait ∨ 0 ≤ s.pool.cell (k, page) by omega)
  have hcells : ∀ c, ((PageCall.pagein slot page).answer config.procs s).2.pool.cell c =
      (take pageWait (k, page) s.pool).2.cell c := fun c => by rw [hpool]; rfl
  refine ⟨hanswer.trans htake.1, ?_, fun hout => ?_⟩
  · apply h.of_paged (paged_answer config.procs _ s)
    · intro k' page'
      show ((PageCall.pagein slot page).answer config.procs s).2.pool.cell (k', page') = _ ∨
        0 ≤ ((PageCall.pagein slot page).answer config.procs s).2.pool.cell (k', page')
      rw [hcells]
      rcases htake.2 with ⟨hsame, -⟩ | hset
      · rw [hsame]
        exact h.undisturbed k' page'
      · rw [hset, Function.update_apply]
        split_ifs
        · exact Or.inr hwait.le
        · exact h.undisturbed k' page'
    · intro first other k₁ k₂ hlt hk₁ hk₂ page'
      have hne : k₂ ≠ k := by
        rintro rfl
        rw [hsched.one_slot other slot k₂ hk₂ hslot] at hlt
        rw [hfirst first hlt] at hk₁
        cases hk₁
      show ((PageCall.pagein slot page).answer config.procs s).2.pool.cell (k₂, page') = _
      rw [hcells]
      rcases htake.2 with ⟨hsame, -⟩ | hset
      · rw [hsame]
        rfl
      · rw [hset, Function.update_of_ne fun heq => hne (Prod.mk.inj heq).1]
        rfl
  · show ((PageCall.pagein slot page).answer config.procs s).2.pool.cell (k, page) = pageWait
    rw [hcells]
    rcases htake.2 with ⟨-, hin⟩ | hset
    · have hin : 0 ≤ (s.queue k).pages page := hin
      omega
    · rw [hset, Function.update_self]

/-- What a call of the pager does: nothing, or the one request for the page that the first job
needs. -/
theorem State.Serial.call (h : s.Serial config.procs) (hreach : config.Reaches s)
    (hpage : ∀ k, (s.queue k).page < maxProcPages) (st : basic.State) :
    ((basic.pageit s.pentry st).moments (PageCall.answer config.procs) s = [] ∧
      (callyou basic config.procs (st, s)).2 = s ∧
      ∀ slot k, s.processes slot = some k → (∀ other, other < slot → s.processes other = none) →
        (s.queue k).pages (s.queue k).page = 0) ∨
    ∃ slot k, s.processes slot = some k ∧ (∀ other, other < slot → s.processes other = none) ∧
      (basic.pageit s.pentry st).moments (PageCall.answer config.procs) s =
        [(.pagein slot (s.queue k).page, s)] ∧
      (callyou basic config.procs (st, s)).2 =
        ((PageCall.pagein slot (s.queue k).page).answer config.procs s).2 := by
  obtain ⟨fuel, jobs, -, hsched⟩ := hreach.scheduled
  by_cases hloaded : ∃ slot k, s.processes slot = some k
  · obtain ⟨slot, k, hslot, hfirst⟩ := first_loaded hloaded
    obtain ⟨hactive, hpageOf⟩ := pentry_of_some hslot
    rw [(hsched.running slot k hslot).active] at hactive
    have hlt := (hsched.slot_lt slot k hslot).trans_le config.procs_le
    have hbefore : ∀ other, other < slot → (s.pentry other).active = false := fun other hother => by
      simp [State.pentry, hfirst other hother]
    cases hresident : (s.pentry slot).pages (s.pentry slot).page with
    | true =>
        obtain ⟨st', hcall⟩ := basic_resident hlt hactive hbefore hresident st
        refine Or.inl ⟨by rw [hcall]; rfl, by rw [callyou, hcall]; rfl, fun slot' k' hk' hfirst' => ?_⟩
        obtain rfl : slot' = slot := first_unique hk' hfirst' hslot hfirst
        obtain ⟨c, hc, hon, hzero⟩ := (pentry_pages_iff hreach.npages).mp hresident
        obtain rfl : c.1 = k' := Option.some.inj (hc.symm.trans hk')
        rw [(pentry_of_some hk').2] at hon
        rw [← hon]
        exact hzero
    | false =>
        obtain ⟨next, st', hcall, hgranted⟩ := basic_absent hlt hactive hbefore hresident st
        have hgrant := (h.grants hreach hslot hfirst ⟨_, hpage k⟩).1
        rw [hpageOf] at hcall
        refine Or.inr ⟨slot, k, hslot, hfirst, ?_, ?_⟩
        · rw [hcall, moments, hgrant, hgranted]
          rfl
        · rw [callyou, hcall, run_call, hgrant, hgranted]
          rfl
  · obtain ⟨st', hcall⟩ := basic_idle (q := s.pentry) (fun proc _ => by
      cases hproc : s.processes proc with
      | none => simp [State.pentry, hproc]
      | some k => exact absurd ⟨proc, k, hproc⟩ hloaded) st
    exact Or.inl ⟨by rw [hcall]; rfl, by rw [callyou, hcall]; rfl,
      fun slot k hslot => absurd ⟨slot, k, hslot⟩ hloaded⟩

/-- The page that the first job needs is on its way after the call, if it was out. -/
theorem State.Serial.asks (h : s.Serial config.procs) (hreach : config.Reaches s)
    (hpage : ∀ k, (s.queue k).page < maxProcPages) (st : basic.State)
    (hslot : s.processes slot = some k) (hfirst : ∀ other, other < slot → s.processes other = none)
    (hout : (s.queue k).pages (s.queue k).page < -pageWait) :
    ((callyou basic config.procs (st, s)).2.queue k).pages (s.queue k).page = pageWait := by
  have hwait := pageWait_pos
  rcases h.call hreach hpage st with ⟨-, -, hin⟩ | ⟨slot', k', hk', hfirst', -, hcall⟩
  · have hzero := hin slot k hslot hfirst
    omega
  · obtain rfl := first_unique hk' hfirst' hslot hfirst
    obtain rfl : k' = k := Option.some.inj (hk'.symm.trans hslot)
    rw [hcall]
    exact (h.grants hreach hslot hfirst ⟨_, hpage k'⟩).2.2 hout

theorem State.Serial.callyou (h : s.Serial config.procs) (hreach : config.Reaches s)
    (hpage : ∀ k, (s.queue k).page < maxProcPages) (st : basic.State) :
    (callyou basic config.procs (st, s)).2.Serial config.procs := by
  rcases h.call hreach hpage st with ⟨-, hcall, -⟩ | ⟨slot, k, hslot, hfirst, -, hcall⟩
  · rw [hcall]
    exact h
  · rw [hcall]
    exact (h.grants hreach hslot hfirst ⟨_, hpage k⟩).2.1

end Requests

/-! ### The run -/

/-- The states that iteration `n` goes through: slot after slot in `allstep` and in `allage`, and
before and after every call of the pager. -/
inductive Config.Passes (config : Config) (pager : Pager) (s₀ : State) (n : Nat) : State → Prop where
  | step (i : Nat) (hi : i ≤ config.procs) :
      config.Passes pager s₀ n (loop State.stepSlot i (config.run pager s₀ n).2)
  | age (i : Nat) (hi : i ≤ config.procs) : config.Passes pager s₀ n
      (loop State.ageSlot i (allstep config.procs (config.run pager s₀ n).2))
  | call (r : PageCall) (s : State) (hcall : (r, s) ∈ config.calls pager s₀ n) :
      config.Passes pager s₀ n s
  | answer (r : PageCall) (s : State) (hcall : (r, s) ∈ config.calls pager s₀ n) :
      config.Passes pager s₀ n (r.answer config.procs s).2

section Run

variable {config : Config} {s₀ : State}

theorem start_serial (h : config.Starts s₀) : s₀.Serial config.procs := by
  have hreach : config.Reaches s₀ := ⟨s₀, h, .refl⟩
  obtain ⟨fuel, jobs, hjobs, hqueue, -⟩ := start_boot h
  obtain ⟨fuel', jobs', -, hsched⟩ := hreach.scheduled
  obtain ⟨hqueueend, hslots⟩ := start_slots h
  have hfresh := fun k => initqueue_fresh hjobs k
  rw [← hqueue] at hfresh
  refine ⟨?_, ?_, ?_, hqueueend.ge⟩
  · intro _ _ _ k' _ _ _
    exact ⟨(hfresh k').pc, (hfresh k').compute, fun page => (hfresh k').pages page⟩
  · exact fun k page => Or.inl ((hfresh k).pages page)
  · exact fun slot k hslot => Or.inl ⟨hslots slot k hslot, hsched.slot_lt slot k hslot⟩

variable (htable : config.table = programs) {s : State}

include htable

theorem State.Serial.steps (h : s.Serial config.procs) (hreach : config.Reaches s) {i : Nat}
    (hi : i ≤ config.procs) : config.Reaches (loop State.stepSlot i s) ∧
      (loop State.stepSlot i s).Serial config.procs := by
  refine loop_invariant (fun _ (s : State) => config.Reaches s ∧ s.Serial config.procs)
    ⟨hreach, h⟩ ?_
  rintro slot s hslot ⟨hreach, h⟩
  obtain ⟨fuel, jobs, -, hsched⟩ := hreach.scheduled
  have hlt : slot < config.procs := hslot.trans_le hi
  exact ⟨hreach.phase (a := .step slot) (if_pos hlt),
    (stepSlot_move s slot).serial h hsched hlt (hreach.page_lt htable) hreach.npages⟩

omit htable in
theorem State.Serial.ages (h : s.Serial config.procs) (hreach : config.Reaches s) {i : Nat}
    (hi : i ≤ config.procs) : config.Reaches (loop State.ageSlot i s) ∧
      (loop State.ageSlot i s).Serial config.procs := by
  refine loop_invariant (fun _ (s : State) => config.Reaches s ∧ s.Serial config.procs)
    ⟨hreach, h⟩ ?_
  rintro slot s hslot ⟨hreach, h⟩
  obtain ⟨fuel, jobs, -, hsched⟩ := hreach.scheduled
  exact ⟨hreach.phase (a := .age slot) (if_pos (hslot.trans_le hi)),
    h.ageSlot hsched.toPlaced hreach.npages slot⟩

theorem State.Serial.midTick (h : s.Serial config.procs) (hreach : config.Reaches s) :
    (midTick config.procs s).Serial config.procs := by
  obtain ⟨hreach₁, h₁⟩ := h.steps htable hreach le_rfl
  exact (h₁.ages hreach₁ le_rfl).2

theorem run_serial (h : config.Starts s₀) (n : Nat) :
    (config.run basic s₀ n).2.Serial config.procs := by
  induction n with
  | zero => exact start_serial h
  | succ n ih =>
      have hreach := shown_reaches basic h n
      have hshown : (config.shown basic s₀ n).Serial config.procs :=
        ih.midTick htable (run_reaches basic h n)
      have hcalled := hshown.callyou hreach (hreach.page_lt htable) (config.run basic s₀ n).1
      rw [run_succ_callyou]
      exact hcalled.clock _

theorem shown_serial (h : config.Starts s₀) (n : Nat) :
    (config.shown basic s₀ n).Serial config.procs :=
  (run_serial htable h n).midTick htable (run_reaches basic h n)

/-- The one request that an iteration can make. -/
theorem calls_serial (h : config.Starts s₀) {n : Nat} {r : PageCall} {s : State}
    (hcall : (r, s) ∈ config.calls basic s₀ n) :
    s.Serial config.procs ∧ (r.answer config.procs s).1 = true ∧
      (r.answer config.procs s).2.Serial config.procs ∧ ∃ process page, r = .pagein process page := by
  have hreach := shown_reaches basic h n
  have hserial := shown_serial htable h n
  have hpage := hreach.page_lt htable
  rcases hserial.call hreach hpage (config.run basic s₀ n).1 with
    ⟨hnone, -⟩ | ⟨slot, k, hslot, hfirst, hone, -⟩
  · rw [Config.calls, hnone] at hcall
    cases hcall
  · rw [Config.calls, hone, List.mem_singleton] at hcall
    obtain ⟨rfl, rfl⟩ := Prod.mk.inj hcall
    obtain ⟨hgranted, hafter, -⟩ := hserial.grants hreach hslot hfirst ⟨_, hpage k⟩
    exact ⟨hserial, hgranted, hafter, _, _, rfl⟩

theorem passes_serial (h : config.Starts s₀) {n : Nat} {s : State}
    (hpass : config.Passes basic s₀ n s) : s.Serial config.procs := by
  have hreach := run_reaches basic h n
  have hserial := run_serial htable h n
  obtain ⟨hreach₁, h₁⟩ := hserial.steps htable hreach le_rfl
  cases hpass with
  | step i hi => exact (hserial.steps htable hreach hi).2
  | age i hi => exact (h₁.ages hreach₁ hi).2
  | call r s hcall => exact (calls_serial htable h hcall).1
  | answer r s hcall => exact (calls_serial htable h hcall).2.2.1

end Run

end OperatingSystems.Simulator
