import OperatingSystems.PagerBasicSerial
import OperatingSystems.PagerLruProgress
import OperatingSystems.SimulatorTransfers

/-!
Demand paging. `pager-basic` and `pager-lru` ask for no page but the one that a process is on, and
a process that waits for its page stays on it; so at any time the only page on its way to a process
is the one it waits for.
-/

namespace OperatingSystems.Simulator

open Loop CallTree

/-! ### Pagers that ask for the pages in use only -/

/-- The call brings in no page but one that the snapshot has a process on. -/
def PageCall.OnDemand (q : Snapshot) : PageCall → Prop
  | .pagein process page => ∃ slot : Nat, process = slot ∧ page = (q slot).page
  | .pageout _ _ => True

def Pager.OnDemand (pager : Pager) : Prop :=
  ∀ ⦃q st⦄, Only (PageCall.OnDemand q) (pager.pageit q st)

theorem basic_onDemand : basic.OnDemand := by
  intro q st
  rw [basic_pageit]
  refine (Only.sweepUntil (fun proc _ _ => ?_) ()).bind fun _ => .ret _
  unfold basicServe
  split
  · simp only [ask_bind]
    split
    · exact .ret _
    · refine .call ⟨proc, rfl, rfl⟩ fun coming => ?_
      split
      · exact .ret _
      · refine Only.bind ?_ fun _ => .ret _
        apply Only.sweepUntil
        intro oldpage _ _
        split_ifs
        · exact .call trivial fun _ => .ret _
        · exact .ret _
  · exact .ret _

theorem lru_onDemand : lru.OnDemand := by
  intro q (st : Lru)
  rw [lru_pageit q st]
  refine (Only.sweep (fun proc st _ => ?_) st).bind fun _ => .ret _
  unfold lruServe
  split
  · simp only [ask_bind]
    split
    · exact .ret _
    · refine .call ⟨proc, rfl, rfl⟩ fun coming => ?_
      split
      · exact .ret _
      · exact .call trivial fun _ => .call ⟨proc, rfl, rfl⟩ fun _ => .ret _
  · exact .ret _

/-! ### The invariant -/

/-- Every page on its way to an active job is the page that the job is on. -/
def State.Demanded (s : State) : Prop :=
  ∀ k, (s.queue k).active = true → ∀ page, 0 < (s.queue k).pages page → page = (s.queue k).page

variable {s s' : State}

/-- A page may be set if it is not then on its way, or is the one that the job is on. -/
theorem State.Demanded.setPage (h : s.Demanded) {k : Fin queueSize} {page : Nat} {v : Int}
    (hv : (s.queue k).active = true → 0 < v → page = (s.queue k).page) :
    (s.setPage k page v).Demanded := by
  intro k' hactive page' hcoming
  by_cases hk : k' = k
  · subst hk
    rw [State.setPage, setJob_self] at hactive hcoming ⊢
    by_cases hpage : page' = page
    · subst hpage
      simp only [Function.update_self] at hcoming
      exact hv hactive hcoming
    · simp only [Function.update_of_ne hpage] at hcoming
      exact h k' hactive page' hcoming
  · rw [State.setPage, setJob_of_ne _ _ hk] at hactive hcoming ⊢
    exact h k' hactive page' hcoming

theorem State.Demanded.setJob (h : s.Demanded) {k : Fin queueSize} {q : Process}
    (hq : q.active = true → ∀ page, 0 < q.pages page → page = q.page) :
    (s.setJob k q).Demanded := by
  intro k' hactive page hcoming
  by_cases hk : k' = k
  · subst hk
    rw [setJob_self] at hactive hcoming ⊢
    exact hq hactive page hcoming
  · rw [setJob_of_ne _ _ hk] at hactive hcoming ⊢
    exact h k' hactive page hcoming

/-- A job moves on only when its page is there, and then no page is on its way. -/
theorem SlotMove.demanded {slot : Nat} (h : SlotMove s slot s') (hs : s.Demanded) :
    s'.Demanded := by
  have hreload : ∀ {t : State}, t.Demanded → (t.reload slot).Demanded := by
    intro t ht
    rwa [State.Demanded, reload_queue]
  cases h with
  | vacant _ => exact hreload hs
  | inactive _ _ _ => exact hreload hs
  | blocked k _ _ _ => exact hs.setJob (hs k)
  | compute k c _ hactive hin _ =>
      refine hs.setJob fun _ page hcoming => ?_
      obtain rfl := hs k hactive page hcoming
      exact absurd hin hcoming.ne'
  | exit k _ _ _ _ =>
      intro k' hactive page hcoming
      by_cases hk : k' = k
      · rw [hk, replaced_queue_self] at hactive
        cases hactive
      · rw [replaced_queue_of_ne hk, setJob_of_ne _ _ hk] at hactive hcoming ⊢
        exact hs k' hactive page hcoming

theorem State.Demanded.ageSlot (h : s.Demanded) (slot : Nat) : (s.ageSlot slot).Demanded := by
  unfold State.ageSlot
  split
  · exact h
  · rename_i k _
    split_ifs
    · refine loop_invariant (fun _ (s : State) => s.Demanded) h ?_
      intro page s _ hs
      have hset : (s.setPage k page ((s.queue k).pages page - 1)).Demanded :=
        hs.setPage fun hactive hcoming => hs k hactive page (by omega)
      unfold State.agePage
      dsimp only
      split_ifs
      · exact hs
      · exact hs
      · exact hset
      · exact hset
      · exact hset
    · exact h

/-- A call on demand; the page that the snapshot has the process on is still the one that it is
on. -/
theorem State.Demanded.answer {procs : Nat} {shown : State} {r : PageCall} (h : s.Demanded)
    (hpaged : Paged shown s) (hr : r.OnDemand shown.pentry) : (r.answer procs s).2.Demanded := by
  cases r with
  | pagein process page =>
      obtain ⟨slot, rfl, rfl⟩ := hr
      simp only [PageCall.answer, pagein]
      split
      · exact h
      · rename_i k j htarget
        obtain ⟨-, -, hslot, -, -, -, rfl⟩ := target_cases htarget
        have hbefore : shown.processes slot = some k := hpaged.processes ▸ hslot
        have hset : (s.setPage k ((shown.pentry slot).page : Int).toNat pageWait).Demanded := by
          refine h.setPage fun _ _ => ?_
          rw [Int.toNat_natCast, (pentry_of_some hbefore).2, hpaged.still.page]
        split_ifs
        · exact h
        · exact h
        · exact h
        · exact hset
  | pageout process page =>
      simp only [PageCall.answer, pageout]
      split
      · exact h
      · split_ifs
        · exact h
        · exact h
        · exact h.setPage fun _ hpos => absurd hpos (by decide)

theorem State.Demanded.steps (h : s.Demanded) (n : Nat) :
    (loop State.stepSlot n s).Demanded :=
  loop_invariant (fun _ (s : State) => s.Demanded) h fun slot s _ hs =>
    (stepSlot_move s slot).demanded hs

theorem State.Demanded.ages (h : s.Demanded) (n : Nat) :
    (loop State.ageSlot n s).Demanded :=
  loop_invariant (fun _ (s : State) => s.Demanded) h fun slot _ _ hs => hs.ageSlot slot

/-! ### The run -/

section Run

variable {config : Config} {s₀ : State} {pager : Pager}

theorem start_demanded (h : config.Starts s₀) : s₀.Demanded := by
  obtain ⟨fuel, jobs, hjobs, hqueue, -⟩ := start_boot h
  intro k _ page hcoming
  rw [hqueue, (initqueue_fresh hjobs k).pages page] at hcoming
  exact absurd hcoming (by decide)

variable (honDemand : pager.OnDemand)

include honDemand

/-- The calls of an iteration. -/
theorem State.Demanded.calls (h : s.Demanded) (st : pager.State) :
    (∀ x ∈ (pager.pageit s.pentry st).moments (PageCall.answer config.procs) s,
      x.2.Demanded ∧ (x.1.answer config.procs x.2).2.Demanded) ∧
      (callyou pager config.procs (st, s)).2.Demanded := by
  have hkeep : ∀ (r : PageCall) (t : State), r.OnDemand s.pentry → Paged s t ∧ t.Demanded →
      Paged s (r.answer config.procs t).2 ∧ (r.answer config.procs t).2.Demanded := by
    rintro r t hr ⟨hpaged, ht⟩
    exact ⟨hpaged.trans (paged_answer config.procs r t), ht.answer hpaged hr⟩
  have honly : Only (fun r => r.OnDemand s.pentry) (pager.pageit s.pentry st) := @honDemand _ _
  obtain ⟨hmoments, hrun⟩ := honly.invariant hkeep ⟨.refl s, h⟩
  exact ⟨fun x hx => ⟨(hmoments x hx).1.2, (hmoments x hx).2.2⟩, hrun.2⟩

theorem run_demanded (h : config.Starts s₀) (n : Nat) : (config.run pager s₀ n).2.Demanded := by
  induction n with
  | zero => exact start_demanded h
  | succ n ih =>
      rw [run_succ_callyou]
      exact (State.Demanded.calls honDemand ((ih.steps _).ages _) _).2

theorem passes_demanded (h : config.Starts s₀) {n : Nat} (hpass : config.Passes pager s₀ n s) :
    s.Demanded := by
  have hrun := run_demanded honDemand h n
  have hshown : (config.shown pager s₀ n).Demanded := (hrun.steps _).ages _
  have hcalls : ∀ x ∈ config.calls pager s₀ n,
      x.2.Demanded ∧ (x.1.answer config.procs x.2).2.Demanded :=
    (State.Demanded.calls honDemand hshown _).1
  cases hpass with
  | step i _ => exact hrun.steps i
  | age i _ => exact (hrun.steps _).ages i
  | call r s hcall => exact (hcalls _ hcall).1
  | answer r s hcall => exact (hcalls _ hcall).2

end Run

/-- Under `pager-basic` and `pager-lru`, in every state of every run: the only page on its way to an
active process is the one that the process waits for. -/
theorem incoming_is_awaited (config : Config) {pager : Pager} (hpager : pager = basic ∨ pager = lru)
    (s₀ : State) (h : config.Starts s₀) (n : Nat) (s : State)
    (hpass : config.Passes pager s₀ n s) (k : Fin queueSize) (hactive : (s.queue k).active = true) :
    (∀ page, 0 < (s.queue k).pages page → page = (s.queue k).page) ∧
      ∀ page page', 0 < (s.queue k).pages page → 0 < (s.queue k).pages page' → page = page' := by
  have honDemand : pager.OnDemand := by
    rcases hpager with rfl | rfl
    · exact basic_onDemand
    · exact lru_onDemand
  have honly := passes_demanded honDemand h hpass k hactive
  exact ⟨honly, fun page page' hpage hpage' => (honly page hpage).trans (honly page' hpage').symm⟩

/-- The first page that is brought in. -/
theorem incoming_is_awaited_alternating : ∃ s₀, alternatingConfig.Starts s₀ ∧
    ∃ k s, alternatingConfig.Passes lru s₀ 0 s ∧ (s.queue k).pages 0 = pageWait ∧
      0 = (s.queue k).page := by
  obtain ⟨s₀, hstart⟩ := alternatingConfig_starts
  obtain ⟨k, hslot⟩ := Option.isSome_iff_exists.mp
    (start_loaded hstart (show 0 < alternatingConfig.procs by decide))
  obtain ⟨after, hmakes⟩ := first_makes lru_live hstart hslot
  have hstarts := (first_starts lru hstart hslot).2
  have hpass := Config.Passes.answer _ _ hmakes.mem
  have hloaded := (shown_first lru hstart hslot).1
  obtain ⟨fuel, jobs, -, hsched⟩ := (shown_reaches lru hstart 0).scheduled
  have hactive := (hsched.running 0 k hloaded).active
  rw [← (paged_answer alternatingConfig.procs (.pagein (0 : Nat) (0 : Nat)) _).active] at hactive
  refine ⟨s₀, hstart, k, _, hpass, hstarts, ?_⟩
  exact (incoming_is_awaited alternatingConfig (Or.inr rfl) s₀ hstart 0 _ hpass k hactive).1 0
    (lt_of_lt_of_eq pageWait_pos hstarts.symm)

end OperatingSystems.Simulator
