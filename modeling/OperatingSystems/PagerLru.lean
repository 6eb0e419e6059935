import OperatingSystems.SimulatorModel

/-!
The pager `pager-lru`. It stamps the page of every active process and, when a page cannot come in,
gives up a page of the same process. The search for an older page starts at the page whose number
the clock gives and looks for a stamp greater than the one just written, of which there is none:
the page given up is the one it starts at.
-/

namespace OperatingSystems.Simulator

open CallTree

/-! ### The pager -/

/-- The static variables `tick` and `timestamps`. The clock is an `int`, which overflows in call
number `2 ^ 31 - 1`; here it is unbounded. -/
structure Lru where
  tick : Nat
  timestamps : Nat → Nat → Nat

/-- `timestamps[proc][page] = tick`. -/
def Lru.stamp (st : Lru) (proc page : Nat) : Lru :=
  { st with
    timestamps := Function.update st.timestamps proc
      (Function.update (st.timestamps proc) page st.tick) }

/-- The loop over `oldpage`, down to `1`, with the pair of `maxTime` and `pageToSwap`. -/
def olderPage (pages : Nat → Bool) (timestamps : Nat → Nat) : Nat → Nat × Nat → Nat × Nat
  | 0, best => best
  | oldpage + 1, best =>
      olderPage pages timestamps oldpage
        (if pages (oldpage + 1) = true ∧ timestamps (oldpage + 1) > best.1 then
          (timestamps (oldpage + 1), oldpage + 1)
        else best)

/-- The page that is given up for the process. -/
def Lru.pageToSwap (st : Lru) (e : Pentry) (proc : Nat) : Nat :=
  let maxTime := st.timestamps proc e.page
  let pageToSwap := maxTime % maxProcPages
  (olderPage e.pages (st.timestamps proc) pageToSwap (maxTime, pageToSwap)).2

/-- The body of the loop over the processes. -/
def lruServe (q : Snapshot) (proc : Nat) (st : Lru) : CallTree PageCall Bool Lru :=
  if (q proc).active then
    let page := (q proc).page
    let st := st.stamp proc page
    if (q proc).pages page then pure st
    else do
      let coming ← ask (.pagein proc page)
      if coming then pure st
      else do
        let _ ← ask (.pageout proc (st.pageToSwap (q proc) proc))
        let _ ← ask (.pagein proc page)
        pure st
  else pure st

/-- `pageit` of `pager-lru`. -/
def lru : Pager where
  State := Lru
  init := { tick := 1, timestamps := fun _ _ => 0 }
  pageit q st := do
    let st ← sweep (lruServe q) maxProcesses st
    pure { st with tick := st.tick + 1 }

theorem lru_pageit (q : Snapshot) (st : Lru) : lru.pageit q st =
    sweep (lruServe q) maxProcesses st >>= fun st => ret { st with tick := st.tick + 1 } := rfl

/-! ### The service of one process -/

@[simp] theorem stamp_tick (st : Lru) (proc page : Nat) : (st.stamp proc page).tick = st.tick := rfl

@[simp] theorem stamp_self (st : Lru) (proc page : Nat) :
    (st.stamp proc page).timestamps proc page = st.tick := by
  simp [Lru.stamp]

theorem stamp_of_ne (st : Lru) {proc proc' : Nat} (page : Nat) (h : proc' ≠ proc) :
    (st.stamp proc page).timestamps proc' = st.timestamps proc' :=
  Function.update_of_ne h _ _

/-- No stamp is from the future. -/
def Lru.Past (st : Lru) : Prop := ∀ proc page, st.timestamps proc page ≤ st.tick

theorem Lru.Past.stamp {st : Lru} (h : st.Past) (proc page : Nat) : (st.stamp proc page).Past := by
  intro proc' page'
  by_cases hproc : proc' = proc
  · subst hproc
    by_cases hpage : page' = page
    · subst hpage
      rw [stamp_self, stamp_tick]
    · simp only [Lru.stamp, Function.update_self, Function.update_of_ne hpage]
      exact h proc' page'
  · rw [stamp_of_ne _ _ hproc]
    exact h proc' page'

/-- Without a stamp greater than the one to beat, the search stays where it starts. -/
theorem olderPage_eq (pages : Nat → Bool) {timestamps : Nat → Nat} {best : Nat × Nat}
    (h : ∀ page, timestamps page ≤ best.1) (n : Nat) : olderPage pages timestamps n best = best := by
  induction n with
  | zero => rfl
  | succ n ih =>
      rw [olderPage, if_neg fun hgt => absurd (h (n + 1)) (not_le.mpr hgt.2)]
      exact ih

/-- The page given up is always the one whose number is the clock modulo `MAXPROCPAGES`. -/
theorem pageToSwap_eq {st : Lru} (h : st.Past) (e : Pentry) (proc : Nat) :
    (st.stamp proc e.page).pageToSwap e proc = st.tick % maxProcPages := by
  have hpast := h.stamp proc e.page
  simp only [Lru.pageToSwap, stamp_self]
  rw [olderPage_eq]
  intro page
  exact hpast proc page

variable {q : Snapshot} {proc : Nat} {st st' : Lru} {log : List (PageCall × Bool)}

/-- The conversations about one process. -/
inductive LruService (q : Snapshot) (proc : Nat) (st : Lru) :
    List (PageCall × Bool) → Lru → Prop where
  | inactive (hactive : (q proc).active = false) : LruService q proc st [] st
  | resident (hactive : (q proc).active = true) (hpage : (q proc).pages (q proc).page = true) :
      LruService q proc st [] (st.stamp proc (q proc).page)
  | coming (hactive : (q proc).active = true) (hpage : (q proc).pages (q proc).page = false) :
      LruService q proc st [(.pagein proc (q proc).page, true)] (st.stamp proc (q proc).page)
  | swap (hactive : (q proc).active = true) (hpage : (q proc).pages (q proc).page = false)
      (going coming : Bool) :
      LruService q proc st [(.pagein proc (q proc).page, false),
        (.pageout proc (st.tick % maxProcPages : Nat), going),
        (.pagein proc (q proc).page, coming)] (st.stamp proc (q proc).page)

theorem talk_lruServe (hpast : st.Past) (h : Talk (lruServe q proc st) log st') :
    LruService q proc st log st' := by
  unfold lruServe at h
  cases hactive : (q proc).active with
  | false =>
      simp only [hactive, Bool.false_eq_true, if_false, pure_eq, talk_ret_iff] at h
      obtain ⟨rfl, rfl⟩ := h
      exact .inactive hactive
  | true =>
      simp only [hactive, if_true] at h
      cases hpage : (q proc).pages (q proc).page with
      | true =>
          simp only [hpage, if_true, pure_eq, talk_ret_iff] at h
          obtain ⟨rfl, rfl⟩ := h
          exact .resident hactive hpage
      | false =>
          simp only [hpage, Bool.false_eq_true, if_false, ask_bind, talk_call_iff] at h
          obtain ⟨coming, rest, rfl, hrest⟩ := h
          cases coming with
          | true =>
              simp only [if_true, pure_eq, talk_ret_iff] at hrest
              obtain ⟨rfl, rfl⟩ := hrest
              exact .coming hactive hpage
          | false =>
              simp only [Bool.false_eq_true, if_false, talk_call_iff, pure_eq, talk_ret_iff,
                pageToSwap_eq hpast] at hrest
              obtain ⟨going, _, rfl, again, _, rfl, rfl, rfl⟩ := hrest
              exact .swap hactive hpage going again

theorem LruService.stamps (h : LruService q proc st log st') :
    st' = st ∨ st' = st.stamp proc (q proc).page := by
  cases h with
  | inactive _ => exact Or.inl rfl
  | resident _ _ => exact Or.inr rfl
  | coming _ _ => exact Or.inr rfl
  | swap _ _ _ _ => exact Or.inr rfl

/-- Serving a process makes requests for this process only. -/
theorem lruServe_only (q : Snapshot) (proc : Nat) (st : Lru) :
    Only (fun r : PageCall => r.process = proc) (lruServe q proc st) := by
  unfold lruServe
  by_cases hactive : (q proc).active = true
  · simp only [if_pos hactive]
    split_ifs
    · exact .ret _
    · refine .call rfl fun coming => ?_
      cases coming with
      | true => exact .ret _
      | false => exact .call rfl fun _ => .call rfl fun _ => .ret _
  · rw [if_neg hactive]
    exact .ret _

/-! ### A call of `pageit` -/

/-- What the loop over the processes has done before some process. -/
structure Lru.Before (st₀ : Lru) (proc : Nat) (st : Lru) : Prop where
  past : st.Past
  tick : st.tick = st₀.tick
  timestamps : ∀ proc', proc ≤ proc' → st.timestamps proc' = st₀.timestamps proc'

theorem Lru.Before.service {st₀ : Lru} (h : st₀.Before proc st)
    (hservice : LruService q proc st log st') : st₀.Before (proc + 1) st' := by
  rcases hservice.stamps with rfl | rfl
  · exact ⟨h.past, h.tick, fun proc' hle => h.timestamps proc' (by omega)⟩
  · refine ⟨h.past.stamp _ _, h.tick, fun proc' hle => ?_⟩
    rw [stamp_of_ne _ _ (by omega)]
    exact h.timestamps proc' (by omega)

theorem talk_lru_loop (hpast : st.Past) {n : Nat} (h : Talk (sweep (lruServe q) n st) log st') :
    st.Before n st' :=
  h.sweep_invariant (fun proc st' _ => st.Before proc st') ⟨hpast, rfl, fun _ _ => rfl⟩
    fun _ _ _ _ _ _ hbefore htalk => hbefore.service (talk_lruServe hbefore.past htalk)

theorem talk_lru (h : Talk (lru.pageit q st) log st') :
    ∃ st₁ : Lru, Talk (sweep (lruServe q) maxProcesses st) log st₁ ∧
      st' = { st₁ with tick := st₁.tick + 1 } := by
  obtain ⟨first, st₁, rest, rfl, hfirst, hrest⟩ := talk_bind_iff.mp h
  obtain ⟨rfl, rfl⟩ := talk_ret_iff.mp hrest
  rw [List.append_nil]
  exact ⟨st₁, hfirst, rfl⟩

theorem Lru.Past.pageit (hpast : st.Past) (h : Talk (lru.pageit q st) log st') :
    Lru.Past st' ∧ Lru.tick st' = st.tick + 1 := by
  obtain ⟨st₁, hloop, rfl⟩ := talk_lru h
  have hbefore := talk_lru_loop hpast hloop
  refine ⟨fun proc page => Nat.le_succ_of_le (hbefore.past proc page), ?_⟩
  rw [hbefore.tick]

/-- The exchanges of a call of `pageit` about one process. -/
theorem service_of_pageit (hpast : st.Past) (h : Talk (lru.pageit q st) log st')
    (hproc : proc < maxProcesses) :
    ∃ st₁ mid st₂, st.Before proc st₁ ∧ LruService q proc st₁ mid st₂ ∧
      ∀ x : PageCall × Bool, x.1.process = proc → (x ∈ log ↔ x ∈ mid) := by
  obtain ⟨st₁, hloop, -⟩ := talk_lru h
  have hother : ∀ j st, j ≠ proc →
      Only (fun r : PageCall => r.process ≠ proc) (lruServe q j st) := fun j st hj =>
    (lruServe_only q j st).mono fun r hr heq => hj (by omega)
  obtain ⟨before, mid, after, st₂, st₃, rfl, hbefore, hafter, hprefix, hmid⟩ :=
    hloop.sweep_split hproc hother
  have hst := talk_lru_loop hpast hprefix
  refine ⟨st₂, mid, st₃, hst, talk_lruServe hst.past hmid, fun x hx => ?_⟩
  simp only [List.mem_append]
  constructor
  · rintro ((hin | hin) | hin)
    · exact absurd hx (hbefore x hin)
    · exact hin
    · exact absurd hx (hafter x hin)
  · intro hin
    exact Or.inl (Or.inr hin)

/-! ### Sequences of calls -/

/-- A call of `pageit`: what it is shown, the static variables before it, and its exchanges. -/
structure PageitCall where
  q : Snapshot
  st : Lru
  log : List (PageCall × Bool)

/-- The calls of `pageit` from the start of the program on, with any snapshots and answers. -/
inductive Session : List PageitCall → Lru → Prop where
  | start : Session [] lru.init
  | call {calls : List PageitCall} {st st' : Lru} (q : Snapshot) (log : List (PageCall × Bool))
      (h : Session calls st) (htalk : Talk (lru.pageit q st) log st') :
      Session (calls ++ [⟨q, st, log⟩]) st'

/-- A page of the process that is resident, and none of its resident pages was used less
recently. -/
def PageitCall.LeastRecentlyUsed (c : PageitCall) (proc page : Nat) : Prop :=
  (c.q proc).pages page = true ∧ ∀ other, other < maxProcPages → (c.q proc).pages other = true →
    c.st.timestamps proc page ≤ c.st.timestamps proc other

/-- The process needs a page, is refused it, and has a resident page. -/
def PageitCall.MustEvict (c : PageitCall) (proc : Nat) : Prop :=
  proc < maxProcesses ∧ (PageCall.pagein proc (c.q proc).page, false) ∈ c.log ∧
    ∃ page, page < maxProcPages ∧ (c.q proc).pages page = true

/-- Whenever a page must be evicted, the page evicted is the least recently used one. -/
def PageitCall.EvictsLru (c : PageitCall) : Prop :=
  ∀ proc, c.MustEvict proc → ∃ page : Nat,
    (∃ given, (PageCall.pageout proc page, given) ∈ c.log) ∧
    (∀ page' given, (PageCall.pageout proc page', given) ∈ c.log → page' = page) ∧
    c.LeastRecentlyUsed proc page

/-- Whenever a page must be evicted, the page whose number is the clock modulo `MAXPROCPAGES` is
the least recently used one. -/
def PageitCall.ClockFits (c : PageitCall) : Prop :=
  ∀ proc, c.MustEvict proc → c.LeastRecentlyUsed proc (c.st.tick % maxProcPages)

theorem Session.past {calls : List PageitCall} (h : Session calls st) : st.Past := by
  induction h with
  | start => exact fun _ _ => Nat.zero_le _
  | call q log _ htalk ih => exact (ih.pageit htalk).1

theorem Session.of_mem {calls : List PageitCall} (h : Session calls st) {c : PageitCall}
    (hc : c ∈ calls) : c.st.Past ∧ ∃ st', Talk (lru.pageit c.q c.st) c.log st' := by
  induction h with
  | start => cases hc
  | call q log hsession htalk ih =>
      rcases List.mem_append.mp hc with hold | hnew
      · exact ih hold
      · obtain rfl := List.mem_singleton.mp hnew
        exact ⟨hsession.past, _, htalk⟩

/-- A process that must evict a page gives up one page, chosen by the clock alone. -/
theorem evicts_by_clock {c : PageitCall} (hpast : c.st.Past)
    (htalk : Talk (lru.pageit c.q c.st) c.log st') (hmust : c.MustEvict proc) (page : Int) :
    (∃ given, (PageCall.pageout proc page, given) ∈ c.log) ↔
      page = (c.st.tick % maxProcPages : Nat) := by
  obtain ⟨hproc, hrefused, -⟩ := hmust
  obtain ⟨st₁, mid, st₂, hbefore, hservice, hmem⟩ := service_of_pageit hpast htalk hproc
  rw [hmem _ rfl] at hrefused
  have hpages : ∀ given, (PageCall.pageout proc page, given) ∈ c.log ↔
      (PageCall.pageout proc page, given) ∈ mid := fun given => hmem _ rfl
  simp only [hpages]
  cases hservice with
  | inactive _ => cases hrefused
  | resident _ _ => cases hrefused
  | coming _ _ => simp at hrefused
  | swap _ _ going coming => simp [hbefore.tick]

/-- In every sequence of calls, a call evicts the least recently used pages exactly if these are
the pages that the clock points at. -/
theorem evictsLru_iff {calls : List PageitCall} {st : Lru} (h : Session calls st) (c : PageitCall)
    (hc : c ∈ calls) : c.EvictsLru ↔ c.ClockFits := by
  obtain ⟨hpast, st', htalk⟩ := h.of_mem hc
  constructor
  · intro hevicts proc hmust
    obtain ⟨page, hgiven, -, hlru⟩ := hevicts proc hmust
    have hpage := (evicts_by_clock hpast htalk hmust page).mp hgiven
    rwa [← Int.natCast_inj.mp hpage]
  · intro hfits proc hmust
    refine ⟨c.st.tick % maxProcPages, ?_, fun page' given hin => ?_, hfits proc hmust⟩
    · exact (evicts_by_clock hpast htalk hmust _).mpr rfl
    · exact (evicts_by_clock hpast htalk hmust page').mp ⟨given, hin⟩

/-- Process `0` needs its page `0` and has one resident page. -/
def oneResident (page : Nat) : Snapshot := fun proc =>
  if proc = 0 then
    { active := true, pc := 0, npages := maxProcPages, pages := fun j => decide (j = page) }
  else { active := false, pc := 0, npages := 0, pages := fun _ => false }

/-- The first call of `pageit`, with no frame available. -/
def firstCall (page : Nat) : PageitCall where
  q := oneResident page
  st := lru.init
  log := [(.pagein 0 0, false), (.pageout 0 1, true), (.pagein 0 0, false)]

theorem firstCall_mustEvict {page : Nat} (hpage : page < maxProcPages) (proc : Nat) :
    (firstCall page).MustEvict proc ↔ proc = 0 := by
  constructor
  · rintro ⟨-, hin, -⟩
    have heq : proc = 0 ∧ (oneResident page proc).page = 0 := by simpa [firstCall] using hin
    exact heq.1
  · rintro rfl
    exact ⟨by decide, List.mem_cons_self, page, hpage, by simp [firstCall, oneResident]⟩

theorem firstCall_one_evictsLru : (firstCall 1).EvictsLru := by
  have hsession : ∃ st, Session [firstCall 1] st :=
    ⟨_, .call _ _ .start (.call _ (.call _ (.call _ (.ret _))))⟩
  obtain ⟨st, hsession⟩ := hsession
  refine (evictsLru_iff hsession _ List.mem_cons_self).mpr fun proc hmust => ?_
  obtain rfl := (firstCall_mustEvict (by decide) proc).mp hmust
  exact ⟨rfl, fun other _ _ => Nat.zero_le _⟩

/-- The first call gives up page `1`, although page `2` is the only one resident. -/
theorem firstCall_two_not_evictsLru :
    ¬ ∀ calls st, Session calls st → ∀ c, c ∈ calls → c.EvictsLru := by
  intro hall
  have hsession : ∃ st, Session [firstCall 2] st :=
    ⟨_, .call _ _ .start (.call _ (.call _ (.call _ (.ret _))))⟩
  obtain ⟨st, hsession⟩ := hsession
  have hmust : (firstCall 2).MustEvict 0 := (firstCall_mustEvict (by decide) 0).mpr rfl
  obtain ⟨page, ⟨given, hin⟩, -, hresident, -⟩ :=
    hall _ st hsession _ List.mem_cons_self 0 hmust
  have hpage : page = 2 := by simpa [firstCall, oneResident] using hresident
  subst hpage
  simp [firstCall] at hin

end OperatingSystems.Simulator
