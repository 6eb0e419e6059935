import OperatingSystems.SimulatorProgress

/-!
The pager `pager-predict` and the termination of the simulation under it. A process that is refused
its page gives up all its pages, and then either the pages that its last access predicts are asked
for, which ends the scan over the processes, or the page and the one after it. What the last access
is set to never predicts the page again that the process is waiting for, so that the scan of a
frozen system comes, slot by slot, to every process.
-/

namespace OperatingSystems.Simulator

open CallTree

/-! ### The pager -/

/-- The loops over the pages from `lo` to `hi`, `hi` excluded, that count the pages that come. -/
def countPageins (proc lo hi : Nat) : CallTree PageCall Bool Nat :=
  sweep (fun i count => do
    let coming ← ask (.pagein proc (lo + i : Nat))
    pure (if coming then count + 1 else count)) (hi - lo) 0

/-- The pages that the branches on `previousAccess[proc]` and `page` bring in; none in the last
branch. -/
def predicted (previousAccess page : Nat) : Option (Nat × Nat) :=
  if previousAccess = 3 ∧ page = 0 then some (0, 4)
  else if previousAccess = 9 ∧ page = 0 then some (0, 9)
  else if previousAccess = 13 ∧ page = 8 ∨ previousAccess = 8 ∧ page = 13 then some (9, 14)
  else if previousAccess = 13 ∧ page = 0 then some (0, 13)
  else if previousAccess = 3 ∧ page = 11 ∨ previousAccess = 3 ∧ page = 10 then some (11, 13)
  else none

/-- What is done for a process that has been refused its page. -/
def predictRefused (proc page : Nat) (previousAccess : Nat → Nat) :
    CallTree PageCall Bool (Bool × (Nat → Nat)) := do
  sweep (fun i _ => do
    let _ ← ask (.pageout proc i)
    pure ()) maxProcPages ()
  match predicted (previousAccess proc) page with
  | some (lo, hi) => do
      let count ← countPageins proc lo hi
      pure (false, Function.update previousAccess proc count)
  | none => do
      let _ ← ask (.pageout proc (page - 1))
      let _ ← ask (.pagein proc page)
      let _ ← ask (.pagein proc (page + 1))
      pure (true, Function.update previousAccess proc (page + 1))

/-- The body of the loop over the processes; it says whether the loop goes on. -/
def predictServe (q : Snapshot) (proc : Nat) (previousAccess : Nat → Nat) :
    CallTree PageCall Bool (Bool × (Nat → Nat)) :=
  if (q proc).active then
    let page := (q proc).page
    if (q proc).pages page then pure (true, previousAccess)
    else do
      let coming ← ask (.pagein proc page)
      if coming then pure (true, previousAccess)
      else predictRefused proc page previousAccess
  else pure (true, previousAccess)

/-- `pageit` of `pager-predict`. -/
def predict : Pager where
  State := Nat → Nat
  init := fun _ => 0
  pageit q previousAccess := do
    let r ← sweepUntil (predictServe q) maxProcesses previousAccess
    pure r.2

theorem predict_pageit (q : Snapshot) (previousAccess : Nat → Nat) :
    predict.pageit q previousAccess =
      sweepUntil (predictServe q) maxProcesses previousAccess >>= fun r => ret r.2 := rfl

/-- What `previousAccess` is set to for a page does not predict that page. -/
theorem predicted_succ (page : Nat) : predicted (page + 1) page = none := by
  unfold predicted
  split_ifs <;> first | rfl | omega

theorem predicted_zero (page : Nat) : predicted 0 page = none := by
  simp [predicted]

theorem predicted_le {previousAccess page lo hi : Nat}
    (h : predicted previousAccess page = some (lo, hi)) : lo ≤ hi ∧ hi ≤ maxProcPages := by
  unfold predicted at h
  simp only [maxProcPages]
  split_ifs at h <;> obtain ⟨rfl, rfl⟩ := Prod.mk.inj (Option.some.inj h) <;> omega

/-! ### The service of one process -/

variable {q : Snapshot} {proc : Nat} {st : Nat → Nat} {log : List (PageCall × Bool)}

/-- A count other than zero comes from a page that comes. -/
theorem talk_countPageins {lo hi count : Nat} (hle : lo ≤ hi)
    (h : Talk (countPageins proc lo hi) log count) :
    0 < count → ∃ i : Nat, i < hi ∧ (PageCall.pagein proc i, true) ∈ log := by
  refine h.sweep_invariant (fun n count log => n ≤ hi - lo → 0 < count →
    ∃ i : Nat, i < hi ∧ (PageCall.pagein proc i, true) ∈ log) ?_ ?_ le_rfl
  · exact fun _ hzero => absurd hzero (lt_irrefl 0)
  · intro n count before log count' hn hbefore htalk _ hpos
    simp only [ask_bind, talk_call_iff, pure_eq, talk_ret_iff] at htalk
    obtain ⟨given, _, rfl, rfl, rfl⟩ := htalk
    cases given with
    | true => exact ⟨lo + n, by omega, by simp⟩
    | false =>
        obtain ⟨i, hi, hin⟩ := hbefore hn.le hpos
        exact ⟨i, hi, List.mem_append_left _ hin⟩

/-- All pages of the process are given up. -/
def GivesUpAll (proc : Nat) (log : List (PageCall × Bool)) : Prop :=
  ∀ page : Nat, page < maxProcPages → ∃ given, (PageCall.pageout proc page, given) ∈ log

theorem talk_giveUp {n : Nat} {u : Unit}
    (h : Talk (sweep (fun i _ => do
      let _ ← ask (PageCall.pageout proc i)
      pure ()) n ()) log u) :
    ∀ page : Nat, page < n → ∃ given, (PageCall.pageout proc page, given) ∈ log := by
  refine h.sweep_invariant (fun n _ log => ∀ page : Nat, page < n →
    ∃ given, (PageCall.pageout proc page, given) ∈ log) ?_ ?_
  · exact fun page hpage => absurd hpage (Nat.not_lt_zero page)
  · intro n _ before log _ _ hbefore htalk page hpage
    simp only [ask_bind, talk_call_iff, pure_eq, talk_ret_iff] at htalk
    obtain ⟨given, _, rfl, rfl, -⟩ := htalk
    rcases Nat.lt_succ_iff_lt_or_eq.mp hpage with hlt | rfl
    · obtain ⟨given', hin⟩ := hbefore page hlt
      exact ⟨given', List.mem_append_left _ hin⟩
    · exact ⟨given, by simp⟩

/-- The conversations about one process. -/
inductive PredictService (q : Snapshot) (proc : Nat) (st : Nat → Nat) :
    List (PageCall × Bool) → Bool × (Nat → Nat) → Prop where
  | inactive (hactive : (q proc).active = false) : PredictService q proc st [] (true, st)
  | resident (hactive : (q proc).active = true) (hpage : (q proc).pages (q proc).page = true) :
      PredictService q proc st [] (true, st)
  | coming (hactive : (q proc).active = true) (hpage : (q proc).pages (q proc).page = false) :
      PredictService q proc st [(.pagein proc (q proc).page, true)] (true, st)
  | predicted (hactive : (q proc).active = true) (hpage : (q proc).pages (q proc).page = false)
      (count : Nat) (log : List (PageCall × Bool))
      (hpredicted : predicted (st proc) (q proc).page ≠ none) (hall : GivesUpAll proc log)
      (hcount : 0 < count → ∃ i : Nat, i < maxProcPages ∧ (PageCall.pagein proc i, true) ∈ log) :
      PredictService q proc st log (false, Function.update st proc count)
  | next (hactive : (q proc).active = true) (hpage : (q proc).pages (q proc).page = false)
      (log : List (PageCall × Bool)) (hpredicted : predicted (st proc) (q proc).page = none)
      (hall : GivesUpAll proc log) :
      PredictService q proc st log (true, Function.update st proc ((q proc).page + 1))

/-- What a process is asked for, and answered, before its page is refused. -/
theorem predictServe_cases {r : Bool × (Nat → Nat)} (h : Talk (predictServe q proc st) log r) :
    ((q proc).active = false ∧ log = [] ∧ r = (true, st)) ∨
    ((q proc).active = true ∧ (q proc).pages (q proc).page = true ∧ log = [] ∧ r = (true, st)) ∨
    ((q proc).active = true ∧ (q proc).pages (q proc).page = false ∧
      log = [(.pagein proc (q proc).page, true)] ∧ r = (true, st)) ∨
    ((q proc).active = true ∧ (q proc).pages (q proc).page = false ∧
      ∃ rest, log = (.pagein proc (q proc).page, false) :: rest ∧
        Talk (predictRefused proc (q proc).page st) rest r) := by
  unfold predictServe at h
  cases hactive : (q proc).active with
  | false =>
      simp only [hactive, Bool.false_eq_true, if_false, pure_eq, talk_ret_iff] at h
      exact Or.inl ⟨rfl, h⟩
  | true =>
      simp only [hactive, if_true] at h
      cases hpage : (q proc).pages (q proc).page with
      | true =>
          simp only [hpage, if_true, pure_eq, talk_ret_iff] at h
          exact Or.inr (Or.inl ⟨rfl, rfl, h⟩)
      | false =>
          simp only [hpage, Bool.false_eq_true, if_false, ask_bind, talk_call_iff] at h
          obtain ⟨coming, rest, rfl, hrest⟩ := h
          cases coming with
          | true =>
              simp only [if_true, pure_eq, talk_ret_iff] at hrest
              obtain ⟨rfl, rfl⟩ := hrest
              exact Or.inr (Or.inr (Or.inl ⟨rfl, rfl, rfl, rfl⟩))
          | false =>
              rw [if_neg (by decide)] at hrest
              exact Or.inr (Or.inr (Or.inr ⟨rfl, rfl, rest, rfl, hrest⟩))

/-- What becomes of the process once its page is refused: all its pages are given up, and then
some are asked for. -/
theorem predictRefused_cases {page : Nat} {r : Bool × (Nat → Nat)}
    (h : Talk (predictRefused proc page st) log r) :
    ∃ out more u, log = out ++ more ∧
      Talk (sweep (fun i _ => do
        let _ ← ask (PageCall.pageout proc i)
        pure ()) maxProcPages ()) out u ∧
      ((predicted (st proc) page = none ∧ r = (true, Function.update st proc (page + 1))) ∨
        ∃ lo hi count, predicted (st proc) page = some (lo, hi) ∧
          Talk (countPageins proc lo hi) more count ∧ r = (false, Function.update st proc count)) := by
  rw [predictRefused] at h
  obtain ⟨out, u, more, rfl, hout, hmore⟩ := talk_bind_iff.mp h
  refine ⟨out, more, u, rfl, hout, ?_⟩
  cases hpredicted : predicted (st proc) page with
  | none =>
      simp only [hpredicted, ask_bind, talk_call_iff, pure_eq, talk_ret_iff] at hmore
      obtain ⟨_, _, -, _, _, -, _, _, -, -, hr⟩ := hmore
      exact Or.inl ⟨rfl, hr⟩
  | some range =>
      obtain ⟨lo, hi⟩ := range
      simp only [hpredicted, pure_eq] at hmore
      obtain ⟨ins, count, last, rfl, hins, hlast⟩ := talk_bind_iff.mp hmore
      obtain ⟨rfl, rfl⟩ := talk_ret_iff.mp hlast
      rw [List.append_nil]
      exact Or.inr ⟨lo, hi, count, rfl, hins, rfl⟩

theorem talk_predictServe {r : Bool × (Nat → Nat)} (h : Talk (predictServe q proc st) log r) :
    PredictService q proc st log r := by
  rcases predictServe_cases h with ⟨hactive, rfl, rfl⟩ | ⟨hactive, hpage, rfl, rfl⟩ |
    ⟨hactive, hpage, rfl, rfl⟩ | ⟨hactive, hpage, rest, rfl, hrest⟩
  · exact .inactive hactive
  · exact .resident hactive hpage
  · exact .coming hactive hpage
  · obtain ⟨out, more, u, rfl, hout, hways⟩ := predictRefused_cases hrest
    have hall : GivesUpAll proc ((.pagein proc (q proc).page, false) :: (out ++ more)) := by
      intro page hlt
      obtain ⟨given, hin⟩ := talk_giveUp hout page hlt
      exact ⟨given, List.mem_cons_of_mem _ (List.mem_append_left _ hin)⟩
    rcases hways with ⟨hpredicted, rfl⟩ | ⟨lo, hi, count, hpredicted, hins, rfl⟩
    · exact .next hactive hpage _ hpredicted hall
    · obtain ⟨hle, hmax⟩ := predicted_le hpredicted
      refine .predicted hactive hpage count _ (by rw [hpredicted]; simp) hall ?_
      intro hpos
      obtain ⟨i, hi, hin⟩ := talk_countPageins hle hins hpos
      exact ⟨i, hi.trans_le hmax, by simp [hin]⟩

theorem countPageins_only (proc lo hi : Nat) :
    Only (fun r : PageCall => r.process = proc) (countPageins proc lo hi) := by
  refine Only.sweep (fun i count _ => ?_) 0
  exact .call rfl fun _ => .ret _

theorem predictRefused_only (proc page : Nat) (st : Nat → Nat) :
    Only (fun r : PageCall => r.process = proc) (predictRefused proc page st) := by
  refine Only.bind (.sweep (fun i u _ => ?_) ()) fun _ => ?_
  · exact .call rfl fun _ => .ret _
  · split
    · exact (countPageins_only proc _ _).bind fun _ => .ret _
    · exact .call rfl fun _ => .call rfl fun _ => .call rfl fun _ => .ret _

/-- Serving a process makes requests for this process only. -/
theorem predictServe_only (q : Snapshot) (proc : Nat) (st : Nat → Nat) :
    Only (fun r : PageCall => r.process = proc) (predictServe q proc st) := by
  unfold predictServe
  by_cases hactive : (q proc).active = true
  · simp only [if_pos hactive, ask_bind]
    split
    · exact .ret _
    · refine .call rfl fun coming => ?_
      split
      · exact .ret _
      · exact predictRefused_only proc _ st
  · rw [if_neg hactive]
    exact .ret _

theorem PredictService.frame {r : Bool × (Nat → Nat)} (h : PredictService q proc st log r) :
    ∀ other, other ≠ proc → r.2 other = st other := by
  intro other hother
  cases h with
  | inactive _ => rfl
  | resident _ _ => rfl
  | coming _ _ => rfl
  | predicted _ _ => exact Function.update_of_ne hother _ _
  | next _ _ => exact Function.update_of_ne hother _ _

/-- Only a process whose last access predicts its page ends the scan. -/
theorem PredictService.of_stop {r : Bool × (Nat → Nat)} (h : PredictService q proc st log r)
    (hstop : r.1 = false) :
    (q proc).active = true ∧ Simulator.predicted (st proc) (q proc).page ≠ none := by
  cases h with
  | inactive _ => cases hstop
  | resident _ _ => cases hstop
  | coming _ _ => cases hstop
  | predicted hactive _ _ _ hpredicted _ _ => exact ⟨hactive, hpredicted⟩
  | next _ _ _ _ _ => cases hstop

/-- When no request for a page that is not resident is granted and no resident page is given up, a
process without its page is asked for all its pages, and its last access predicts nothing then. -/
theorem PredictService.givesUpAll {r : Bool × (Nat → Nat)} (h : PredictService q proc st log r)
    (hactive : (q proc).active = true) (hblocked : (q proc).pages (q proc).page = false)
    (hrefused : ∀ page : Nat, (PageCall.pagein proc page, true) ∈ log →
      (q proc).pages page = true)
    (hkept : ∀ (page : Nat) (given : Bool), (PageCall.pageout proc page, given) ∈ log →
      (q proc).pages page = false) :
    GivesUpAll proc log ∧ Simulator.predicted (r.2 proc) (q proc).page = none := by
  cases h with
  | inactive hinactive => simp [hactive] at hinactive
  | resident _ hpage => simp [hblocked] at hpage
  | coming _ _ =>
      have hgranted := hrefused _ List.mem_cons_self
      simp [hblocked] at hgranted
  | predicted _ _ count _ _ hall hcount =>
      have hzero : count = 0 := by
        by_contra hpos
        obtain ⟨i, hi, hin⟩ := hcount (Nat.pos_of_ne_zero hpos)
        obtain ⟨given, hout⟩ := hall i hi
        have hresident := hrefused i hin
        simp [hkept i given hout] at hresident
      refine ⟨hall, ?_⟩
      simp only [hzero, Function.update_self, predicted_zero]
  | next _ _ _ _ hall =>
      refine ⟨hall, ?_⟩
      simp only [Function.update_self, predicted_succ]

/-! ### A call of `pageit` -/

/-- What a call of `pageit` has done when no request for a page that is not resident is granted and
no resident page is given up: the first `m` processes have been served, and if these are not all,
the last of them has ended the scan. -/
structure Scan (q : Snapshot) (st st' : Nat → Nat) (log : List (PageCall × Bool)) (m : Nat) :
    Prop where
  ends : m < maxProcesses → ∃ proc, m = proc + 1 ∧ (q proc).active = true ∧
    predicted (st proc) (q proc).page ≠ none
  served : ∀ proc, proc < m → (q proc).active = true →
    GivesUpAll proc log ∧ predicted (st' proc) (q proc).page = none

theorem talk_predict {st' : Nat → Nat} (h : Talk (predict.pageit q st) log st')
    (hblocked : ∀ slot, (q slot).active = true → (q slot).pages (q slot).page = false)
    (hrefused : ∀ slot page : Nat, (PageCall.pagein slot page, true) ∈ log →
      (q slot).pages page = true)
    (hkept : ∀ (slot page : Nat) (given : Bool), (PageCall.pageout slot page, given) ∈ log →
      (q slot).pages page = false) :
    ∃ m, Scan q st st' log m := by
  rw [predict_pageit] at h
  obtain ⟨first, r, rest, rfl, hfirst, hrest⟩ := talk_bind_iff.mp h
  obtain ⟨rfl, rfl⟩ := talk_ret_iff.mp hrest
  rw [List.append_nil] at hrefused hkept ⊢
  have hframe : ∀ i st log r, Talk (predictServe q i st) log r → ∀ j, j ≠ i → r.2 j = st j :=
    fun i st log r htalk => (talk_predictServe htalk).frame
  obtain ⟨m, part, rfl, hm, hend, -, hbody⟩ := hfirst.sweepUntil_split (fun st => st) hframe
  have hmem : ∀ {proc}, proc < m → ∀ x ∈ part proc, x ∈ (List.range m).flatMap part :=
    fun hproc x hx => List.mem_flatMap.mpr ⟨_, List.mem_range.mpr hproc, hx⟩
  refine ⟨m, fun hlt => ?_, fun proc hproc hactive => ?_⟩
  · obtain ⟨hfalse, hpos⟩ : r.1 = false ∧ 0 < m := by
      rcases hend with ⟨-, heq⟩ | hfalse
      · omega
      · exact hfalse
    obtain ⟨st₁, r₁, htalk, hbefore, -, hstop⟩ := hbody (m - 1) (by omega)
    have hbefore : st₁ (m - 1) = st (m - 1) := hbefore
    have hstopped := (talk_predictServe htalk).of_stop (hstop.mpr ⟨hfalse, by omega⟩)
    rw [hbefore] at hstopped
    exact ⟨m - 1, by omega, hstopped⟩
  · obtain ⟨st₁, r₁, htalk, -, hafter, -⟩ := hbody proc hproc
    have hafter : r.2 proc = r₁.2 proc := hafter
    obtain ⟨hall, hnone⟩ := (talk_predictServe htalk).givesUpAll hactive (hblocked proc hactive)
      (fun page hin => hrefused proc page (hmem hproc _ hin))
      fun page given hin => hkept proc page given (hmem hproc _ hin)
    rw [hafter]
    refine ⟨fun page hpage => ?_, hnone⟩
    obtain ⟨given, hin⟩ := hall page hpage
    exact ⟨given, hmem hproc _ hin⟩

/-- In a frozen system the scan comes to ever more processes, and within `MAXPROCESSES + 1` calls
to one with a resident page. -/
theorem predict_thaws {st : Nat → Nat → Nat} {log : Nat → List (PageCall × Bool)} :
    ¬FrozenFor predict (maxProcesses + 1) q st log := by
  intro h
  have hscan : ∀ t, t ≤ maxProcesses → ∃ m, Scan q (st t) (st (t + 1)) (log t) m := fun t ht =>
    have hlt := Nat.lt_succ_of_le ht
    talk_predict (h.talk t hlt) h.blocked (fun slot page => h.refused t slot page hlt)
      fun slot page given => h.kept t slot page given hlt
  -- After `n` calls none of the first `n` processes ends the scan.
  have hsettles : ∀ n t, n ≤ t → t ≤ maxProcesses → ∀ proc, proc < n →
      (q proc).active = true → predicted (st t proc) (q proc).page = none := by
    intro n
    induction n with
    | zero => exact fun _ _ _ proc hproc => absurd hproc (Nat.not_lt_zero proc)
    | succ n ih =>
        intro t ht hend proc hproc hactive
        obtain ⟨t, rfl⟩ : ∃ u, t = u + 1 := ⟨t - 1, by omega⟩
        obtain ⟨m, hm⟩ := hscan t (Nat.le_of_succ_le hend)
        have hreached : proc < m := by
          by_contra hnot
          obtain ⟨last, rfl, hlast, hends⟩ := hm.ends (by omega)
          exact hends (ih t (by omega) (by omega) last (by omega) hlast)
        exact (hm.served proc hreached hactive).2
  obtain ⟨slot, page, hslot, hpage, hactive, hresident⟩ := h.resident
  obtain ⟨m, hm⟩ := hscan maxProcesses le_rfl
  have hreached : slot < m := by
    by_contra hnot
    obtain ⟨last, rfl, hlast, hends⟩ := hm.ends (by omega)
    exact hends (hsettles maxProcesses maxProcesses le_rfl le_rfl last (by omega) hlast)
  obtain ⟨given, hin⟩ := (hm.served slot hreached hactive).1 page hpage
  simp [h.kept maxProcesses slot page given (Nat.lt_succ_self _) hin] at hresident

/-! ### Termination -/

theorem predictServe_inactive (hactive : (q proc).active = false) (st : Nat → Nat) :
    predictServe q proc st = ret (true, st) := by
  rw [predictServe, hactive, if_neg (by decide)]
  rfl

theorem predictServe_resident (hactive : (q proc).active = true)
    (hpage : (q proc).pages (q proc).page = true) (st : Nat → Nat) :
    predictServe q proc st = ret (true, st) := by
  rw [predictServe, if_pos hactive]
  exact if_pos hpage

theorem predictServe_first (hactive : (q proc).active = true)
    (hpage : (q proc).pages (q proc).page = false) (st : Nat → Nat) :
    ∃ next, predictServe q proc st = call (.pagein proc (q proc).page) next := by
  rw [predictServe, if_pos hactive]
  simp only [hpage, Bool.false_eq_true, if_false, ask_bind]
  exact ⟨_, rfl⟩

theorem predict_keeps {slot : Nat} (hactive : (q slot).active = true)
    (hpage : (q slot).pages (q slot).page = true) :
    Only (fun r => ∀ page, r ≠ .pageout slot page) (predict.pageit q st) := by
  have hserve := serve_keeps (predictServe_only q)
    fun st => ⟨_, predictServe_resident hactive hpage st⟩
  rw [predict_pageit]
  exact (Only.sweepUntil (fun proc st _ => hserve proc st) st).bind fun _ => .ret _

theorem predict_first {slot : Nat} (hslot : slot < maxProcesses)
    (hactive : (q slot).active = true) (hpage : (q slot).pages (q slot).page = false)
    (hbefore : ∀ other, other < slot → (q other).active = false) :
    ∃ next, predict.pageit q st = call (.pagein slot (q slot).page) next := by
  obtain ⟨next, hnext⟩ := sweepUntil_first hslot
    (fun other st hother => ⟨st, predictServe_inactive (hbefore other hother) st⟩)
    (predictServe_first hactive hpage) st
  rw [predict_pageit, hnext, call_bind]
  exact ⟨_, rfl⟩

theorem predict_live : predict.Live (fun _ => True) where
  init := trivial
  call := fun _ _ => trivial
  keeps := predict_keeps
  first := predict_first
  thaws := fun _ h => predict_thaws (h.for (maxProcesses + 1))

/-- Under `pager-predict`, whatever the random stream, the main loop ends, and from every state of
its run in which a process is active, some process computes later on. -/
theorem predict_terminates (config : Config) (htable : config.table = programs) (s : State)
    (h : config.Starts s) :
    (∃ fuel s', mainLoop predict config.procs fuel (predict.init, s) = some s') ∧
    ∀ n, alldone config.procs ((tick predict config.procs)^[n] (predict.init, s)).2 = false →
      ∃ m, n < m ∧ ((tick predict config.procs)^[n] (predict.init, s)).2.computeTotal <
        ((tick predict config.procs)^[m] (predict.init, s)).2.computeTotal :=
  live_terminates htable predict_live h

theorem predict_terminates_alternating : ∃ s, alternatingConfig.Starts s ∧
    ∃ fuel s', mainLoop predict alternatingConfig.procs fuel (predict.init, s) = some s' := by
  obtain ⟨s, hstart⟩ := alternatingConfig_starts
  exact ⟨s, hstart, (predict_terminates alternatingConfig rfl s hstart).1⟩

end OperatingSystems.Simulator
