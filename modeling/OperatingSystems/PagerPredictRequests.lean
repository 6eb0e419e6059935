import OperatingSystems.PagerPredict

/-!
Whom `pager-predict` serves. A call serves one process after the other, but a process that is found
to be in one of the loop patterns ends it, and the page after the wanted one is asked for only
when the wanted one is refused.
-/

namespace OperatingSystems.Simulator

open CallTree

/-! ### What is asked for -/

/-- The process is active, and the page it is on is not resident. -/
def Faults (q : Snapshot) (proc : Nat) : Prop :=
  proc < maxProcesses ∧ (q proc).active = true ∧ (q proc).pages (q proc).page = false

/-- The page and the access before it are those of one of the loop patterns. -/
def Classified (q : Snapshot) (previousAccess : Nat → Nat) (proc : Nat) : Prop :=
  predicted (previousAccess proc) (q proc).page ≠ none

/-- The conversation has a request for the page. -/
def AsksFor (log : List (PageCall × Bool)) (proc : Nat) (page : Int) : Prop :=
  ∃ given, (PageCall.pagein proc page, given) ∈ log

/-- The result of the first request for the page that the process is on. -/
def firstResult (q : Snapshot) (log : List (PageCall × Bool)) (proc : Nat) : Option Bool :=
  (log.find? fun x => x.1 = .pagein proc (q proc).page).map Prod.snd

/-- What the strategy is to do in each call: for every process that faults, its page is asked for,
and the next page as well unless the process is classified. -/
def ServesAll (q : Snapshot) (previousAccess : Nat → Nat) (log : List (PageCall × Bool)) : Prop :=
  ∀ proc, Faults q proc → AsksFor log proc (q proc).page ∧
    (¬ Classified q previousAccess proc → AsksFor log proc ((q proc).page + 1))

/-- The results under which nothing comes in between: no classified process with another faulting
process behind it is refused its page, and no unclassified one is granted it. -/
structure Undisturbed (q : Snapshot) (previousAccess : Nat → Nat)
    (log : List (PageCall × Bool)) : Prop where
  granted : ∀ proc other, Faults q proc → Classified q previousAccess proc → proc < other →
    Faults q other → firstResult q log proc ≠ some false
  refused : ∀ proc, Faults q proc → ¬ Classified q previousAccess proc →
    firstResult q log proc ≠ some true

/-! ### One process -/

variable {q : Snapshot} {proc : Nat} {st : Nat → Nat} {log : List (PageCall × Bool)}

/-- The conversations about a process that faults. -/
inductive FaultService (q : Snapshot) (proc : Nat) (st : Nat → Nat) :
    List (PageCall × Bool) → Bool → Prop where
  | granted : FaultService q proc st [(.pagein proc (q proc).page, true)] true
  | classified (hclassified : Classified q st proc) (more : List (PageCall × Bool)) :
      FaultService q proc st ((.pagein proc (q proc).page, false) :: more) false
  | next (hnot : ¬ Classified q st proc) (more : List (PageCall × Bool))
      (hnext : AsksFor more proc ((q proc).page + 1)) :
      FaultService q proc st ((.pagein proc (q proc).page, false) :: more) true

theorem talk_faulting (hfault : Faults q proc) {r : Bool × (Nat → Nat)}
    (h : Talk (predictServe q proc st) log r) : FaultService q proc st log r.1 := by
  obtain ⟨-, hactive, hpage⟩ := hfault
  simp only [predictServe, hactive, hpage, if_true, Bool.false_eq_true, if_false, ask_bind,
    talk_call_iff] at h
  obtain ⟨coming, rest, rfl, hrest⟩ := h
  cases coming with
  | true =>
      simp only [if_true, pure_eq, talk_ret_iff] at hrest
      obtain ⟨rfl, rfl⟩ := hrest
      exact .granted
  | false =>
      rw [if_neg (by decide), predictRefused] at hrest
      obtain ⟨out, u, more, rfl, -, hmore⟩ := talk_bind_iff.mp hrest
      cases hpredicted : predicted (st proc) (q proc).page with
      | none =>
          simp only [hpredicted, ask_bind, talk_call_iff, pure_eq, talk_ret_iff] at hmore
          obtain ⟨_, _, rfl, _, _, rfl, given, _, rfl, rfl, rfl⟩ := hmore
          refine .next (not_not.mpr hpredicted) _ ⟨given, ?_⟩
          simp
      | some range =>
          simp only [hpredicted, pure_eq] at hmore
          obtain ⟨ins, count, last, rfl, -, hlast⟩ := talk_bind_iff.mp hmore
          obtain ⟨rfl, rfl⟩ := talk_ret_iff.mp hlast
          refine .classified ?_ _
          rw [Classified, hpredicted]
          exact Option.some_ne_none _

/-- A process that does not fault lets the scan go on without a request. -/
theorem talk_not_faulting (hlt : proc < maxProcesses) (hfault : ¬ Faults q proc)
    {r : Bool × (Nat → Nat)} (h : Talk (predictServe q proc st) log r) : r.1 = true := by
  cases talk_predictServe h with
  | inactive _ => rfl
  | resident _ _ => rfl
  | coming hactive hpage => exact absurd ⟨hlt, hactive, hpage⟩ hfault
  | predicted hactive hpage => exact absurd ⟨hlt, hactive, hpage⟩ hfault
  | next hactive hpage => exact absurd ⟨hlt, hactive, hpage⟩ hfault

theorem FaultService.congr {st' : Nat → Nat} {goes : Bool} (h : FaultService q proc st log goes)
    (heq : st proc = st' proc) : FaultService q proc st' log goes := by
  cases h with
  | granted => exact .granted
  | classified hclassified more =>
      exact .classified (by rwa [Classified, ← heq]) more
  | next hnot more hnext => exact .next (by rwa [Classified, ← heq]) more hnext

theorem FaultService.asksFor {goes : Bool} (h : FaultService q proc st log goes) :
    AsksFor log proc (q proc).page := by
  cases h with
  | granted => exact ⟨true, List.mem_cons_self⟩
  | classified _ more => exact ⟨false, List.mem_cons_self⟩
  | next _ more _ => exact ⟨false, List.mem_cons_self⟩

/-! ### The scan -/

/-- The exchanges of the conversation that concern the process. -/
def about (log : List (PageCall × Bool)) (proc : Nat) : List (PageCall × Bool) :=
  log.filter fun x => x.1.process = proc

theorem asksFor_about {page : Int} : AsksFor (about log proc) proc page ↔ AsksFor log proc page := by
  simp only [AsksFor, about, List.mem_filter, PageCall.process, decide_true, and_true]

theorem firstResult_about : firstResult q (about log proc) proc = firstResult q log proc := by
  rw [firstResult, firstResult, about, List.find?_filter]
  congr 2
  funext x
  by_cases hx : x.1 = .pagein proc (q proc).page <;> simp [hx, PageCall.process]

/-- A call of `pageit`: the processes before the `m`-th have been served, and if these are not all,
the last of them has ended the call. -/
structure Scanned (q : Snapshot) (st : Nat → Nat) (log : List (PageCall × Bool)) (m : Nat) :
    Prop where
  served : ∀ proc, proc < m → Faults q proc →
    ∃ goes, FaultService q proc st (about log proc) goes ∧ (goes = false → m = proc + 1)
  silent : ∀ proc, m ≤ proc → about log proc = []
  stopped : m < maxProcesses → ∃ proc, m = proc + 1 ∧ Faults q proc ∧
    FaultService q proc st (about log proc) false

/-- A call, process by process: each has its own part of the conversation, and the one that breaks
off is the last. -/
theorem talk_predict_parts {st' : Nat → Nat} (h : Talk (predict.pageit q st) log st') :
    ∃ m goes, m ≤ maxProcesses ∧ (goes = true ∧ m = maxProcesses ∨ goes = false ∧ 0 < m) ∧
      (∀ proc, m ≤ proc → about log proc = [] ∧ st' proc = st proc) ∧
      ∀ proc, proc < m → ∃ st₁ r₁, Talk (predictServe q proc st₁) (about log proc) r₁ ∧
        st₁ proc = st proc ∧ st' proc = r₁.2 proc ∧
        (r₁.1 = false ↔ goes = false ∧ m = proc + 1) := by
  rw [predict_pageit] at h
  obtain ⟨first, r, rest, rfl, hfirst, hrest⟩ := talk_bind_iff.mp h
  obtain ⟨rfl, rfl⟩ := talk_ret_iff.mp hrest
  have hframe : ∀ i st log r, Talk (predictServe q i st) log r → ∀ j, j ≠ i → r.2 j = st j :=
    fun i st log r htalk => (talk_predictServe htalk).frame
  obtain ⟨m, part, rfl, hm, hend, hafter, hbody⟩ := hfirst.sweepUntil_split (fun st => st) hframe
  rw [List.append_nil]
  have hparts : ∀ proc, about ((List.range m).flatMap part) proc =
      if proc < m then part proc else [] := by
    refine filter_parts (fun (x : PageCall × Bool) (i : Nat) => x.1.process = i) ?_ ?_
    · intro x i j hi hj
      exact Int.natCast_inj.mp (hi.symm.trans hj)
    · intro i hi
      obtain ⟨st₁, r₁, htalk, -⟩ := hbody i hi
      exact htalk.only (predictServe_only q i st₁)
  refine ⟨m, r.1, hm, hend, fun proc hproc => ⟨?_, hafter proc hproc⟩, fun proc hproc => ?_⟩
  · rw [hparts, if_neg (not_lt.mpr hproc)]
  · rw [hparts, if_pos hproc]
    exact hbody proc hproc

theorem scanned_of_talk {st' : Nat → Nat} (h : Talk (predict.pageit q st) log st') :
    ∃ m, Scanned q st log m := by
  obtain ⟨m, goes, hm, hend, hsilent, hserved⟩ := talk_predict_parts h
  refine ⟨m, fun proc hproc hfault => ?_, fun proc hproc => (hsilent proc hproc).1, fun hlt => ?_⟩
  · obtain ⟨st₁, r₁, htalk, hbefore, -, hstop⟩ := hserved proc hproc
    refine ⟨r₁.1, ?_, fun hfalse => (hstop.mp hfalse).2⟩
    exact (talk_faulting hfault htalk).congr hbefore
  · obtain ⟨hfalse, hpos⟩ : goes = false ∧ 0 < m := by
      rcases hend with ⟨-, heq⟩ | hfalse
      · omega
      · exact hfalse
    obtain ⟨st₁, r₁, htalk, hbefore, -, hstop⟩ := hserved (m - 1) (by omega)
    have hlast := hstop.mpr ⟨hfalse, by omega⟩
    have hfault : Faults q (m - 1) := by
      by_contra hnot
      rw [talk_not_faulting (by omega) hnot htalk] at hlast
      cases hlast
    refine ⟨m - 1, by omega, hfault, ?_⟩
    rw [← hlast]
    exact (talk_faulting hfault htalk).congr hbefore

variable {m : Nat}

theorem Scanned.lt_of_asksFor (h : Scanned q st log m) {page : Int} (hasks : AsksFor log proc page) :
    proc < m := by
  by_contra hnot
  obtain ⟨given, hmem⟩ := asksFor_about.mpr hasks
  rw [h.silent proc (not_lt.mp hnot)] at hmem
  cases hmem

theorem Scanned.undisturbed (h : Scanned q st log m) (hserves : ServesAll q st log) :
    Undisturbed q st log := by
  have hserved : ∀ proc, Faults q proc →
      ∃ goes, FaultService q proc st (about log proc) goes ∧ (goes = false → m = proc + 1) :=
    fun proc hfault => h.served proc (h.lt_of_asksFor (hserves proc hfault).1) hfault
  constructor
  · intro proc other hfault hclassified hlt hfault'
    obtain ⟨goes, hservice, hlast⟩ := hserved proc hfault
    rw [← firstResult_about]
    generalize about log proc = own at hservice
    cases hservice with
    | granted => simp [firstResult]
    | classified _ more =>
        have hbehind := h.lt_of_asksFor (hserves other hfault').1
        have hm := hlast rfl
        omega
    | next hnot _ _ => exact absurd hclassified hnot
  · intro proc hfault hnot
    obtain ⟨goes, hservice, -⟩ := hserved proc hfault
    have hnext := asksFor_about.mpr ((hserves proc hfault).2 hnot)
    rw [← firstResult_about]
    generalize about log proc = own at hservice hnext
    cases hservice with
    | granted =>
        obtain ⟨given, hmem⟩ := hnext
        simp at hmem
    | classified hclassified _ => exact absurd hclassified hnot
    | next _ more _ => simp [firstResult]

theorem Scanned.servesAll (h : Scanned q st log m) (hund : Undisturbed q st log) :
    ServesAll q st log := by
  intro proc hfault
  have hreached : proc < m := by
    by_contra hnot
    obtain ⟨last, rfl, hfault', hservice⟩ := h.stopped (by have := hfault.1; omega)
    have hgranted := hund.granted last proc hfault'
    rw [← firstResult_about] at hgranted
    generalize about log last = own at hservice hgranted
    cases hservice with
    | classified hclassified more =>
        exact hgranted hclassified (by omega) hfault (by simp [firstResult])
  obtain ⟨goes, hservice, -⟩ := h.served proc hreached hfault
  refine ⟨asksFor_about.mp hservice.asksFor, fun hnot => ?_⟩
  have hrefused := hund.refused proc hfault hnot
  rw [← firstResult_about] at hrefused
  rw [← asksFor_about]
  generalize about log proc = own at hservice hrefused
  cases hservice with
  | granted => simp [firstResult] at hrefused
  | classified hclassified _ => exact absurd hclassified hnot
  | next _ more hnext =>
      obtain ⟨given, hmem⟩ := hnext
      exact ⟨given, List.mem_cons_of_mem _ hmem⟩

/-- **Whom `pager-predict` serves.** For every snapshot, whatever the previous accesses and the
results of the requests: a call asks for the page of every process that faults, and for the next
page of every unclassified one, exactly if no classified process with another faulting one behind it
is refused its page and no unclassified one is granted it. -/
theorem serves_all_iff (q : Snapshot) (previousAccess previousAccess' : Nat → Nat)
    (log : List (PageCall × Bool)) (h : Talk (predict.pageit q previousAccess) log previousAccess') :
    ServesAll q previousAccess log ↔ Undisturbed q previousAccess log := by
  obtain ⟨m, hscan⟩ := scanned_of_talk h
  exact ⟨hscan.undisturbed, hscan.servesAll⟩

/-- The first processes are active, at the counter and with no page resident. -/
def allFaulting (active : Nat) (pc : Int) : Snapshot := fun slot =>
  { active := decide (slot < active), pc, npages := maxProcPages, pages := fun _ => false }

/-- The environment that gives every request the same result. -/
def always (result : Bool) (_ : PageCall) (u : Unit) : Bool × Unit := (result, u)

/-- One process on its first page, and no request granted. -/
theorem serves_one_refused : ∃ log st, Talk (predict.pageit (allFaulting 1 0) predict.init) log st ∧
    ServesAll (allFaulting 1 0) predict.init log := by
  have htalk := talk_exchanges (always false) (predict.pageit (allFaulting 1 0) predict.init) ()
  refine ⟨_, _, htalk, (serves_all_iff _ _ _ _ htalk).mpr ⟨?_, ?_⟩⟩
  · intro proc other _ hclassified
    exact absurd (predicted_zero _) hclassified
  · intro proc hfault _
    have hzero : proc = 0 := by simpa [allFaulting] using hfault.2.1
    subst hzero
    decide

/-- In the first call, a process whose page is granted gets no request for the next page; and after
a call in which it was refused its third page, a process refused its first one is classified, and
the process behind it gets no request. -/
theorem predict_passes_over :
    (∃ log st, Talk (predict.pageit (allFaulting 1 0) predict.init) log st ∧
      ¬ ServesAll (allFaulting 1 0) predict.init log) ∧
    ∃ log st log' st', Talk (predict.pageit (allFaulting 1 256) predict.init) log st ∧
      Talk (predict.pageit (allFaulting 2 0) st) log' st' ∧ Faults (allFaulting 2 0) 1 ∧
      about log' 1 = [] ∧ ¬ ServesAll (allFaulting 2 0) st log' := by
  constructor
  · refine ⟨_, _, talk_exchanges (always true) _ (), fun hserves => ?_⟩
    have hfault : Faults (allFaulting 1 0) 0 := ⟨by decide, rfl, rfl⟩
    obtain ⟨given, hmem⟩ := (hserves 0 hfault).2 (not_not.mpr (predicted_zero _))
    revert given
    decide
  · have hfault : Faults (allFaulting 2 0) 1 := ⟨by decide, rfl, rfl⟩
    have hsilent : about (exchanges (always false) (predict.pageit (allFaulting 2 0)
        (run (always false) (predict.pageit (allFaulting 1 256) predict.init) ()).1) ()) 1 = [] := by
      decide
    refine ⟨_, _, _, _, talk_exchanges (always false) _ (), talk_exchanges (always false) _ (),
      hfault, hsilent, fun hserves => ?_⟩
    obtain ⟨given, hmem⟩ := asksFor_about.mpr (hserves 1 hfault).1
    rw [hsilent] at hmem
    cases hmem

end OperatingSystems.Simulator
