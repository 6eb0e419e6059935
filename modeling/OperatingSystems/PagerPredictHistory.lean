import OperatingSystems.PagerPredictRequests

/-!
What `pager-predict` remembers. `previousAccess` is meant for the pages that a process has been on;
it is set when a process is refused its page, to the page after that or to the number of pages that
a loop pattern has brought in, and is followed here through sequences of calls.
-/

namespace OperatingSystems.Simulator

open CallTree

/-! ### One call -/

/-- The number of pages that are brought in for the process. -/
def grants (log : List (PageCall × Bool)) (proc : Nat) : Nat :=
  log.countP fun x =>
    match x with
    | (.pagein process _, given) => given && decide (process = proc)
    | (.pageout _ _, _) => false

theorem grants_append (log more : List (PageCall × Bool)) (proc : Nat) :
    grants (log ++ more) proc = grants log proc + grants more proc := List.countP_append

variable {q : Snapshot} {proc : Nat} {st : Nat → Nat} {log : List (PageCall × Bool)}

theorem grants_about : grants (about log proc) proc = grants log proc := by
  rw [grants, grants, about, List.countP_filter]
  congr 1
  funext x
  obtain ⟨request, given⟩ := x
  cases request with
  | pagein process page =>
      by_cases hprocess : process = proc <;> simp [PageCall.process, hprocess]
  | pageout process page => rfl

/-- The pages that are given up are none that are brought in. -/
theorem grants_giveUp {n : Nat} {u : Unit}
    (h : Talk (sweep (fun i _ => do
      let _ ← ask (PageCall.pageout proc i)
      pure ()) n ()) log u) : grants log proc = 0 := by
  have honly := h.only (P := fun r => ∃ page, r = .pageout proc page)
    (.sweep (fun i u _ => .call ⟨_, rfl⟩ fun _ => .ret _) ())
  refine List.countP_eq_zero.mpr fun x hx => ?_
  obtain ⟨page, hpage⟩ := honly x hx
  obtain ⟨request, given⟩ := x
  obtain rfl : request = .pageout proc page := hpage
  exact Bool.false_ne_true

theorem talk_countPageins_eq {lo hi count : Nat} (h : Talk (countPageins proc lo hi) log count) :
    count = grants log proc := by
  refine h.sweep_invariant (fun _ count log => count = grants log proc) rfl ?_
  intro n count before log count' _ hbefore htalk
  simp only [ask_bind, talk_call_iff, pure_eq, talk_ret_iff] at htalk
  obtain ⟨given, _, rfl, rfl, rfl⟩ := htalk
  rw [grants_append, ← hbefore]
  cases given <;> simp [grants]

/-- What `previousAccess` becomes once the page is refused. -/
theorem refused_access {page : Nat} {r : Bool × (Nat → Nat)}
    (h : Talk (predictRefused proc page st) log r) :
    (predicted (st proc) page = none → r.2 proc = page + 1) ∧
      (predicted (st proc) page ≠ none → r.2 proc = grants log proc) := by
  obtain ⟨out, more, u, rfl, hout, ⟨hpredicted, rfl⟩ | ⟨lo, hi, count, hpredicted, hins, rfl⟩⟩ :=
    predictRefused_cases h
  · exact ⟨fun _ => Function.update_self .., fun hne => absurd hpredicted hne⟩
  · refine ⟨fun hnone => ?_, fun _ => ?_⟩
    · rw [hnone] at hpredicted
      cases hpredicted
    · rw [grants_append, grants_giveUp hout, Nat.zero_add, ← talk_countPageins_eq hins]
      exact Function.update_self ..

/-- What a process that has been refused its page is remembered for. -/
structure Remembers (q : Snapshot) (st : Nat → Nat) (log : List (PageCall × Bool)) (proc : Nat)
    (access : Nat) : Prop where
  kept : firstResult q log proc ≠ some false → access = st proc
  counted : firstResult q log proc = some false → Classified q st proc → access = grants log proc
  next : firstResult q log proc = some false → ¬ Classified q st proc →
    access = (q proc).page + 1

theorem talk_remembers {r : Bool × (Nat → Nat)} (h : Talk (predictServe q proc st) log r) :
    Remembers q st log proc (r.2 proc) := by
  rcases predictServe_cases h with ⟨-, rfl, rfl⟩ | ⟨-, -, rfl, rfl⟩ | ⟨-, -, rfl, rfl⟩ |
    ⟨-, -, rest, rfl, hrest⟩
  · constructor <;> simp [firstResult]
  · constructor <;> simp [firstResult]
  · constructor <;> simp [firstResult]
  · obtain ⟨hnext, hcounted⟩ := refused_access hrest
    have hfirst : firstResult q ((.pagein proc (q proc).page, false) :: rest) proc =
        some false := by simp [firstResult]
    have hgrants : grants ((.pagein proc (q proc).page, false) :: rest) proc =
        grants rest proc := by simp [grants]
    refine ⟨fun hne => absurd hfirst hne, fun _ hclassified => ?_, fun _ hnot => ?_⟩
    · rw [hgrants]
      exact hcounted hclassified
    · exact hnext (not_not.mp hnot)

/-- A call remembers every process by its own requests. -/
theorem predict_remembers {st' : Nat → Nat} (h : Talk (predict.pageit q st) log st') (proc : Nat) :
    Remembers q st log proc (st' proc) := by
  obtain ⟨m, goes, -, -, hsilent, hserved⟩ := talk_predict_parts h
  by_cases hproc : proc < m
  · obtain ⟨st₁, r₁, htalk, hbefore, hafter, -⟩ := hserved proc hproc
    have hown := talk_remembers htalk
    rw [← hafter] at hown
    constructor
    · rw [← hbefore, ← firstResult_about]
      exact hown.kept
    · rw [Classified, ← hbefore, ← firstResult_about, ← grants_about]
      exact hown.counted
    · rw [Classified, ← hbefore, ← firstResult_about]
      exact hown.next
  · obtain ⟨hnone, hafter⟩ := hsilent proc (not_lt.mp hproc)
    have hunasked : firstResult q log proc = none := by
      rw [← firstResult_about, hnone]
      rfl
    rw [hafter]
    constructor <;> simp [hunasked]

/-! ### Sequences of calls -/

/-- The first `n` calls: the snapshots they are given, their requests with the results, and
`previousAccess` before and after. -/
structure PredictCalls (q : Nat → Snapshot) (log : Nat → List (PageCall × Bool))
    (st : Nat → Nat → Nat) (n : Nat) : Prop where
  init : st 0 = predict.init
  talk : ∀ i, i < n → Talk (predict.pageit (q i) (st i)) (log i) (st (i + 1))

/-- The process has been on the page in one of the first `m` calls. -/
def WasOn (q : Nat → Snapshot) (m proc page : Nat) : Prop := ∃ i, i < m ∧ (q i proc).page = page

/-- After `m` calls, the previous access of each process is unset or a page it has been on. -/
def IsHistory (q : Nat → Snapshot) (st : Nat → Nat → Nat) (m : Nat) : Prop :=
  ∀ proc, st m proc = 0 ∨ WasOn q m proc (st m proc)

/-- What the call has to find for that: a process that is refused its page has been on the next page
before or, if it is classified, on the page whose number is that of the pages it is then granted,
if any are. -/
def Recalls (q : Nat → Snapshot) (log : Nat → List (PageCall × Bool)) (st : Nat → Nat → Nat)
    (i : Nat) : Prop :=
  ∀ proc, firstResult (q i) (log i) proc = some false →
    (Classified (q i) (st i) proc →
      grants (log i) proc = 0 ∨ WasOn q (i + 1) proc (grants (log i) proc)) ∧
    (¬ Classified (q i) (st i) proc → WasOn q i proc ((q i proc).page + 1))

section History

variable {q : Nat → Snapshot} {log : Nat → List (PageCall × Bool)} {st : Nat → Nat → Nat}

theorem WasOn.mono {m m' proc page : Nat} (h : WasOn q m proc page) (hle : m ≤ m') :
    WasOn q m' proc page := by
  obtain ⟨i, hi, hpage⟩ := h
  exact ⟨i, hi.trans_le hle, hpage⟩

/-- What the process is on now is not the next page. -/
theorem wasOn_next {i proc : Nat} :
    WasOn q (i + 1) proc ((q i proc).page + 1) ↔ WasOn q i proc ((q i proc).page + 1) := by
  refine ⟨fun ⟨j, hj, hpage⟩ => ⟨j, ?_, hpage⟩, fun h => h.mono (Nat.le_succ i)⟩
  rcases Nat.lt_succ_iff_lt_or_eq.mp hj with hlt | rfl
  · exact hlt
  · omega

/-- One call. -/
theorem isHistory_succ {i : Nat} (h : Talk (predict.pageit (q i) (st i)) (log i) (st (i + 1)))
    (hbefore : IsHistory q st i) : IsHistory q st (i + 1) ↔ Recalls q log st i := by
  constructor
  · intro hafter proc hrefused
    refine ⟨fun hclassified => ?_, fun hnot => ?_⟩
    · rw [← (predict_remembers h proc).counted hrefused hclassified]
      exact hafter proc
    · rw [← wasOn_next, ← (predict_remembers h proc).next hrefused hnot]
      apply (hafter proc).resolve_left
      rw [(predict_remembers h proc).next hrefused hnot]
      exact Nat.succ_ne_zero _
  · intro hrecalls proc
    have hremembers := predict_remembers h proc
    by_cases hrefused : firstResult (q i) (log i) proc = some false
    · obtain ⟨hcounted, hnext⟩ := hrecalls proc hrefused
      by_cases hclassified : Classified (q i) (st i) proc
      · rw [hremembers.counted hrefused hclassified]
        exact hcounted hclassified
      · rw [hremembers.next hrefused hclassified]
        exact Or.inr (wasOn_next.mpr (hnext hclassified))
    · rw [hremembers.kept hrefused]
      exact (hbefore proc).imp_right fun hon => hon.mono (Nat.le_succ i)

/-- `previousAccess` is a history of the pages through a sequence of calls exactly if each of them
recalls a page when it refuses one. -/
theorem history_iff {n : Nat} (h : PredictCalls q log st n) :
    (∀ m, m ≤ n → IsHistory q st m) ↔ ∀ i, i < n → Recalls q log st i := by
  refine ⟨fun hall i hi => ?_, fun hrecalls m hm => ?_⟩
  · exact (isHistory_succ (h.talk i hi) (hall i hi.le)).mp (hall (i + 1) hi)
  · induction m with
    | zero =>
        intro proc
        rw [h.init]
        exact Or.inl rfl
    | succ m ih =>
        exact (isHistory_succ (h.talk m hm) (ih (Nat.le_of_succ_le hm))).mpr (hrecalls m hm)

end History

/-- One call for a process on its third page, with no request granted. -/
def refusedCall : Nat → Nat → Nat
  | 0 => predict.init
  | _ + 1 => (run (always false) (predict.pageit (allFaulting 1 256) predict.init) ()).1

theorem refusedCall_talk : PredictCalls (fun _ => allFaulting 1 256)
    (fun _ => exchanges (always false) (predict.pageit (allFaulting 1 256) predict.init) ())
    refusedCall 1 := by
  refine ⟨rfl, fun i hi => ?_⟩
  obtain rfl : i = 0 := Nat.lt_one_iff.mp hi
  exact talk_exchanges (always false) _ ()

theorem history_iff_refused : (∀ m, m ≤ 1 → IsHistory (fun _ => allFaulting 1 256) refusedCall m) ↔
    ∀ i, i < 1 → Recalls (fun _ => allFaulting 1 256)
      (fun _ => exchanges (always false) (predict.pageit (allFaulting 1 256) predict.init) ())
      refusedCall i :=
  history_iff refusedCall_talk

/-- The process that has been on its third page only is remembered for the fourth. -/
theorem refused_not_history : PredictCalls (fun _ => allFaulting 1 256)
    (fun _ => exchanges (always false) (predict.pageit (allFaulting 1 256) predict.init) ())
    refusedCall 1 ∧ refusedCall 1 0 = 3 ∧
      ¬ IsHistory (fun _ => allFaulting 1 256) refusedCall 1 := by
  have hnext : refusedCall 1 0 = 3 := by decide
  refine ⟨refusedCall_talk, hnext, fun hhistory => ?_⟩
  rcases hhistory 0 with hunset | ⟨i, -, hpage⟩
  · rw [hnext] at hunset
    cases hunset
  · have hon : (allFaulting 1 256 0).page = 2 := by decide
    rw [hnext, hon] at hpage
    cases hpage

end OperatingSystems.Simulator
