import Mathlib.Data.Nat.Init

/-!
Structured programs that leave traces, and machines that follow them. The meaning of a piece of a
program is a relation, put together from the relations of its parts; the rules say when a machine,
from a state linked to the one before the piece, emits its trace and comes to a state linked to the
one after.
-/

namespace Traces

variable {σ α μ : Type*}

/-- How a piece of a program is left: at its end, or by a jump to the label around it. -/
inductive Outcome where
  | finished
  | jumped
  deriving DecidableEq

def Outcome.choose {β : Type*} (o : Outcome) (finished jumped : β) : β :=
  match o with
  | .finished => finished
  | .jumped => jumped

/-- The state before, the trace, the outcome and the state after. -/
abbrev Behaviour (σ α : Type*) := σ → List α → Outcome → σ → Prop

namespace Behaviour

inductive Seq (P Q : Behaviour σ α) : Behaviour σ α
  | next {s s' s'' : σ} {l l' : List α} {o : Outcome} (hP : P s l .finished s')
      (hQ : Q s' l' o s'') : Seq P Q s (l ++ l') o s''
  | jump {s s' : σ} {l : List α} (hP : P s l .jumped s') : Seq P Q s l .jumped s'

/-- A choice. -/
def Or (P Q : Behaviour σ α) : Behaviour σ α := fun s l o s' => P s l o s' ∨ Q s l o s'

/-- A number of rounds, none of which jumps. -/
inductive Times (P : Behaviour σ α) : Nat → Behaviour σ α
  | zero {s : σ} : Times P 0 s [] .finished s
  | succ {n : Nat} {s s' s'' : σ} {l l' : List α} {o : Outcome} (hP : P s l .finished s')
      (hrest : Times P n s' l' o s'') : Times P (n + 1) s (l ++ l') o s''

/-- A piece under a label: every jump starts it again. -/
inductive Labelled (P : Behaviour σ α) : Behaviour σ α
  | done {s s' : σ} {l : List α} (hP : P s l .finished s') : Labelled P s l .finished s'
  | again {s s' s'' : σ} {l l' : List α} {o : Outcome} (hP : P s l .jumped s')
      (hrest : Labelled P s' l' o s'') : Labelled P s (l ++ l') o s''

/-! ### Programs that finish -/

/-- From every state the piece can be gone through to its end. -/
def Finishes (P : Behaviour σ α) : Prop := ∀ s, ∃ l s', P s l .finished s'

variable {P Q : Behaviour σ α}

theorem Finishes.seq (hP : P.Finishes) (hQ : Q.Finishes) : (P.Seq Q).Finishes := by
  intro s
  obtain ⟨l, s', h⟩ := hP s
  obtain ⟨l', s'', h'⟩ := hQ s'
  exact ⟨l ++ l', s'', .next h h'⟩

theorem Finishes.times (hP : P.Finishes) (n : Nat) : (P.Times n).Finishes := by
  induction n with
  | zero => exact fun s => ⟨[], s, .zero⟩
  | succ n ih =>
      intro s
      obtain ⟨l, s', h⟩ := hP s
      obtain ⟨l', s'', h'⟩ := ih s'
      exact ⟨l ++ l', s'', .succ h h'⟩

/-- A piece under a label finishes if a bound on the number of jumps falls with every jump. -/
theorem Labelled.finishes (bound : Nat → σ → Prop)
    (hP : ∀ n s, bound n s → (∃ l s', P s l .finished s') ∨
      ∃ l s' m, P s l .jumped s' ∧ bound m s' ∧ m < n) {n : Nat} {s : σ} (hs : bound n s) :
    ∃ l s', P.Labelled s l .finished s' := by
  induction n using Nat.strong_induction_on generalizing s with
  | _ n ih =>
      rcases hP n s hs with ⟨l, s', h⟩ | ⟨l, s', m, h, hbound, hlt⟩
      · exact ⟨l, s', .done h⟩
      · obtain ⟨l', s'', h'⟩ := ih m hlt hbound
        exact ⟨l ++ l', s'', .again h h'⟩

/-! ### Programs of bounded length -/

/-- No trace of the piece is longer. -/
def Within (P : Behaviour σ α) (n : Nat) : Prop := ∀ ⦃s l o s'⦄, P s l o s' → l.length ≤ n

namespace Within

variable {m n : Nat}

theorem mono (h : P.Within m) (hmn : m ≤ n) : P.Within n :=
  fun _ _ _ _ hP => Nat.le_trans (h hP) hmn

theorem seq (hP : P.Within m) (hQ : Q.Within n) : (P.Seq Q).Within (m + n) := by
  rintro s _ o s' (⟨h, h'⟩ | h)
  · rw [List.length_append]
    exact Nat.add_le_add (hP h) (hQ h')
  · exact Nat.le_trans (hP h) (Nat.le_add_right m n)

theorem or (hP : P.Within m) (hQ : Q.Within n) : (P.Or Q).Within (max m n) := by
  rintro s l o s' (h | h)
  · exact Nat.le_trans (hP h) (Nat.le_max_left m n)
  · exact Nat.le_trans (hQ h) (Nat.le_max_right m n)

theorem times (hP : P.Within m) (n : Nat) : (P.Times n).Within (n * m) := by
  intro s l o s' h
  induction h with
  | zero => exact Nat.zero_le _
  | succ h _ ih =>
      rw [List.length_append, Nat.succ_mul, Nat.add_comm]
      exact Nat.add_le_add ih (hP h)

end Within

end Behaviour

/-! ### Budgets -/

/-- Which traces are allowed from a state on; then so are their beginnings. -/
structure Budget (σ α : Type*) where
  allows : σ → List α → Prop
  left {s : σ} {l l' : List α} : allows s (l ++ l') → allows s l

/-- After the piece the rest of an allowed trace is still allowed. -/
def Behaviour.Spends (B : Budget σ α) (P : Behaviour σ α) : Prop :=
  ∀ ⦃s l o s' l'⦄, P s l o s' → B.allows s (l ++ l') → B.allows s' l'

namespace Behaviour.Spends

variable {B : Budget σ α} {P Q : Behaviour σ α}

theorem seq (hP : P.Spends B) (hQ : Q.Spends B) : (P.Seq Q).Spends B := by
  rintro s _ o s' l' (⟨h, h'⟩ | h) hl
  · rw [List.append_assoc] at hl
    exact hQ h' (hP h hl)
  · exact hP h hl

theorem or (hP : P.Spends B) (hQ : Q.Spends B) : (P.Or Q).Spends B := by
  rintro s l o s' l' (h | h) hl
  · exact hP h hl
  · exact hQ h hl

theorem times (hP : P.Spends B) (n : Nat) : (P.Times n).Spends B := by
  intro s l o s' l' h hl
  induction h with
  | zero => exact hl
  | succ h _ ih =>
      rw [List.append_assoc] at hl
      exact ih (hP h hl)

theorem labelled (hP : P.Spends B) : P.Labelled.Spends B := by
  intro s l o s' l' h hl
  induction h with
  | done h => exact hP h hl
  | again h _ ih =>
      rw [List.append_assoc] at hl
      exact ih (hP h hl)

end Behaviour.Spends

/-! ### Machines -/

/-- A deterministic machine, with what is seen of a step. -/
structure Machine (μ α : Type*) where
  next : μ → Option μ
  view : μ → α

/-- The machine takes steps in which the list is seen. -/
inductive Machine.Emits (machine : Machine μ α) : μ → List α → μ → Prop
  | refl {m : μ} : Emits machine m [] m
  | step {m m' m'' : μ} {l : List α} (hnext : machine.next m = some m')
      (h : Emits machine m' l m'') : Emits machine m (machine.view m :: l) m''

theorem Machine.Emits.append {machine : Machine μ α} {m m' m'' : μ} {l l' : List α}
    (h : machine.Emits m l m') (h' : machine.Emits m' l' m'') : machine.Emits m (l ++ l') m'' := by
  induction h with
  | refl => exact h'
  | step hnext _ ih => exact .step hnext (ih h')

/-- Wherever the machine is linked to a state, it follows every allowed trace of the piece, and is
then linked to the state after, in a way that depends on how the piece is left. -/
def Machine.Follows (machine : Machine μ α) (B : Budget σ α) (P : Behaviour σ α)
    (pre post exit : σ → μ → Prop) : Prop :=
  ∀ ⦃s m l o s'⦄, pre s m → P s l o s' → B.allows s l →
    ∃ m', machine.Emits m l m' ∧ o.choose post exit s' m'

namespace Machine.Follows

variable {machine : Machine μ α} {B : Budget σ α} {P Q : Behaviour σ α}
  {pre mid post exit : σ → μ → Prop}

theorem seq (hspends : P.Spends B) (hP : machine.Follows B P pre mid exit)
    (hQ : machine.Follows B Q mid post exit) : machine.Follows B (P.Seq Q) pre post exit := by
  rintro s m _ o s' hs (⟨h, h'⟩ | h) hl
  · obtain ⟨m', hemits, hm'⟩ := hP hs h (B.left hl)
    obtain ⟨m'', hemits', hm''⟩ := hQ hm' h' (hspends h hl)
    exact ⟨m'', hemits.append hemits', hm''⟩
  · exact hP hs h hl

theorem or (hP : machine.Follows B P pre post exit) (hQ : machine.Follows B Q pre post exit) :
    machine.Follows B (P.Or Q) pre post exit := by
  rintro s m l o s' hs (h | h) hl
  · exact hP hs h hl
  · exact hQ hs h hl

/-- The link may depend on the number of rounds that are left. -/
theorem times {link stray : Nat → σ → μ → Prop} {n : Nat} (hspends : P.Spends B)
    (hP : ∀ i, i < n → machine.Follows B P (link (i + 1)) (link i) (stray i)) :
    machine.Follows B (P.Times n) (link n) (link 0) exit := by
  intro s m l o s' hs h hl
  induction h generalizing m with
  | zero => exact ⟨m, .refl, hs⟩
  | succ h _ ih =>
      obtain ⟨m', hemits, hm'⟩ := hP _ (Nat.lt_succ_self _) hs h (B.left hl)
      obtain ⟨m'', hemits', hm''⟩ :=
        ih (fun i hi => hP i (Nat.lt_succ_of_lt hi)) hm' (hspends h hl)
      exact ⟨m'', hemits.append hemits', hm''⟩

theorem labelled (hspends : P.Spends B) (hP : machine.Follows B P pre post pre) :
    machine.Follows B P.Labelled pre post exit := by
  intro s m l o s' hs h hl
  induction h generalizing m with
  | done h => exact hP hs h hl
  | again h _ ih =>
      obtain ⟨m', hemits, hm'⟩ := hP hs h (B.left hl)
      obtain ⟨m'', hemits', hm''⟩ := ih hm' (hspends h hl)
      exact ⟨m'', hemits.append hemits', hm''⟩

end Machine.Follows

end Traces
