import Mathlib.Data.Nat.Init

/-!
Counting loops. A loop over `0, 1, …, n - 1` is a fold in that order, and its rules are those of
an induction on the bound: an invariant indexed by the counter, and a relation between the states
before and after.
-/

namespace Loop

variable {σ : Type*}

/-- `for (i = 0; i < n; i++) s = body(s, i)`. -/
def loop (body : σ → Nat → σ) : Nat → σ → σ
  | 0, s => s
  | n + 1, s => body (loop body n s) n

variable {body : σ → Nat → σ}

@[simp] theorem loop_zero (s : σ) : loop body 0 s = s := rfl

theorem loop_succ (n : Nat) (s : σ) : loop body (n + 1) s = body (loop body n s) n := rfl

/-- The invariant rule. -/
theorem loop_invariant (inv : Nat → σ → Prop) {n : Nat} {s : σ} (hstart : inv 0 s)
    (hbody : ∀ i s, i < n → inv i s → inv (i + 1) (body s i)) : inv n (loop body n s) := by
  induction n with
  | zero => exact hstart
  | succ n ih =>
      rw [loop_succ]
      exact hbody n _ (Nat.lt_succ_self n) (ih fun i s hi => hbody i s (Nat.lt_succ_of_lt hi))

/-- What every iteration relates, the loop relates, if the relation is a preorder; an invariant
may be used on the way. -/
theorem loop_relates (inv : σ → Prop) (rel : σ → σ → Prop) (hrefl : ∀ s, rel s s)
    (htrans : ∀ s s' s'', rel s s' → rel s' s'' → rel s s'') {n : Nat} {s : σ} (hs : inv s)
    (hbody : ∀ i s, i < n → inv s → inv (body s i) ∧ rel s (body s i)) :
    inv (loop body n s) ∧ rel s (loop body n s) := by
  induction n with
  | zero => exact ⟨hs, hrefl s⟩
  | succ n ih =>
      obtain ⟨hinv, hrel⟩ := ih fun i s hi => hbody i s (Nat.lt_succ_of_lt hi)
      obtain ⟨hinv', hrel'⟩ := hbody n _ (Nat.lt_succ_self n) hinv
      exact ⟨hinv', htrans _ _ _ hrel hrel'⟩

/-- What no iteration changes, the loop does not change. -/
theorem loop_keeps {α : Type*} (f : σ → α) (hbody : ∀ s i, f (body s i) = f s) (n : Nat) (s : σ) :
    f (loop body n s) = f s := by
  induction n with
  | zero => rfl
  | succ n ih => rw [loop_succ, hbody, ih]

/-- A loop that keeps more than another does what the other does, as far as it keeps it. -/
theorem loop_erase {τ : Type*} {body' : τ → Nat → τ} (erase : τ → σ)
    (herase : ∀ s i, erase (body' s i) = body (erase s) i) (n : Nat) (s : τ) :
    erase (loop body' n s) = loop body n (erase s) := by
  induction n with
  | zero => rfl
  | succ n ih => rw [loop_succ, loop_succ, herase, ih]

/-- A loop is a fold over the list of its counters. -/
theorem loop_eq_foldl (n : Nat) (s : σ) :
    loop body n s = (List.finRange n).foldl (fun s (i : Fin n) => body s i) s := by
  induction n with
  | zero => rfl
  | succ n ih =>
      rw [loop_succ, ih, List.finRange_succ_last, List.foldl_append, List.foldl_map]
      rfl

end Loop
