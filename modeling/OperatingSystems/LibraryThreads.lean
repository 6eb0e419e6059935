import Mathlib.Algebra.BigOperators.Group.Finset.Basic
import Mathlib.Data.Fintype.BigOperators
import Mathlib.Algebra.Order.BigOperators.Group.Finset
import Mathlib.Tactic.Abel

/-!
Families of threads: who owns a lock, and how a sum or a count over all threads changes when one
thread moves.
-/

namespace Threads

variable {τ : Type*}

/-! ### Lock ownership -/

/-- The recorded owner of a lock is the one thread whose position says that it holds the lock. -/
def Owned (owner : Option τ) (holds : τ → Prop) : Prop := ∀ t, owner = some t ↔ holds t

variable {owner : Option τ} {holds holds' : τ → Prop}

theorem Owned.unique (h : Owned owner holds) {t u : τ} (ht : holds t) (hu : holds u) : t = u :=
  Option.some.inj (((h t).mpr ht).symm.trans ((h u).mpr hu))

theorem Owned.not_holds (h : Owned none holds) (t : τ) : ¬holds t :=
  fun ht => Option.some_ne_none t ((h t).mpr ht).symm

theorem Owned.congr (h : Owned owner holds) (hsame : ∀ u, holds' u ↔ holds u) :
    Owned owner holds' :=
  fun t => (h t).trans (hsame t).symm

theorem Owned.acquire (h : Owned none holds) {t : τ} (ht : holds' t)
    (hsame : ∀ u, u ≠ t → (holds' u ↔ holds u)) : Owned (some t) holds' := by
  intro u
  by_cases hut : u = t
  · subst hut
    exact ⟨fun _ => ht, fun _ => rfl⟩
  · have hu : ¬holds' u := fun hu => h.not_holds u ((hsame u hut).mp hu)
    exact ⟨fun heq => absurd (Option.some.inj heq).symm hut, fun hholds => absurd hholds hu⟩

theorem Owned.release (h : Owned owner holds) {t : τ} (ht : holds t) (ht' : ¬holds' t)
    (hsame : ∀ u, u ≠ t → (holds' u ↔ holds u)) : Owned none holds' := by
  intro u
  refine ⟨fun heq => absurd heq.symm (Option.some_ne_none u), fun hu => ?_⟩
  by_cases hut : u = t
  · subst hut
    exact absurd hu ht'
  · exact absurd (h.unique ((hsame u hut).mp hu) ht) hut

/-- One thread moves: it leaves the lock as it is, takes the free lock, or gives it up. -/
theorem Owned.move (h : Owned owner holds) {owner' : Option τ} {t : τ}
    (hothers : ∀ u, u ≠ t → (holds' u ↔ holds u))
    (hmove : (owner' = owner ∧ (holds' t ↔ holds t)) ∨
      (owner = none ∧ owner' = some t ∧ holds' t) ∨
      (holds t ∧ owner' = none ∧ ¬holds' t)) : Owned owner' holds' := by
  rcases hmove with ⟨rfl, ht⟩ | ⟨rfl, rfl, ht⟩ | ⟨ht, rfl, ht'⟩
  · refine h.congr fun u => ?_
    by_cases hut : u = t
    · exact hut ▸ ht
    · exact hothers u hut
  · exact h.acquire ht hothers
  · exact h.release ht ht' hothers

/-- Locks that are taken in order cannot block each other: if the owner of a taken lock always
waits for a taken lock of higher rank, then no lock is taken. -/
theorem free_of_ranked {ℓ : Type*} {owner : ℓ → Option τ} (rank : ℓ → Nat) (bound : Nat)
    (hbound : ∀ l, rank l ≤ bound)
    (hwaits : ∀ l t, owner l = some t → ∃ l', rank l < rank l' ∧ owner l' ≠ none) :
    ∀ l, owner l = none := by
  suffices h : ∀ k l, bound - rank l = k → owner l = none from fun l => h _ l rfl
  intro k
  induction k using Nat.strong_induction_on with
  | _ k ih =>
      intro l hk
      cases howner : owner l with
      | none => rfl
      | some t =>
          obtain ⟨l', hlt, htaken⟩ := hwaits l t howner
          have := hbound l'
          exact absurd (ih (bound - rank l') (by omega) l' rfl) htaken

/-! ### Sums over a family -/

section Sums

variable {ι M : Type*} [Fintype ι] [AddCommMonoid M]

/-- Moving one member of a family trades its old summand for the new one. -/
theorem sum_move {f g : ι → M} (i : ι) (hothers : ∀ j, j ≠ i → g j = f j) :
    ∑ j, g j + f i = ∑ j, f j + g i := by
  classical
  rw [Fintype.sum_eq_add_sum_compl i g, Fintype.sum_eq_add_sum_compl i f]
  have hrest : ∑ j ∈ {i}ᶜ, g j = ∑ j ∈ {i}ᶜ, f j :=
    Finset.sum_congr rfl fun j hj => hothers j (by simpa using hj)
  rw [hrest]
  abel

/-- The number of members with a property is the size of the family exactly when all have it. -/
theorem sum_toNat_eq_card_iff (b : ι → Bool) :
    ∑ i, (b i).toNat = Fintype.card ι ↔ ∀ i, b i = true := by
  have hle : ∀ i ∈ Finset.univ, (b i).toNat ≤ 1 := fun i _ => Bool.toNat_le _
  rw [Fintype.card_eq_sum_ones, Finset.sum_eq_sum_iff_of_le hle]
  constructor
  · intro h i
    simpa using h i (Finset.mem_univ i)
  · intro h i _
    rw [h i]
    rfl

end Sums

end Threads
