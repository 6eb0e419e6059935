import Mathlib.Algebra.Ring.GeomSum
import Mathlib.Data.Finset.Card
import Mathlib.NumberTheory.Multiplicity
import Mathlib.RingTheory.Coprime.Lemmas

/-!
Linear congruential generators modulo a power of two. When the increment is odd and the multiplier
leaves one modulo four, the generator goes through all states before it returns to one, so that
every state comes up again and again.
-/

namespace Congruential

open Finset

/-- One step of the generator. -/
def next (a c m x : Nat) : Nat := (a * x + c) % m

variable {a c k : Nat}

/-- The iterates of a generator are those of the map on the integers. -/
theorem iterate_next (a c m x n : Nat) :
    ((next a c m)^[n] x : Int) ≡ a ^ n * x + c * ∑ i ∈ range n, (a : Int) ^ i [ZMOD m] := by
  induction n with
  | zero => simp
  | succ n ih =>
      rw [Function.iterate_succ_apply', next, Int.natCast_mod]
      push_cast
      calc (a * ((next a c m)^[n] x : Int) + c) % m
          ≡ a * ((next a c m)^[n] x : Int) + c [ZMOD m] := Int.mod_modEq _ _
        _ ≡ a * (a ^ n * x + c * ∑ i ∈ range n, (a : Int) ^ i) + c [ZMOD m] :=
            (ih.mul_left a).add_right c
        _ = a ^ (n + 1) * x + c * ∑ i ∈ range (n + 1), (a : Int) ^ i := by
            rw [geom_sum_succ]
            ring

/-- The geometric sum is as even as its number of summands. -/
theorem emultiplicity_geom_sum (ha : a % 4 = 1) (n : Nat) :
    emultiplicity (2 : Int) (∑ i ∈ range n, (a : Int) ^ i) = emultiplicity (2 : Int) n := by
  rcases eq_or_ne a 1 with rfl | hne
  · simp
  · have hfour : (4 : Int) ∣ a - 1 := by omega
    have hodd : ¬(2 : Int) ∣ a := by omega
    have hpow := Int.two_pow_sub_pow' n hfour hodd
    rw [one_pow, ← geom_sum_mul, emultiplicity_mul Int.prime_two, add_comm] at hpow
    refine WithTop.add_left_cancel ?_ hpow
    apply finiteMultiplicity_iff_emultiplicity_ne_top.mp
    rw [Int.finiteMultiplicity_iff]
    exact ⟨by decide, by omega⟩

theorem dvd_geom_sum_iff (ha : a % 4 = 1) (n : Nat) :
    (2 : Int) ^ k ∣ ∑ i ∈ range n, (a : Int) ^ i ↔ 2 ^ k ∣ n := by
  rw [pow_dvd_iff_le_emultiplicity, emultiplicity_geom_sum ha, ← pow_dvd_iff_le_emultiplicity]
  exact_mod_cast Iff.rfl

section Period

variable (ha : a % 4 = 1) (hc : c % 2 = 1)

include ha hc

/-- The generator returns to a state only after a whole period. -/
theorem dvd_of_return {x d : Nat} (h : (next a c (2 ^ k))^[d] x = x) : 2 ^ k ∣ d := by
  have hiterate := iterate_next a c (2 ^ k) x d
  rw [h, Int.modEq_iff_dvd] at hiterate
  have hproduct : (a : Int) ^ d * x + c * ∑ i ∈ range d, (a : Int) ^ i - x =
      (∑ i ∈ range d, (a : Int) ^ i) * ((a - 1) * x + c) := by
    rw [mul_add, ← mul_assoc, geom_sum_mul]
    ring
  have hodd : IsCoprime ((2 : Int) ^ k) ((a - 1) * x + c) := by
    apply IsCoprime.pow_left
    obtain ⟨q, hq⟩ : ∃ q : Int, (a : Int) - 1 = 2 * q := ⟨(a - 1) / 2, by omega⟩
    obtain ⟨r, hr⟩ : ∃ r : Int, (c : Int) = 2 * r + 1 := ⟨c / 2, by omega⟩
    refine ⟨-(q * x + r), 1, ?_⟩
    rw [hq, hr]
    ring
  rw [hproduct] at hiterate
  push_cast at hiterate
  exact (dvd_geom_sum_iff ha d).mp (hodd.dvd_of_dvd_mul_right hiterate)

/-- Within a period no state comes twice. -/
theorem iterate_injOn (x : Nat) :
    Set.InjOn (fun n => (next a c (2 ^ k))^[n] x) (range (2 ^ k)) := by
  have hle : ∀ m n, m ≤ n → n < 2 ^ k →
      (next a c (2 ^ k))^[m] x = (next a c (2 ^ k))^[n] x → m = n := by
    intro m n hmn hn heq
    obtain ⟨d, rfl⟩ := Nat.exists_eq_add_of_le hmn
    rw [Nat.add_comm, Function.iterate_add_apply] at heq
    have hdvd := dvd_of_return ha hc heq.symm
    rw [Nat.eq_zero_of_dvd_of_lt hdvd (by omega), Nat.add_zero]
  intro m hm n hn heq
  rw [coe_range, Set.mem_Iio] at hm hn
  rcases Nat.le_total m n with hmn | hnm
  · exact hle m n hmn hn heq
  · exact (hle n m hnm hm heq.symm).symm

/-- **Full period.** From any state the generator reaches any other. -/
theorem exists_iterate_eq {x y : Nat} (hx : x < 2 ^ k) (hy : y < 2 ^ k) :
    ∃ n, n < 2 ^ k ∧ (next a c (2 ^ k))^[n] x = y := by
  have hmaps : ∀ n, (next a c (2 ^ k))^[n] x < 2 ^ k := by
    intro n
    cases n with
    | zero => exact hx
    | succ n =>
        rw [Function.iterate_succ_apply']
        exact Nat.mod_lt _ (Nat.two_pow_pos k)
  have himage : (range (2 ^ k)).image (fun n => (next a c (2 ^ k))^[n] x) = range (2 ^ k) := by
    apply eq_of_subset_of_card_le
    · intro z hz
      obtain ⟨n, -, rfl⟩ := mem_image.mp hz
      exact mem_range.mpr (hmaps n)
    · rw [card_image_of_injOn (iterate_injOn ha hc x)]
  have hmem : y ∈ (range (2 ^ k)).image fun n => (next a c (2 ^ k))^[n] x := by
    rw [himage]
    exact mem_range.mpr hy
  obtain ⟨n, hn, heq⟩ := mem_image.mp hmem
  exact ⟨n, mem_range.mp hn, heq⟩

end Period

end Congruential
