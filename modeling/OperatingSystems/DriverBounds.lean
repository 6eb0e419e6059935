import OperatingSystems.DriverModel

/-!
Which requests keep the driver inside its buffer. The VFS hands over any non-negative position and
any length up to its own limit; the driver's only protection is the narrowed comparison, which
refuses a request past the end only when the narrowed remaining count happens to be small.
-/

namespace OperatingSystems.Driver

/-- The longest length that the VFS passes on (`INT_MAX` rounded down to a page). -/
def maxRwCount : Nat := 0x7ffff000

/-- A `read` or `write` request as the VFS may hand it to the driver. -/
structure Request where
  offset : BitVec 64
  length : BitVec 64
  offset_nonneg : 0 ≤ offset.toInt
  length_le : length.toNat ≤ maxRwCount

namespace Request

variable (r : Request)

/-- Whatever the memory, the data and the faults, neither operation accesses a position of
`kernelBuffer` outside the buffer. -/
def Inside : Prop :=
  (∀ memory fault, ∀ p ∈ (pa2CharDriverRead memory r.length r.offset fault).touched,
    0 ≤ p ∧ p < bufferSize) ∧
  (∀ memory data fault, ∀ p ∈ (pa2CharDriverWrite memory data r.length r.offset fault).touched,
    0 ≤ p ∧ p < bufferSize)

/-- Nothing is asked for, the position is not past the end, or the difference `1024 - offset`
taken modulo `2^32` is smaller than the length. -/
def Fits : Prop :=
  r.length.toNat = 0 ∨ r.offset.toNat ≤ bufferSize ∨
    (1024 - (r.offset.toNat : Int)) % 2 ^ 32 < r.length.toNat

theorem offset_toInt : r.offset.toInt = r.offset.toNat := by
  have hnonneg := r.offset_nonneg
  have hlt := r.offset.isLt
  rw [BitVec.toInt_eq_toNat_cond] at hnonneg ⊢
  split at hnonneg
  · rename_i hsmall
    rw [if_pos hsmall]
  · omega

theorem length_lt : r.length.toNat < 2 ^ 31 := by
  have := r.length_le
  simp only [maxRwCount] at this
  omega

/-- The request is refused exactly when the remaining count modulo `2^32` is below its length. -/
theorem refused_iff :
    leftBelow (bytesLeft r.offset) r.length = true ↔
      (1024 - (r.offset.toNat : Int)) % 2 ^ 32 < r.length.toNat := by
  rw [leftBelow_iff r.length_lt, ← bytesLeft_toNat]
  omega

theorem read_touched (memory : Memory) (fault : Nat) :
    (pa2CharDriverRead memory r.length r.offset fault).touched =
      if (1024 - (r.offset.toNat : Int)) % 2 ^ 32 < r.length.toNat then []
      else span r.offset.toNat (r.length.toNat - fault) := by
  by_cases hrefused : (1024 - (r.offset.toNat : Int)) % 2 ^ 32 < r.length.toNat
  · rw [if_pos hrefused, pa2CharDriverRead, if_pos (r.refused_iff.mpr hrefused)]
    split <;> rfl
  · rw [if_neg hrefused, pa2CharDriverRead, if_neg (mt r.refused_iff.mp hrefused)]
    simp only [narrow_eq r.length_lt, r.offset_toInt]

theorem write_touched (memory : Memory) (data : List UInt8) (fault : Nat) :
    (pa2CharDriverWrite memory data r.length r.offset fault).touched =
      if (1024 - (r.offset.toNat : Int)) % 2 ^ 32 < r.length.toNat then []
      else span r.offset.toNat r.length.toNat := by
  by_cases hrefused : (1024 - (r.offset.toNat : Int)) % 2 ^ 32 < r.length.toNat
  · rw [if_pos hrefused, pa2CharDriverWrite, if_pos (r.refused_iff.mpr hrefused)]
  · rw [if_neg hrefused, pa2CharDriverWrite, if_neg (mt r.refused_iff.mp hrefused)]
    simp only [r.offset_toInt]

/-- A request that fits and is not refused lies wholly inside the buffer. -/
theorem Fits.span_inside {r : Request} (h : r.Fits)
    (hgranted : ¬(1024 - (r.offset.toNat : Int)) % 2 ^ 32 < r.length.toNat) {n : Nat}
    (hn : n ≤ r.length.toNat) {p : Int} (hp : p ∈ span r.offset.toNat n) :
    0 ≤ p ∧ p < bufferSize := by
  rw [mem_span] at hp
  simp only [bufferSize] at h ⊢
  rcases h with hzero | hstart | hrefused
  · omega
  · simp only [bufferSize] at hstart
    omega
  · exact absurd hrefused hgranted

/-- The driver stays inside its buffer exactly on the requests that fit. -/
theorem inside_iff_fits : r.Inside ↔ r.Fits := by
  constructor
  · intro h
    by_contra hfits
    simp only [Fits, not_or, not_le] at hfits
    obtain ⟨hlength, hpast, hgranted⟩ := hfits
    -- the first byte that is copied already lies past the end
    have hfirst : (r.offset.toNat : Int) ∈
        (pa2CharDriverRead (fun _ => 0) r.length r.offset 0).touched := by
      rw [r.read_touched, if_neg hgranted, mem_span]
      omega
    have := h.1 _ _ _ hfirst
    omega
  · intro h
    constructor
    · intro memory fault p hp
      rw [r.read_touched] at hp
      split at hp
      · simp at hp
      · rename_i hgranted
        exact h.span_inside hgranted (Nat.sub_le _ _) hp
    · intro memory data fault p hp
      rw [r.write_touched] at hp
      split at hp
      · simp at hp
      · rename_i hgranted
        exact h.span_inside hgranted le_rfl hp

/-- One byte at position 2000: the remaining count is `-976`, which as an unsigned 64-bit value
exceeds every length. -/
theorem position_2000_not_inside : ¬∀ r : Request, r.Inside := by
  intro h
  have hread := (h ⟨2000, 1, by decide, by decide⟩).1 (fun _ => 0) 0 2000 (by decide)
  simp only [bufferSize] at hread
  omega

end Request

end OperatingSystems.Driver
