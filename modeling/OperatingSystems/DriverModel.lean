import Mathlib.Data.Fintype.BigOperators
import Mathlib.Data.BitVec

/-!
The character device driver: `read`, `write` and `llseek` over one kernel buffer, under C
arithmetic. Offsets are 64-bit `loff_t` values, lengths are 64-bit `size_t` values, and the
remaining count is narrowed to a 32-bit `int` before it is compared with a length.
-/

namespace OperatingSystems.Driver

/-- `BUFFER_SIZE`. -/
def bufferSize : Nat := 1024

/-- The kernel memory around the driver's block, addressed relative to `kernelBuffer`: the block
itself is `[0, bufferSize)`, anything else belongs to somebody else. -/
abbrev Memory := Int → UInt8

/-- The positions that a copy of `n` bytes starting at `start` accesses. -/
def span (start : Int) (n : Nat) : List Int := (List.range n).map fun i : Nat => start + i

/-- `copy_to_user`: the last `fault` bytes do not reach user space and are not read. -/
def copyToUser (memory : Memory) (source : Int) (n fault : Nat) : List UInt8 :=
  (span source (n - fault)).map memory

/-- `copy_from_user`: the bytes that could not be fetched are filled with zeros, so that all `n`
positions are written. -/
def copyFromUser (memory : Memory) (target : Int) (data : List UInt8) (n fault : Nat) : Memory :=
  fun p =>
    if target ≤ p ∧ p < target + n then
      if (p - target).toNat < n - fault then data.getD (p - target).toNat 0 else 0
    else memory p

/-- What one call of the driver did. `returned` is `none` where the C function runs off its end
without a `return`; `touched` lists the positions of `kernelBuffer` that were accessed. -/
structure Effect where
  returned : Option (BitVec 64)
  offset : BitVec 64
  memory : Memory
  delivered : List UInt8
  touched : List Int

/-- `int bytesLeft = BUFFER_SIZE - *offset`: a 64-bit difference narrowed to `int`. -/
def bytesLeft (offset : BitVec 64) : BitVec 32 :=
  (BitVec.ofNat 64 bufferSize - offset).setWidth 32

/-- `bytesLeft < length`: the `int` is converted to the unsigned 64-bit type of `length`. -/
def leftBelow (left : BitVec 32) (length : BitVec 64) : Bool :=
  (left.signExtend 64).ult length

/-- `pa2_char_driver_read`; `fault` is the number of bytes that `copy_to_user` fails to copy. -/
def pa2CharDriverRead (memory : Memory) (length offset : BitVec 64) (fault : Nat) : Effect :=
  let bytesLeftToRead := bytesLeft offset
  if leftBelow bytesLeftToRead length then
    if bytesLeftToRead.slt 0 then
      { returned := some (-1), offset, memory, delivered := [], touched := [] }
    else
      -- `bytesToRead` is set here, but neither copied nor returned
      { returned := none, offset, memory, delivered := [], touched := [] }
  else
    let bytesToRead : BitVec 64 := (length.setWidth 32).signExtend 64
    { returned := some bytesToRead
      offset := offset + bytesToRead
      memory
      delivered := copyToUser memory offset.toInt bytesToRead.toNat fault
      touched := span offset.toInt (bytesToRead.toNat - fault) }

/-- `pa2_char_driver_write`; `fault` is the number of bytes that `copy_from_user` fails to copy. -/
def pa2CharDriverWrite (memory : Memory) (data : List UInt8) (length offset : BitVec 64)
    (fault : Nat) : Effect :=
  if leftBelow (bytesLeft offset) length then
    { returned := some (-1), offset, memory, delivered := [], touched := [] }
  else
    { returned := some length
      offset := offset + length
      memory := copyFromUser memory offset.toInt data length.toNat fault
      delivered := []
      touched := span offset.toInt length.toNat }

/-- `pa2_char_driver_seek` on the handle's position: the new position and the value returned. -/
def pa2CharDriverSeek (position offset : BitVec 64) (whence : Int) : BitVec 64 × BitVec 64 :=
  let target : Option (BitVec 64) :=
    if whence = 0 then some offset
    else if whence = 1 then some (position + offset)
    else if whence = 2 then some (1024 - offset)
    else none
  match target with
  | none => (position, -1)
  | some currentOffset =>
      if currentOffset.slt 0 then (position, -1)
      else if (BitVec.ofNat 64 bufferSize).slt currentOffset then (position, -1)
      else (currentOffset, currentOffset)

/-! ### The narrowed comparison -/

theorem mem_span {start p : Int} {n : Nat} : p ∈ span start n ↔ start ≤ p ∧ p < start + n := by
  simp only [span, List.mem_map, List.mem_range]
  constructor
  · rintro ⟨i, hi, rfl⟩
    omega
  · rintro ⟨hlow, hhigh⟩
    exact ⟨(p - start).toNat, by omega, by omega⟩

theorem bytesLeft_toNat (offset : BitVec 64) :
    ((bytesLeft offset).toNat : Int) = (1024 - (offset.toNat : Int)) % 2 ^ 32 := by
  have hlt := offset.isLt
  simp only [bytesLeft, BitVec.toNat_setWidth, BitVec.toNat_sub, BitVec.toNat_ofNat, bufferSize]
  omega

/-- A length below `2^31` exceeds the remaining count exactly when the count, read as unsigned, is
smaller: a negative count converts to a value above every such length. -/
theorem leftBelow_iff {left : BitVec 32} {length : BitVec 64} (hlength : length.toNat < 2 ^ 31) :
    leftBelow left length = true ↔ left.toNat < length.toNat := by
  have hlt := left.isLt
  rw [leftBelow, BitVec.ult_eq_decide, decide_eq_true_iff, BitVec.toNat_signExtend]
  by_cases hmsb : left.msb = true
  · have hbig : 2 ^ 31 ≤ left.toNat := by
      have := BitVec.msb_eq_decide left
      rw [hmsb] at this
      simpa using this.symm
    rw [if_pos hmsb, BitVec.toNat_setWidth]
    omega
  · have hmod : left.toNat % 2 ^ 64 = left.toNat := Nat.mod_eq_of_lt (by omega)
    rw [if_neg hmsb, BitVec.toNat_setWidth, hmod, Nat.add_zero]

/-- `int bytesToRead = length` loses nothing of a length below `2^31`. -/
theorem narrow_eq {length : BitVec 64} (h : length.toNat < 2 ^ 31) :
    (length.setWidth 32).signExtend 64 = length := by
  have hnarrow : (length.setWidth 32).toNat = length.toNat := by
    rw [BitVec.toNat_setWidth]
    omega
  have hmsb : (length.setWidth 32).msb = false := by
    rw [BitVec.msb_eq_decide, hnarrow]
    simpa using h
  apply BitVec.eq_of_toNat_eq
  rw [BitVec.signExtend_eq_setWidth_of_msb_false hmsb, BitVec.toNat_setWidth, hnarrow]
  omega

end OperatingSystems.Driver
