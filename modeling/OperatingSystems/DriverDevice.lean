import OperatingSystems.DriverModel

/-!
The device behind its open handles. Every handle has a position of its own, all share one buffer,
and the VFS passes a handle's position to the driver with each call. The driver's three tests, each
in its own arithmetic, keep one invariant: no position leaves the buffer.
-/

namespace OperatingSystems.Driver

/-! ### The device -/

/-- The bytes of a user buffer, as many as a `size_t` can count. -/
structure UserBuffer where
  bytes : List UInt8
  length_lt : bytes.length < 2 ^ 64

/-- The `length` that is passed on with the buffer. -/
def UserBuffer.length (data : UserBuffer) : BitVec 64 := BitVec.ofNat 64 data.bytes.length

/-- What is called on an open handle; `fault` is the number of bytes that the copy from or to user
space misses. -/
inductive Call where
  | read (length : BitVec 64) (fault : Nat)
  | write (data : UserBuffer) (fault : Nat)
  | llseek (offset : BitVec 64) (whence : Int)

/-- What the driver does on a call, for a handle at the position. -/
def Call.effect (memory : Memory) (position : BitVec 64) : Call → Effect
  | .read length fault => pa2CharDriverRead memory length position fault
  | .write data fault =>
      pa2CharDriverWrite memory data.bytes data.length position fault
  | .llseek offset whence =>
      let sought := pa2CharDriverSeek position offset whence
      { returned := some sought.2, offset := sought.1, memory, delivered := [], touched := [] }

/-- The kernel memory and the positions of the handles opened so far. -/
structure Device where
  memory : Memory
  positions : List (BitVec 64)

inductive Operation where
  | openDevice
  | call (handle : Nat) (c : Call)

/-- What the driver does on an operation; a call on a handle that was not opened does not get
through to it. -/
def Device.effect (d : Device) : Operation → Option Effect
  | .openDevice => none
  | .call handle c => d.positions[handle]?.map fun position => c.effect d.memory position

def Device.step (d : Device) : Operation → Device
  | .openDevice => { d with positions := d.positions ++ [0] }
  | .call handle c =>
      match d.positions[handle]? with
      | some position =>
          let e := c.effect d.memory position
          { memory := e.memory, positions := d.positions.set handle e.offset }
      | none => d

def Device.run (d : Device) (ops : List Operation) : Device := ops.foldl Device.step d

/-- The device after `pa2_char_driver_init`, with whatever `kmalloc` has left in the block. -/
def loaded (memory : Memory) : Device where
  memory := memory
  positions := []

theorem run_concat (d : Device) (ops : List Operation) (op : Operation) :
    d.run (ops ++ [op]) = (d.run ops).step op := by
  rw [Device.run, Device.run, List.foldl_concat]

/-! ### Calls at a position in the buffer -/

section Calls

variable {position length : BitVec 64}

theorem toInt_of_le (h : position.toNat ≤ bufferSize) : position.toInt = position.toNat := by
  rw [BitVec.toInt_eq_toNat_cond, if_pos]
  simp only [bufferSize] at h
  omega

/-- Inside the buffer the remaining count is what it should be. -/
theorem bytesLeft_of_le (h : position.toNat ≤ bufferSize) :
    (bytesLeft position).toNat = bufferSize - position.toNat := by
  have hleft := bytesLeft_toNat position
  simp only [bufferSize] at h ⊢
  omega

theorem bytesLeft_msb (h : position.toNat ≤ bufferSize) : (bytesLeft position).msb = false := by
  rw [BitVec.msb_eq_decide, bytesLeft_of_le h, decide_eq_false_iff_not]
  simp only [bufferSize]
  omega

/-- Inside the buffer the unsigned comparison is right for every length. -/
theorem leftBelow_of_le (h : position.toNat ≤ bufferSize) :
    leftBelow (bytesLeft position) length = true ↔
      bufferSize < position.toNat + length.toNat := by
  have hleft := bytesLeft_of_le h
  have hlt := (bytesLeft position).isLt
  rw [leftBelow, BitVec.ult_eq_decide, decide_eq_true_iff,
    BitVec.signExtend_eq_setWidth_of_msb_false (bytesLeft_msb h), BitVec.toNat_setWidth,
    Nat.mod_eq_of_lt (by omega), hleft]
  omega

/-- A read that fits is carried out, any other runs off the end of the function. -/
theorem read_of_le (h : position.toNat ≤ bufferSize) (memory : Memory) (fault : Nat) :
    pa2CharDriverRead memory length position fault =
      if position.toNat + length.toNat ≤ bufferSize then
        { returned := some length
          offset := position + length
          memory
          delivered := (span position.toNat (length.toNat - fault)).map memory
          touched := span position.toNat (length.toNat - fault) }
      else { returned := none, offset := position, memory, delivered := [], touched := [] } := by
  by_cases hfits : position.toNat + length.toNat ≤ bufferSize
  · have hgranted : ¬leftBelow (bytesLeft position) length = true := by
      rw [leftBelow_of_le h]
      omega
    have hnarrow : (length.setWidth 32).signExtend 64 = length := by
      apply narrow_eq
      simp only [bufferSize] at hfits
      omega
    rw [if_pos hfits, pa2CharDriverRead, if_neg hgranted]
    simp only [hnarrow, toInt_of_le h, copyToUser]
  · have hrefused : leftBelow (bytesLeft position) length = true := by
      rw [leftBelow_of_le h]
      omega
    have hnonneg : ¬(bytesLeft position).slt 0 = true := by
      rw [show (0 : BitVec 32) = 0#32 from rfl, BitVec.slt_zero_eq_msb, bytesLeft_msb h]
      exact Bool.false_ne_true
    rw [if_neg hfits, pa2CharDriverRead, if_pos hrefused]
    exact if_neg hnonneg

/-- A write that fits is carried out, any other is refused. -/
theorem write_of_le (h : position.toNat ≤ bufferSize) (memory : Memory) (data : List UInt8)
    (fault : Nat) :
    pa2CharDriverWrite memory data length position fault =
      if position.toNat + length.toNat ≤ bufferSize then
        { returned := some length
          offset := position + length
          memory := copyFromUser memory position.toNat data length.toNat fault
          delivered := []
          touched := span position.toNat length.toNat }
      else { returned := some (-1), offset := position, memory, delivered := [],
             touched := [] } := by
  by_cases hfits : position.toNat + length.toNat ≤ bufferSize
  · have hgranted : ¬leftBelow (bytesLeft position) length = true := by
      rw [leftBelow_of_le h]
      omega
    rw [if_pos hfits, pa2CharDriverWrite, if_neg hgranted]
    simp only [toInt_of_le h]
  · have hrefused : leftBelow (bytesLeft position) length = true := by
      rw [leftBelow_of_le h]
      omega
    rw [if_neg hfits, pa2CharDriverWrite, if_pos hrefused]

end Calls

/-! ### Seeks -/

/-- The position a seek asks for, in exact integers. -/
def seekTarget (position offset whence : Int) : Option Int :=
  if whence = 0 then some offset
  else if whence = 1 then some (position + offset)
  else if whence = 2 then some (bufferSize - offset)
  else none

/-- A sum that wraps comes out negative or far above the buffer, and so does the exact one. -/
theorem bmod_inside_iff {target : Int} (hlow : -2 ^ 63 ≤ target)
    (hhigh : target ≤ 2 ^ 63 + bufferSize) :
    (0 ≤ target.bmod (2 ^ 64) ∧ target.bmod (2 ^ 64) ≤ bufferSize) ↔
      (0 ≤ target ∧ target ≤ bufferSize) := by
  rw [Int.bmod_def]
  simp only [bufferSize] at hhigh ⊢
  split <;> omega

/-- What the bounds checks make of the wrapped position. -/
theorem checked_eq {wrapped : BitVec 64} {target : Int} (position : BitVec 64)
    (hwrapped : wrapped = BitVec.ofInt 64 target) (hlow : -2 ^ 63 ≤ target)
    (hhigh : target ≤ 2 ^ 63 + bufferSize) :
    (if wrapped.slt 0 then (position, -1)
      else if (BitVec.ofNat 64 bufferSize).slt wrapped then (position, -1)
      else (wrapped, wrapped)) =
      if 0 ≤ target ∧ target ≤ bufferSize then
        (BitVec.ofInt 64 target, BitVec.ofInt 64 target)
      else (position, -1) := by
  have hinside := bmod_inside_iff hlow hhigh
  have htoInt : wrapped.toInt = target.bmod (2 ^ 64) := by
    rw [hwrapped, BitVec.toInt_ofInt]
  have hzero : (0 : BitVec 64).toInt = 0 := rfl
  have hend : (BitVec.ofNat 64 bufferSize).toInt = bufferSize := rfl
  rw [BitVec.slt_eq_decide, BitVec.slt_eq_decide, hzero, hend, htoInt]
  by_cases hbelow : target.bmod (2 ^ 64) < 0
  · rw [if_pos (decide_eq_true hbelow), if_neg (by rw [← hinside]; omega)]
  · rw [if_neg (by simpa using hbelow)]
    by_cases habove : (bufferSize : Int) < target.bmod (2 ^ 64)
    · rw [if_pos (decide_eq_true habove), if_neg (by rw [← hinside]; omega)]
    · rw [if_neg (by simpa using habove), if_pos (hinside.mp (by omega)), hwrapped]

/-- From a position in the buffer a seek decides in 64-bit arithmetic what it should decide in
exact integers. -/
theorem seek_of_le {position : BitVec 64} (h : position.toNat ≤ bufferSize)
    (offset : BitVec 64) (whence : Int) :
    pa2CharDriverSeek position offset whence =
      match seekTarget position.toNat offset.toInt whence with
      | some target =>
          if 0 ≤ target ∧ target ≤ bufferSize then
            (BitVec.ofInt 64 target, BitVec.ofInt 64 target)
          else (position, -1)
      | none => (position, -1) := by
  have hlow := BitVec.le_toInt offset
  have hhigh := BitVec.toInt_lt (x := offset)
  have hposition := toInt_of_le h
  simp only [pa2CharDriverSeek, seekTarget]
  simp only [bufferSize] at h
  by_cases hset : whence = 0
  · simp only [if_pos hset]
    apply checked_eq position
    · rw [BitVec.ofInt_toInt]
    · simpa using hlow
    · simp only [bufferSize]
      omega
  by_cases hcurrent : whence = 1
  · simp only [if_neg hset, if_pos hcurrent]
    apply checked_eq position
    · rw [BitVec.ofInt_add, ← hposition, BitVec.ofInt_toInt, BitVec.ofInt_toInt]
    · omega
    · simp only [bufferSize]
      omega
  by_cases hend : whence = 2
  · simp only [if_neg hset, if_neg hcurrent, if_pos hend]
    apply checked_eq position
    · rw [Int.sub_eq_add_neg, BitVec.ofInt_add, BitVec.ofInt_neg, BitVec.ofInt_toInt,
        ← BitVec.sub_eq_add_neg]
      rfl
    · simp only [bufferSize]
      omega
    · simp only [bufferSize]
      omega
  · simp only [if_neg hset, if_neg hcurrent, if_neg hend]

/-! ### The position invariant -/

/-- Every open handle's position is in the buffer or at its end. -/
def Device.Bounded (d : Device) : Prop := ∀ position ∈ d.positions, position.toNat ≤ bufferSize

theorem seek_fst_le {position : BitVec 64} (h : position.toNat ≤ bufferSize) (offset : BitVec 64)
    (whence : Int) : (pa2CharDriverSeek position offset whence).1.toNat ≤ bufferSize := by
  rw [seek_of_le h]
  cases seekTarget position.toNat offset.toInt whence with
  | none => exact h
  | some target =>
      by_cases hinside : 0 ≤ target ∧ target ≤ bufferSize
      · simp only [if_pos hinside, BitVec.toNat_ofInt]
        simp only [bufferSize] at hinside ⊢
        omega
      · simpa only [if_neg hinside] using h

/-- A call leaves its handle in the buffer. -/
theorem Call.effect_offset_le (c : Call) (memory : Memory) {position : BitVec 64}
    (h : position.toNat ≤ bufferSize) : (c.effect memory position).offset.toNat ≤ bufferSize := by
  have hadd : ∀ length : BitVec 64, position.toNat + length.toNat ≤ bufferSize →
      (position + length).toNat ≤ bufferSize := by
    intro length hfits
    rw [BitVec.toNat_add]
    exact (Nat.mod_le _ _).trans hfits
  cases c with
  | read length fault =>
      rw [Call.effect, read_of_le h]
      split
      · exact hadd length ‹_›
      · exact h
  | write data fault =>
      rw [Call.effect, write_of_le h]
      split
      · exact hadd _ ‹_›
      · exact h
  | llseek offset whence => exact seek_fst_le h offset whence

/-- A call copies only positions of the buffer. -/
theorem Call.effect_touched (c : Call) (memory : Memory) {position : BitVec 64}
    (h : position.toNat ≤ bufferSize) :
    ∀ p ∈ (c.effect memory position).touched, 0 ≤ p ∧ p < bufferSize := by
  intro p hp
  cases c with
  | read length fault =>
      rw [Call.effect, read_of_le h] at hp
      split at hp
      · rw [mem_span] at hp
        omega
      · simp at hp
  | write data fault =>
      rw [Call.effect, write_of_le h] at hp
      split at hp
      · rw [mem_span] at hp
        omega
      · simp at hp
  | llseek offset whence => simp [Call.effect] at hp

theorem Device.Bounded.step {d : Device} (h : d.Bounded) (op : Operation) :
    (d.step op).Bounded := by
  intro position hposition
  cases op with
  | openDevice =>
      rcases List.mem_append.mp hposition with hold | hnew
      · exact h position hold
      · rw [List.mem_singleton.mp hnew]
        exact Nat.zero_le _
  | call handle c =>
      rw [Device.step] at hposition
      cases hat : d.positions[handle]? with
      | none =>
          rw [hat] at hposition
          exact h position hposition
      | some current =>
          rw [hat] at hposition
          rcases List.mem_or_eq_of_mem_set hposition with hold | hnew
          · exact h position hold
          · rw [hnew]
            exact c.effect_offset_le d.memory (h current (List.mem_of_getElem? hat))

theorem bounded_run (memory : Memory) (ops : List Operation) :
    ((loaded memory).run ops).Bounded := by
  induction ops using List.reverseRecOn with
  | nil =>
      intro position hposition
      simp [Device.run, loaded] at hposition
  | append_singleton ops op ih =>
      rw [run_concat]
      exact ih.step op

/-! ### Rejected calls -/

theorem ne_neg_one {returned : BitVec 64} (h : returned.toNat ≤ bufferSize) : returned ≠ -1 := by
  intro hreturned
  rw [hreturned] at h
  exact absurd h (by decide)

theorem ofInt_toNat_le {target : Int} (h : 0 ≤ target ∧ target ≤ bufferSize) :
    (BitVec.ofInt 64 target).toNat ≤ bufferSize := by
  rw [BitVec.toNat_ofInt]
  simp only [bufferSize] at h ⊢
  omega

/-- A call that returns `-1` has done nothing. -/
theorem Call.effect_rejected {c : Call} {memory : Memory} {position : BitVec 64}
    (h : position.toNat ≤ bufferSize)
    (hrejected : (c.effect memory position).returned = some (-1)) :
    (c.effect memory position).offset = position ∧ (c.effect memory position).memory = memory := by
  cases c with
  | read length fault =>
      rw [Call.effect, read_of_le h] at hrejected ⊢
      split at hrejected
      · exact absurd (Option.some.inj hrejected) (ne_neg_one (by omega))
      · cases hrejected
  | write data fault =>
      rw [Call.effect, write_of_le h] at hrejected ⊢
      split at hrejected
      · exact absurd (Option.some.inj hrejected) (ne_neg_one (by omega))
      · rename_i hfits
        rw [if_neg hfits]
        exact ⟨rfl, rfl⟩
  | llseek offset whence =>
      refine ⟨?_, rfl⟩
      simp only [Call.effect, Option.some.injEq] at hrejected ⊢
      rw [seek_of_le h] at hrejected ⊢
      cases hsought : seekTarget position.toNat offset.toInt whence with
      | none => rfl
      | some target =>
          simp only [hsought] at hrejected ⊢
          split at hrejected
          · rename_i hinside
            exact absurd hrejected (ne_neg_one (ofInt_toNat_le hinside))
          · rename_i houtside
            rw [if_neg houtside]

theorem effect_call {d : Device} {handle : Nat} {position : BitVec 64}
    (hat : d.positions[handle]? = some position) (c : Call) :
    d.effect (.call handle c) = some (c.effect d.memory position) := by
  rw [Device.effect, hat, Option.map_some]

theorem effect_eq_some {d : Device} {op : Operation} {e : Effect} (h : d.effect op = some e) :
    ∃ handle c position, op = .call handle c ∧ d.positions[handle]? = some position ∧
      e = c.effect d.memory position := by
  cases op with
  | openDevice => cases h
  | call handle c =>
      rw [Device.effect, Option.map_eq_some_iff] at h
      obtain ⟨position, hat, rfl⟩ := h
      exact ⟨handle, c, position, rfl, hat, rfl⟩

theorem step_of_rejected {d : Device} (h : d.Bounded) {op : Operation} {e : Effect}
    (heffect : d.effect op = some e) (hrejected : e.returned = some (-1)) : d.step op = d := by
  obtain ⟨handle, c, position, rfl, hat, rfl⟩ := effect_eq_some heffect
  have hposition := h position (List.mem_of_getElem? hat)
  obtain ⟨hoffset, hmemory⟩ := Call.effect_rejected hposition hrejected
  obtain ⟨hlt, hget⟩ := List.getElem?_eq_some_iff.mp hat
  rw [Device.step, hat]
  simp only [hoffset, hmemory]
  rw [← hget, List.set_getElem_self]

/-- A seek is granted exactly when its exact target is in the buffer or at its end, and then goes
there. -/
theorem seek_granted_iff {position : BitVec 64} (h : position.toNat ≤ bufferSize)
    (memory : Memory) (offset : BitVec 64) (whence : Int) :
    ((Call.llseek offset whence).effect memory position).returned ≠ some (-1) ↔
      ∃ target, seekTarget position.toInt offset.toInt whence = some target ∧ 0 ≤ target ∧
        target ≤ bufferSize := by
  rw [toInt_of_le h]
  simp only [Call.effect, ne_eq, Option.some.injEq]
  rw [seek_of_le h]
  cases seekTarget position.toNat offset.toInt whence with
  | none => simp
  | some target =>
      simp only [Option.some.injEq, exists_eq_left']
      split
      · rename_i hinside
        exact iff_of_true (ne_neg_one (ofInt_toNat_le hinside)) hinside
      · rename_i houtside
        exact iff_of_false (fun hne => hne rfl) houtside

theorem seek_granted {position : BitVec 64} (h : position.toNat ≤ bufferSize) (memory : Memory)
    {offset : BitVec 64} {whence target : Int}
    (htarget : seekTarget position.toInt offset.toInt whence = some target)
    (hinside : 0 ≤ target ∧ target ≤ bufferSize) :
    (Call.llseek offset whence).effect memory position =
      { returned := some (BitVec.ofInt 64 target), offset := BitVec.ofInt 64 target, memory,
        delivered := [], touched := [] } := by
  rw [toInt_of_le h] at htarget
  simp only [Call.effect, seek_of_le h, htarget, if_pos hinside]

/-- Whatever is done with whatever handles, every position stays in the buffer or at its end, no
copy leaves the buffer, seeks are decided as in exact integers, and a call that returns `-1`
changes nothing. -/
theorem positions_bounded (memory : Memory) (ops : List Operation) :
    let d := (loaded memory).run ops
    (∀ position ∈ d.positions, 0 ≤ position.toInt ∧ position.toInt ≤ bufferSize) ∧
    (∀ op e, d.effect op = some e → ∀ p ∈ e.touched, 0 ≤ p ∧ p < bufferSize) ∧
    (∀ handle position offset whence e, d.positions[handle]? = some position →
      d.effect (.call handle (.llseek offset whence)) = some e →
      (e.returned ≠ some (-1) ↔
        ∃ target, seekTarget position.toInt offset.toInt whence = some target ∧ 0 ≤ target ∧
          target ≤ bufferSize) ∧
      ∀ target, seekTarget position.toInt offset.toInt whence = some target →
        0 ≤ target ∧ target ≤ bufferSize →
          e.returned = some (BitVec.ofInt 64 target) ∧ e.offset = BitVec.ofInt 64 target) ∧
    ∀ op e, d.effect op = some e → e.returned = some (-1) → d.step op = d := by
  intro d
  have hbounded : d.Bounded := bounded_run memory ops
  refine ⟨?_, ?_, ?_, ?_⟩
  · intro position hposition
    have hle := hbounded position hposition
    rw [toInt_of_le hle]
    omega
  · intro op e heffect
    obtain ⟨handle, c, position, rfl, hat, rfl⟩ := effect_eq_some heffect
    exact c.effect_touched d.memory (hbounded position (List.mem_of_getElem? hat))
  · intro handle position offset whence e hat heffect
    have hle := hbounded position (List.mem_of_getElem? hat)
    rw [effect_call hat] at heffect
    obtain rfl := Option.some.inj heffect
    refine ⟨seek_granted_iff hle d.memory offset whence, ?_⟩
    intro target htarget hinside
    rw [seek_granted hle d.memory htarget hinside]
    exact ⟨rfl, rfl⟩
  · intro op e heffect hrejected
    exact step_of_rejected hbounded heffect hrejected

end OperatingSystems.Driver
