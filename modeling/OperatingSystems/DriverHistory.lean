import OperatingSystems.DriverDevice
import OperatingSystems.LibraryPatches

/-!
The device as one shared array. Whatever handle it comes through, an accepted write sets a range of
positions, and nothing else changes the buffer, so that every position holds what the latest
accepted write has put there.
-/

namespace OperatingSystems.Driver
open Patches

/-! ### What a write stores -/

theorem UserBuffer.length_toNat (data : UserBuffer) : data.length.toNat = data.bytes.length := by
  rw [UserBuffer.length, BitVec.toNat_ofNat, Nat.mod_eq_of_lt data.length_lt]

/-- What arrives of the buffer in the kernel: the bytes that could not be fetched are zeros. -/
def UserBuffer.fetched (data : UserBuffer) (fault : Nat) : List UInt8 :=
  data.bytes.take (data.bytes.length - fault) ++
    List.replicate (min fault data.bytes.length) 0

@[simp] theorem UserBuffer.fetched_zero (data : UserBuffer) : data.fetched 0 = data.bytes := by
  simp [UserBuffer.fetched]

@[simp] theorem UserBuffer.length_fetched (data : UserBuffer) (fault : Nat) :
    (data.fetched fault).length = data.bytes.length := by
  rw [UserBuffer.fetched, List.length_append, List.length_take, List.length_replicate]
  omega

/-- The bytes, laid out from the position on. -/
def bytesAt (position : Nat) (bytes : List UInt8) : Patch Int UInt8 := fun p =>
  if (position : Int) ≤ p then bytes[(p - position).toNat]? else none

/-- The position and the bytes of a write that the device accepts. -/
def Device.accepted (d : Device) : Operation → Option (Nat × List UInt8)
  | .call handle (.write data fault) =>
      match d.positions[handle]? with
      | some position =>
          if ((Call.write data fault).effect d.memory position).returned = some (-1) then none
          else some (position.toNat, data.fetched fault)
      | none => none
  | _ => none

/-- What an operation stores. -/
def Device.stored (d : Device) (op : Operation) : Patch Int UInt8 := fun p =>
  (d.accepted op).bind fun write => bytesAt write.1 write.2 p

/-- What the operations store, one after the other. -/
def Device.history (d : Device) : List Operation → List (Patch Int UInt8)
  | [] => []
  | op :: ops => d.stored op :: (d.step op).history ops

theorem history_concat (d : Device) (ops : List Operation) (op : Operation) :
    d.history (ops ++ [op]) = d.history ops ++ [(d.run ops).stored op] := by
  induction ops generalizing d with
  | nil => rfl
  | cons first ops ih => rw [List.cons_append, Device.history, Device.history, ih]; rfl

theorem copyFromUser_eq (memory : Memory) (position : Nat) (data : UserBuffer) (fault : Nat) :
    copyFromUser memory position data.bytes data.length.toNat fault =
      apply (bytesAt position (data.fetched fault)) memory := by
  funext p
  rw [copyFromUser, apply, bytesAt, data.length_toNat]
  by_cases hlow : (position : Int) ≤ p
  · rw [if_pos hlow]
    by_cases hhigh : p < position + data.bytes.length
    · rw [if_pos ⟨hlow, hhigh⟩, UserBuffer.fetched]
      by_cases hfetched : (p - position).toNat < data.bytes.length - fault
      · rw [if_pos hfetched, List.getElem?_append_left (by rw [List.length_take]; omega),
          List.getElem?_take_of_lt hfetched, List.getD_eq_getElem?_getD]
        rw [List.getElem?_eq_getElem (by omega)]
        rfl
      · rw [if_neg hfetched, List.getElem?_append_right (by rw [List.length_take]; omega),
          List.getElem?_replicate_of_lt (by rw [List.length_take]; omega)]
        rfl
    · rw [if_neg (by omega), List.getElem?_eq_none (by rw [data.length_fetched]; omega)]
      rfl
  · rw [if_neg hlow, if_neg (by omega)]
    rfl

/-! ### The buffer after a run -/

theorem stored_of_accepted_none {d : Device} {op : Operation} (h : d.accepted op = none) :
    d.stored op = fun _ => none := by
  funext p
  rw [Device.stored, h, Option.bind_none]

theorem apply_none (memory : Memory) : apply (fun _ => none) memory = memory := rfl

/-- A write in the buffer is accepted if it fits. -/
theorem accepted_write {d : Device} {handle : Nat} {position : BitVec 64}
    (hat : d.positions[handle]? = some position) (h : position.toNat ≤ bufferSize)
    (data : UserBuffer) (fault : Nat) :
    d.accepted (.call handle (.write data fault)) =
      if position.toNat + data.bytes.length ≤ bufferSize then
        some (position.toNat, data.fetched fault)
      else none := by
  rw [Device.accepted, hat]
  simp only [Call.effect, write_of_le h, data.length_toNat]
  by_cases hfits : position.toNat + data.bytes.length ≤ bufferSize
  · have hreturned : data.length ≠ -1 := ne_neg_one (by rw [data.length_toNat]; omega)
    rw [if_pos hfits, if_pos hfits, if_neg (by simpa using hreturned)]
  · rw [if_neg hfits, if_neg hfits, if_pos rfl]

/-- The memory after an operation is the memory before it, but for what the operation stores. -/
theorem memory_step {d : Device} (h : d.Bounded) (op : Operation) :
    (d.step op).memory = apply (d.stored op) d.memory := by
  cases op with
  | openDevice => rfl
  | call handle c =>
      cases hat : d.positions[handle]? with
      | none =>
          rw [stored_of_accepted_none (by cases c <;> simp [Device.accepted, hat]), apply_none,
            Device.step, hat]
      | some position =>
          have hle := h position (List.mem_of_getElem? hat)
          simp only [Device.step, hat]
          cases c with
          | read length fault =>
              rw [stored_of_accepted_none rfl, apply_none, Call.effect, read_of_le hle]
              split <;> rfl
          | llseek offset whence => rw [stored_of_accepted_none rfl, apply_none, Call.effect]
          | write data fault =>
              have haccepted := accepted_write hat hle data fault
              rw [Call.effect, write_of_le hle, data.length_toNat]
              by_cases hfits : position.toNat + data.bytes.length ≤ bufferSize
              · rw [if_pos hfits] at haccepted ⊢
                have hstored : d.stored (.call handle (.write data fault)) =
                    bytesAt position.toNat (data.fetched fault) := by
                  funext p
                  rw [Device.stored, haccepted, Option.bind_some]
                rw [hstored, ← copyFromUser_eq, data.length_toNat]
              · rw [if_neg hfits] at haccepted ⊢
                rw [stored_of_accepted_none haccepted, apply_none]

/-- Every position holds what the latest accepted write that covers it has put there. -/
theorem memory_run (memory : Memory) (ops : List Operation) :
    ((loaded memory).run ops).memory = overlay memory ((loaded memory).history ops) := by
  induction ops using List.reverseRecOn with
  | nil => rfl
  | append_singleton ops op ih =>
      rw [run_concat, memory_step (bounded_run memory ops), ih, history_concat, overlay_concat]

/-- What a read returns and delivers from a position in the buffer. -/
theorem read_effect {d : Device} {handle : Nat} {position length : BitVec 64}
    (hat : d.positions[handle]? = some position)
    (hfits : position.toNat + length.toNat ≤ bufferSize) (fault : Nat) :
    d.effect (.call handle (.read length fault)) =
      some { returned := some length, offset := position + length, memory := d.memory,
             delivered := (span position.toNat (length.toNat - fault)).map d.memory,
             touched := span position.toNat (length.toNat - fault) } := by
  rw [effect_call hat, Call.effect, read_of_le (by omega), if_pos hfits]

/-! ### Reading back -/

theorem map_span_bytesAt (memory : Memory) (position : Nat) (bytes : List UInt8) :
    (span position bytes.length).map (apply (bytesAt position bytes) memory) = bytes := by
  apply List.ext_getElem
  · simp [span]
  · intro i hi hi'
    have hindex : ((position : Int) + i - position).toNat = i := by omega
    simp only [span, List.map_map, List.getElem_map, List.getElem_range, Function.comp_apply]
    rw [apply, bytesAt, if_pos (by omega), hindex, List.getElem?_eq_getElem hi',
      Option.getD_some]

theorem step_seek {d : Device} (h : d.Bounded) {handle : Nat} {position start : BitVec 64}
    (hat : d.positions[handle]? = some position) (hstart : start.toNat ≤ bufferSize) :
    d.step (.call handle (.llseek start 0)) =
      { d with positions := d.positions.set handle start } := by
  have hle := h position (List.mem_of_getElem? hat)
  have htarget : seekTarget position.toInt start.toInt 0 = some start.toInt := rfl
  have hinside : 0 ≤ start.toInt ∧ start.toInt ≤ bufferSize := by
    rw [toInt_of_le hstart]
    omega
  simp only [Device.step, hat, seek_granted hle d.memory htarget hinside, BitVec.ofInt_toInt]

theorem step_write {d : Device} {handle : Nat} {position : BitVec 64}
    (hat : d.positions[handle]? = some position) {data : UserBuffer}
    (hfits : position.toNat + data.bytes.length ≤ bufferSize) :
    d.step (.call handle (.write data 0)) =
      { memory := apply (bytesAt position.toNat data.bytes) d.memory
        positions := d.positions.set handle (position + data.length) } := by
  have hle : position.toNat ≤ bufferSize := by omega
  have hcopy := copyFromUser_eq d.memory position.toNat data 0
  rw [data.fetched_zero, data.length_toNat] at hcopy
  simp only [Device.step, hat, Call.effect, write_of_le hle, data.length_toNat, if_pos hfits,
    hcopy]

/-- Go to `start`, write there, and come back. -/
def writeBack (handle : Nat) (start : BitVec 64) (data : UserBuffer) : List Operation :=
  [.call handle (.llseek start 0), .call handle (.write data 0), .call handle (.llseek start 0)]

theorem run_writeBack {d : Device} (h : d.Bounded) {handle : Nat} {position start : BitVec 64}
    (hat : d.positions[handle]? = some position) {data : UserBuffer}
    (hfits : start.toNat + data.bytes.length ≤ bufferSize) :
    d.run (writeBack handle start data) =
      { memory := apply (bytesAt start.toNat data.bytes) d.memory
        positions := d.positions.set handle start } := by
  have hstart : start.toNat ≤ bufferSize := by omega
  have hlt : handle < d.positions.length := (List.getElem?_eq_some_iff.mp hat).1
  have hsought : (d.step (.call handle (.llseek start 0))).positions[handle]? = some start := by
    rw [step_seek h hat hstart]
    exact List.getElem?_set_self hlt
  have hwritten := step_write hsought hfits
  have hback : ((d.step (.call handle (.llseek start 0))).step
      (.call handle (.write data 0))).positions[handle]? = some (start + data.length) := by
    rw [hwritten]
    apply List.getElem?_set_self
    rw [step_seek h hat hstart, List.length_set]
    exact hlt
  have hagain := step_seek ((h.step _).step _) hback hstart
  rw [hwritten, step_seek h hat hstart] at hagain
  simp only [writeBack, Device.run, List.foldl_cons, List.foldl_nil]
  rw [hwritten, step_seek h hat hstart, hagain]
  simp only [List.set_set]

/-- The device is one array of bytes, shared by all handles: a read in the buffer delivers the
latest accepted writes, nothing else changes a byte, and what is written at a position can be read
back from there. -/
theorem array_shared (memory : Memory) (ops : List Operation) :
    let d := (loaded memory).run ops
    (∀ handle position length e, d.positions[handle]? = some position →
      position.toNat + length.toNat ≤ bufferSize →
      d.effect (.call handle (.read length 0)) = some e →
        e.returned = some length ∧
        e.delivered = (span position.toNat length.toNat).map fun p =>
          (latest ((loaded memory).history ops) p).getD (memory p)) ∧
    (∀ op, d.accepted op = none → (d.step op).memory = d.memory) ∧
    (∀ op p, d.stored op p = none → (d.step op).memory p = d.memory p) ∧
    ∀ handle position start data, d.positions[handle]? = some position →
      start.toNat + data.bytes.length ≤ bufferSize →
      ∃ e, (d.run (writeBack handle start data)).effect (.call handle (.read data.length 0)) =
          some e ∧
        e.returned = some data.length ∧ e.delivered = data.bytes := by
  intro d
  have hbounded : d.Bounded := bounded_run memory ops
  refine ⟨?_, ?_, ?_, ?_⟩
  · intro handle position length e hat hfits heffect
    rw [read_effect hat hfits] at heffect
    obtain rfl := Option.some.inj heffect
    refine ⟨rfl, ?_⟩
    simp only [d, memory_run, Nat.sub_zero]
    rfl
  · intro op haccepted
    rw [memory_step hbounded, stored_of_accepted_none haccepted, apply_none]
  · intro op p hstored
    rw [memory_step hbounded, apply, hstored, Option.getD_none]
  · intro handle position start data hat hfits
    have hlt : handle < d.positions.length := (List.getElem?_eq_some_iff.mp hat).1
    rw [run_writeBack hbounded hat hfits]
    refine ⟨_, read_effect (List.getElem?_set_self hlt) ?_ 0, rfl, ?_⟩
    · rw [data.length_toNat]
      exact hfits
    · simp only [Nat.sub_zero, data.length_toNat]
      exact map_span_bytesAt d.memory start.toNat data.bytes

end OperatingSystems.Driver
