import OperatingSystems.DriverHistory
import Mathlib.Data.List.Infix

/-!
What the driver lets out of the block that `kmalloc` has handed it. The block is not cleared, and a
seek goes past what has been written, so a read shows whatever the heap has left there. Two loads
of the module that differ only in that look alike exactly as long as every read stays on positions
that have been written.
-/

namespace OperatingSystems.Driver
open Patches

/-! ### What user space sees -/

/-- The value returned by an operation and the bytes that it copies to user space. -/
def Device.observe (d : Device) (op : Operation) : Option (Option (BitVec 64) × List UInt8) :=
  (d.effect op).map fun e => (e.returned, e.delivered)

def Device.observations (d : Device) :
    List Operation → List (Option (Option (BitVec 64) × List UInt8))
  | [] => []
  | op :: ops => d.observe op :: (d.step op).observations ops

/-- The memories differ at most in the block. -/
def SameOutside (memory memory' : Memory) : Prop :=
  ∀ p : Int, ¬(0 ≤ p ∧ p < bufferSize) → memory p = memory' p

/-- Whatever the block held when the module was loaded, user space sees the same. -/
def Undisclosed (ops : List Operation) : Prop :=
  ∀ memory memory', SameOutside memory memory' →
    (loaded memory).observations ops = (loaded memory').observations ops

/-- The positions that a read covers if it fits into the buffer; a read that does not, and any
other operation, copies nothing out. -/
def Device.shown (d : Device) : Operation → List Int
  | .call handle (.read length fault) =>
      match d.positions[handle]? with
      | some position =>
          if position.toNat + length.toNat ≤ bufferSize then
            span position.toNat (length.toNat - fault)
          else []
      | none => []
  | _ => []

/-- The memory of a machine whose heap happens to hold zeros. -/
def blank : Memory := fun _ => 0

/-- No read covers a position before an accepted write has covered it. -/
def ReadsWritten (ops : List Operation) : Prop :=
  ∀ before op, before ++ [op] <+: ops → ∀ p ∈ ((loaded blank).run before).shown op,
    (latest ((loaded blank).history before) p).isSome

theorem observations_concat (d : Device) (ops : List Operation) (op : Operation) :
    d.observations (ops ++ [op]) = d.observations ops ++ [(d.run ops).observe op] := by
  induction ops generalizing d with
  | nil => rfl
  | cons first ops ih =>
      rw [List.cons_append, Device.observations, Device.observations, ih]
      rfl

theorem readsWritten_concat (ops : List Operation) (op : Operation) :
    ReadsWritten (ops ++ [op]) ↔ ReadsWritten ops ∧
      ∀ p ∈ ((loaded blank).run ops).shown op, (latest ((loaded blank).history ops) p).isSome := by
  constructor
  · intro h
    constructor
    · intro before last hbegins
      exact h before last (hbegins.trans (List.prefix_append _ _))
    · exact h ops op List.prefix_rfl
  · rintro ⟨hold, hlast⟩ before last hbegins
    rw [List.prefix_concat_iff] at hbegins
    rcases hbegins with heq | hbegins
    · obtain ⟨rfl, rfl⟩ := List.append_singleton_inj.mp heq
      exact hlast
    · exact hold before last hbegins

/-! ### Two loads -/

section Loads

variable {d d' : Device}

theorem Call.effect_returned (c : Call) (memory memory' : Memory) (position : BitVec 64) :
    (c.effect memory position).returned = (c.effect memory' position).returned ∧
      (c.effect memory position).offset = (c.effect memory' position).offset := by
  cases c with
  | read length fault =>
      simp only [Call.effect, pa2CharDriverRead]
      split
      · split <;> exact ⟨rfl, rfl⟩
      · exact ⟨rfl, rfl⟩
  | write data fault =>
      simp only [Call.effect, pa2CharDriverWrite]
      split <;> exact ⟨rfl, rfl⟩
  | llseek offset whence => exact ⟨rfl, rfl⟩

theorem step_positions (h : d.positions = d'.positions) (op : Operation) :
    (d.step op).positions = (d'.step op).positions := by
  cases op with
  | openDevice => simp only [Device.step, h]
  | call handle c =>
      simp only [Device.step, h]
      cases hat : d'.positions[handle]? with
      | none => exact h
      | some position => simp only [(c.effect_returned d.memory d'.memory position).2]

theorem stored_congr (h : d.positions = d'.positions) (op : Operation) :
    d.stored op = d'.stored op := by
  have haccepted : d.accepted op = d'.accepted op := by
    cases op with
    | openDevice => rfl
    | call handle c =>
        cases c with
        | read length fault => rfl
        | llseek offset whence => rfl
        | write data fault =>
            simp only [Device.accepted, h]
            cases d'.positions[handle]? with
            | none => rfl
            | some position =>
                simp only [((Call.write data fault).effect_returned d.memory d'.memory position).1]
  funext p
  rw [Device.stored, Device.stored, haccepted]

theorem shown_congr (h : d.positions = d'.positions) (op : Operation) :
    d.shown op = d'.shown op := by
  cases op with
  | openDevice => rfl
  | call handle c => cases c <;> simp only [Device.shown, h]

theorem run_positions (memory memory' : Memory) (ops : List Operation) :
    ((loaded memory).run ops).positions = ((loaded memory').run ops).positions := by
  induction ops using List.reverseRecOn with
  | nil => rfl
  | append_singleton ops op ih =>
      rw [run_concat, run_concat]
      exact step_positions ih op

theorem history_loaded (memory memory' : Memory) (ops : List Operation) :
    (loaded memory).history ops = (loaded memory').history ops := by
  induction ops using List.reverseRecOn with
  | nil => rfl
  | append_singleton ops op ih =>
      rw [history_concat, history_concat, ih, stored_congr (run_positions memory memory' ops)]

theorem observe_eq (h : d.Bounded) (op : Operation) :
    d.observe op =
      (d.effect op).map fun e => (e.returned, (d.shown op).map d.memory) := by
  cases op with
  | openDevice => rfl
  | call handle c =>
      cases hat : d.positions[handle]? with
      | none => simp only [Device.observe, Device.effect, hat, Option.map_none]
      | some position =>
          have hle := h position (List.mem_of_getElem? hat)
          rw [Device.observe, effect_call hat, Option.map_some, Option.map_some]
          congr 2
          cases c with
          | read length fault =>
              simp only [Device.shown, hat, Call.effect, read_of_le hle]
              split <;> rfl
          | write data fault =>
              simp only [Device.shown, Call.effect, write_of_le hle]
              split <;> rfl
          | llseek offset whence => rfl

/-- Two devices with the same positions look alike on an operation exactly if they agree on what
it shows. -/
theorem observe_eq_iff (hbounded : d.Bounded) (hbounded' : d'.Bounded)
    (h : d.positions = d'.positions) (op : Operation) :
    d.observe op = d'.observe op ↔ ∀ p ∈ d.shown op, d.memory p = d'.memory p := by
  rw [observe_eq hbounded, observe_eq hbounded', ← shown_congr h, ← List.map_inj_left]
  cases op with
  | openDevice => exact iff_of_true rfl rfl
  | call handle c =>
      cases hat : d.positions[handle]? with
      | none =>
          have hshown : d.shown (.call handle c) = [] := by
            cases c <;> simp only [Device.shown, hat]
          rw [hshown]
          simp only [Device.effect, ← h, hat, Option.map_none, List.map_nil]
      | some position =>
          rw [effect_call hat, effect_call (h ▸ hat), Option.map_some, Option.map_some,
            Option.some_inj, Prod.mk_inj]
          exact and_iff_right (c.effect_returned d.memory d'.memory position).1

end Loads

theorem shown_inside {d : Device} {op : Operation} {p : Int} (h : p ∈ d.shown op) :
    0 ≤ p ∧ p < bufferSize := by
  cases op with
  | openDevice => cases h
  | call handle c =>
      cases c with
      | read length fault =>
          simp only [Device.shown] at h
          split at h
          · split at h
            · rw [mem_span] at h
              omega
            · cases h
          · cases h
      | write data fault => cases h
      | llseek offset whence => cases h

/-! ### Disclosure -/

/-- After a run the two loads agree on a position of the block exactly if it has been written or
they agreed on it from the start. -/
theorem memory_eq_iff (memory memory' : Memory) (ops : List Operation) (p : Int) :
    ((loaded memory).run ops).memory p = ((loaded memory').run ops).memory p ↔
      (latest ((loaded blank).history ops) p).isSome ∨ memory p = memory' p := by
  rw [memory_run, memory_run, history_loaded memory blank, history_loaded memory' blank]
  exact overlay_eq_iff

theorem undisclosed_concat (ops : List Operation) (op : Operation) :
    Undisclosed (ops ++ [op]) ↔ Undisclosed ops ∧
      ∀ p ∈ ((loaded blank).run ops).shown op, (latest ((loaded blank).history ops) p).isSome := by
  have hlast : ∀ memory memory',
      ((loaded memory).run ops).observe op = ((loaded memory').run ops).observe op ↔
        ∀ p ∈ ((loaded blank).run ops).shown op,
          (latest ((loaded blank).history ops) p).isSome ∨ memory p = memory' p := by
    intro memory memory'
    rw [observe_eq_iff (bounded_run memory ops) (bounded_run memory' ops)
      (run_positions memory memory' ops), shown_congr (run_positions memory blank ops)]
    simp only [memory_eq_iff]
  constructor
  · intro h
    constructor
    · intro memory memory' hsame
      have hobservations := h memory memory' hsame
      rw [observations_concat, observations_concat] at hobservations
      exact (List.append_singleton_inj.mp hobservations).1
    · intro p hp
      -- a block of ones differs from a block of zeros at every position
      have hsame : SameOutside blank fun p => if 0 ≤ p ∧ p < bufferSize then 1 else 0 := by
        intro q hq
        simp only [blank, if_neg hq]
      have hobservations := h _ _ hsame
      rw [observations_concat, observations_concat] at hobservations
      have hobserve := (List.append_singleton_inj.mp hobservations).2
      rcases (hlast _ _).mp hobserve p hp with hwritten | hequal
      · exact hwritten
      · simp only [blank, if_pos (shown_inside hp)] at hequal
        exact absurd hequal (by decide)
  · rintro ⟨hops, hshown⟩ memory memory' hsame
    rw [observations_concat, observations_concat, hops memory memory' hsame,
      (hlast memory memory').mpr fun p hp => Or.inl (hshown p hp)]

/-- Nothing of the block gets out exactly if no read covers a position before an accepted write has
covered it. -/
theorem undisclosed_iff_readsWritten (ops : List Operation) :
    Undisclosed ops ↔ ReadsWritten ops := by
  induction ops using List.reverseRecOn with
  | nil =>
      apply iff_of_true
      · intro memory memory' hsame
        rfl
      · intro before op hbegins
        exact absurd (List.prefix_nil.mp hbegins) (List.concat_ne_nil op before)
  | append_singleton ops op ih => rw [undisclosed_concat, readsWritten_concat, ih]

/-- Opening the device and reading one byte shows a byte of the heap. -/
theorem first_read_discloses : ¬∀ ops, Undisclosed ops := by
  intro h
  have hsame : SameOutside (fun _ => 0) fun p => if p = 0 then 1 else 0 := by
    intro p hp
    have hne : p ≠ 0 := by
      intro hzero
      exact hp ⟨hzero.ge, by rw [hzero]; decide⟩
    simp only [if_neg hne]
  have hread := h [.openDevice, .call 0 (.read 1 0)] _ _ hsame
  exact absurd hread (by decide)

end OperatingSystems.Driver
