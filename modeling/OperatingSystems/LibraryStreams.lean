import OperatingSystems.LibraryThreads
import Mathlib.Data.Fintype.BigOperators

/-!
One file that several writers append to, each through a buffer of its own. What a writer prints
stays in its buffer until the buffer overflows, when any part of what has gathered goes to the
file, or until the buffer is flushed. Nothing is lost and each writer's text keeps its order; but
the records of one writer stay whole only as long as its buffer does not overflow.
-/

namespace Streams

open Threads

variable {ι α β : Type}

/-- The file and, for each writer, what it has printed that has not reached the file. -/
structure Appended (ι α : Type) where
  file : List α
  pending : ι → List α

/-- Nothing has been printed. -/
def Appended.opened : Appended ι α where
  file := []
  pending := fun _ => []

variable [DecidableEq ι]

/-- A writer with a buffer of `size` elements prints. If the text overflows the buffer, the first
`sent` elements of what has gathered reach the file. -/
def Appended.print (size : Nat) (c : Appended ι α) (w : ι) (text : List α) (sent : Nat) :
    Appended ι α :=
  let gathered := c.pending w ++ text
  let out := if gathered.length < size then 0 else sent
  { file := c.file ++ gathered.take out
    pending := Function.update c.pending w (gathered.drop out) }

/-- A writer's buffer is flushed. -/
def Appended.flush (c : Appended ι α) (w : ι) : Appended ι α where
  file := c.file ++ c.pending w
  pending := Function.update c.pending w []

variable {size : Nat} {c : Appended ι α} {w : ι} {text : List α} {sent : Nat}

/-! ### One writer -/

/-- What a writer that is alone has printed. -/
theorem print_alone : (c.print size w text sent).file ++ (c.print size w text sent).pending w =
    c.file ++ c.pending w ++ text := by
  simp only [Appended.print, Function.update_self]
  rw [List.append_assoc, List.take_append_drop, List.append_assoc]

theorem flush_alone : (c.flush w).file ++ (c.flush w).pending w = c.file ++ c.pending w := by
  simp only [Appended.flush, Function.update_self, List.append_nil]

/-! ### All writers -/

section All

variable [Fintype ι]

/-- All that has been printed, wherever it is. -/
def Appended.all (c : Appended ι α) : Multiset α := (c.file : Multiset α) + ∑ w, ↑(c.pending w)

omit [DecidableEq ι] in
@[simp] theorem all_opened : (Appended.opened : Appended ι α).all = 0 := by
  simp [Appended.all, Appended.opened]

/-- What leaves the buffer of one writer for the file is still there. -/
theorem all_move {c' : Appended ι α} {front rest text : List α}
    (hgathered : front ++ rest = c.pending w ++ text) (hfile : c'.file = c.file ++ front)
    (hpending : c'.pending = Function.update c.pending w rest) : c'.all = c.all + ↑text := by
  have hmove := sum_move (f := fun w => (c.pending w : Multiset α))
    (g := fun w => (c'.pending w : Multiset α)) w fun other hne => by
      simp only [hpending, Function.update_of_ne hne]
  have hparts : (front : Multiset α) + (rest : Multiset α) = ↑(c.pending w) + ↑text := by
    rw [Multiset.coe_add, Multiset.coe_add, hgathered]
  simp only [hpending, Function.update_self] at hmove
  apply add_right_cancel (b := (c.pending w : Multiset α))
  calc
    c'.all + ↑(c.pending w) = ↑c.file + ↑front +
        (∑ other, ((Function.update c.pending w rest) other : Multiset α) + ↑(c.pending w)) := by
      rw [Appended.all, hfile, hpending, ← Multiset.coe_add, add_assoc]
    _ = ↑c.file + (∑ other, (c.pending other : Multiset α)) + (↑front + ↑rest) := by
      rw [hmove]
      abel
    _ = c.all + ↑text + ↑(c.pending w) := by
      rw [hparts, Appended.all]
      abel

theorem all_print : (c.print size w text sent).all = c.all + ↑text :=
  all_move (List.take_append_drop _ _) rfl rfl

theorem all_flush : (c.flush w).all = c.all := by
  have hmove : (c.flush w).all = c.all + ↑([] : List α) := all_move rfl rfl rfl
  rw [hmove, Multiset.coe_nil, add_zero]

end All

/-! ### Records -/

/-- The file holds the records `done` and each buffer the records `rest`, all of them whole. -/
structure Whole (line : β → List α) (c : Appended ι α) (done : List β) (rest : ι → List β) :
    Prop where
  file : c.file = done.flatMap line
  pending : ∀ w, c.pending w = (rest w).flatMap line

variable {line : β → List α} {done : List β} {rest : ι → List β}

omit [DecidableEq ι] in
theorem whole_opened (line : β → List α) :
    Whole line (Appended.opened : Appended ι α) [] fun _ => [] where
  file := rfl
  pending := fun _ => rfl

/-- A record that does not overflow the buffer waits in it. -/
theorem Whole.print (h : Whole line c done rest) {record : β}
    (hfits : ((rest w ++ [record]).flatMap line).length < size) :
    Whole line (c.print size w (line record) sent) done
      (Function.update rest w (rest w ++ [record])) := by
  have hgathered : c.pending w ++ line record = (rest w ++ [record]).flatMap line := by
    rw [h.pending, List.flatMap_append, List.flatMap_singleton]
  constructor
  · simp only [Appended.print, hgathered, if_pos hfits, List.take_zero, List.append_nil]
    exact h.file
  · intro other
    simp only [Appended.print, hgathered, if_pos hfits, List.drop_zero]
    by_cases hother : other = w
    · rw [hother, Function.update_self, Function.update_self]
    · rw [Function.update_of_ne hother, Function.update_of_ne hother]
      exact h.pending other

theorem Whole.flush (h : Whole line c done rest) (w : ι) :
    Whole line (c.flush w) (done ++ rest w) (Function.update rest w []) := by
  constructor
  · rw [Appended.flush, h.file, h.pending, List.flatMap_append]
  · intro other
    by_cases hother : other = w
    · simp only [Appended.flush, hother, Function.update_self, List.flatMap_nil]
    · simp only [Appended.flush, Function.update_of_ne hother]
      exact h.pending other

/-- With buffers of one element the record of one writer is torn by that of the other. -/
example :
    let c : Appended Bool Nat := Appended.opened
    ((((c.print 1 true [1, 2] 1).print 1 false [3, 4] 2).flush true).flush false).file =
      [1, 3, 4, 2] := by decide

end Streams
