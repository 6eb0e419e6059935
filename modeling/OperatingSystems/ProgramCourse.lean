import OperatingSystems.ProgramSearch
import OperatingSystems.LibraryEventually

/-!
The course of a program: the instructions it executes one after the other, until an exit. It is
determined by the tables, the branch contexts and the counter that it starts with.
-/

namespace OperatingSystems.Simulator

open Runs

/-- Where a program stands after `n` instructions; it stays at its exit. -/
def Control.course (c : Control) : Nat → Control
  | 0 => c
  | n + 1 => (c.course n).next.getD (c.course n)

/-- The program executes at least `n` instructions before an exit. -/
def Control.Lasts (c : Control) (n : Nat) : Prop := ∀ m, m < n → ((c.course m).next).isSome

/-- The counters of the first `n` instructions. -/
def Control.pcs (c : Control) (n : Nat) : List Int := (List.range n).map fun m => (c.course m).pc

/-- The instruction after `n` others is an exit. -/
def Control.EndsAt (c : Control) (n : Nat) : Prop := c.Lasts n ∧ (c.course n).next = none

theorem Control.course_succ {c d : Control} {n : Nat} (h : (c.course n).next = some d) :
    c.course (n + 1) = d := by
  rw [Control.course, h, Option.getD_some]

theorem Control.Lasts.succ {c : Control} {n : Nat} (h : c.Lasts n)
    (hnext : ((c.course n).next).isSome) : c.Lasts (n + 1) := by
  intro m hm
  rcases Nat.lt_succ_iff_lt_or_eq.mp hm with hlt | rfl
  · exact h m hlt
  · exact hnext

theorem Control.EndsAt.unique {c : Control} {n n' : Nat} (h : c.EndsAt n) (h' : c.EndsAt n') :
    n = n' := by
  rcases Nat.lt_trichotomy n n' with hlt | heq | hgt
  · simpa [h.2] using h'.1 n hlt
  · exact heq
  · simpa [h'.2] using h.1 n' hgt

theorem Control.pcs_succ (c : Control) (n : Nat) :
    c.pcs (n + 1) = c.pcs n ++ [(c.course n).pc] := by
  rw [Control.pcs, List.range_succ, List.map_append]
  rfl

theorem Control.course_program (c : Control) (n : Nat) : (c.course n).program = c.program := by
  induction n with
  | zero => rfl
  | succ n ih =>
      cases hnext : (c.course n).next with
      | none => rw [Control.course, hnext, Option.getD_none, ih]
      | some d => rw [Control.course_succ hnext, Control.next_program hnext, ih]

theorem Control.course_pc {c : Control} (hsize : 0 ≤ c.program.size)
    (hpc : 0 ≤ c.pc ∧ c.pc ≤ c.program.size) (n : Nat) :
    0 ≤ (c.course n).pc ∧ (c.course n).pc ≤ c.program.size := by
  induction n with
  | zero => exact hpc
  | succ n ih =>
      cases hnext : (c.course n).next with
      | none =>
          rw [Control.course, hnext, Option.getD_none]
          exact ih
      | some d =>
          have hd := Control.next_pc hnext (by rwa [Control.course_program])
            (by rwa [Control.course_program])
          rw [Control.course_program] at hd
          rw [Control.course_succ hnext]
          exact hd

/-! ### Programs that end -/

/-- The course after the first instruction. -/
theorem Control.course_next {c d : Control} (h : c.next = some d) (n : Nat) :
    c.course (n + 1) = d.course n := by
  induction n with
  | zero => exact Control.course_succ h
  | succ n ih => rw [Control.course, ih, Control.course]

theorem Control.Lasts.cons {c d : Control} (h : c.next = some d) {n : Nat} (hd : d.Lasts n) :
    c.Lasts (n + 1) := by
  intro m hm
  cases m with
  | zero => exact Option.isSome_iff_exists.mpr ⟨d, h⟩
  | succ m =>
      rw [Control.course_next h]
      exact hd m (by omega)

theorem Control.pcs_next {c d : Control} (h : c.next = some d) (n : Nat) :
    c.pcs (n + 1) = c.pc :: d.pcs n := by
  rw [Control.pcs, List.range_succ_eq_map, List.map_cons, List.map_map, Control.pcs]
  refine congrArg₂ List.cons rfl (List.map_congr_left fun m _ => ?_)
  exact congrArg Control.pc (Control.course_next h m)

/-- A program that comes to an exit ends. -/
theorem Control.endsAt_of_eventually {c : Control}
    (h : Eventually Control.next (fun d => d.next = none) c) : ∃ n, c.EndsAt n := by
  induction h with
  | done h => exact ⟨0, fun m hm => absurd hm (Nat.not_lt_zero m), h⟩
  | step hnext _ ih =>
      obtain ⟨n, hlasts, hend⟩ := ih
      exact ⟨n + 1, .cons hnext hlasts, by rw [Control.course_next hnext, hend]⟩

end OperatingSystems.Simulator
