import OperatingSystems.LibraryTraces
import OperatingSystems.ProgramDecisions

/-!
The pseudo-code from which the tables of the programs were made, and the traces of instructions
that it leaves, with the decisions of each `if` and the repetitions of each `for` read off a table.
-/

namespace OperatingSystems.Simulator

open Traces

/-- The lines of the pseudo-code; `seq` is for lines after one another. An `if` has the probability
of its first part, and a `goto` leads to the label around it. -/
inductive Code where
  | run (k : Nat)
  | seq (first rest : Code)
  | cond (prob : ℚ) (yes no : Code)
  | loop (lo hi : Int) (body : Code)
  | label (body : Code)
  | goto

namespace Code

/-- `pgm1.pseudo`. -/
def pgm1 : Code := .loop 10 30 (.seq (.run 500) (.cond 0.4 (.run 900) (.run 131)))

/-- `pgm2.pseudo`. -/
def pgm2 : Code := .loop 20 50 (.run 1129)

/-- `pgm3.pseudo`. -/
def pgm3 : Code := .loop 10 20 (.seq (.run 1166) (.loop 10 20 (.run 516)))

/-- `pgm4.pseudo`. -/
def pgm4 : Code := .run 1911

/-- `pgm5.pseudo`; its `if` has no other part. -/
def pgm5 : Code := .loop 10 20 (.label (.seq (.run 500) (.cond 0.5 .goto (.run 0))))

/-- How many instructions there are. The first part of an `if` ends with a jump over the other. -/
def size : Code → Nat
  | .run k => k
  | .seq first rest => first.size + rest.size
  | .cond _ yes no => yes.size + no.size + 2
  | .loop _ _ body => body.size + 1
  | .label body => body.size
  | .goto => 1

/-- How many of the instructions are branches. -/
def slots : Code → Nat
  | .run _ => 0
  | .seq first rest => first.slots + rest.slots
  | .cond _ yes no => yes.slots + no.slots + 2
  | .loop _ _ body => body.slots + 1
  | .label body => body.slots
  | .goto => 1

/-! ### Traces -/

/-- How often each branch has been executed; a loop counts when it is entered. -/
abbrev Counts := Nat → Nat

def Counts.tick (s : Counts) (k : Nat) : Counts := Function.update s k (s k + 1)

/-- The instructions of `run`. -/
def line (addr : Int) (k : Nat) : List Int := (List.range k).map fun i : Nat => addr + i

/-- Instructions that decide nothing. -/
def Plain (l : List Int) : Behaviour Counts Int := fun s l' o s' => l' = l ∧ o = .finished ∧ s' = s

/-- An `if` that goes as its table says. -/
def Decides (c : Bcontext) (k : Nat) (addr : Int) (v : Bool) : Behaviour Counts Int :=
  fun s l o s' => c.Says (s k) v ∧ l = [addr] ∧ o = .finished ∧ s' = s.tick k

/-- A jump, over the other part of an `if` or to a label. -/
def Jumps (k : Nat) (addr : Int) (out : Outcome) : Behaviour Counts Int :=
  fun s l o s' => l = [addr] ∧ o = out ∧ s' = s.tick k

/-- What the code does, with its first instruction at an address and its first branch in a slot. The
table of an `if` says whether to skip the first part. A loop takes the next number of its table
when it is entered, and each round ends with the instruction that leads back or on. -/
def traces (tables : Nat → Bcontext) : Code → Nat → Int → Behaviour Counts Int
  | .run k, _, addr => Plain (line addr k)
  | .seq first rest, slot, addr =>
      (first.traces tables slot addr).Seq
        (rest.traces tables (slot + first.slots) (addr + first.size))
  | .cond _ yes no, slot, addr =>
      ((Decides (tables slot) slot addr false).Seq
          ((yes.traces tables (slot + 1) (addr + 1)).Seq
            (Jumps (slot + 1 + yes.slots) (addr + 1 + yes.size) .finished))).Or
        ((Decides (tables slot) slot addr true).Seq
          (no.traces tables (slot + 1 + yes.slots + 1) (addr + 1 + yes.size + 1)))
  | .loop lo hi body, slot, addr => fun s l o s' =>
      let k := slot + body.slots
      let n := (tables k).rounds (s k)
      (lo ≤ n ∧ n < hi) ∧
        ((body.traces tables slot addr).Seq (Plain [addr + body.size])).Times (n.toNat + 1)
          (s.tick k) l o s'
  | .label body, slot, addr => (body.traces tables slot addr).Labelled
  | .goto, slot, addr => Jumps slot addr .jumped

/-- A trace of the whole pseudo-code, with the `exit` behind it. -/
def Trace (code : Code) (tables : Nat → Bcontext) (trace : List Int) : Prop :=
  ∃ l counts, code.traces tables 0 0 (fun _ => 0) l .finished counts ∧
    trace = l ++ [(code.size : Int)]

/-! ### Code without labels -/

/-- No label is there to start again from. -/
def Unlabelled : Code → Prop
  | .run _ => True
  | .seq first rest => first.Unlabelled ∧ rest.Unlabelled
  | .cond _ yes no => yes.Unlabelled ∧ no.Unlabelled
  | .loop _ _ body => body.Unlabelled
  | .label _ => False
  | .goto => True

/-- How many instructions are executed at most, from one label to the next. -/
def longest : Code → Nat
  | .run k => k
  | .seq first rest => first.longest + rest.longest
  | .cond _ yes no => max (1 + (yes.longest + 1)) (1 + no.longest)
  | .loop _ hi body => max hi.toNat 1 * (body.longest + 1)
  | .label body => body.longest
  | .goto => 1

theorem within_plain (l : List Int) : (Plain l).Within l.length := by
  rintro s _ o s' ⟨rfl, -, -⟩
  exact le_rfl

theorem within_decides (c : Bcontext) (k : Nat) (addr : Int) (v : Bool) :
    (Decides c k addr v).Within 1 := by
  rintro s _ o s' ⟨-, rfl, -, -⟩
  exact le_rfl

theorem within_jumps (k : Nat) (addr : Int) (out : Outcome) : (Jumps k addr out).Within 1 := by
  rintro s _ o s' ⟨rfl, -, -⟩
  exact le_rfl

/-- Without labels only the loops repeat anything, and their rounds are bounded. -/
theorem Unlabelled.within {code : Code} (h : code.Unlabelled) (tables : Nat → Bcontext)
    (slot : Nat) (addr : Int) : (code.traces tables slot addr).Within code.longest := by
  induction code generalizing slot addr with
  | run k => exact (within_plain _).mono (by simp [line, longest])
  | seq first rest ihfirst ihrest => exact (ihfirst h.1 _ _).seq (ihrest h.2 _ _)
  | cond prob yes no ihyes ihno =>
      have hyes := (ihyes h.1 (slot + 1) (addr + 1)).seq
        (within_jumps (slot + 1 + yes.slots) (addr + 1 + yes.size) .finished)
      exact ((within_decides _ _ _ _).seq hyes).or
        ((within_decides _ _ _ _).seq (ihno h.2 _ _))
  | loop lo hi body ih =>
      rintro s l o s' ⟨⟨-, hlt⟩, htimes⟩
      have hround := (ih h slot addr).seq (within_plain [addr + body.size])
      refine (hround.times _ htimes).trans (Nat.mul_le_mul_right _ ?_)
      omega
  | label body => exact h.elim
  | goto => exact within_jumps _ _ _

theorem Unlabelled.length_le {code : Code} (h : code.Unlabelled) {tables : Nat → Bcontext}
    {trace : List Int} (htrace : code.Trace tables trace) : trace.length ≤ code.longest + 1 := by
  obtain ⟨l, counts, hl, rfl⟩ := htrace
  rw [List.length_append]
  exact Nat.succ_le_succ (h.within tables 0 0 hl)

end Code

/-- The pseudo-code of the five programs. -/
def pseudo : Fin programCount → Code :=
  ![Code.pgm1, Code.pgm2, Code.pgm3, Code.pgm4, Code.pgm5]

end OperatingSystems.Simulator
