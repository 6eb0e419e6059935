import OperatingSystems.LibraryLoop
import Mathlib.Algebra.GroupWithZero.Nat
import Mathlib.Data.Rat.Defs
import Mathlib.Algebra.Order.Ring.Rat
import Mathlib.Logic.Function.Basic
import Mathlib.Data.Fin.VecNotation

/-!
The simulated programs: their tables, the branch contexts that hold every branch decision in
advance, and one instruction. All randomness is consumed when the contexts are initialised.
-/

namespace OperatingSystems.Simulator

open Loop

/-- `MAXPROCPAGES`. -/
def maxProcPages : Nat := 20

/-- `PAGESIZE`. -/
def pageSize : Int := 128

/-- `MAXBRANCHES`. -/
def maxBranches : Nat := 40

/-- `MAXEXITS`. -/
def maxExits : Nat := 10

/-- `MAXBRINGS`. -/
def maxBrings : Nat := 100

/-! ### Random numbers -/

/-- The successive states of the `drand48` generator. -/
abbrev Stream := Nat → Fin (2 ^ 48)

/-- `lrand48`: the high 31 bits of the state. -/
def lrand48 (x : Fin (2 ^ 48)) : Int := x.val / 2 ^ 17

/-- `drand48`: the state as a fraction. -/
def drand48 (x : Fin (2 ^ 48)) : ℚ := x.val / 2 ^ 48

def binary (prob : ℚ) (x : Fin (2 ^ 48)) : Bool := drand48 x < prob

/-! ### Tables -/

inductive BranchType where
  | GOTO
  | FOR
  | NFOR
  | IF
  deriving DecidableEq

structure Branch where
  wherefrom : Int
  whereto : Int
  btype : BranchType
  min : Int
  max : Int
  prob : ℚ

/-- An entry of static storage that no initialiser mentions. -/
def Branch.zero : Branch := ⟨0, 0, .GOTO, 0, 0, 0⟩

/-- The used entries of the two tables, of the lengths `nbranches` and `nexits`, and what the memory
holds at the other indices. The search of an empty table reads index `0` and the one before the
table; an entry that no initialiser mentions is zero. -/
structure Program where
  size : Int
  branches : List Branch
  exits : List Int
  spare : Int → Branch := fun _ => .zero
  spareExit : Nat → Int := fun _ => 0
  nbranches_le : branches.length ≤ maxBranches
  nexits_le : exits.length ≤ maxExits

/-- `branches[k]`. -/
def Program.branch (p : Program) (k : Int) : Branch :=
  if k < 0 then p.spare k else p.branches.getD k.toNat (p.spare k)

/-- `exits[k]`, with `exits[-1]` the `nexits` (zero) that stands before an empty table. -/
def Program.exit (p : Program) (k : Int) : Int :=
  if k < 0 then 0 else p.exits.getD k.toNat (p.spareExit k.toNat)

/-! ### Branch contexts -/

/-- The decisions of one branch: runs of equal decisions, whose lengths are in `brings`. -/
structure Bcontext where
  boffset : Nat
  bsize : Nat
  bvalue : Bool
  bcount : Int
  brings : Nat → Int

def bcontextClear : Bcontext where
  boffset := 0
  bsize := 1
  bvalue := true
  bcount := 0
  brings := fun i => if i = 0 then 1 else 0

/-- The loop of the `IF` case: extends the current run or starts the next. Nothing bounds the
number of draws, so the loop is given fuel. -/
def recordDecisions (rand : Stream) (prob : ℚ) :
    Nat → Nat → Bool → Bcontext → Option (Bcontext × Nat)
  | 0, _, _, _ => none
  | fuel + 1, drawn, cvalue, c =>
      if c.bsize < maxBrings then
        if binary prob (rand drawn) = cvalue then
          recordDecisions rand prob fuel (drawn + 1) cvalue
            { c with brings := Function.update c.brings c.bsize (c.brings c.bsize + 1) }
        else
          recordDecisions rand prob fuel (drawn + 1) (!cvalue)
            { c with
              bsize := c.bsize + 1
              brings := Function.update c.brings (c.bsize + 1) 1 }
      else some (c, drawn)

/-- One round of the loop of the `FOR` and `NFOR` cases: a run length and the one decision that
ends the run. -/
def recordRun (rand : Stream) (b : Branch) (s : Bcontext × Nat) : Bcontext × Nat :=
  let length := if b.max > b.min then lrand48 (rand s.2) % (b.max - b.min) + b.min else b.min
  ({ s.1 with
      bsize := s.1.bsize + 2
      brings := Function.update (Function.update s.1.brings s.1.bsize length) (s.1.bsize + 1) 1 },
    if b.max > b.min then s.2 + 1 else s.2)

/-- The loop of the `FOR` and `NFOR` cases; `MAXBRINGS` is even. -/
def recordRuns (rand : Stream) (b : Branch) (drawn : Nat) (c : Bcontext) : Bcontext × Nat :=
  loop (fun s _ => recordRun rand b s) (maxBrings / 2) (c, drawn)

/-- `bcontext_init`, with the number of random numbers drawn so far passed along. -/
def bcontextInit (rand : Stream) (fuel drawn : Nat) (c : Bcontext) (b : Branch) :
    Option (Bcontext × Nat) :=
  match b.btype with
  | .GOTO =>
      some ({ boffset := 0
              bsize := 1
              bvalue := true
              bcount := 0
              brings := fun i =>
                if i = 0 then 0x7fffffff else if i < maxBrings then 0 else c.brings i }, drawn)
  | .IF =>
      let cvalue := binary b.prob (rand drawn)
      recordDecisions rand b.prob fuel (drawn + 1) cvalue
        { c with boffset := 0, bsize := 0, bvalue := cvalue, bcount := 0 }
  | .FOR =>
      some (recordRuns rand b drawn { c with boffset := 0, bsize := 0, bvalue := true, bcount := 0 })
  | .NFOR =>
      some (recordRuns rand b drawn
        { c with boffset := 0, bsize := 0, bvalue := false, bcount := 0 })

/-- The next decision, and the context that is left. -/
def bcontextDecide (c : Bcontext) : Bool × Bcontext :=
  (c.bvalue,
    if c.bcount + 1 ≥ c.brings c.boffset then
      { c with boffset := (c.boffset + 1) % c.bsize, bcount := 0, bvalue := !c.bvalue }
    else { c with bcount := c.bcount + 1 })

/-! ### One instruction -/

/-- What decides the course of a program: its tables, its branch contexts and where it stands. -/
structure Control where
  program : Program
  bcontexts : Nat → Bcontext
  pc : Int

/-- The loop that `process_step` runs over each of its two tables, with the comparisons after
it. -/
def bisect (key : Int → Int) (pc min max : Int) : Option Int :=
  if min + 1 < max then
    let mid := (min + max) / 2
    if pc = key mid then some mid
    else if pc < key mid then bisect key pc min mid
    else bisect key pc mid max
  else if pc = key min then some min
  else if pc = key max then some max
  else none
termination_by (max - min).toNat
decreasing_by all_goals omega

def processDobranch (c : Control) (k : Nat) : Control :=
  let decision := bcontextDecide (c.bcontexts k)
  let pc := if decision.1 then (c.program.branch k).whereto else c.pc + 1
  { c with
    bcontexts := Function.update c.bcontexts k decision.2
    pc := if pc < 0 ∨ pc ≥ c.program.size then 0 else pc }

/-- The part of `process_step` after the page test; `none` at an exit. -/
def Control.next (c : Control) : Option Control :=
  match bisect c.program.exit c.pc 0 (c.program.exits.length - 1) with
  | some _ => none
  | none =>
      match bisect (fun k => (c.program.branch k).wherefrom) c.pc 0
          (c.program.branches.length - 1) with
      -- The slot before an empty table has no context: `bcontexts[-1]` is memory outside the
      -- process, the step that uses it is undefined, and the model makes no progress there.
      | some k => some (if k < 0 then c else processDobranch c k.toNat)
      | none =>
          some { c with pc := if c.pc + 1 < 0 ∨ c.pc + 1 > c.program.size then 0 else c.pc + 1 }

/-! ### The programs -/

/-- `PROGRAMS`. -/
def programCount : Nat := 5

instance : NeZero programCount := ⟨Nat.succ_ne_zero 4⟩

/-- The table of the five programs. No multiple of `2 ^ -48` lies between `0.6` and its nearest
`double`. -/
def programs : Fin programCount → Program :=
  ![{ size := 1535
      branches := [⟨500, 1402, .IF, 0, 0, 0.6⟩, ⟨1401, 1533, .GOTO, 0, 0, 1⟩,
        ⟨1533, 0, .FOR, 10, 30, 0⟩]
      exits := [1534]
      nbranches_le := by decide
      nexits_le := by decide },
    { size := 1131
      branches := [⟨1129, 0, .FOR, 20, 50, 0⟩]
      exits := [1130]
      nbranches_le := by decide
      nexits_le := by decide },
    { size := 1685
      branches := [⟨1682, 1166, .FOR, 10, 20, 0⟩, ⟨1683, 0, .FOR, 10, 20, 0⟩]
      exits := [1684]
      nbranches_le := by decide
      nexits_le := by decide },
    { size := 1912
      branches := []
      exits := [1911]
      nbranches_le := by decide
      nexits_le := by decide },
    { size := 505
      branches := [⟨500, 503, .IF, 0, 0, 0.5⟩, ⟨501, 0, .GOTO, 0, 0, 1⟩,
        ⟨502, 503, .GOTO, 0, 0, 1⟩, ⟨503, 0, .FOR, 10, 20, 0⟩]
      exits := [504]
      nbranches_le := by decide
      nexits_le := by decide }]

end OperatingSystems.Simulator
