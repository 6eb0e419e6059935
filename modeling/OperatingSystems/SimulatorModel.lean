import OperatingSystems.ProgramModel
import OperatingSystems.LibraryCallTree
import Mathlib.Data.Fintype.Basic

/-!
The paging simulator: the queue of jobs, the slots they are loaded into, the pages that come and go,
and the main loop with the pager it calls. Indices of pages stay below `MAXPROCPAGES` as long as
the program counters stay below `MAXPC`; the numbers of `MAXPROCESSES` slots are likewise below it.
-/

namespace OperatingSystems.Simulator

open Loop

/-- `MAXPROCESSES`. -/
def maxProcesses : Nat := 20

/-- `PAGEWAIT`. -/
def pageWait : Int := 100

/-- `PHYSICALPAGES`. -/
def physicalPages : Int := 100

/-- `QUEUESIZE`. -/
def queueSize : Nat := programCount * 8

instance : NeZero queueSize := ⟨Nat.succ_ne_zero 39⟩

/-! ### The state -/

/-- A job. `computed` records, for the proofs only, the `pc` of every compute tick. -/
structure Process extends Control where
  npages : Nat
  pages : Nat → Int
  blocked : Nat → Bool
  active : Bool
  compute : Nat
  block : Nat
  pid : Nat
  kind : Fin programCount
  computed : List Int

/-- The simulator's global state. -/
structure State where
  sysclock : Nat
  pagesavail : Int
  processes : Nat → Option (Fin queueSize)
  queue : Fin queueSize → Process
  queueend : Nat

/-! ### Jobs -/

/-- The contexts of the branches of a program, initialised one after the other. -/
def initContexts (rand : Stream) (fuel : Nat) (p : Program) :
    Nat → Nat → (Nat → Bcontext) → Option ((Nat → Bcontext) × Nat)
  | 0, drawn, contexts => some (contexts, drawn)
  | n + 1, drawn, contexts =>
      (initContexts rand fuel p n drawn contexts).bind fun s =>
        (bcontextInit rand fuel s.2 (s.1 n) (p.branch n)).map fun r =>
          (Function.update s.1 n r.1, r.2)

/-- `process_clear` followed by `process_load`, with the assertion on `nbranches`. -/
def processLoad (rand : Stream) (fuel drawn : Nat) (p : Program) (pid : Nat)
    (kind : Fin programCount) : Option (Process × Nat) :=
  if p.branches.length < maxBranches then
    (initContexts rand fuel p p.branches.length drawn fun _ => bcontextClear).map fun s =>
      ({ program := p
         bcontexts := s.1
         pc := 0
         npages := maxProcPages
         pages := fun _ => -pageWait - 1
         blocked := fun _ => false
         active := true
         compute := 0
         block := 0
         pid
         kind
         computed := [] }, s.2)
  else none

/-- The page that the program counter is on. -/
def Process.page (q : Process) : Nat := (q.pc / pageSize).toNat

/-- The bookkeeping of a blocked tick. -/
def Process.chargeBlock (q : Process) : Process :=
  { q with blocked := Function.update q.blocked q.page true, block := q.block + 1 }

/-- The bookkeeping of a compute tick. -/
def Process.chargeCompute (q : Process) : Process :=
  { q with
    blocked := Function.update q.blocked q.page false
    compute := q.compute + 1
    computed := q.computed ++ [q.pc] }

/-- `process_step`: whether the job goes on, and the job. -/
def processStep (q : Process) : Bool × Process :=
  if q.active = false then (false, q)
  else if q.pages q.page ≠ 0 then (true, q.chargeBlock)
  else
    match q.toControl.next with
    | none => (false, q.chargeCompute)
    | some c => (true, { q.chargeCompute with toControl := c })

def State.setJob (s : State) (k : Fin queueSize) (q : Process) : State :=
  { s with queue := Function.update s.queue k q }

/-! ### Pages -/

def State.setPage (s : State) (k : Fin queueSize) (page : Nat) (v : Int) : State :=
  s.setJob k { s.queue k with pages := Function.update (s.queue k).pages page v }

/-- The test that `pagein` and `pageout` make of their arguments: the job and the page meant. -/
def State.target (procs : Nat) (s : State) (process page : Int) :
    Option (Fin queueSize × Nat) :=
  if process < 0 ∨ process ≥ procs then none
  else
    match s.processes process.toNat with
    | none => none
    | some k =>
        if (s.queue k).active = false ∨ page < 0 ∨ page ≥ (s.queue k).npages then none
        else some (k, page.toNat)

def pageout (procs : Nat) (process page : Int) (s : State) : Bool × State :=
  match s.target procs process page with
  | none => (false, s)
  | some (k, j) =>
      if (s.queue k).pages j < 0 then (true, s)
      else if (s.queue k).pages j > 0 then (false, s)
      else (true, s.setPage k j (-1))

def pagein (procs : Nat) (process page : Int) (s : State) : Bool × State :=
  match s.target procs process page with
  | none => (false, s)
  | some (k, j) =>
      if (s.queue k).pages j ≥ 0 then (true, s)
      else if s.pagesavail = 0 then (false, s)
      else if (s.queue k).pages j ≥ -pageWait then (false, s)
      else (true, { s.setPage k j pageWait with pagesavail := s.pagesavail - 1 })

/-! ### The queue -/

def swapTypes (queuetype : Fin queueSize → Fin programCount) (i j : Fin queueSize) :
    Fin queueSize → Fin programCount :=
  Function.update (Function.update queuetype i (queuetype j)) j (queuetype i)

/-- The ten rounds of random swaps in `initqueue`. -/
def shuffle (rand : Stream) : Fin queueSize → Fin programCount :=
  loop (fun queuetype r =>
      loop (fun queuetype i => swapTypes queuetype (Fin.ofNat queueSize i)
        (Fin.ofNat queueSize (lrand48 (rand (r * queueSize + i))).toNat)) queueSize queuetype)
    10 fun i => Fin.ofNat programCount i

/-- The loop that clears and loads the jobs, in the order of the queue. -/
def loadQueue (table : Fin programCount → Program) (rand : Stream) (fuel : Nat)
    (queuetype : Fin queueSize → Fin programCount) :
    Nat → Option ((Fin queueSize → Option Process) × Nat)
  | 0 => some (fun _ => none, 10 * queueSize)
  | n + 1 =>
      (loadQueue table rand fuel queuetype n).bind fun s =>
        let k := Fin.ofNat queueSize n
        (processLoad rand fuel s.2 (table (queuetype k)) n (queuetype k)).map fun r =>
          (Function.update s.1 k (some r.1), r.2)

/-- `dequeue` and what is done with its answer: the slot is emptied and, if a job is left, loaded
with the next one. -/
def State.reload (s : State) (slot : Nat) : State :=
  if hleft : s.queueend < queueSize then
    { s with
      processes := Function.update s.processes slot (some ⟨s.queueend, hleft⟩)
      queueend := s.queueend + 1 }
  else { s with processes := Function.update s.processes slot none }

/-! ### Control of all processes -/

/-- The state before the slots are loaded. -/
def boot (queue : Fin queueSize → Process) : State where
  sysclock := 0
  pagesavail := physicalPages
  processes := fun _ => none
  queue := queue
  queueend := 0

/-- The jobs that `initqueue` loads into the queue. -/
def initqueue (table : Fin programCount → Program) (rand : Stream) (fuel : Nat) :
    Option (Fin queueSize → Process) :=
  (loadQueue table rand fuel (shuffle rand) queueSize).bind fun s =>
    if hall : ∀ k, (s.1 k).isSome then some fun k => (s.1 k).get (hall k) else none

def allinit (table : Fin programCount → Program) (procs : Nat) (rand : Stream) (fuel : Nat) :
    Option State :=
  (initqueue table rand fuel).map fun queue => loop State.reload procs (boot queue)

/-- One page of `process_unload`. -/
def State.unloadPage (s : State) (k : Fin queueSize) (page : Nat) : State :=
  if (s.queue k).pages page ≥ -pageWait then
    let q := s.queue k
    { s with pagesavail := s.pagesavail + 1 }.setJob k
      { q with
        pages := Function.update q.pages page (-pageWait - 1)
        blocked := Function.update q.blocked page true }
  else s

def State.processUnload (s : State) (k : Fin queueSize) : State :=
  let s' := loop (fun s page => s.unloadPage k page) (s.queue k).npages s
  s'.setJob k { s'.queue k with active := false }

/-- One slot of `allstep`. -/
def State.stepSlot (s : State) (slot : Nat) : State :=
  match s.processes slot with
  | none => s.reload slot
  | some k =>
      let stepped := processStep (s.queue k)
      let s' := s.setJob k stepped.2
      if stepped.1 then s'
      else if (s'.queue k).active then (s'.processUnload k).reload slot
      else s'.reload slot

def allstep (procs : Nat) (s : State) : State := loop State.stepSlot procs s

def alldone (procs : Nat) (s : State) : Bool :=
  (List.range procs).all fun slot =>
    match s.processes slot with
    | some k => !(s.queue k).active
    | none => true

/-- One page of `allage`. -/
def State.agePage (s : State) (k : Fin queueSize) (page : Nat) : State :=
  let v := (s.queue k).pages page
  if v = 0 then s
  else if v < -pageWait then s
  else if v > 0 then s.setPage k page (v - 1)
  else if v - 1 < -pageWait then
    { s.setPage k page (v - 1) with pagesavail := s.pagesavail + 1 }
  else s.setPage k page (v - 1)

/-- One slot of `allage`. -/
def State.ageSlot (s : State) (slot : Nat) : State :=
  match s.processes slot with
  | none => s
  | some k =>
      if (s.queue k).active then loop (fun s page => s.agePage k page) (s.queue k).npages s
      else s

def allage (procs : Nat) (s : State) : State := loop State.ageSlot procs s

/-! ### The pager -/

/-- What a pager sees of one slot. -/
structure Pentry where
  active : Bool
  pc : Int
  npages : Nat
  pages : Nat → Bool

/-- The argument of `pageit`. -/
abbrev Snapshot := Nat → Pentry

def State.pentry (s : State) : Snapshot := fun slot =>
  match s.processes slot with
  | some k =>
      let q := s.queue k
      { active := q.active
        pc := q.pc
        npages := q.npages
        pages := fun page => decide (page < q.npages) && decide (q.pages page = 0) }
  | none => { active := false, pc := 0, npages := 0, pages := fun _ => false }

/-- The page that the slot's program counter is on. -/
def Pentry.page (e : Pentry) : Nat := (e.pc / pageSize).toNat

inductive PageCall where
  | pagein (process page : Int)
  | pageout (process page : Int)
  deriving DecidableEq

/-- The process that a call names. -/
def PageCall.process : PageCall → Int
  | .pagein process _ => process
  | .pageout process _ => process

/-- The page that a call names. -/
def PageCall.page : PageCall → Int
  | .pagein _ page => page
  | .pageout _ page => page

def PageCall.answer (procs : Nat) : PageCall → State → Bool × State
  | .pagein process page => Simulator.pagein procs process page
  | .pageout process page => Simulator.pageout procs process page

/-- A paging strategy: the state that its static variables keep from call to call, and
`pageit`. -/
structure Pager where
  State : Type
  init : State
  pageit : Snapshot → State → CallTree PageCall Bool State

/-- `callyou`. -/
def callyou (pager : Pager) (procs : Nat) (s : pager.State × State) : pager.State × State :=
  (pager.pageit s.2.pentry s.1).run (PageCall.answer procs) s.2

/-- One iteration of the main loop. -/
def tick (pager : Pager) (procs : Nat) (s : pager.State × State) : pager.State × State :=
  let s' := callyou pager procs (s.1, allage procs (allstep procs s.2))
  (s'.1, { s'.2 with sysclock := s'.2.sysclock + 1 })

/-- `while (!alldone())`, for at most `fuel` iterations. -/
def mainLoop (pager : Pager) (procs : Nat) : Nat → pager.State × State → Option State
  | 0, _ => none
  | fuel + 1, s =>
      if alldone procs s.2 then some s.2 else mainLoop pager procs fuel (tick pager procs s)

/-- The value that remains of a `long` in an `int`. -/
def toInt (x : Int) : Int := x.bmod (2 ^ 32)

/-- The `block` and `compute` totals of `allscore`. -/
def allscore (s : State) : Int × Int :=
  (List.finRange queueSize).foldl
    (fun total k => (toInt (total.1 + (s.queue k).block), toInt (total.2 + (s.queue k).compute)))
    (0, 0)

end OperatingSystems.Simulator
