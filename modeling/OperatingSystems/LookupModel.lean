import OperatingSystems.LibraryRuns
import OperatingSystems.LibraryThreads
import Mathlib.Data.Fintype.BigOperators

/-!
The multi-threaded name lookup: requester threads read names from files into a shared buffer,
resolver threads take them out. A step of a thread runs from one operation on a mutex or a
condition variable to the next (inside the read loop, one iteration at a time); a thread's program
counter names the operation it performs next. Names are the strings that requesters store, of an
arbitrary type.
-/

namespace OperatingSystems.Lookup

/-- `ARRAY_SIZE`. -/
def arraySize : Nat := 20

/-- `MAX_RESOLVER_THREADS`. -/
def maxResolverThreads : Nat := 10

/-- `MAX_REQUESTER_THREADS`. -/
def maxRequesterThreads : Nat := 5

variable {Line : Type}

/-! ### The environment -/

abbrev FileName := List UInt8

/-- What the file system has under a name; `lines` are the strings that the successive `getline`
calls of a requester turn into names. -/
structure FileEntry (Line : Type) where
  readable : Bool
  writable : Bool
  regular : Bool
  lines : List Line

/-- `fopen(_, "r+")`: read and write access to a regular file, or `NULL`. -/
def FileEntry.fopenUpdate (entry : FileEntry Line) : Option (List Line) :=
  if entry.readable && entry.writable && entry.regular then some entry.lines else none

/-- The file system and the name service, neither of which changes during a run. -/
structure Env (Line : Type) where
  file : FileName → FileEntry Line
  dnslookup : Line → Option String

/-- `isValidFile`: `1` or `-1`. -/
def isValidFile (env : Env Line) (filename : FileName) : Int :=
  if (env.file filename).readable = false ∨ filename.length ≤ 6 then -1 else 1

/-- A command line that `main` accepts. -/
structure Args (Line : Type) where
  env : Env Line
  requesterThreadsCount : Nat
  resolverThreadCount : Nat
  dataFiles : List FileName
  requesters_pos : 1 ≤ requesterThreadsCount
  requesters_le : requesterThreadsCount ≤ maxRequesterThreads
  resolvers_pos : 1 ≤ resolverThreadCount
  resolvers_le : resolverThreadCount ≤ maxResolverThreads
  dataFiles_ne : dataFiles ≠ []

/-! ### Threads -/

/-- A requester's `FILE* currentFile`: never assigned, the result of a failed `fopen`, closed, or
open on the file at `index` with the lines not yet read. -/
inductive Stream (Line : Type) where
  | unset
  | null
  | closed
  | opened (index : Nat) (rest : List Line)

inductive RequesterPc (Line : Type) where
  | lockFiles
  | lockService
  | broadcastIsEmpty
  | unlockService
  | unlockFilesExit
  | unlockFiles
  | lockBuffer
  | getline
  | signalIsEmpty (input : Line)
  | waitIsFull (input : Line)
  | waitingIsFull (input : Line)
  | relockBuffer (input : Line)
  | signalDone
  | unlockBuffer
  | exited

inductive ResolverPc (Line : Type) where
  | lockBuffer
  | unlockExit
  | signalIsFull
  | waitIsEmpty
  | waitingIsEmpty
  | relockBuffer
  | unlockBuffer (domainName : Line)
  | lockResults (domainName : Line)
  | unlockResults
  | exited

/-- A requester's local state. `claimed` and `enqueued` record, for the proofs only, the files it
has claimed and the names it has stored. -/
structure Requester (Line : Type) where
  pc : RequesterPc Line
  canService : Bool
  currentFile : Stream Line
  serviceCount : Nat
  claimed : List Nat
  enqueued : List Line

/-- A resolver's local state. `popped` records, for the proofs only, the names it has taken. -/
structure Resolver (Line : Type) where
  pc : ResolverPc Line
  popped : List Line

inductive Thread (m n : Nat) where
  | requester (i : Fin m)
  | resolver (j : Fin n)
  deriving DecidableEq

/-! ### The shared state -/

/-- An entry of `inputFiles`. -/
structure File where
  filename : FileName
  serviced : Bool

/-- Undefined behaviour of a thread on what the threads share, or on its stream: a pop from the
empty buffer, a read of a slot that was never stored to, or `getline` on something that is not an
open stream. That of the bytes of a line is in `readLoop`. -/
inductive Fault where
  | emptyBuffer
  | unsetSlot
  | badStream
  deriving DecidableEq

/-- `m` requesters (the `threadCount` of the shared buffer) and `n` resolvers. Each mutex is given
by its owner. Nothing happens any more once `fault` is set. -/
structure State (Line : Type) (m n : Nat) where
  files : List File
  fileLock : Option (Thread m n)
  serviceLock : Option (Thread m n)
  bufferLock : Option (Thread m n)
  resultsLock : Option (Thread m n)
  currentPosition : Int
  buffer : Int → Option Line
  threadsFinished : Nat
  serviceLog : List (Fin m × Nat)
  results : List (Line × Option String)
  requester : Fin m → Requester Line
  resolver : Fin n → Resolver Line
  fault : Option Fault

variable {m n : Nat}

def State.setRequester (s : State Line m n) (i : Fin m) (r : Requester Line) : State Line m n :=
  { s with requester := Function.update s.requester i r }

def State.setResolver (s : State Line m n) (j : Fin n) (r : Resolver Line) : State Line m n :=
  { s with resolver := Function.update s.resolver j r }

/-! ### Condition variables -/

/-- The resolver waits on `isEmpty` and has not been woken. -/
def Resolver.waiting (r : Resolver Line) : Bool :=
  match r.pc with
  | .waitingIsEmpty => true
  | _ => false

/-- The requester waits on `isFull` and has not been woken. -/
def Requester.waiting (r : Requester Line) : Bool :=
  match r.pc with
  | .waitingIsFull _ => true
  | _ => false

/-- Ends a wait: what is left is to take the mutex again. -/
def Resolver.wake (r : Resolver Line) : Resolver Line :=
  match r.pc with
  | .waitingIsEmpty => { r with pc := .relockBuffer }
  | _ => r

def Requester.wake (r : Requester Line) : Requester Line :=
  match r.pc with
  | .waitingIsFull input => { r with pc := .relockBuffer input }
  | _ => r

/-- `pthread_cond_signal(&isEmpty)`: wakes one waiting resolver, if there is one. -/
def State.signalIsEmpty (s : State Line m n) : Option (Fin n) → Option (State Line m n)
  | none => if ∀ j, (s.resolver j).waiting = false then some s else none
  | some j =>
      if (s.resolver j).waiting then some (s.setResolver j (s.resolver j).wake) else none

/-- `pthread_cond_signal(&isFull)`: wakes one waiting requester, if there is one. -/
def State.signalIsFull (s : State Line m n) : Option (Fin m) → Option (State Line m n)
  | none => if ∀ i, (s.requester i).waiting = false then some s else none
  | some i =>
      if (s.requester i).waiting then some (s.setRequester i (s.requester i).wake) else none

/-- `pthread_cond_broadcast(&isEmpty)`. -/
def State.broadcastIsEmpty (s : State Line m n) : State Line m n :=
  { s with resolver := fun j => (s.resolver j).wake }

/-! ### Requesters -/

inductive Scan where
  | found (index : Nat)
  | finished
  | nothing

/-- The loop over the files: the first file not yet serviced, or the discovery at the last index
that there is none; over no files at all it discovers nothing. -/
def scan (index : Nat) : List File → Scan
  | [] => .nothing
  | file :: rest =>
      if !file.serviced then .found index
      else if rest.isEmpty then .finished
      else scan (index + 1) rest

def markServiced (files : List File) (index : Nat) : List File :=
  files.modify index fun file => { file with serviced := true }

/-- `fopen(files[index].filename, "r+")`. -/
def openFile (env : Env Line) (files : List File) (index : Nat) : Stream Line :=
  match (files[index]?).bind fun file => (env.file file.filename).fopenUpdate with
  | some lines => .opened index lines
  | none => .null

/-- Stores a name at `buffer[currentPosition]` and goes back to `getline`. -/
def State.enqueue (s : State Line m n) (i : Fin m) (r : Requester Line) (input : Line) :
    State Line m n :=
  { s with
    buffer := Function.update s.buffer s.currentPosition (some input)
    currentPosition := s.currentPosition + 1 }.setRequester i
      { r with pc := .getline, enqueued := r.enqueued ++ [input] }

/-- One step of `requesterThreads`; `woken` is the waiter that a signal chooses. -/
def requesterStep (env : Env Line) (s : State Line m n) (i : Fin m) (woken : Option (Fin n)) :
    Option (State Line m n) :=
  let r := s.requester i
  let self := Thread.requester i
  match r.pc with
  | .lockFiles =>
      if s.fileLock.isNone then
        let s : State Line m n := { s with fileLock := some self }
        match scan 0 s.files with
        | .found index =>
            some ({ s with files := markServiced s.files index }.setRequester i
              { r with
                pc := .unlockFiles
                canService := true
                currentFile := openFile env s.files index
                serviceCount := r.serviceCount + 1
                claimed := r.claimed ++ [index] })
        | .finished => some (s.setRequester i { r with pc := .lockService, canService := false })
        | .nothing => some (s.setRequester i { r with pc := .unlockFiles, canService := false })
      else none
  | .lockService =>
      if s.serviceLock.isNone then
        some ({ s with
          serviceLock := some self
          serviceLog := s.serviceLog ++ [(i, r.serviceCount)]
          threadsFinished := s.threadsFinished + 1 }.setRequester i
            { r with pc := .broadcastIsEmpty })
      else none
  | .broadcastIsEmpty => some (s.broadcastIsEmpty.setRequester i { r with pc := .unlockService })
  | .unlockService =>
      some ({ s with serviceLock := none }.setRequester i { r with pc := .unlockFilesExit })
  | .unlockFilesExit => some ({ s with fileLock := none }.setRequester i { r with pc := .exited })
  | .unlockFiles => some ({ s with fileLock := none }.setRequester i { r with pc := .lockBuffer })
  | .lockBuffer =>
      if s.bufferLock.isNone then
        some ({ s with bufferLock := some self }.setRequester i { r with pc := .getline })
      else none
  | .getline =>
      match r.currentFile with
      | .opened index (input :: rest) =>
          let r := { r with currentFile := .opened index rest }
          if s.currentPosition = arraySize then
            some (s.setRequester i { r with pc := .signalIsEmpty input })
          else some (s.enqueue i r input)
      | .opened _ [] => some (s.setRequester i { r with pc := .signalDone })
      | _ => some { s with fault := some .badStream }
  | .signalIsEmpty input =>
      (s.signalIsEmpty woken).map (·.setRequester i { r with pc := .waitIsFull input })
  | .waitIsFull input =>
      some ({ s with bufferLock := none }.setRequester i { r with pc := .waitingIsFull input })
  | .waitingIsFull _ => none
  | .relockBuffer input =>
      -- the test of the inner `while`; on a full buffer it signals and waits as the first time
      if s.bufferLock.isNone then
        let s : State Line m n := { s with bufferLock := some self }
        if s.currentPosition = arraySize then
          some (s.setRequester i { r with pc := .signalIsEmpty input })
        else some (s.enqueue i r input)
      else none
  | .signalDone => (s.signalIsEmpty woken).map (·.setRequester i { r with pc := .unlockBuffer })
  | .unlockBuffer =>
      some ({ s with bufferLock := none }.setRequester i
        { r with
          pc := if r.canService then .lockFiles else .exited
          currentFile := .closed })
  | .exited => none

/-! ### Resolvers -/

/-- `currentPosition--` and the read of `buffer[currentPosition]`. -/
def State.pop (s : State Line m n) (j : Fin n) (r : Resolver Line) : State Line m n :=
  let s : State Line m n := { s with currentPosition := s.currentPosition - 1 }
  if s.currentPosition < 0 then { s with fault := some .emptyBuffer }
  else
    match s.buffer s.currentPosition with
    | some domainName =>
        s.setResolver j { r with pc := .unlockBuffer domainName, popped := r.popped ++ [domainName] }
    | none => { s with fault := some .unsetSlot }

/-- One step of `resolverThreads`; `woken` is the waiter that a signal chooses. -/
def resolverStep (env : Env Line) (s : State Line m n) (j : Fin n) (woken : Option (Fin m)) :
    Option (State Line m n) :=
  let r := s.resolver j
  let self := Thread.resolver j
  match r.pc with
  | .lockBuffer =>
      if s.bufferLock.isNone then
        let s : State Line m n := { s with bufferLock := some self }
        if s.currentPosition = 0 then
          if s.threadsFinished = m then some (s.setResolver j { r with pc := .unlockExit })
          else some (s.setResolver j { r with pc := .signalIsFull })
        else some (s.pop j r)
      else none
  | .unlockExit => some ({ s with bufferLock := none }.setResolver j { r with pc := .exited })
  | .signalIsFull => (s.signalIsFull woken).map (·.setResolver j { r with pc := .waitIsEmpty })
  | .waitIsEmpty =>
      some ({ s with bufferLock := none }.setResolver j { r with pc := .waitingIsEmpty })
  | .waitingIsEmpty => none
  | .relockBuffer =>
      -- the wait stands in an `if`: the buffer is not tested again
      if s.bufferLock.isNone then some ({ s with bufferLock := some self }.pop j r) else none
  | .unlockBuffer domainName =>
      some ({ s with bufferLock := none }.setResolver j { r with pc := .lockResults domainName })
  | .lockResults domainName =>
      if s.resultsLock.isNone then
        some ({ s with
          resultsLock := some self
          results := s.results ++ [(domainName, env.dnslookup domainName)] }.setResolver j
            { r with pc := .unlockResults })
      else none
  | .unlockResults =>
      some ({ s with resultsLock := none }.setResolver j { r with pc := .lockBuffer })
  | .exited => none

/-! ### The system -/

/-- A step of a thread, with the waiter chosen if the step signals, or a spurious wake-up. -/
inductive Action (m n : Nat) where
  | requester (i : Fin m) (woken : Option (Fin n))
  | resolver (j : Fin n) (woken : Option (Fin m))
  | spuriousRequester (i : Fin m)
  | spuriousResolver (j : Fin n)

def step (env : Env Line) (s : State Line m n) (a : Action m n) : Option (State Line m n) :=
  if s.fault.isSome then none
  else
    match a with
    | .requester i woken => requesterStep env s i woken
    | .resolver j woken => resolverStep env s j woken
    | .spuriousRequester i =>
        if (s.requester i).waiting then some (s.setRequester i (s.requester i).wake) else none
    | .spuriousResolver j =>
        if (s.resolver j).waiting then some (s.setResolver j (s.resolver j).wake) else none

/-- The files that `main` hands to the requesters. -/
def Args.validFiles (args : Args Line) : List FileName :=
  args.dataFiles.filter fun filename => isValidFile args.env filename = 1

/-- The shared structures and the threads as `main` creates them. -/
def start (args : Args Line) :
    State Line args.requesterThreadsCount args.resolverThreadCount where
  files := args.validFiles.map fun filename => { filename, serviced := false }
  fileLock := none
  serviceLock := none
  bufferLock := none
  resultsLock := none
  currentPosition := 0
  buffer := fun _ => none
  threadsFinished := 0
  serviceLog := []
  results := []
  requester := fun _ =>
    { pc := .lockFiles, canService := true, currentFile := .unset, serviceCount := 0,
      claimed := [], enqueued := [] }
  resolver := fun _ => { pc := .lockBuffer, popped := [] }
  fault := none

abbrev Reachable (args : Args Line) :
    State Line args.requesterThreadsCount args.resolverThreadCount → Prop :=
  Runs.Reachable (step args.env) (start args)

/-- One requester, one resolver, and the file `names1.txt` with the single line `a.com`. -/
def oneEach : Args String where
  env :=
    { file := fun _ =>
        { readable := true, writable := true, regular := true, lines := ["a.com"] }
      dnslookup := fun _ => none }
  requesterThreadsCount := 1
  resolverThreadCount := 1
  dataFiles := [[110, 97, 109, 101, 115, 49, 46, 116, 120, 116]]
  requesters_pos := by decide
  requesters_le := by decide
  resolvers_pos := by decide
  resolvers_le := by decide
  dataFiles_ne := by decide

/-- The only requester takes a step and wakes nobody. -/
def requesterGoes : Action 1 1 := .requester 0 none

/-- The only requester takes a step and wakes the resolver. -/
def requesterWakes : Action 1 1 := .requester 0 (some 0)

/-- The only resolver takes a step and wakes nobody. -/
def resolverGoes : Action 1 1 := .resolver 0 none

/-- The requester reads its file and exits, then the resolver takes the name and exits. -/
def oneAfterOther : List (Action 1 1) :=
  List.replicate 12 requesterGoes ++ List.replicate 6 resolverGoes

end OperatingSystems.Lookup
