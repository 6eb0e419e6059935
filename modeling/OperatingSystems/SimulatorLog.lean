import OperatingSystems.SimulatorSteps

/-!
The simulator with its two logs, `output.csv` and `pages.csv`. Each operation that writes is given
together with the lines it writes; with the logs forgotten it is the operation itself, so that the
runs are those of the simulator without logs.
-/

namespace OperatingSystems.Simulator

open Loop Runs

/-! ### Records -/

/-- The comments in `output.csv`. -/
inductive Comment where
  | load
  | unload
  | blocked
  | unblocked
  | branchFrom
  | branchTo
  | exit
  | outOfRange
  | restart
  deriving DecidableEq

def Comment.text : Comment → String
  | .load => "load"
  | .unload => "unload"
  | .blocked => "blocked"
  | .unblocked => "unblocked"
  | .branchFrom => "branch_from"
  | .branchTo => "branch_to"
  | .exit => "exit"
  | .outOfRange => "out_of_range"
  | .restart => "restart"

/-- A line of `output.csv`. -/
structure OutputRecord where
  time : Nat
  process : Nat
  pid : Nat
  kind : Fin programCount
  pc : Int
  comment : Comment

/-- The comments in `pages.csv`. -/
inductive PageComment where
  | out
  | going
  | resident
  | coming
  deriving DecidableEq

def PageComment.text : PageComment → String
  | .out => "out"
  | .going => "going"
  | .resident => "in"
  | .coming => "coming"

/-- A line of `pages.csv`. -/
structure PageRecord where
  time : Nat
  process : Nat
  page : Nat
  pid : Nat
  kind : Fin programCount
  comment : PageComment

/-- The simulator's state with the two files. -/
structure Logged where
  state : State
  output : List OutputRecord
  pages : List PageRecord

def State.outputRecord (s : State) (slot : Nat) (q : Process) (pc : Int) (comment : Comment) :
    OutputRecord where
  time := s.sysclock
  process := slot
  pid := q.pid
  kind := q.kind
  pc := pc
  comment := comment

def State.pageRecord (s : State) (slot : Nat) (q : Process) (page : Nat) (comment : PageComment) :
    PageRecord where
  time := s.sysclock
  process := slot
  page := page
  pid := q.pid
  kind := q.kind
  comment := comment

/-! ### What an instruction writes -/

/-- The program counters and comments that `process_dobranch` writes. -/
def dobranchEntries (c : Control) (k : Nat) : List (Int × Comment) :=
  if (bcontextDecide (c.bcontexts k)).1 then
    [(c.pc, .branchFrom), ((c.program.branch k).whereto, .branchTo)]
  else []

/-- What the part of `process_step` after the page test writes. -/
def Control.entries (c : Control) : List (Int × Comment) :=
  match bisect c.program.exit c.pc 0 (c.program.exits.length - 1) with
  | some _ => [(c.pc, .exit)]
  | none =>
      match bisect (fun k => (c.program.branch k).wherefrom) c.pc 0
          (c.program.branches.length - 1) with
      | some k => if k < 0 then [] else dobranchEntries c k.toNat
      | none =>
          if c.pc + 1 < 0 ∨ c.pc + 1 > c.program.size then
            [(c.pc + 1, .outOfRange), (0, .restart)]
          else []

/-- What `process_step` writes. -/
def Process.entries (q : Process) : List (Int × Comment) :=
  if q.active = false then []
  else if q.pages q.page ≠ 0 then
    if q.blocked q.page then [] else [(q.pc, .blocked)]
  else (if q.blocked q.page then [(q.pc, .unblocked)] else []) ++ q.toControl.entries

/-! ### The step of a slot -/

/-- `dequeue` in `allstep`. -/
def Logged.reload (l : Logged) (slot : Nat) : Logged where
  state := l.state.reload slot
  output := l.output ++
    if hleft : l.state.queueend < queueSize then
      let q := l.state.queue ⟨l.state.queueend, hleft⟩
      [l.state.outputRecord slot q q.pc .load]
    else []
  pages := l.pages

/-- The lines of `pages.csv` that put all pages of a slot out. -/
def State.outRecords (s : State) (slot : Nat) (q : Process) : List PageRecord :=
  (List.range maxProcPages).map fun page => s.pageRecord slot q page .out

/-- `process_unload`, after the lines that are written before it. -/
def Logged.processUnload (l : Logged) (slot : Nat) (k : Fin queueSize) : Logged where
  state := l.state.processUnload k
  output := l.output ++ [l.state.outputRecord slot (l.state.queue k) (l.state.queue k).pc .unload]
  pages := l.pages ++ l.state.outRecords slot (l.state.queue k)

/-- `process_step`. -/
def Logged.processStep (l : Logged) (slot : Nat) (k : Fin queueSize) : Bool × Logged :=
  let q := l.state.queue k
  let stepped := Simulator.processStep q
  (stepped.1,
    { state := l.state.setJob k stepped.2
      output := l.output ++ q.entries.map fun e => l.state.outputRecord slot q e.1 e.2
      pages := l.pages })

/-- One slot of `allstep`. -/
def Logged.stepSlot (l : Logged) (slot : Nat) : Logged :=
  match l.state.processes slot with
  | none => l.reload slot
  | some k =>
      let stepped := l.processStep slot k
      if stepped.1 then stepped.2
      else if (stepped.2.state.queue k).active then (stepped.2.processUnload slot k).reload slot
      else stepped.2.reload slot

/-- One slot of `allinit`. -/
def Logged.initSlot (l : Logged) (slot : Nat) : Logged :=
  { l.reload slot with
    pages := l.pages ++
      if hleft : l.state.queueend < queueSize then
        l.state.outRecords slot (l.state.queue ⟨l.state.queueend, hleft⟩)
      else [] }

/-! ### Pages -/

/-- What one page of `allage` writes. -/
def ageComment (v : Int) : Option PageComment :=
  if v = 0 then none
  else if v < -pageWait then none
  else if v > 0 then
    if v - 1 = 0 then some .resident else none
  else if v - 1 < -pageWait then some .out
  else none

/-- One page of `allage`. -/
def Logged.agePage (l : Logged) (slot : Nat) (k : Fin queueSize) (page : Nat) : Logged where
  state := l.state.agePage k page
  output := l.output
  pages := l.pages ++ (ageComment ((l.state.queue k).pages page)).toList.map
    (l.state.pageRecord slot (l.state.queue k) page)

/-- One slot of `allage`. -/
def Logged.ageSlot (l : Logged) (slot : Nat) : Logged :=
  match l.state.processes slot with
  | none => l
  | some k =>
      if (l.state.queue k).active then
        loop (fun l page => l.agePage slot k page) (l.state.queue k).npages l
      else l

/-- What `pageout` writes for a page with this entry. -/
def pageoutComment (v : Int) : Option PageComment :=
  if v < 0 then none else if v > 0 then none else some .going

/-- What `pagein` writes for a page with this entry. -/
def pageinComment (pagesavail v : Int) : Option PageComment :=
  if v ≥ 0 then none
  else if pagesavail = 0 then none
  else if v ≥ -pageWait then none
  else some .coming

def PageCall.comment (r : PageCall) (s : State) (k : Fin queueSize) (page : Nat) :
    Option PageComment :=
  match r with
  | .pagein _ _ => pageinComment s.pagesavail ((s.queue k).pages page)
  | .pageout _ _ => pageoutComment ((s.queue k).pages page)

/-- `pagein` and `pageout`. -/
def PageCall.logged (procs : Nat) (r : PageCall) (l : Logged) : Bool × Logged :=
  let answer := r.answer procs l.state
  (answer.1,
    { state := answer.2
      output := l.output
      pages := l.pages ++
        match l.state.target procs r.process r.page with
        | none => []
        | some (k, page) => (r.comment l.state k page).toList.map
            (l.state.pageRecord r.process.toNat (l.state.queue k) page) })

/-! ### Runs -/

def Logged.boot (queue : Fin queueSize → Process) : Logged where
  state := Simulator.boot queue
  output := []
  pages := []

def Logged.allinit (table : Fin programCount → Program) (procs : Nat) (rand : Stream)
    (fuel : Nat) : Option Logged :=
  (initqueue table rand fuel).map fun queue => loop Logged.initSlot procs (.boot queue)

def Logged.allstep (procs : Nat) (l : Logged) : Logged := loop Logged.stepSlot procs l

def Logged.allage (procs : Nat) (l : Logged) : Logged := loop Logged.ageSlot procs l

def Logged.callyou (pager : Pager) (procs : Nat) (l : pager.State × Logged) :
    pager.State × Logged :=
  (pager.pageit l.2.state.pentry l.1).run (PageCall.logged procs) l.2

def Logged.clock (l : Logged) : Logged :=
  { l with state := { l.state with sysclock := l.state.sysclock + 1 } }

/-- One iteration of the main loop. -/
def Logged.tick (pager : Pager) (procs : Nat) (l : pager.State × Logged) : pager.State × Logged :=
  let l' := Logged.callyou pager procs (l.1, (l.2.allstep procs).allage procs)
  (l'.1, l'.2.clock)

/-- `allinit` has ended with the state and the files. -/
def Config.StartsLogged (config : Config) (l : Logged) : Prop :=
  ∃ fuel, Logged.allinit config.table config.procs config.rand fuel = some l

/-- The iterations of the main loop with the files that they have written. -/
def Config.loggedRun (config : Config) (pager : Pager) (l₀ : Logged) (n : Nat) :
    pager.State × Logged :=
  (Logged.tick pager config.procs)^[n] (pager.init, l₀)

/-! ### Without the logs -/

theorem stepSlot_state (l : Logged) (slot : Nat) :
    (l.stepSlot slot).state = l.state.stepSlot slot := by
  unfold Logged.stepSlot State.stepSlot
  cases l.state.processes slot with
  | none => rfl
  | some k =>
      simp only [apply_ite Logged.state]
      rfl

theorem agePages_state (l : Logged) (slot : Nat) (k : Fin queueSize) (n : Nat) :
    (loop (fun l page => l.agePage slot k page) n l).state =
      loop (fun s page => s.agePage k page) n l.state :=
  loop_erase Logged.state (fun _ _ => rfl) n l

theorem initSlots_state (l : Logged) (procs : Nat) :
    (loop Logged.initSlot procs l).state = loop State.reload procs l.state :=
  loop_erase Logged.state (fun _ _ => rfl) procs l

theorem ageSlot_state (l : Logged) (slot : Nat) :
    (l.ageSlot slot).state = l.state.ageSlot slot := by
  unfold Logged.ageSlot State.ageSlot
  cases l.state.processes slot with
  | none => rfl
  | some k =>
      simp only [apply_ite Logged.state, agePages_state]

theorem allstep_state (procs : Nat) (l : Logged) :
    (l.allstep procs).state = allstep procs l.state :=
  loop_erase Logged.state stepSlot_state procs l

theorem allage_state (procs : Nat) (l : Logged) : (l.allage procs).state = allage procs l.state :=
  loop_erase Logged.state ageSlot_state procs l

theorem callyou_state (pager : Pager) (procs : Nat) (l : pager.State × Logged) :
    callyou pager procs (l.1, l.2.state) =
      ((Logged.callyou pager procs l).1, (Logged.callyou pager procs l).2.state) :=
  CallTree.run_erase Logged.state (fun _ _ => rfl) _ l.2

theorem tick_state (pager : Pager) (procs : Nat) (l : pager.State × Logged) :
    tick pager procs (l.1, l.2.state) =
      ((Logged.tick pager procs l).1, (Logged.tick pager procs l).2.state) := by
  have hcall := callyou_state pager procs (l.1, (l.2.allstep procs).allage procs)
  simp only [allage_state, allstep_state] at hcall
  rw [tick, hcall]
  rfl

variable {config : Config}

theorem startsLogged_state {l₀ : Logged} (h : config.StartsLogged l₀) :
    config.Starts l₀.state := by
  obtain ⟨fuel, hstart⟩ := h
  rw [Logged.allinit, Option.map_eq_some_iff] at hstart
  obtain ⟨queue, hqueue, rfl⟩ := hstart
  refine ⟨fuel, ?_⟩
  rw [allinit, hqueue, Option.map_some]
  exact congrArg some (initSlots_state (.boot queue) config.procs).symm

theorem startsLogged_of_starts {s₀ : State} (h : config.Starts s₀) :
    ∃ l₀, config.StartsLogged l₀ ∧ l₀.state = s₀ := by
  obtain ⟨fuel, hstart⟩ := h
  rw [allinit, Option.map_eq_some_iff] at hstart
  obtain ⟨queue, hqueue, rfl⟩ := hstart
  refine ⟨_, ⟨fuel, by rw [Logged.allinit, hqueue, Option.map_some]⟩, ?_⟩
  exact initSlots_state _ _

/-- A run with logs is the run without them. -/
theorem loggedRun_state (pager : Pager) (l₀ : Logged) (n : Nat) :
    ((config.loggedRun pager l₀ n).1, (config.loggedRun pager l₀ n).2.state) =
      config.run pager l₀.state n := by
  induction n with
  | zero => rfl
  | succ n ih =>
      rw [run_succ, ← ih, tick_state, Config.loggedRun, Function.iterate_succ_apply']
      rfl

/-! ### Phases -/

/-- The phases of a tick, with the files. -/
def loggedPhase (procs : Nat) (l : Logged) : Phase → Option Logged
  | .step slot => if slot < procs then some (l.stepSlot slot) else none
  | .age slot => if slot < procs then some (l.ageSlot slot) else none
  | .request r => some (r.logged procs l).2
  | .clock => some l.clock

/-- The states that any phases, in any order, lead to, with the files written on the way. -/
def Config.ReachesLogged (config : Config) (l : Logged) : Prop :=
  ∃ l₀, config.StartsLogged l₀ ∧ Reachable (loggedPhase config.procs) l₀ l

theorem loggedPhase_state {procs : Nat} {l l' : Logged} {a : Phase}
    (h : loggedPhase procs l a = some l') : phase procs l.state a = some l'.state := by
  cases a with
  | step slot =>
      rw [loggedPhase, Option.ite_none_right_eq_some] at h
      rw [phase, if_pos h.1, ← Option.some.inj h.2, stepSlot_state]
  | age slot =>
      rw [loggedPhase, Option.ite_none_right_eq_some] at h
      rw [phase, if_pos h.1, ← Option.some.inj h.2, ageSlot_state]
  | request r => exact congrArg (Option.map Logged.state) h
  | clock => exact congrArg (Option.map Logged.state) h

theorem Config.ReachesLogged.reaches {l : Logged} (h : config.ReachesLogged l) :
    config.Reaches l.state := by
  obtain ⟨l₀, hstart, hreach⟩ := h
  refine ⟨l₀.state, startsLogged_state hstart, ?_⟩
  exact hreach.invariant (fun l => Reachable (phase config.procs) l₀.state l.state) .refl
    fun _ _ _ hl _ hphase => hl.trans (reachable_step (loggedPhase_state hphase))

theorem loggedTick_reach (pager : Pager) (procs : Nat) (l : pager.State × Logged) :
    Reachable (loggedPhase procs) l.2 (Logged.tick pager procs l).2 := by
  have hstep : Reachable (loggedPhase procs) l.2 (l.2.allstep procs) :=
    (loop_relates (fun _ => True) (Reachable (loggedPhase procs)) (fun _ => .refl)
      (fun _ _ _ => Reach.trans) trivial fun slot l hslot _ =>
        ⟨trivial, reachable_step (show loggedPhase procs l (.step slot) = _ from if_pos hslot)⟩).2
  have hage : Reachable (loggedPhase procs) (l.2.allstep procs)
      ((l.2.allstep procs).allage procs) :=
    (loop_relates (fun _ => True) (Reachable (loggedPhase procs)) (fun _ => .refl)
      (fun _ _ _ => Reach.trans) trivial fun slot l hslot _ =>
        ⟨trivial, reachable_step (show loggedPhase procs l (.age slot) = _ from if_pos hslot)⟩).2
  have hcall := CallTree.run_relates (fun _ => .refl) (fun _ _ _ => Reach.trans)
    (fun r l => reachable_step (show loggedPhase procs l (.request r) = _ from rfl))
    (pager.pageit ((l.2.allstep procs).allage procs).state.pentry l.1)
    ((l.2.allstep procs).allage procs)
  exact ((hstep.trans hage).trans hcall).trans
    (reachable_step (show loggedPhase procs _ .clock = _ from rfl))

/-- The iterations of the main loop are made of phases. -/
theorem loggedRun_reach (pager : Pager) (l₀ : Logged) (n : Nat) :
    Reachable (loggedPhase config.procs) l₀ (config.loggedRun pager l₀ n).2 := by
  induction n with
  | zero => exact .refl
  | succ n ih =>
      rw [Config.loggedRun, Function.iterate_succ_apply']
      exact ih.trans (loggedTick_reach pager config.procs _)

end OperatingSystems.Simulator
