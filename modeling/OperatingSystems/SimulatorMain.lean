import OperatingSystems.PagerBasicProgress
import OperatingSystems.PagerLruProgress
import OperatingSystems.PagerPredict
import OperatingSystems.SimulatorSeed

/-!
`main` of the simulator, from the command line to the exit status. The command line is a sequence of
items, one word each except for `-seed` and `-procs`, which take the next word with them; `main`
crashes when that word is missing, complains when an item is not accepted, and otherwise simulates
to the end.
-/

namespace OperatingSystems.Simulator

open Runs

/-! ### Options -/

def logAlways : Nat := 1 <<< 0
def logLoad : Nat := 1 <<< 1
def logBlock : Nat := 1 <<< 2
def logPage : Nat := 1 <<< 3
def logBranch : Nat := 1 <<< 4
def logDead : Nat := 1 <<< 5

/-- The bits that an option adds to `log_port`. -/
def logOption (arg : String) : Option Nat :=
  if arg = "-all" then some (logLoad ||| logBlock ||| logPage ||| logBranch)
  else if arg = "-load" then some logLoad
  else if arg = "-block" then some logBlock
  else if arg = "-page" then some logPage
  else if arg = "-branch" then some logBranch
  else if arg = "-dead" then some logDead
  else none

/-- The characters that `%ld` skips. -/
def isSpace (c : Char) : Bool := c = ' ' || ('\t' ≤ c && c ≤ '\r')

def digitsValue (digits : List Char) : Nat := digits.foldl (fun n c => 10 * n + (c.toNat - 48)) 0

/-- The sign of a number and what follows it. -/
def splitSign : List Char → Bool × List Char
  | '-' :: rest => (true, rest)
  | '+' :: rest => (false, rest)
  | rest => (false, rest)

/-- `sscanf` with `%ld`. A number that does not fit becomes the nearest one that does. -/
def sscanfLong (text : String) : Option Int :=
  let signed := splitSign (text.toList.dropWhile isSpace)
  let digits := signed.2.takeWhile Char.isDigit
  if digits = [] then none
  else if signed.1 then some (max (-(digitsValue digits : Int)) (-2 ^ 63))
  else some (min (digitsValue digits : Int) (2 ^ 63 - 1))

/-- The largest seed. -/
def maxSeed : Int := 2 ^ 30 - 1

/-- The variables that the options set, and what has been printed. -/
structure CommandLine where
  logPort : Nat
  seed : Int
  procs : Int
  csv : Bool
  errors : Nat
  help : Nat
  stderr : List String

def CommandLine.start : CommandLine := ⟨logAlways, 0, maxProcesses, false, 0, 0, []⟩

/-- `fprintf(stderr, …)` and `errors++`. -/
def CommandLine.error (c : CommandLine) (message : String) : CommandLine :=
  { c with errors := c.errors + 1, stderr := c.stderr ++ [message] }

/-- What `main` finds: whether it can open the files for `-csv`, and the answers of `time`. -/
structure Surroundings where
  opensOutput : Bool
  opensPages : Bool
  time : Fin 3 → Int

def CommandLine.readSeed (name : String) (c : CommandLine) (text : String) : CommandLine :=
  match sscanfLong text with
  | none => c.error (name ++ ": could not read random seed from command line\n")
  | some seed =>
      if seed < 1 ∨ seed > maxSeed then
        { c with seed }.error
          (name ++ ": random seed must be between 1 and " ++ toString maxSeed ++ "\n")
      else { c with seed }

def CommandLine.readProcs (name : String) (c : CommandLine) (text : String) : CommandLine :=
  match sscanfLong text with
  | none => c.error (name ++ ": could not read number of processors from command line\n")
  | some procs =>
      if procs < 1 ∨ procs > maxProcesses then
        { c with procs }.error
          (name ++ ": number of processors must be between 1 and " ++ toString maxProcesses ++ "\n")
      else { c with procs }

def CommandLine.openCsv (around : Surroundings) (name : String) (c : CommandLine) : CommandLine :=
  let c :=
    if around.opensOutput then c
    else c.error (name ++ ": could not open output.csv for writing\n")
  let c :=
    if around.opensPages then c else c.error (name ++ ": could not open pages.csv for writing\n")
  { c with csv := true }

/-- A word that stands alone. -/
def CommandLine.readWord (around : Surroundings) (name : String) (c : CommandLine)
    (arg : String) : CommandLine :=
  if arg = "-help" then { c with help := c.help + 1 }
  else if arg = "-csv" then c.openCsv around name
  else
    match logOption arg with
    | some bits => { c with logPort := c.logPort ||| bits }
    | none => c.error ("t4: unrecognized argument " ++ arg ++ "\n")

/-- The loop over `argv`. It has no result when `sscanf` is given the null pointer at the end of
`argv`. -/
def readArgs (around : Surroundings) (name : String) :
    List String → CommandLine → Option CommandLine
  | [], c => some c
  | arg :: args, c =>
      if arg = "-seed" then
        match args with
        | [] => none
        | text :: args => readArgs around name args (c.readSeed name text)
      else if arg = "-procs" then
        match args with
        | [] => none
        | text :: args => readArgs around name args (c.readProcs name text)
      else readArgs around name args (c.readWord around name arg)

/-! ### The program -/

def usage (name : String) : List String :=
  [name ++ " usage: " ++ name ++ " \n",
    "  -all       log everything\n",
    "  -load      log loading of processes\n",
    "  -unload    log unloading of processes\n",
    "  -branch    log program branches\n",
    "  -page      log page in and out\n",
    "  -seed 512  set random seed to 512\n",
    "  -procs 4   run only four processors\n",
    "  -dead      detect deadlocks\n",
    "  -csv       generate output.csv and pages.csv for graphing\n"]

def exitSuccess : Nat := 0

def exitFailure : Nat := 1

/-- The seed made from the time. -/
def Surroundings.seed (around : Surroundings) : Int :=
  (around.time 0 * 38491 + 71831 + around.time 1 * around.time 2) % 2 ^ 30

/-- The seed that is given to `srand48`. -/
def CommandLine.usedSeed (around : Surroundings) (c : CommandLine) : Int :=
  if c.seed = 0 then around.seed else c.seed

/-- How the program ends. -/
inductive Exit where
  /-- `sscanf` has been given a null pointer. -/
  | crashed
  | explained (status : Nat) (stderr : List String)
  | simulated (status : Nat) (line : CommandLine) (final : State)

/-- `main`; without a result when the fuel does not suffice. -/
def simulatorMain (pager : Pager) (around : Surroundings) (name : String) (args : List String)
    (fuel : Nat) : Option Exit :=
  match readArgs around name args .start with
  | none => some .crashed
  | some c =>
      if c.errors ≠ 0 ∨ c.help ≠ 0 then
        some (.explained (if c.errors ≠ 0 then exitFailure else exitSuccess)
          (c.stderr ++ usage name))
      else
        (allinit programs c.procs.toNat (seeded (c.usedSeed around)) fuel).bind fun s =>
          (mainLoop pager c.procs.toNat fuel (pager.init, s)).map (.simulated exitSuccess c)

/-! ### Items of the command line -/

/-- An item of the command line. -/
inductive Item where
  | word (arg : String)
  | seed (text : String)
  | procs (text : String)

def Item.words : Item → List String
  | .word arg => [arg]
  | .seed text => ["-seed", text]
  | .procs text => ["-procs", text]

/-- The item is a single word only if the word takes no other with it. -/
def Item.Stands : Item → Prop
  | .word arg => arg ≠ "-seed" ∧ arg ≠ "-procs"
  | .seed _ | .procs _ => True

/-- Nothing is wrong with the item. -/
def Item.Accepted (around : Surroundings) : Item → Prop
  | .word arg =>
      arg = "-help" ∨ (logOption arg).isSome ∨
        (arg = "-csv" ∧ around.opensOutput = true ∧ around.opensPages = true)
  | .seed text => ∃ seed, sscanfLong text = some seed ∧ 1 ≤ seed ∧ seed ≤ maxSeed
  | .procs text => ∃ procs, sscanfLong text = some procs ∧ 1 ≤ procs ∧ procs ≤ maxProcesses

def Item.seedValue : Item → Option Int
  | .seed text => sscanfLong text
  | .word _ | .procs _ => none

def Item.procsValue : Item → Option Int
  | .procs text => sscanfLong text
  | .word _ | .seed _ => none

def Item.bits : Item → Nat
  | .word arg => (logOption arg).getD 0
  | .seed _ | .procs _ => 0

def Item.IsHelp : Item → Prop
  | .word arg => arg = "-help"
  | .seed _ | .procs _ => False

/-- The last of the values that items give, or the one at the start. -/
def lastValue {α : Type} (value : Item → Option α) (start : α) (items : List Item) : α :=
  (items.filterMap value).getLast?.getD start

def CommandLine.readItem (around : Surroundings) (name : String) (c : CommandLine) :
    Item → CommandLine
  | .word arg => c.readWord around name arg
  | .seed text => c.readSeed name text
  | .procs text => c.readProcs name text

section Items

variable {around : Surroundings} {name : String} {c : CommandLine}

theorem lastValue_concat {α : Type} (value : Item → Option α) (start : α) (items : List Item)
    (item : Item) :
    lastValue value start (items ++ [item]) = (value item).getD (lastValue value start items) := by
  unfold lastValue
  rw [List.filterMap_append]
  cases hvalue : value item with
  | none => simp [hvalue]
  | some v => simp [hvalue]

/-- The loop over `argv` reads item after item. -/
theorem readArgs_items (items : List Item) (hstand : ∀ item ∈ items, item.Stands)
    (rest : List String) (c : CommandLine) :
    readArgs around name (items.flatMap Item.words ++ rest) c =
      readArgs around name rest (items.foldl (CommandLine.readItem around name) c) := by
  induction items generalizing c with
  | nil => rfl
  | cons item items ih =>
      have ih := ih fun i hi => hstand i (List.mem_cons_of_mem _ hi)
      have hitem := hstand item List.mem_cons_self
      rw [List.flatMap_cons, List.append_assoc, List.foldl_cons]
      cases item with
      | word arg =>
          rw [Item.words, List.singleton_append, readArgs.eq_def]
          simp only [if_neg hitem.1, if_neg hitem.2]
          exact ih _
      | seed text => exact ih _
      | procs text => exact ih _

/-- The words are those of the items, up to a last word that lacks its value. -/
def Spells (items : List Item) (dangling args : List String) : Prop :=
  args = items.flatMap Item.words ++ dangling ∧ (∀ item ∈ items, item.Stands) ∧
    (dangling = [] ∨ dangling = ["-seed"] ∨ dangling = ["-procs"])

theorem Spells.cons {items : List Item} {dangling args : List String}
    (h : Spells items dangling args) (item : Item) (hitem : item.Stands) :
    Spells (item :: items) dangling (item.words ++ args) := by
  obtain ⟨rfl, hstand, hdangling⟩ := h
  refine ⟨?_, List.forall_mem_cons.mpr ⟨hitem, hstand⟩, hdangling⟩
  rw [List.flatMap_cons, List.append_assoc]

/-- Every command line is a sequence of items. -/
theorem exists_spells : ∀ args : List String, ∃ items dangling, Spells items dangling args
  | [] => ⟨[], [], rfl, nofun, Or.inl rfl⟩
  | [arg] => by
      by_cases hseed : arg = "-seed"
      · exact ⟨[], [arg], rfl, nofun, Or.inr (Or.inl (congrArg (fun arg => [arg]) hseed))⟩
      · by_cases hprocs : arg = "-procs"
        · exact ⟨[], [arg], rfl, nofun, Or.inr (Or.inr (congrArg (fun arg => [arg]) hprocs))⟩
        · obtain ⟨items, dangling, hspells⟩ := exists_spells []
          exact ⟨_, dangling, hspells.cons (.word arg) ⟨hseed, hprocs⟩⟩
  | arg :: text :: args => by
      by_cases hseed : arg = "-seed"
      · subst hseed
        obtain ⟨items, dangling, hspells⟩ := exists_spells args
        exact ⟨_, dangling, hspells.cons (.seed text) trivial⟩
      · by_cases hprocs : arg = "-procs"
        · subst hprocs
          obtain ⟨items, dangling, hspells⟩ := exists_spells args
          exact ⟨_, dangling, hspells.cons (.procs text) trivial⟩
        · obtain ⟨items, dangling, hspells⟩ := exists_spells (text :: args)
          exact ⟨_, dangling, hspells.cons (.word arg) ⟨hseed, hprocs⟩⟩

/-- What reading an item does. -/
structure Reads (around : Surroundings) (item : Item) (c d : CommandLine) : Prop where
  errors : d.errors = 0 ↔ c.errors = 0 ∧ item.Accepted around
  stderr : c.stderr.length = c.errors → d.stderr.length = d.errors
  help : d.help = 0 ↔ c.help = 0 ∧ ¬item.IsHelp
  seed : d.seed = item.seedValue.getD c.seed
  procs : d.procs = item.procsValue.getD c.procs
  logPort : d.logPort = c.logPort ||| item.bits

/-- There are as many messages as errors. -/
theorem CommandLine.length_error (message : String) (h : c.stderr.length = c.errors) :
    (c.error message).stderr.length = (c.error message).errors := by
  rw [error, List.length_append, List.length_singleton, h]

theorem reads_word (arg : String) :
    Reads around (.word arg) c (c.readWord around name arg) := by
  unfold CommandLine.readWord
  by_cases hhelp : arg = "-help"
  · subst hhelp
    rw [if_pos rfl]
    exact ⟨by simp [Item.Accepted], id, by simp [Item.IsHelp], rfl, rfl,
      (Nat.or_zero _).symm⟩
  rw [if_neg hhelp]
  by_cases hcsv : arg = "-csv"
  · subst hcsv
    rw [if_pos rfl]
    have hbits : logOption "-csv" = none := by decide
    unfold CommandLine.openCsv
    cases houtput : around.opensOutput <;> cases hpages : around.opensPages <;>
      refine ⟨?_, fun h => ?_, ?_, rfl, rfl, (Nat.or_zero _).symm⟩ <;>
      simp [Item.Accepted, Item.IsHelp, CommandLine.error, *]
  rw [if_neg hcsv]
  cases hbits : logOption arg with
  | some bits =>
      exact ⟨by simp [Item.Accepted, hbits], id, by simp [Item.IsHelp, hhelp], rfl, rfl,
        by simp [Item.bits, hbits]⟩
  | none =>
      exact ⟨by simp [Item.Accepted, hbits, hhelp, hcsv, CommandLine.error],
        CommandLine.length_error _,
        by simp [Item.IsHelp, hhelp, CommandLine.error], rfl, rfl,
        by simp [Item.bits, hbits, CommandLine.error]⟩

theorem reads_seed (text : String) : Reads around (.seed text) c (c.readSeed name text) := by
  unfold CommandLine.readSeed
  cases htext : sscanfLong text with
  | none =>
      exact ⟨by simp [Item.Accepted, htext, CommandLine.error],
        CommandLine.length_error _, by simp [Item.IsHelp, CommandLine.error],
        by simp [Item.seedValue, htext, CommandLine.error], rfl, (Nat.or_zero _).symm⟩
  | some seed =>
      simp only
      split_ifs with hrange
      · refine ⟨iff_of_false (Nat.succ_ne_zero _) ?_, CommandLine.length_error _,
          by simp [Item.IsHelp, CommandLine.error], by simp [Item.seedValue, htext,
            CommandLine.error], rfl, (Nat.or_zero _).symm⟩
        rintro ⟨-, seed', hseed', hlow, hhigh⟩
        obtain rfl := Option.some.inj (htext.symm.trans hseed')
        omega
      · have haccepted : Item.Accepted around (.seed text) :=
          ⟨seed, htext, not_lt.mp (not_or.mp hrange).1, not_lt.mp (not_or.mp hrange).2⟩
        exact ⟨(and_iff_left haccepted).symm, id, by simp [Item.IsHelp],
          by simp [Item.seedValue, htext], rfl, (Nat.or_zero _).symm⟩

theorem reads_procs (text : String) : Reads around (.procs text) c (c.readProcs name text) := by
  unfold CommandLine.readProcs
  cases htext : sscanfLong text with
  | none =>
      exact ⟨by simp [Item.Accepted, htext, CommandLine.error],
        CommandLine.length_error _, by simp [Item.IsHelp, CommandLine.error],
        rfl, by simp [Item.procsValue, htext, CommandLine.error], (Nat.or_zero _).symm⟩
  | some procs =>
      simp only
      split_ifs with hrange
      · refine ⟨iff_of_false (Nat.succ_ne_zero _) ?_, CommandLine.length_error _,
          by simp [Item.IsHelp, CommandLine.error], rfl, by simp [Item.procsValue, htext,
            CommandLine.error], (Nat.or_zero _).symm⟩
        rintro ⟨-, procs', hprocs', hlow, hhigh⟩
        obtain rfl := Option.some.inj (htext.symm.trans hprocs')
        omega
      · have haccepted : Item.Accepted around (.procs text) :=
          ⟨procs, htext, not_lt.mp (not_or.mp hrange).1, not_lt.mp (not_or.mp hrange).2⟩
        exact ⟨(and_iff_left haccepted).symm, id, by simp [Item.IsHelp], rfl,
          by simp [Item.procsValue, htext], (Nat.or_zero _).symm⟩

theorem readItem_reads (item : Item) : Reads around item c (c.readItem around name item) := by
  cases item with
  | word arg => exact reads_word arg
  | seed text => exact reads_seed text
  | procs text => exact reads_procs text

/-- What the whole command line says. -/
structure Says (around : Surroundings) (items : List Item) (c : CommandLine) : Prop where
  errors : c.errors = 0 ↔ ∀ item ∈ items, item.Accepted around
  stderr : c.stderr.length = c.errors
  help : c.help = 0 ↔ ∀ item ∈ items, ¬item.IsHelp
  seed : c.seed = lastValue Item.seedValue 0 items
  procs : c.procs = lastValue Item.procsValue maxProcesses items
  logPort : c.logPort = items.foldl (fun bits item => bits ||| item.bits) logAlways
  inRange : c.errors = 0 → 1 ≤ c.procs ∧ c.procs ≤ maxProcesses

theorem Says.no_message {items : List Item} (h : Says around items c) :
    c.stderr = [] ↔ c.errors = 0 := by
  rw [← List.length_eq_zero_iff, h.stderr]

theorem Says.concat {items : List Item} {item : Item} {d : CommandLine}
    (h : Says around items c) (hreads : Reads around item c d) :
    Says around (items ++ [item]) d where
  errors := by
    rw [hreads.errors, h.errors, List.forall_mem_append, List.forall_mem_singleton]
  stderr := hreads.stderr h.stderr
  help := by
    rw [hreads.help, h.help, List.forall_mem_append, List.forall_mem_singleton]
  seed := by rw [hreads.seed, h.seed, lastValue_concat]
  procs := by rw [hreads.procs, h.procs, lastValue_concat]
  logPort := by rw [hreads.logPort, h.logPort, List.foldl_append, List.foldl_cons, List.foldl_nil]
  inRange herrors := by
    obtain ⟨hbefore, haccepted⟩ := hreads.errors.mp herrors
    rw [hreads.procs]
    cases item with
    | procs text =>
        obtain ⟨procs, htext, hlow, hhigh⟩ := haccepted
        rw [Item.procsValue, htext]
        exact ⟨hlow, hhigh⟩
    | word arg => exact h.inRange hbefore
    | seed text => exact h.inRange hbefore

/-- The loop over `argv` reads what the items say. -/
theorem foldl_says (items : List Item) :
    Says around items (items.foldl (CommandLine.readItem around name) .start) := by
  induction items using List.reverseRecOn with
  | nil =>
      have hone : (1 : Int) ≤ maxProcesses := by decide
      exact ⟨by simp [CommandLine.start], rfl, by simp [CommandLine.start], rfl, rfl, rfl,
        fun _ => ⟨hone, le_rfl⟩⟩
  | append_singleton items item ih =>
      rw [List.foldl_append, List.foldl_cons, List.foldl_nil]
      exact ih.concat (readItem_reads item)

end Items

/-! ### The end of the program -/

/-- How the program has to end on these items. -/
def Exit.Due (around : Surroundings) (name : String) (items : List Item)
    (dangling : List String) : Exit → Prop
  | .crashed => dangling ≠ []
  | .explained status stderr =>
      dangling = [] ∧ ∃ messages, stderr = messages ++ usage name ∧
        ((status = exitFailure ∧ messages ≠ [] ∧ ∃ item ∈ items, ¬item.Accepted around) ∨
          (status = exitSuccess ∧ messages = [] ∧ (∀ item ∈ items, item.Accepted around) ∧
            ∃ item ∈ items, item.IsHelp))
  | .simulated status line final =>
      dangling = [] ∧ status = exitSuccess ∧
        (∀ item ∈ items, item.Accepted around ∧ ¬item.IsHelp) ∧
        line.stderr = [] ∧
        line.seed = lastValue Item.seedValue 0 items ∧
        line.procs = lastValue Item.procsValue maxProcesses items ∧
        line.logPort = items.foldl (fun bits item => bits ||| item.bits) logAlways ∧
        1 ≤ line.procs ∧ line.procs ≤ maxProcesses ∧
        ∀ k, (final.queue k).Finished

section Due

variable {around : Surroundings} {name : String} {items : List Item} {c : CommandLine}

theorem Says.explained (h : Says around items c) (hexplain : c.errors ≠ 0 ∨ c.help ≠ 0) :
    (Exit.explained (if c.errors ≠ 0 then exitFailure else exitSuccess)
      (c.stderr ++ usage name)).Due around name items [] := by
  refine ⟨rfl, c.stderr, rfl, ?_⟩
  by_cases herrors : c.errors = 0
  · right
    refine ⟨if_neg (not_not.mpr herrors), h.no_message.mpr herrors, h.errors.mp herrors, ?_⟩
    by_contra hnone
    exact hexplain.resolve_left (not_not.mpr herrors)
      (h.help.mpr fun item hitem hhelp => hnone ⟨item, hitem, hhelp⟩)
  · left
    refine ⟨if_pos herrors, fun hnone => herrors (h.no_message.mp hnone), ?_⟩
    by_contra hnone
    refine herrors (h.errors.mpr fun item hitem => ?_)
    by_contra hbad
    exact hnone ⟨item, hitem, hbad⟩

theorem Says.simulated (h : Says around items c) (herrors : c.errors = 0) (hhelp : c.help = 0)
    {final : State} (hdone : ∀ k, (final.queue k).Finished) :
    (Exit.simulated exitSuccess c final).Due around name items [] :=
  ⟨rfl, rfl, fun item hitem => ⟨h.errors.mp herrors item hitem, h.help.mp hhelp item hitem⟩,
    h.no_message.mpr herrors, h.seed, h.procs, h.logPort, (h.inRange herrors).1,
    (h.inRange herrors).2, hdone⟩

end Due

/-- The main loop ends under each of the three pagers. -/
theorem pager_ends {pager : Pager} (hpager : pager = basic ∨ pager = lru ∨ pager = predict)
    {config : Config} (htable : config.table = programs) {s₀ : State} (h : config.Starts s₀) :
    ∃ fuel s, mainLoop pager config.procs fuel (pager.init, s₀) = some s ∧
      ∀ k, (s.queue k).Finished := by
  have hloop : ∃ fuel s, mainLoop pager config.procs fuel (pager.init, s₀) = some s := by
    rcases hpager with rfl | rfl | rfl
    · obtain ⟨n, hdone⟩ := basic_ends htable h
      exact mainLoop_ends hdone
    · exact (live_terminates htable lru_live h).1
    · exact (live_terminates htable predict_live h).1
  obtain ⟨fuel, s, hs⟩ := hloop
  obtain ⟨n, rfl, hdone⟩ := mainLoop_eq_some hs
  exact ⟨fuel, _, hs, (run_reaches pager h n).finished_of_alldone htable hdone⟩

theorem mainLoop_mono {pager : Pager} {procs fuel : Nat} {s : pager.State × State} {r : State}
    (h : mainLoop pager procs fuel s = some r) : mainLoop pager procs (fuel + 1) s = some r := by
  induction fuel generalizing s with
  | zero => cases h
  | succ fuel ih =>
      rw [mainLoop] at h ⊢
      split_ifs at h ⊢
      · exact h
      · exact ih h

theorem allinit_mono {table : Fin programCount → Program} {procs fuel : Nat} {rand : Stream}
    {s : State} (h : allinit table procs rand fuel = some s) (more : Nat) :
    allinit table procs rand (fuel + more) = some s := by
  obtain ⟨jobs, hjobs, hs⟩ := Option.map_eq_some_iff.mp h
  exact Option.map_eq_some_iff.mpr ⟨jobs, initqueue_mono hjobs more, hs⟩

/-- Without errors the simulation starts, whatever the seed, and ends. -/
theorem Says.simulates {pager : Pager} (hpager : pager = basic ∨ pager = lru ∨ pager = predict)
    {around : Surroundings} {items : List Item} {c : CommandLine} (h : Says around items c)
    (herrors : c.errors = 0) :
    ∃ fuel final, ((allinit programs c.procs.toNat (seeded (c.usedSeed around)) fuel).bind fun s =>
      (mainLoop pager c.procs.toNat fuel (pager.init, s)).map (Exit.simulated exitSuccess c)) =
        some (.simulated exitSuccess c final) ∧ ∀ k, (final.queue k).Finished := by
  obtain ⟨hlow, hhigh⟩ := h.inRange herrors
  let config : Config :=
    ⟨programs, c.procs.toNat, seeded (c.usedSeed around), by omega, by omega⟩
  obtain ⟨s₀, hstart⟩ := @starts_of_recurs config rfl (seeded_recurs _)
  obtain ⟨fuel, final, hfinal, hdone⟩ := pager_ends hpager rfl hstart
  obtain ⟨fuel', hs₀⟩ := hstart
  refine ⟨fuel' + fuel, final, ?_, hdone⟩
  have hs₀' : allinit programs c.procs.toNat (seeded (c.usedSeed around)) (fuel' + fuel) =
      some s₀ := allinit_mono hs₀ fuel
  have hfinal' := more_fuel (mainLoop pager c.procs.toNat · (pager.init, s₀))
    (fun _ _ => mainLoop_mono) hfinal fuel'
  rw [Nat.add_comm] at hfinal'
  rw [hs₀', Option.bind_some, hfinal', Option.map_some]

/-- **The program ends on every command line.** With any of the three pagers, whatever the time and
whether or not files can be opened: the command line is a sequence of items, and possibly a last
`-seed` or `-procs` without its value, at which the program crashes; it fails exactly if an item is
not accepted; it explains itself if asked to; and else it simulates to the end, with the processors
and the seed of the last items that name them, and every job has finished. -/
theorem main_ends (pager : Pager) (hpager : pager = basic ∨ pager = lru ∨ pager = predict)
    (around : Surroundings) (name : String) (args : List String) :
    ∃ items dangling, Spells items dangling args ∧
      ∃ fuel exit, simulatorMain pager around name args fuel = some exit ∧
        exit.Due around name items dangling := by
  obtain ⟨items, dangling, hspells⟩ := exists_spells args
  refine ⟨items, dangling, hspells, ?_⟩
  obtain ⟨rfl, hstand, hdangling⟩ := hspells
  have hread := @readArgs_items around name items hstand dangling .start
  have hsays : Says around items (items.foldl (CommandLine.readItem around name) .start) :=
    foldl_says items
  generalize items.foldl (CommandLine.readItem around name) .start = c at hread hsays
  rcases hdangling with rfl | rfl | rfl
  · by_cases hexplain : c.errors ≠ 0 ∨ c.help ≠ 0
    · exact ⟨0, _, by rw [simulatorMain, hread]; exact if_pos hexplain, hsays.explained hexplain⟩
    · obtain ⟨herrors, hhelp⟩ := not_or.mp hexplain
      rw [not_not] at herrors hhelp
      obtain ⟨fuel, final, hfinal, hdone⟩ := hsays.simulates hpager herrors
      refine ⟨fuel, .simulated exitSuccess c final, ?_, hsays.simulated herrors hhelp hdone⟩
      rw [simulatorMain, hread]
      exact (if_neg hexplain).trans hfinal
  · exact ⟨0, .crashed, by rw [simulatorMain, hread]; rfl, List.cons_ne_nil _ _⟩
  · exact ⟨0, .crashed, by rw [simulatorMain, hread]; rfl, List.cons_ne_nil _ _⟩

theorem main_ends_usage :
    ∃ items dangling, Spells items dangling ["-procs", "4", "-seed", "512"] ∧
      ∃ fuel exit, simulatorMain basic ⟨true, true, fun _ => 0⟩ "simulator"
        ["-procs", "4", "-seed", "512"] fuel = some exit ∧
          exit.Due ⟨true, true, fun _ => 0⟩ "simulator" items dangling :=
  main_ends basic (Or.inl rfl) ⟨true, true, fun _ => 0⟩ "simulator" _

end OperatingSystems.Simulator
