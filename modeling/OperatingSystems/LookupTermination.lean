import OperatingSystems.LookupConservation

/-!
The length of a run. Every step uses up something that there is only so much of: files to claim,
lines to read, names to take, and the way of each thread to its next wait or its exit. Only a
requester whose wait ends spuriously gets something back, so that a run is as long as it is for
good reasons, and then some steps for each of these wake-ups.
-/

namespace OperatingSystems.Lookup

open Runs Threads

variable {Line : Type} {m n : Nat}

/-! ### Ranks -/

/-- The way of a requester to its exit; in the read loop to the next `getline`. -/
def RequesterPc.rank (canService : Bool) : RequesterPc Line → Nat
  | .exited => 0
  | .unlockFilesExit => 1
  | .unlockService => 2
  | .broadcastIsEmpty => 3
  | .lockService => 4
  | .lockFiles => 6
  | .unlockBuffer => (if canService then 6 else 0) + 1
  | .signalDone => (if canService then 6 else 0) + 2
  | .getline => (if canService then 6 else 0) + 3
  | .lockBuffer => (if canService then 6 else 0) + 4
  | .unlockFiles => (if canService then 6 else 0) + 5
  | .waitingIsFull _ => (if canService then 6 else 0) + 12
  | .waitIsFull _ => (if canService then 6 else 0) + 13
  | .signalIsEmpty _ => (if canService then 6 else 0) + 14
  | .relockBuffer _ => (if canService then 6 else 0) + 15

/-- The way of a resolver to its next wait or its exit; a step that wakes a requester pays for what
the requester does until it waits again. -/
def ResolverPc.rank : ResolverPc Line → Nat
  | .relockBuffer | .exited => 0
  | .unlockExit | .waitingIsEmpty => 1
  | .waitIsEmpty => 2
  | .signalIsFull => 6
  | .lockBuffer => 7
  | .unlockResults => 8
  | .lockResults _ => 9
  | .unlockBuffer _ => 10

def Requester.rank (r : Requester Line) : Nat :=
  r.pc.rank r.canService + 12 * r.currentFile.rest.length

/-- What there is to claim. -/
def filesRank (env : Env Line) (files : List File) : Nat :=
  6 * files.countP (fun file => !file.serviced) + 12 * (unclaimed env files).card

/-- What does not belong to a thread. -/
def State.sharedRank (env : Env Line) (s : State Line m n) : Nat :=
  filesRank env s.files + 11 * s.currentPosition.toNat + if s.fault.isSome then 0 else 1

def State.rank (env : Env Line) (s : State Line m n) : Nat :=
  s.sharedRank env + ∑ i, (s.requester i).rank + ∑ j, (s.resolver j).pc.rank

/-! ### Claims and wake-ups -/

theorem countP_markServiced {files : List File} {index : Nat} {file : File}
    (hget : files[index]? = some file) (hserviced : file.serviced = false) :
    (markServiced files index).countP (fun file => !file.serviced) + 1 =
      files.countP fun file => !file.serviced := by
  induction files generalizing index with
  | nil => simp at hget
  | cons first rest ih =>
      cases index with
      | zero =>
          obtain rfl : first = file := by simpa using hget
          simp [markServiced, hserviced]
      | succ index =>
          have hrest := ih (show rest[index]? = some file by simpa using hget)
          rw [markServiced, List.modify_succ_cons, List.countP_cons, List.countP_cons, ← hrest,
            markServiced]
          omega

/-- A claim moves the lines of the file to the stream. -/
theorem filesRank_markServiced {env : Env Line} {files : List File} {index : Nat} {file : File}
    (hget : files[index]? = some file) (hserviced : file.serviced = false) :
    filesRank env (markServiced files index) + 6 +
      12 * (openFile env files index).rest.length = filesRank env files := by
  have hcount := countP_markServiced hget hserviced
  have hlines := congrArg Multiset.card (unclaimed_markServiced env hget hserviced)
  rw [← openFile_rest hget, Multiset.card_add, Multiset.coe_card] at hlines
  rw [filesRank, filesRank]
  omega

theorem Resolver.Woken.rank_le {q q' : Resolver Line} (h : q.Woken q') :
    q'.pc.rank ≤ q.pc.rank := by
  rcases h with rfl | ⟨hpc, rfl⟩
  · exact le_rfl
  · rw [hpc]
    exact Nat.zero_le 1

/-- A signal lets one requester go on. -/
theorem SignalsIsFull.rank_le {s s' : State Line m n} (h : SignalsIsFull s s') :
    ∑ i, (s'.requester i).rank ≤ ∑ i, (s.requester i).rank + 3 := by
  cases h with
  | nobody => exact Nat.le_add_right _ 3
  | woken i input hwaiting =>
      have hmove := sum_move (f := fun i => (s.requester i).rank)
        (g := fun i' => ((s.setRequester i { s.requester i with
          pc := .relockBuffer input }).requester i').rank) i
        fun i' hne => by rw [setRequester_of_ne _ hne]
      simp only [setRequester_self, Requester.rank, hwaiting, RequesterPc.rank] at hmove ⊢
      omega

/-! ### One step -/

theorem enqueue_fault (s : State Line m n) (i : Fin m) (r : Requester Line) (input : Line) :
    (s.enqueue i r input).fault = s.fault := rfl

/-- A requester's move uses up something of its own or of what is shared. -/
theorem RequesterMove.own_rank {env : Env Line} {s s' : State Line m n} {i : Fin m}
    (h : RequesterMove env s i s') (hfault : s.fault = none) :
    s'.sharedRank env + (s'.requester i).rank + 1 ≤ s.sharedRank env + (s.requester i).rank := by
  cases h with
  | claim index hpc hlock hscan =>
      obtain ⟨file, -, hget, hserviced⟩ := scan_found hscan
      rw [Nat.sub_zero] at hget
      have hfiles : filesRank env (markServiced s.files index) + 6 +
          12 * (openFile env s.files index).rest.length = filesRank env s.files :=
        filesRank_markServiced hget hserviced
      simp [State.sharedRank, Requester.rank, RequesterPc.rank, hpc, hfault]
      omega
  | badStream hpc =>
      simp only [State.sharedRank, hfault, Option.isSome_none, Option.isSome_some, if_true,
        Bool.false_eq_true, if_false]
      omega
  | signalFull input s₁ hpc hsignal | signalDone s₁ hpc hsignal =>
      obtain ⟨resolver, rfl⟩ := hsignal.frame
      simp only [State.sharedRank, Requester.rank, RequesterPc.rank, setRequester_files,
        setRequester_currentPosition, setRequester_fault, setRequester_self, hpc, hfault]
      omega
  | readFull index input rest hpc hfile | readStore index input rest hpc hfile =>
      simp [State.sharedRank, Requester.rank, RequesterPc.rank, hpc, hfile, hfault, enqueue_fault]
      omega
  | relockStore input hpc =>
      simp [State.sharedRank, Requester.rank, RequesterPc.rank, hpc, hfault, enqueue_fault]
      omega
  | closeFile hpc =>
      cases hservice : (s.requester i).canService with
      | false =>
          simp [State.sharedRank, Requester.rank, RequesterPc.rank, hpc, hfault, hservice]
      | true =>
          simp [State.sharedRank, Requester.rank, RequesterPc.rank, hpc, hfault, hservice]
          omega
  | finish hpc | noFiles hpc | report hpc | broadcast hpc | unlockService hpc | exit hpc
  | unlockFiles hpc | lockBuffer hpc | endOfFile _ hpc | wait _ hpc | relockFull _ hpc =>
      simp only [State.sharedRank, Requester.rank, RequesterPc.rank, setRequester_files,
        setRequester_currentPosition, setRequester_fault, setRequester_self, hpc, hfault,
        State.broadcastIsEmpty, Bool.false_eq_true, if_false]
      omega

theorem pop_rank (env : Env Line) {s : State Line m n} (hfault : s.fault = none) (j : Fin n) :
    (s.pop j (s.resolver j)).sharedRank env + ((s.pop j (s.resolver j)).resolver j).pc.rank + 1 ≤
      s.sharedRank env + (s.resolver j).pc.rank := by
  rcases pop_cases s j (s.resolver j) with ⟨hempty, hpop⟩ | ⟨-, -, hpop⟩ | ⟨name, hitem, -, hpop⟩
  · rw [hpop]
    simp only [State.sharedRank, hfault, Option.isSome_none, Option.isSome_some, if_true,
      Bool.false_eq_true, if_false]
    omega
  · rw [hpop]
    simp only [State.sharedRank, hfault, Option.isSome_none, Option.isSome_some, if_true,
      Bool.false_eq_true, if_false]
    omega
  · rw [hpop]
    simp [State.sharedRank, hfault, ResolverPc.rank]
    omega

/-- So does a resolver's move, what the requesters get from its signal included. -/
theorem ResolverMove.own_rank {env : Env Line} {s s' : State Line m n} {j : Fin n}
    (h : ResolverMove env s j s') (hfault : s.fault = none) :
    s'.sharedRank env + ∑ i, (s'.requester i).rank + (s'.resolver j).pc.rank + 1 ≤
      s.sharedRank env + ∑ i, (s.requester i).rank + (s.resolver j).pc.rank := by
  cases h with
  | take hpc | takeWoken hpc =>
      have hrank := pop_rank env (s := { s with bufferLock := some (.resolver j) }) hfault j
      change _ ≤ s.sharedRank env + (s.resolver j).pc.rank at hrank
      simp only [pop_requester] at hrank ⊢
      omega
  | signal s₁ hpc hsignal =>
      have hwoken := hsignal.rank_le
      obtain ⟨requester, rfl⟩ := hsignal.frame
      simp [State.sharedRank, ResolverPc.rank, hpc, hfault] at hwoken ⊢
      omega
  | leave hpc | findEmpty hpc | exit hpc | wait hpc | unlockBuffer _ hpc | resolve _ hpc
  | unlockResults hpc =>
      simp [State.sharedRank, ResolverPc.rank, hpc, hfault]

/-- The wake-ups that give a requester something back. -/
def Action.spurious : Action m n → Bool
  | .spuriousRequester _ => true
  | _ => false

theorem step_rank {env : Env Line} {s s' : State Line m n} {a : Action m n}
    (h : step env s a = some s') :
    s'.rank env + 1 ≤ s.rank env + if a.spurious then 4 else 0 := by
  obtain ⟨hfault, hmove⟩ := step_cases h
  cases hmove with
  | requester i woken _ hmove =>
      have hown := hmove.own_rank hfault
      have hothers := sum_move (f := fun i => (s.requester i).rank)
        (g := fun i => (s'.requester i).rank) i fun i' hne => by rw [hmove.others hne]
      have hresolvers : ∑ j, (s'.resolver j).pc.rank ≤ ∑ j, (s.resolver j).pc.rank :=
        Finset.sum_le_sum fun j _ => (hmove.resolvers j).rank_le
      simp only [State.rank, Action.spurious] at hothers ⊢
      omega
  | resolver j woken _ hmove =>
      have hown := hmove.own_rank hfault
      have hothers := sum_move (f := fun j => (s.resolver j).pc.rank)
        (g := fun j => (s'.resolver j).pc.rank) j fun j' hne => by rw [hmove.others hne]
      simp only [State.rank, Action.spurious] at hothers ⊢
      omega
  | spuriousRequester i input hwaiting =>
      have hwoken := (SignalsIsFull.woken i input hwaiting).rank_le
      simp [State.rank, State.sharedRank, Action.spurious, hfault] at hwoken ⊢
      omega
  | spuriousResolver j hwaiting =>
      have hothers := sum_move (f := fun j => (s.resolver j).pc.rank)
        (g := fun j' => ((s.setResolver j { s.resolver j with
          pc := .relockBuffer }).resolver j').pc.rank) j
        fun j' hne => by rw [setResolver_of_ne _ hne]
      have hshared : (s.setResolver j { s.resolver j with pc := .relockBuffer }).sharedRank env =
        s.sharedRank env := rfl
      have hwaits : (s.resolver j).pc.rank = 1 := by
        rw [hwaiting]
        rfl
      have hwoken : (ResolverPc.relockBuffer : ResolverPc Line).rank = 0 := rfl
      simp only [State.rank, hshared, setResolver_requester, setResolver_self, Action.spurious,
        Bool.false_eq_true, if_false] at hothers ⊢
      omega

/-! ### Every run -/

variable {args : Args Line} {s : State Line args.requesterThreadsCount args.resolverThreadCount}

theorem start_rank : (start args).rank args.env = 1 + 6 * args.requesterThreadsCount +
    7 * args.resolverThreadCount + 6 * args.validFiles.length + 12 * args.lines.card := by
  have hlines : unclaimed args.env (start args).files = args.lines := by
    simp [start, unclaimed, Args.lines, Function.comp_def]
  have hfiles : (start args).files.countP (fun file => !file.serviced) =
      args.validFiles.length := by
    simp [start, Function.comp_def]
  rw [State.rank, State.sharedRank, filesRank, hlines, hfiles]
  simp [start, Requester.rank, RequesterPc.rank, ResolverPc.rank, Stream.rest]
  omega

/-- **Every run ends.** Whatever the order of steps, a run of `r` requesters and `k` resolvers on
`f` files with `l` lines has at most `1 + 6 r + 7 k + 6 f + 12 l` steps, and four more for each
time that the wait of a requester ends spuriously. -/
theorem run_length_le (args : Args Line)
    (schedule : List (Action args.requesterThreadsCount args.resolverThreadCount))
    (s : State Line args.requesterThreadsCount args.resolverThreadCount)
    (h : exec (step args.env) (start args) schedule = some s) :
    schedule.length ≤ 1 + 6 * args.requesterThreadsCount + 7 * args.resolverThreadCount +
      6 * args.validFiles.length + 12 * args.lines.card +
        4 * schedule.countP Action.spurious := by
  have hlength := exec_length_le (fun _ _ _ => step_rank) h
  rw [start_rank] at hlength
  exact le_trans (Nat.le_add_right _ _) hlength

theorem oneAfterOther_length : ∃ s,
    exec (step oneEach.env) (start oneEach) oneAfterOther = some s ∧
      oneAfterOther.length ≤ 32 := by
  obtain ⟨s, hs⟩ : ∃ s, exec (step oneEach.env) (start oneEach) oneAfterOther = some s :=
    Option.isSome_iff_exists.mp (by decide)
  exact ⟨s, hs, run_length_le oneEach oneAfterOther s hs⟩

end OperatingSystems.Lookup
