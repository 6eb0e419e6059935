import OperatingSystems.LookupFinish

/-!
No name is lost or taken twice. The names that requesters have stored are those in the buffer
together with those that resolvers have taken, and the lines of the valid files are at every moment
shared out among the files not yet claimed, the open streams, the requesters' hands and the stored
names. When a resolver leaves, everything but the taken names is empty.
-/

namespace OperatingSystems.Lookup

open Threads

variable {Line : Type} {m n : Nat}

/-! ### Where the names are -/

/-- The names that requesters have stored. -/
def State.enqueued (s : State Line m n) : Multiset Line :=
  ∑ i, ((s.requester i).enqueued : Multiset Line)

/-- The names that resolvers have taken. -/
def State.popped (s : State Line m n) : Multiset Line :=
  ∑ j, ((s.resolver j).popped : Multiset Line)

/-- The contents of the slots from `0` up to `position`. -/
def heldIn (buffer : Int → Option Line) (position : Int) : Multiset Line :=
  ((List.range position.toNat).filterMap fun k : Nat => buffer k : List Line)

/-- The names in `buffer[0..currentPosition)`. -/
def State.held (s : State Line m n) : Multiset Line := heldIn s.buffer s.currentPosition

/-- The name that a requester has read and not yet stored. -/
def RequesterPc.pending : RequesterPc Line → List Line
  | .signalIsEmpty input | .waitIsFull input | .waitingIsFull input | .relockBuffer input => [input]
  | _ => []

/-- The lines that have come to a requester so far. -/
def Requester.lines (r : Requester Line) : Multiset Line :=
  r.enqueued + r.pc.pending + r.currentFile.rest

/-- What `fopen(filename, "r+")` lets a requester read. -/
def fileLines (env : Env Line) (filename : FileName) : Multiset Line :=
  ((env.file filename).fopenUpdate.getD [] : List Line)

/-- The lines of the files that nobody has claimed. -/
def unclaimed (env : Env Line) (files : List File) : Multiset Line :=
  (files.map fun file => if file.serviced then 0 else fileLines env file.filename).sum

/-- The lines of the files that `main` hands to the requesters. -/
def Args.lines (args : Args Line) : Multiset Line :=
  (args.validFiles.map (fileLines args.env)).sum

/-- The accounts of a run in which no resolver has popped an empty buffer. -/
structure State.Conserved (env : Env Line) (total : Multiset Line) (s : State Line m n) : Prop where
  position_nonneg : 0 ≤ s.currentPosition
  slots : ∀ k, 0 ≤ k → k < s.currentPosition → (s.buffer k).isSome
  stored : s.enqueued = s.held + s.popped
  lines : unclaimed env s.files + ∑ i, (s.requester i).lines = total
  left_empty : ∀ j, (s.resolver j).pc.leaving = true → s.currentPosition = 0

/-! ### The buffer -/

theorem heldIn_push (buffer : Int → Option Line) {position : Int} (hposition : 0 ≤ position)
    (input : Line) :
    heldIn (Function.update buffer position (some input)) (position + 1) =
      heldIn buffer position + {input} := by
  lift position to Nat using hposition
  have hbelow : (List.range position).filterMap
      (fun k : Nat => Function.update buffer (position : Int) (some input) k) =
      (List.range position).filterMap fun k : Nat => buffer k := by
    refine List.filterMap_congr fun k hk => Function.update_of_ne ?_ _ _
    rw [List.mem_range] at hk
    omega
  rw [heldIn, heldIn, Int.toNat_natCast_add_one, List.range_succ, List.filterMap_append, hbelow,
    ← Multiset.coe_add]
  simp

theorem heldIn_pop {buffer : Int → Option Line} {position : Int} (hposition : 0 < position)
    {domainName : Line} (hslot : buffer (position - 1) = some domainName) :
    heldIn buffer position = heldIn buffer (position - 1) + {domainName} := by
  have hpush := heldIn_push buffer (show 0 ≤ position - 1 by omega) domainName
  rwa [← hslot, Function.update_eq_self, Int.sub_add_cancel] at hpush

/-- Below the position every slot counts, if every slot was stored to. -/
theorem heldIn_card {buffer : Int → Option Line} {position : Int} (hposition : 0 ≤ position)
    (hslots : ∀ k, 0 ≤ k → k < position → (buffer k).isSome) :
    ((heldIn buffer position).card : Int) = position := by
  induction position, hposition using Int.leInduction with
  | base => rfl
  | succ position hle ih =>
      obtain ⟨name, hname⟩ := Option.isSome_iff_exists.mp (hslots position hle (by omega))
      have htop : buffer (position + 1 - 1) = some name := by rwa [Int.add_sub_cancel]
      rw [heldIn_pop (by omega) htop, Int.add_sub_cancel, Multiset.card_add,
        Multiset.card_singleton, Nat.cast_add, ih fun k hk hlt => hslots k hk (by omega)]
      rfl

/-! ### One step -/

theorem Requester.Woken.lines_eq {r r' : Requester Line} (h : r.Woken r') :
    r'.lines = r.lines ∧ r'.enqueued = r.enqueued := by
  rcases h with rfl | ⟨input, hpc, rfl⟩
  · exact ⟨rfl, rfl⟩
  · simp [Requester.lines, RequesterPc.pending, hpc]

theorem Resolver.Woken.popped_eq {q q' : Resolver Line} (h : q.Woken q') :
    q'.popped = q.popped := by
  rcases h with rfl | ⟨hpc, rfl⟩ <;> rfl

@[simp] theorem Stream.rest_opened (index : Nat) (rest : List Line) :
    (Stream.opened index rest).rest = rest := rfl

@[simp] theorem Stream.rest_closed : (Stream.closed : Stream Line).rest = [] := rfl

theorem Stream.rest_of_not_open {stream : Stream Line} (h : stream.isOpen = false) :
    stream.rest = [] := by
  cases stream <;> simp_all [Stream.isOpen, Stream.rest]

/-- Claiming a file moves its lines from the unclaimed ones to the claimed stream. -/
theorem unclaimed_markServiced (env : Env Line) {files : List File} {index : Nat} {file : File}
    (hget : files[index]? = some file) (hserviced : file.serviced = false) :
    unclaimed env (markServiced files index) + fileLines env file.filename =
      unclaimed env files := by
  induction files generalizing index with
  | nil => simp at hget
  | cons first rest ih =>
      cases index with
      | zero =>
          obtain rfl : first = file := by simpa using hget
          simp [unclaimed, markServiced, hserviced, add_comm]
      | succ index =>
          have hrest := ih (show rest[index]? = some file by simpa using hget)
          simp only [unclaimed, markServiced, List.modify_succ_cons, List.map_cons,
            List.sum_cons] at hrest ⊢
          rw [add_assoc, hrest]

theorem openFile_rest {env : Env Line} {files : List File} {index : Nat} {file : File}
    (hget : files[index]? = some file) :
    ((openFile env files index).rest : Multiset Line) = fileLines env file.filename := by
  rw [openFile, hget, Option.bind_some, fileLines]
  cases (env.file file.filename).fopenUpdate <;> rfl

/-- A requester's move passes lines on; it makes none and drops none. -/
theorem RequesterMove.lines {env : Env Line} {s s' : State Line m n} {i : Fin m}
    (h : RequesterMove env s i s') (hplaced : (s.requester i).Placed) :
    unclaimed env s'.files + (s'.requester i).lines =
      unclaimed env s.files + (s.requester i).lines := by
  cases h with
  | badStream => rfl
  | claim index hpc hlock hscan =>
      obtain ⟨file, -, hget, hserviced⟩ := scan_found hscan
      rw [Nat.sub_zero] at hget
      rw [Requester.Placed, hpc] at hplaced
      simp only [Requester.lines, setRequester_self, setRequester_files, RequesterPc.pending, hpc,
        openFile_rest hget, Stream.rest_of_not_open hplaced.2, Multiset.coe_nil, add_zero]
      rw [← unclaimed_markServiced env hget hserviced]
      abel
  | signalFull _ _ hpc hsignal | signalDone _ hpc hsignal =>
      obtain ⟨resolver, rfl⟩ := hsignal.frame
      simp [Requester.lines, RequesterPc.pending, hpc]
  | closeFile hpc =>
      rw [Requester.Placed, hpc] at hplaced
      have hrest : (s.requester i).currentFile.rest = [] := hplaced.2
      simp [Requester.lines, RequesterPc.pending, hpc, hplaced.1, hrest]
  | readFull index input rest hpc hfile =>
      simp [Requester.lines, RequesterPc.pending, hpc, hfile, -Multiset.coe_singleton]
  | readStore index input rest hpc hfile =>
      simp [Requester.lines, RequesterPc.pending, hpc, hfile, -Multiset.coe_singleton]
  | relockStore input hpc =>
      simp [Requester.lines, RequesterPc.pending, hpc, -Multiset.coe_singleton]
  | finish hpc | noFiles hpc | report hpc | broadcast hpc | unlockService hpc | exit hpc
  | unlockFiles hpc | lockBuffer hpc | endOfFile _ hpc | wait _ hpc | relockFull _ hpc =>
      simp [Requester.lines, RequesterPc.pending, hpc]

/-- What a requester stores is what the buffer gains. -/
theorem RequesterMove.stored {env : Env Line} {s s' : State Line m n} {i : Fin m}
    (h : RequesterMove env s i s') (hposition : 0 ≤ s.currentPosition) :
    s'.held + ((s.requester i).enqueued : Multiset Line) =
      s.held + ((s'.requester i).enqueued : Multiset Line) := by
  cases h with
  | badStream => rfl
  | signalFull _ _ _ hsignal | signalDone _ _ hsignal =>
      obtain ⟨resolver, rfl⟩ := hsignal.frame
      simp [State.held]
  | readStore index input rest | relockStore input =>
      simp only [State.held, enqueue_buffer, enqueue_currentPosition, enqueue_requester_self]
      rw [heldIn_push _ hposition, ← Multiset.coe_add, Multiset.coe_singleton]
      abel
  | _ => simp [State.held, State.broadcastIsEmpty]

theorem enqueued_move {s s' : State Line m n} {i : Fin m}
    (hothers : ∀ i', i' ≠ i → s'.requester i' = s.requester i') :
    s'.enqueued + (s.requester i).enqueued = s.enqueued + (s'.requester i).enqueued :=
  sum_move (f := fun i => ((s.requester i).enqueued : Multiset Line))
    (g := fun i => ((s'.requester i).enqueued : Multiset Line)) i
    fun i' hne => by rw [hothers i' hne]

theorem RequesterMove.conserved {env : Env Line} {total : Multiset Line} {s s' : State Line m n}
    {i : Fin m} (h : RequesterMove env s i s') (horderly : s.Orderly)
    (hconserved : s.Conserved env total) : s'.Conserved env total where
  position_nonneg := by
    have := hconserved.position_nonneg
    rcases h.stores with ⟨hposition, -⟩ | ⟨_, -, -, hposition, -⟩ <;> omega
  slots k hk hlt := by
    rcases h.stores with ⟨hposition, hbuffer⟩ | ⟨input, -, -, hposition, hbuffer⟩
    · rw [hbuffer]
      exact hconserved.slots k hk (hposition ▸ hlt)
    · rw [hbuffer]
      by_cases htop : k = s.currentPosition
      · rw [htop, Function.update_self]
        rfl
      · rw [Function.update_of_ne htop]
        exact hconserved.slots k hk (by omega)
  stored := by
    have hpopped : s'.popped = s.popped :=
      Finset.sum_congr rfl fun j _ => by rw [(h.resolvers j).popped_eq]
    have hmove := enqueued_move fun _ => h.others
    have hstored := h.stored hconserved.position_nonneg
    apply add_right_cancel (b := ((s.requester i).enqueued : Multiset Line))
    calc
      s'.enqueued + (s.requester i).enqueued = s.enqueued + (s'.requester i).enqueued := hmove
      _ = s.held + (s'.requester i).enqueued + s.popped := by
        rw [hconserved.stored]
        abel
      _ = s'.held + s'.popped + (s.requester i).enqueued := by
        rw [← hstored, hpopped]
        abel
  lines := by
    have hmove := sum_move (f := fun i => (s.requester i).lines)
      (g := fun i => (s'.requester i).lines) i fun i' hne => by rw [h.others hne]
    have hlines := h.lines (horderly.placed i)
    apply add_right_cancel (b := (s.requester i).lines)
    calc
      unclaimed env s'.files + ∑ i, (s'.requester i).lines + (s.requester i).lines =
          unclaimed env s'.files + (s'.requester i).lines + ∑ i, (s.requester i).lines := by
        rw [add_assoc, hmove]
        abel
      _ = total + (s.requester i).lines := by
        rw [hlines, ← hconserved.lines]
        abel
  left_empty j hleaving := by
    rw [(h.resolvers j).leaving_eq] at hleaving
    rcases h.stores with ⟨hposition, -⟩ | ⟨input, hpc, -⟩
    · exact hposition.trans (hconserved.left_empty j hleaving)
    · have hcounted := horderly.threadsFinished_eq_iff.mp (horderly.left j hleaving) i
      rcases hpc with hpc | hpc <;> simp [hpc, RequesterPc.counted] at hcounted

/-- The buffer of a resolver's move that does not go wrong: unchanged, or without its top name,
which the resolver has taken. -/
theorem ResolverMove.buffer {env : Env Line} {total : Multiset Line} {s s' : State Line m n}
    {j : Fin n} (h : ResolverMove env s j s') (hconserved : s.Conserved env total)
    (hfault : s'.fault ≠ some .emptyBuffer) :
    s'.buffer = s.buffer ∧
      ((s'.currentPosition = s.currentPosition ∧
          (s'.resolver j).popped = (s.resolver j).popped) ∨
        ∃ domainName, 0 < s.currentPosition ∧
          s.buffer (s.currentPosition - 1) = some domainName ∧
          s'.currentPosition = s.currentPosition - 1 ∧
          (s'.resolver j).popped = (s.resolver j).popped ++ [domainName]) := by
  cases h with
  | signal _ _ hsignal =>
      obtain ⟨requester, rfl⟩ := hsignal.frame
      exact ⟨rfl, Or.inl ⟨rfl, by simp⟩⟩
  | take | takeWoken =>
      rcases pop_cases { s with bufferLock := some (.resolver j) } j (s.resolver j) with
        ⟨_, hpop⟩ | ⟨hpositive, hunset, hpop⟩ | ⟨domainName, hpositive, hslot, hpop⟩
      · simp [hpop] at hfault
      · have hset := hconserved.slots (s.currentPosition - 1) (Int.le_sub_one_of_lt hpositive)
          (by omega)
        rw [show s.buffer (s.currentPosition - 1) = none from hunset] at hset
        cases hset
      · rw [hpop]
        exact ⟨rfl, Or.inr ⟨domainName, hpositive, hslot, rfl, by simp⟩⟩
  | _ => exact ⟨rfl, Or.inl ⟨rfl, by simp⟩⟩

theorem State.Conserved.of_woken {env : Env Line} {total : Multiset Line} {s s' : State Line m n}
    (h : s.Conserved env total) (hfiles : s'.files = s.files)
    (hrequesters : ∀ i, (s.requester i).Woken (s'.requester i))
    (hposition : 0 ≤ s'.currentPosition)
    (hslots : ∀ k, 0 ≤ k → k < s'.currentPosition → (s'.buffer k).isSome)
    (hstored : s'.held + s'.popped = s.held + s.popped)
    (hleft : ∀ j, (s'.resolver j).pc.leaving = true → s'.currentPosition = 0) :
    s'.Conserved env total where
  position_nonneg := hposition
  slots := hslots
  stored := by
    rw [hstored, ← h.stored]
    exact Finset.sum_congr rfl fun i _ => by rw [(hrequesters i).lines_eq.2]
  lines := by
    rw [← h.lines, hfiles]
    congr 1
    exact Finset.sum_congr rfl fun i _ => (hrequesters i).lines_eq.1
  left_empty := hleft

theorem ResolverMove.conserved {env : Env Line} {total : Multiset Line} {s s' : State Line m n}
    {j : Fin n} (h : ResolverMove env s j s') (hconserved : s.Conserved env total)
    (hfault : s'.fault ≠ some .emptyBuffer) : s'.Conserved env total := by
  obtain ⟨hbuffer, hmove⟩ := h.buffer hconserved hfault
  have hnonneg := hconserved.position_nonneg
  refine hconserved.of_woken h.files h.requesters ?_ ?_ ?_ ?_
  · rcases hmove with ⟨hposition, -⟩ | ⟨_, hpositive, -, hposition, -⟩ <;> omega
  · intro k hk hlt
    rw [hbuffer]
    apply hconserved.slots k hk
    rcases hmove with ⟨hposition, -⟩ | ⟨_, -, -, hposition, -⟩ <;> omega
  · have hsum : s'.popped + (s.resolver j).popped = s.popped + (s'.resolver j).popped :=
      sum_move (f := fun j => ((s.resolver j).popped : Multiset Line))
        (g := fun j => ((s'.resolver j).popped : Multiset Line)) j
        fun j' hne => by rw [h.others hne]
    rcases hmove with ⟨hposition, hpopped⟩ | ⟨name, hpositive, hslot, hposition, hpopped⟩
    · rw [hpopped] at hsum
      rw [State.held, hbuffer, hposition, add_right_cancel hsum]
      rfl
    · rw [hpopped, ← Multiset.coe_add, Multiset.coe_singleton] at hsum
      apply add_right_cancel (b := ((s.resolver j).popped : Multiset Line))
      rw [State.held, State.held, hbuffer, hposition, heldIn_pop hpositive hslot, add_assoc, hsum]
      abel
  · intro j' hleaving
    have hempty : s.currentPosition = 0 := by
      by_cases hj : j' = j
      · subst hj
        exact (h.leaving hleaving).elim (hconserved.left_empty j') And.left
      · rw [h.others hj] at hleaving
        exact hconserved.left_empty j' hleaving
    rcases hmove with ⟨hposition, -⟩ | ⟨_, hpositive, -⟩ <;> omega

theorem step_conserved {env : Env Line} {total : Multiset Line} {s s' : State Line m n}
    {a : Action m n} (h : step env s a = some s') (horderly : s.Orderly)
    (hconserved : s.Conserved env total) (hfault : s'.fault ≠ some .emptyBuffer) :
    s'.Conserved env total := by
  cases (step_cases h).2 with
  | requester _ _ _ hmove => exact hmove.conserved horderly hconserved
  | resolver _ _ _ hmove => exact hmove.conserved hconserved hfault
  | spuriousRequester i input hwaiting =>
      exact hconserved.of_woken rfl (SignalsIsFull.woken i input hwaiting).woken_requester
        hconserved.position_nonneg hconserved.slots rfl hconserved.left_empty
  | spuriousResolver j hwaiting =>
      have hresolvers := (SignalsIsEmpty.woken j hwaiting).woken_resolver
      refine hconserved.of_woken rfl (fun _ => Or.inl rfl) hconserved.position_nonneg
        hconserved.slots ?_ fun j' hleaving => hconserved.left_empty j' ?_
      · congr 1
        exact Finset.sum_congr rfl fun j' _ => by rw [(hresolvers j').popped_eq]
      · exact (hresolvers j').leaving_eq ▸ hleaving

/-! ### Every run -/

variable {args : Args Line} {s : State Line args.requesterThreadsCount args.resolverThreadCount}

theorem start_conserved : (start args).Conserved args.env args.lines where
  position_nonneg := le_rfl
  slots k hk hlt := absurd hlt (not_lt.mpr hk)
  stored := by simp [start, State.enqueued, State.popped, State.held, heldIn]
  lines := by
    simp [start, unclaimed, Requester.lines, RequesterPc.pending, Stream.rest, Args.lines,
      Function.comp_def]
  left_empty j hleaving := by cases hleaving

theorem conserved (h : Reachable args s) (hfault : s.fault ≠ some .emptyBuffer) :
    s.Conserved args.env args.lines := by
  revert hfault
  refine h.invariant_of State.Orderly
    (fun s => s.fault ≠ some .emptyBuffer → s.Conserved args.env args.lines)
    (fun s => orderly) (fun _ => start_conserved) ?_
  intro s a s' horderly hinv _ hstep hfault
  refine step_conserved hstep horderly (hinv ?_) hfault
  simp [(step_cases hstep).1]

/-- A requester that has reported holds no line back. -/
theorem Requester.empty_of_counted {r : Requester Line} (hplaced : r.Placed)
    (hcounted : r.pc.counted = true) : r.currentFile.rest = [] ∧ r.pc.pending = [] := by
  refine ⟨Stream.rest_of_not_open ?_, ?_⟩
  · cases hpc : r.pc <;> simp_all [Requester.Placed, RequesterPc.counted]
  · cases hpc : r.pc <;> simp_all [RequesterPc.pending, RequesterPc.counted]

theorem RequesterPc.finishing_of_counted {pc : RequesterPc Line} (h : pc.counted = true) :
    pc.finishing = true := by
  cases pc <;> simp_all [RequesterPc.finishing, RequesterPc.counted]

theorem fileLines_of_openable {env : Env Line} {filename : FileName}
    (h : (env.file filename).fopenUpdate.isSome) :
    fileLines env filename = (env.file filename).lines := by
  rw [fileLines]
  unfold FileEntry.fopenUpdate at h ⊢
  split at h
  · rename_i hopen
    rw [if_pos hopen]
    rfl
  · simp at h

/-- **No name is lost or duplicated.** In every state reached without popping an empty buffer, the
slots below `currentPosition` are set, and the names stored are those in the buffer together with
those taken; once a resolver has exited the buffer is empty and the names taken are the lines of
all the valid files. -/
theorem names_conserved (h : Reachable args s) (hfault : s.fault ≠ some .emptyBuffer)
    (hopenable : ∀ filename ∈ args.validFiles, (args.env.file filename).fopenUpdate.isSome) :
    (s.held.card : Int) = s.currentPosition ∧ s.enqueued = s.held + s.popped ∧
      ∀ j, (s.resolver j).pc.hasExited = true → s.currentPosition = 0 ∧ s.popped =
        (args.validFiles.map fun filename =>
          ((args.env.file filename).lines : Multiset Line)).sum := by
  have hconserved := conserved h hfault
  have horderly := orderly h
  refine ⟨heldIn_card hconserved.position_nonneg hconserved.slots, hconserved.stored, ?_⟩
  intro j hexited
  have hleaving : (s.resolver j).pc.leaving = true := by
    cases hpc : (s.resolver j).pc <;> simp_all [ResolverPc.hasExited, ResolverPc.leaving]
  have hempty := hconserved.left_empty j hleaving
  have hall := horderly.threadsFinished_eq_iff.mp (horderly.left j hleaving)
  have hunclaimed : unclaimed args.env s.files = 0 := by
    have hserviced := horderly.serviced ⟨0, args.requesters_pos⟩
      (RequesterPc.finishing_of_counted (hall _))
    refine List.sum_eq_zero fun lines hmem => ?_
    obtain ⟨file, hfile, rfl⟩ := List.mem_map.mp hmem
    rw [if_pos (hserviced file hfile)]
  have hlines : ∑ i, (s.requester i).lines = s.enqueued := by
    apply Finset.sum_congr rfl
    intro i _
    obtain ⟨hclosed, hpending⟩ := Requester.empty_of_counted (horderly.placed i) (hall i)
    simp [Requester.lines, hclosed, hpending]
  have hheld : s.held = 0 := by
    rw [State.held, hempty]
    rfl
  refine ⟨hempty, ?_⟩
  calc
    s.popped = s.enqueued := by rw [hconserved.stored, hheld, zero_add]
    _ = args.lines := by rw [← hconserved.lines, hunclaimed, zero_add, hlines]
    _ = _ := congrArg List.sum
      (List.map_congr_left fun filename hmem => fileLines_of_openable (hopenable filename hmem))

theorem oneAfterOther_conserves :
    ∃ s, Runs.exec (step oneEach.env) (start oneEach) oneAfterOther = some s ∧
      s.currentPosition = 0 ∧ s.popped =
        (oneEach.validFiles.map fun filename =>
          ((oneEach.env.file filename).lines : Multiset String)).sum := by
  have hrun : (Runs.exec (step oneEach.env) (start oneEach) oneAfterOther).map
      (fun s => (s.fault, (s.resolver (0 : Fin 1)).pc.hasExited)) = some (none, true) := by decide
  obtain ⟨s, hexec, hend⟩ := Option.map_eq_some_iff.mp hrun
  obtain ⟨hfault, hexited⟩ := Prod.mk.inj hend
  exact ⟨s, hexec, (names_conserved (Runs.reachable_of_exec hexec) (by simp [hfault])
    (by decide)).2.2 (0 : Fin 1) hexited⟩

end OperatingSystems.Lookup
