import OperatingSystems.LookupClaims
import OperatingSystems.LookupConservation
import OperatingSystems.LookupLocks
import OperatingSystems.LookupOverflow

/-!
The stream that a requester reads and closes. `isValidFile` opens a file for reading, the requester
opens it again for update and does not look at the result, and it goes on to `getline` even if its
scan found no file. So the streams are valid exactly when some file passes the test and every file
that passes can be opened for update.
-/

namespace OperatingSystems.Lookup

open Runs

variable {Line : Type} {m n : Nat}

/-- The requester is at `getline`, or on its way from there to `fclose`. -/
def RequesterPc.reading : RequesterPc Line → Bool
  | .getline | .signalIsEmpty _ | .waitIsFull _ | .waitingIsFull _ | .relockBuffer _
  | .signalDone | .unlockBuffer => true
  | _ => false

/-- The requester is past the scan of an iteration, and has not yet closed its file. -/
def RequesterPc.serving : RequesterPc Line → Bool
  | .unlockFiles | .lockBuffer => true
  | pc => pc.reading

/-- `currentFile` is open on the file that the requester claimed last, and it claimed it in this
iteration: `canService`, which every iteration clears, is set again by a claim only. -/
def Requester.OnClaim (r : Requester Line) : Prop :=
  ∃ index rest, r.currentFile = .opened index rest ∧ r.claimed.getLast? = some index ∧
    r.canService = true

/-- Whoever reads or closes a stream has it from its claim, and `getline` was never called on
anything else. -/
def State.StreamsValid (s : State Line m n) : Prop :=
  s.fault ≠ some .badStream ∧ ∀ i, (s.requester i).pc.reading = true → (s.requester i).OnClaim

/-- Every file that passes `isValidFile` can be opened for update, and there is such a file. -/
def Args.Openable (args : Args Line) : Prop :=
  args.validFiles ≠ [] ∧
    ∀ filename ∈ args.validFiles, (args.env.file filename).fopenUpdate.isSome = true

/-- From its claim on a requester has a valid stream. -/
def State.Streaming (s : State Line m n) : Prop :=
  ∀ i, (s.requester i).pc.serving = true → (s.requester i).OnClaim

theorem RequesterPc.serving_of_reading {pc : RequesterPc Line} (h : pc.reading = true) :
    pc.serving = true := by
  cases pc <;> simp_all [RequesterPc.serving, RequesterPc.reading]

/-! ### One step -/

theorem scan_nothing {files : List File} {start : Nat} (h : scan start files = .nothing) :
    files = [] := by
  induction files generalizing start with
  | nil => rfl
  | cons file rest ih =>
      rw [scan] at h
      split at h
      · cases h
      · split at h
        · cases h
        · rename_i hne
          simp [ih h] at hne

theorem openFile_of_openable {env : Env Line} {files : List File} {index : Nat} {file : File}
    (hget : files[index]? = some file) (hopen : (env.file file.filename).fopenUpdate.isSome = true) :
    ∃ rest, openFile env files index = .opened index rest := by
  obtain ⟨lines, hlines⟩ := Option.isSome_iff_exists.mp hopen
  exact ⟨lines, by rw [openFile, hget, Option.bind_some, hlines]⟩

theorem Requester.Woken.onClaim {r r' : Requester Line} (h : r.Woken r') (hclaim : r.OnClaim) :
    r'.OnClaim := by
  rcases h with rfl | ⟨input, hpc, rfl⟩
  · exact hclaim
  · exact hclaim

theorem Requester.Woken.serving_eq {r r' : Requester Line} (h : r.Woken r') :
    r'.pc.serving = r.pc.serving := by
  rcases h with rfl | ⟨input, hpc, rfl⟩
  · rfl
  · rw [hpc]
    rfl

/-- A requester comes to serve a file by claiming one that can be opened, and serves it to the
end. -/
theorem RequesterMove.onClaim {env : Env Line} {s s' : State Line m n} {i : Fin m}
    (h : RequesterMove env s i s') (hfiles : s.files ≠ [])
    (hopen : ∀ file ∈ s.files, (env.file file.filename).fopenUpdate.isSome = true)
    (hserving : (s.requester i).pc.serving = true → (s.requester i).OnClaim)
    (hserving' : (s'.requester i).pc.serving = true) : (s'.requester i).OnClaim := by
  cases h with
  | claim index hpc hlock hscan =>
      obtain ⟨file, -, hget, -⟩ := scan_found hscan
      rw [Nat.sub_zero] at hget
      obtain ⟨rest, hopened⟩ := openFile_of_openable hget (hopen _ (List.mem_of_getElem? hget))
      exact ⟨index, rest, by simp [hopened], by simp, by simp⟩
  | noFiles hpc hlock hscan => exact absurd (scan_nothing hscan) hfiles
  | readFull index input rest hpc hfile | readStore index input rest hpc hfile =>
      obtain ⟨index', rest', hopened, hlast, hcan⟩ :=
        hserving (by simp [hpc, RequesterPc.serving, RequesterPc.reading])
      obtain ⟨rfl, -⟩ := Stream.opened.inj (hfile.symm.trans hopened)
      exact ⟨index, rest, by simp, by simpa using hlast, by simpa using hcan⟩
  | badStream hpc =>
      exact hserving (by simp [hpc, RequesterPc.serving, RequesterPc.reading])
  | closeFile hpc =>
      simp only [setRequester_self] at hserving'
      split at hserving' <;> simp [RequesterPc.serving, RequesterPc.reading] at hserving'
  | relockStore input hpc =>
      simpa [Requester.OnClaim] using
        hserving (by simp [hpc, RequesterPc.serving, RequesterPc.reading])
  | unlockFiles hpc | lockBuffer hpc | endOfFile _ hpc | signalFull _ _ hpc | wait _ hpc
  | relockFull _ hpc | signalDone _ hpc =>
      simpa [Requester.OnClaim] using
        hserving (by simp [hpc, RequesterPc.serving, RequesterPc.reading])
  | finish | report | broadcast | unlockService | exit =>
      simp [RequesterPc.serving, RequesterPc.reading] at hserving'

theorem step_streaming {env : Env Line} {s s' : State Line m n} {a : Action m n}
    (h : step env s a = some s') (hfiles : s.files ≠ [])
    (hopen : ∀ file ∈ s.files, (env.file file.filename).fopenUpdate.isSome = true)
    (hstreaming : s.Streaming) : s'.Streaming := by
  have hwoken : (∀ i, (s.requester i).Woken (s'.requester i)) → s'.Streaming :=
    fun hwoken i hserving => (hwoken i).onClaim (hstreaming i ((hwoken i).serving_eq ▸ hserving))
  cases (step_cases h).2 with
  | requester i _ _ hmove =>
      intro i' hserving
      by_cases hi : i' = i
      · subst hi
        exact hmove.onClaim hfiles hopen (hstreaming i') hserving
      · rw [hmove.others hi] at hserving ⊢
        exact hstreaming i' hserving
  | resolver j _ _ hmove => exact hwoken hmove.requesters
  | spuriousRequester i input hwaiting =>
      exact hwoken (SignalsIsFull.woken i input hwaiting).woken_requester
  | spuriousResolver => exact hwoken fun _ => Or.inl rfl

/-- A pop may go wrong, but not for want of a stream. -/
theorem pop_badStream (s : State Line m n) (j : Fin n) (r : Resolver Line)
    (h : s.fault ≠ some .badStream) : (s.pop j r).fault ≠ some .badStream := by
  rcases pop_cases s j r with ⟨_, hpop⟩ | ⟨_, _, hpop⟩ | ⟨domainName, _, _, hpop⟩
  · simp [hpop]
  · simp [hpop]
  · simpa [hpop] using h

/-- The undefined `getline` is a step of a requester that reads. -/
theorem step_badStream {env : Env Line} {s s' : State Line m n} {a : Action m n}
    (h : step env s a = some s') (hstreaming : s.Streaming) :
    s'.fault ≠ some .badStream := by
  obtain ⟨hfault, hmove⟩ := step_cases h
  have hnone : s.fault ≠ some .badStream := by simp [hfault]
  cases hmove with
  | requester i _ _ hmove =>
      cases hmove with
      | badStream hpc hfile =>
          obtain ⟨index, rest, hopened, -⟩ :=
            hstreaming i (by simp [hpc, RequesterPc.serving, RequesterPc.reading])
          exact absurd hopened (hfile index rest)
      | signalFull _ _ _ hsignal | signalDone _ _ hsignal =>
          obtain ⟨resolver, rfl⟩ := hsignal.frame
          exact hnone
      | _ => exact hnone
  | resolver j _ _ hmove =>
      cases hmove with
      | signal _ _ hsignal =>
          obtain ⟨requester, rfl⟩ := hsignal.frame
          exact hnone
      | take | takeWoken => exact pop_badStream _ j _ hnone
      | _ => exact hnone
  | spuriousRequester | spuriousResolver => exact hnone

/-! ### Every run -/

variable {args : Args Line} {s : State Line args.requesterThreadsCount args.resolverThreadCount}

/-- The files of a run are those that passed the test. -/
theorem files_openable (hopenable : args.Openable) (h : Reachable args s) :
    s.files ≠ [] ∧
      ∀ file ∈ s.files, (args.env.file file.filename).fopenUpdate.isSome = true := by
  have hnamed := (accounted h).named
  refine ⟨?_, fun file hfile => hopenable.2 _ ?_⟩
  · rintro hnil
    rw [hnil, List.map_nil] at hnamed
    exact hopenable.1 hnamed.symm
  · rw [← hnamed]
    exact List.mem_map_of_mem hfile

theorem streaming (hopenable : args.Openable) (h : Reachable args s) :
    s.Streaming ∧ s.fault ≠ some .badStream := by
  refine h.invariant_of
    (fun s => s.files ≠ [] ∧
      ∀ file ∈ s.files, (args.env.file file.filename).fopenUpdate.isSome = true)
    (fun s => s.Streaming ∧ s.fault ≠ some .badStream) (fun _ => files_openable hopenable) ?_ ?_
  · exact ⟨fun i hserving => by simp [start, RequesterPc.serving, RequesterPc.reading] at hserving,
      by simp [start]⟩
  · intro s a s' hfiles hinv _ hstep
    exact ⟨step_streaming hstep hfiles.1 hfiles.2 hinv.1, step_badStream hstep hinv.1⟩

theorem streamsValid (hopenable : args.Openable) (h : Reachable args s) : s.StreamsValid :=
  ⟨(streaming hopenable h).2, fun i hreading =>
    (streaming hopenable h).1 i (RequesterPc.serving_of_reading hreading)⟩

/-! ### A run that meets the first file that cannot be opened -/

/-- Requester 0 stands at `pc`; the other threads have not begun, or resolver 0 has come back to
where it began. -/
structure State.Alone (s : State Line m n) (i₀ : Fin m) (pc : RequesterPc Line) : Prop where
  requester : (s.requester i₀).pc = pc
  requesters : ∀ i, i ≠ i₀ → (s.requester i).pc = .lockFiles
  resolvers : ∀ j, (s.resolver j).pc = .lockBuffer
  fault : s.fault = none

/-- The mutexes that the only moving requester does not hold are free. -/
theorem State.Alone.free {i₀ : Fin args.requesterThreadsCount} {pc : RequesterPc Line}
    (halone : s.Alone i₀ pc) (h : Reachable args s) (lock : Lock) (hholds : pc.holds lock = false) :
    s.owner lock = none := by
  rw [Option.eq_none_iff_forall_ne_some]
  rintro t howner
  have ht := (locksOwned h halone.fault lock t).mp howner
  cases t with
  | requester i =>
      by_cases hi : i = i₀
      · subst hi
        simp [State.holds, halone.requester, hholds] at ht
      · simp [State.holds, halone.requesters i hi, RequesterPc.holds] at ht
  | resolver j => simp [State.holds, halone.resolvers j, ResolverPc.holds] at ht

/-- The requester goes on alone. -/
theorem State.Alone.moves {i₀ : Fin args.requesterThreadsCount} {pc : RequesterPc Line} {k : Nat}
    {s' : State Line args.requesterThreadsCount args.resolverThreadCount} (halone : s.Alone i₀ pc)
    (h : Reachable args s)
    (hexec : exec (step args.env) s (List.replicate k (.requester i₀ none)) = some s')
    (hfault : s'.fault = none) : Reachable args s' ∧ s'.Alone i₀ (s'.requester i₀).pc := by
  refine ⟨h.trans (reachable_of_exec hexec), ?_⟩
  have hrequesters := halone.requesters
  have hresolvers := halone.resolvers
  clear h halone
  induction k generalizing s with
  | zero =>
      obtain rfl := Option.some.inj hexec
      exact ⟨rfl, hrequesters, hresolvers, hfault⟩
  | succ k ih =>
      obtain ⟨next, hstep, hrest⟩ := Option.bind_eq_some_iff.mp hexec
      cases (step_cases hstep).2 with
      | requester _ _ _ hmove =>
          apply ih hrest
          · intro i hi
            rw [hmove.others hi]
            exact hrequesters i hi
          · intro j
            rcases hmove.resolvers j with heq | ⟨hwaiting, -⟩
            · rw [heq]
              exact hresolvers j
            · simp [hresolvers j] at hwaiting

/-- The files of which the first ones have been claimed. -/
def served : List FileName → List FileName → List File
  | [], after => after.map fun filename => { filename, serviced := false }
  | filename :: before, after => { filename, serviced := true } :: served before after

theorem scan_served (start : Nat) (before : List FileName) (filename : FileName)
    (after : List FileName) :
    scan start (served before (filename :: after)) = .found (start + before.length) := by
  induction before generalizing start with
  | nil => rfl
  | cons first rest ih =>
      have hne : (served rest (filename :: after)).isEmpty = false := by
        cases rest <;> rfl
      rw [served, scan, ih]
      simp [hne, Nat.add_assoc, Nat.add_comm 1]

theorem markServiced_served (before : List FileName) (filename : FileName)
    (after : List FileName) :
    markServiced (served before (filename :: after)) before.length =
      served (before ++ [filename]) after := by
  induction before with
  | nil => rfl
  | cons first rest ih =>
      rw [List.length_cons, served, markServiced, List.modify_succ_cons]
      exact congrArg _ ih

theorem openFile_served (env : Env Line) (before : List FileName) (filename : FileName)
    (after : List FileName) :
    openFile env (served before (filename :: after)) before.length =
      (env.file filename).fopenUpdate.elim .null (.opened before.length) := by
  have hget : (served before (filename :: after))[before.length]? =
      some { filename, serviced := false } := by
    induction before with
    | nil => rfl
    | cons first rest ih => simpa [served] using ih
  rw [openFile, hget, Option.bind_some]
  cases (env.file filename).fopenUpdate <;> rfl

/-- While the only moving requester waits with the buffer full, resolver 0 takes one name. -/
theorem State.Alone.drained {i₀ : Fin args.requesterThreadsCount} {input : Line}
    (halone : s.Alone i₀ (.waitingIsFull input)) (h : Reachable args s)
    (hfull : s.currentPosition = arraySize) :
    ∃ s', Reachable args s' ∧ s'.Alone i₀ (.waitingIsFull input) ∧
      s'.currentPosition = arraySize - 1 ∧ s'.requester = s.requester ∧ s'.files = s.files := by
  let j₀ : Fin args.resolverThreadCount := ⟨0, args.resolvers_pos⟩
  have hbuffer : s.bufferLock = none := halone.free h .buffer rfl
  have hresults : s.resultsLock = none := halone.free h .results rfl
  have hconserved := conserved h (by simp [halone.fault])
  obtain ⟨domainName, hslot⟩ := Option.isSome_iff_exists.mp
    (hconserved.slots (arraySize - 1) (by decide) (by rw [hfull]; decide))
  let s' : State Line args.requesterThreadsCount args.resolverThreadCount :=
    { s with
      bufferLock := none
      resultsLock := none
      currentPosition := arraySize - 1
      results := s.results ++ [(domainName, args.env.dnslookup domainName)]
      resolver := Function.update s.resolver j₀
        { pc := .lockBuffer, popped := (s.resolver j₀).popped ++ [domainName] } }
  have hexec : exec (step args.env) s (List.replicate 4 (.resolver j₀ none)) = some s' := by
    have hpc := halone.resolvers j₀
    have harray : ¬((arraySize : Int) - 1 < 0) := by decide
    have hne : arraySize ≠ 0 := by decide
    simp [exec, step, resolverStep, State.pop, State.setResolver, List.replicate, hpc, hbuffer,
      hresults, halone.fault, hfull, hslot, harray, hne, s']
  refine ⟨s', h.trans (reachable_of_exec hexec), ⟨halone.requester, halone.requesters, ?_,
    halone.fault⟩, rfl, rfl, rfl⟩
  intro j
  by_cases hj : j = j₀
  · subst hj
    simp [s']
  · simpa [s', Function.update_of_ne hj] using halone.resolvers j

/-- Requester 0 takes the lines of its stream from where it is. -/
structure State.Reading (s : State Line m n) (i₀ : Fin m) (index : Nat) (rest : List Line)
    (files : List File) : Prop where
  alone : s.Alone i₀ .getline
  stream : (s.requester i₀).currentFile = .opened index rest
  canService : (s.requester i₀).canService = true
  files_eq : s.files = files

variable {i₀ : Fin args.requesterThreadsCount} {index : Nat} {files : List File}

/-- With room in the buffer the next name is stored. -/
theorem State.Reading.store {input : Line} {rest : List Line}
    (hreading : s.Reading i₀ index (input :: rest) files) (h : Reachable args s)
    (hroom : s.currentPosition ≠ arraySize) :
    ∃ s', Reachable args s' ∧ s'.Reading i₀ index rest files := by
  let s' := s.enqueue i₀ { s.requester i₀ with currentFile := .opened index rest } input
  have hexec : exec (step args.env) s (List.replicate 1 (.requester i₀ none)) = some s' := by
    simp [exec, step, requesterStep, hreading.alone.fault, hreading.alone.requester,
      hreading.stream, hroom, s']
  obtain ⟨hreachable, halone⟩ := hreading.alone.moves h hexec hreading.alone.fault
  refine ⟨s', hreachable, ?_, ?_, ?_, hreading.files_eq⟩
  · simpa [s'] using halone
  · simp [s']
  · simpa [s'] using hreading.canService

/-- With the buffer full the next name is stored after resolver 0 has taken one and the requester
has woken up by itself. -/
theorem State.Reading.wait {input : Line} {rest : List Line}
    (hreading : s.Reading i₀ index (input :: rest) files) (h : Reachable args s)
    (hfull : s.currentPosition = arraySize) :
    ∃ s', Reachable args s' ∧ s'.Reading i₀ index rest files := by
  have hnobody : ∀ j, (s.resolver j).waiting = false := fun j => by
    rw [Resolver.waiting, hreading.alone.resolvers j]
  let s₁ := { s with bufferLock := none }.setRequester i₀
    { s.requester i₀ with pc := .waitingIsFull input, currentFile := .opened index rest }
  have hexec₁ : exec (step args.env) s (List.replicate 3 (.requester i₀ none)) = some s₁ := by
    simp [exec, step, requesterStep, State.signalIsEmpty, State.setRequester, List.replicate,
      hreading.alone.fault, hreading.alone.requester, hreading.stream, hfull, hnobody, s₁]
  obtain ⟨hreachable₁, halone₁⟩ := hreading.alone.moves h hexec₁ hreading.alone.fault
  have hpc₁ : (s₁.requester i₀).pc = .waitingIsFull input := by simp [s₁]
  rw [hpc₁] at halone₁
  obtain ⟨s₂, hreachable₂, halone₂, hposition₂, hrequester₂, hfiles₂⟩ :=
    halone₁.drained hreachable₁ hfull
  have hbuffer₂ : s₂.bufferLock = none := halone₂.free hreachable₂ .buffer rfl
  have hfile₂ : (s₂.requester i₀).currentFile = .opened index rest := by simp [hrequester₂, s₁]
  let s₃ := s₂.setRequester i₀ { s₂.requester i₀ with pc := .relockBuffer input }
  have hstep₃ : step args.env s₂ (.spuriousRequester i₀) = some s₃ := by
    simp [step, Requester.waiting, Requester.wake, halone₂.fault, halone₂.requester, s₃]
  have halone₃ : s₃.Alone i₀ (.relockBuffer input) :=
    ⟨by simp [s₃], fun i hi => by simpa [s₃, hi] using halone₂.requesters i hi,
      halone₂.resolvers, halone₂.fault⟩
  let s₄ := { s₃ with bufferLock := some (.requester i₀) }.enqueue i₀ (s₃.requester i₀) input
  have hexec₄ : exec (step args.env) s₃ (List.replicate 1 (.requester i₀ none)) = some s₄ := by
    have hroom : s₃.currentPosition ≠ arraySize := by simp [s₃, hposition₂]
    have hbuffer₃ : s₃.bufferLock = none := hbuffer₂
    simp [exec, step, requesterStep, halone₃.fault, halone₃.requester, hbuffer₃, hroom, s₄]
  obtain ⟨hreachable₄, halone₄⟩ :=
    halone₃.moves (.tail hreachable₂ trivial hstep₃) hexec₄ halone₃.fault
  refine ⟨s₄, hreachable₄, ?_, ?_, ?_, ?_⟩
  · simpa [s₄] using halone₄
  · simpa [s₄, s₃] using hfile₂
  · simpa [s₄, s₃, hrequester₂, s₁] using hreading.canService
  · simpa [s₄, s₃, hfiles₂, s₁] using hreading.files_eq

theorem State.Reading.all {lines : List Line} (hreading : s.Reading i₀ index lines files)
    (h : Reachable args s) : ∃ s', Reachable args s' ∧ s'.Reading i₀ index [] files := by
  induction lines generalizing s with
  | nil => exact ⟨s, h, hreading⟩
  | cons input rest ih =>
      by_cases hfull : s.currentPosition = arraySize
      · obtain ⟨s', h', hreading'⟩ := hreading.wait h hfull
        exact ih hreading' h'
      · obtain ⟨s', h', hreading'⟩ := hreading.store h hfull
        exact ih hreading' h'

/-- From its claim the requester comes to `getline`, whatever `fopen` has returned. -/
theorem State.Alone.claims {before after : List FileName} {filename : FileName}
    (halone : s.Alone i₀ .lockFiles) (h : Reachable args s)
    (hfiles : s.files = served before (filename :: after)) :
    ∃ s', Reachable args s' ∧ s'.Alone i₀ .getline ∧
      (s'.requester i₀).currentFile = openFile args.env s.files before.length ∧
      (s'.requester i₀).canService = true ∧ s'.files = served (before ++ [filename]) after := by
  have hlock : s.fileLock = none := halone.free h .files rfl
  have hbuffer : s.bufferLock = none := halone.free h .buffer rfl
  have hscan : scan 0 s.files = .found before.length := by
    rw [hfiles, scan_served, Nat.zero_add]
  let s' := { s with
    fileLock := none
    bufferLock := some (.requester i₀)
    files := markServiced s.files before.length }.setRequester i₀
      { s.requester i₀ with
        pc := .getline
        canService := true
        currentFile := openFile args.env s.files before.length
        serviceCount := (s.requester i₀).serviceCount + 1
        claimed := (s.requester i₀).claimed ++ [before.length] }
  have hexec : exec (step args.env) s (List.replicate 3 (.requester i₀ none)) = some s' := by
    simp [exec, step, requesterStep, State.setRequester, List.replicate, halone.fault,
      halone.requester, hlock, hbuffer, hscan, s']
  obtain ⟨hreachable, halone'⟩ := halone.moves h hexec halone.fault
  refine ⟨s', hreachable, by simpa [s'] using halone', by simp [s'], by simp [s'], ?_⟩
  change markServiced s.files before.length = _
  rw [hfiles, markServiced_served]

/-- At the end of a file the requester closes it and goes back to the list. -/
theorem State.Reading.finish (hreading : s.Reading i₀ index [] files) (h : Reachable args s) :
    ∃ s', Reachable args s' ∧ s'.Alone i₀ .lockFiles ∧ s'.files = files := by
  have hnobody : ∀ j, (s.resolver j).waiting = false := fun j => by
    rw [Resolver.waiting, hreading.alone.resolvers j]
  let s' := { s with bufferLock := none }.setRequester i₀
    { s.requester i₀ with pc := .lockFiles, currentFile := .closed }
  have hexec : exec (step args.env) s (List.replicate 3 (.requester i₀ none)) = some s' := by
    simp [exec, step, requesterStep, State.signalIsEmpty, State.setRequester, List.replicate,
      hreading.alone.fault, hreading.alone.requester, hreading.stream, hreading.canService,
      hnobody, s']
  obtain ⟨hreachable, halone⟩ := hreading.alone.moves h hexec hreading.alone.fault
  exact ⟨s', hreachable, by simpa [s'] using halone, hreading.files_eq⟩

theorem start_alone : (start args).Alone i₀ .lockFiles :=
  ⟨rfl, fun _ _ => rfl, fun _ => rfl, rfl⟩

/-- Requester 0 can serve the first files all by itself, as long as each can be opened. -/
theorem served_reachable (i₀ : Fin args.requesterThreadsCount) (before after : List FileName)
    (hfiles : args.validFiles = before ++ after)
    (hopen : ∀ filename ∈ before, (args.env.file filename).fopenUpdate.isSome = true) :
    ∃ s, Reachable args s ∧ s.Alone i₀ .lockFiles ∧ s.files = served before after := by
  induction before using List.reverseRecOn generalizing after with
  | nil => exact ⟨start args, .refl, start_alone, by rw [start, hfiles]; rfl⟩
  | append_singleton before filename ih =>
      rw [List.forall_mem_append, List.forall_mem_singleton] at hopen
      rw [List.append_assoc, List.singleton_append] at hfiles
      obtain ⟨s, h, halone, hserved⟩ := ih _ hfiles hopen.1
      obtain ⟨s₁, h₁, halone₁, hfile₁, hcan₁, hserved₁⟩ := halone.claims h hserved
      obtain ⟨lines, hlines⟩ := Option.isSome_iff_exists.mp hopen.2
      rw [hserved, openFile_served, hlines, Option.elim_some] at hfile₁
      obtain ⟨s₂, h₂, hreading₂⟩ :=
        State.Reading.all ⟨halone₁, hfile₁, hcan₁, hserved₁⟩ h₁
      exact hreading₂.finish h₂

/-- The first of the files that cannot be opened. -/
theorem first_shut {env : Env Line} {files : List FileName} {filename : FileName}
    (hfilename : filename ∈ files) (hshut : ¬(env.file filename).fopenUpdate.isSome = true) :
    ∃ before bad after, files = before ++ bad :: after ∧
      (∀ f ∈ before, (env.file f).fopenUpdate.isSome = true) ∧
      (env.file bad).fopenUpdate = none := by
  have hfound : (files.find? fun f => (env.file f).fopenUpdate.isNone).isSome := by
    rw [List.find?_isSome]
    exact ⟨filename, hfilename, by simpa using hshut⟩
  obtain ⟨bad, hbad⟩ := Option.isSome_iff_exists.mp hfound
  obtain ⟨hnone, before, after, hfiles, hbefore⟩ := List.find?_eq_some_iff_append.mp hbad
  refine ⟨before, bad, after, hfiles, fun f hf => ?_, by simpa using hnone⟩
  simpa [Option.isSome_iff_ne_none] using hbefore f hf

/-- With no valid file a requester comes to `getline` with the stream it never set. -/
theorem unset_reachable (i₀ : Fin args.requesterThreadsCount) (hnone : args.validFiles = []) :
    ∃ s, Reachable args s ∧ (s.requester i₀).pc = .getline ∧
      (s.requester i₀).currentFile = .unset := by
  have hfiles : (start args).files = [] := by rw [start, hnone]; rfl
  let s' := { start args with bufferLock := some (.requester i₀) }.setRequester i₀
    { (start args).requester i₀ with pc := .getline, canService := false }
  have hexec : exec (step args.env) (start args) (List.replicate 3 (.requester i₀ none)) =
      some s' := by
    simp [exec, step, requesterStep, State.setRequester, List.replicate, start, scan, hnone, s']
  exact ⟨s', reachable_of_exec hexec, by simp [s'], by simp [s', start]⟩

/-- **When the streams are valid.** Whatever the threads, the lines and the order of steps, every
requester that comes to `getline` or `fclose` uses an open stream, on a file that it claimed in the
same iteration, exactly when some file passes `isValidFile` and every file that passes can be
opened for update. -/
theorem streams_valid_iff (args : Args Line) :
    (∀ s, Reachable args s → s.StreamsValid) ↔ args.Openable := by
  refine ⟨fun hvalid => ?_, fun hopenable s h => streamsValid hopenable h⟩
  let i₀ : Fin args.requesterThreadsCount := ⟨0, args.requesters_pos⟩
  have hopened : ∀ s, Reachable args s → (s.requester i₀).pc = .getline →
      ∃ index rest, (s.requester i₀).currentFile = .opened index rest := by
    intro s h hpc
    obtain ⟨index, rest, hopened, -⟩ := (hvalid s h).2 i₀ (by simp [hpc, RequesterPc.reading])
    exact ⟨index, rest, hopened⟩
  refine ⟨fun hnone => ?_, fun filename hfilename => ?_⟩
  · obtain ⟨s, h, hpc, hunset⟩ := unset_reachable i₀ hnone
    obtain ⟨index, rest, hopened⟩ := hopened s h hpc
    simp [hunset] at hopened
  · by_contra hshut
    obtain ⟨before, bad, after, hfiles, hbefore, hbad⟩ := first_shut hfilename hshut
    obtain ⟨s, h, halone, hserved⟩ := served_reachable i₀ before _ hfiles hbefore
    obtain ⟨s', h', halone', hfile', -⟩ := halone.claims h hserved
    obtain ⟨index, rest, hopened⟩ := hopened s' h' halone'.requester
    rw [hfile', hserved, openFile_served, hbad, Option.elim_none] at hopened
    cases hopened

/-- One requester, one resolver, and one file of which only the permissions matter. -/
def oneFile (readable writable : Bool) : Args String :=
  { oneEach with
    env :=
      { file := fun _ => { readable, writable, regular := true, lines := ["a.com"] }
        dnslookup := fun _ => none } }

/-- A file that cannot be read is filtered out, and `getline` gets a stream that was never set; one
that can be read only passes the test, and `getline` gets the `NULL` of the second `fopen`. -/
theorem oneFile_streams_invalid :
    ((oneFile false true).validFiles = [] ∧
      ¬∀ s, Reachable (oneFile false true) s → s.StreamsValid) ∧
    ((oneFile true false).validFiles ≠ [] ∧
      ¬∀ s, Reachable (oneFile true false) s → s.StreamsValid) := by
  have hinvalid : ∀ readable writable,
      (exec (step (oneFile readable writable).env) (start (oneFile readable writable))
        (List.replicate 3 requesterGoes)).map (fun s =>
          ((s.requester (0 : Fin 1)).pc.reading, (s.requester (0 : Fin 1)).currentFile.isOpen)) =
        some (true, false) →
      ¬∀ s, Reachable (oneFile readable writable) s → s.StreamsValid := by
    intro readable writable hrun hvalid
    obtain ⟨s, hexec, hs⟩ := Option.map_eq_some_iff.mp hrun
    obtain ⟨hreading, hshut⟩ := Prod.mk.inj hs
    obtain ⟨index, rest, hopened, -⟩ := (hvalid s (reachable_of_exec hexec)).2 (0 : Fin 1) hreading
    rw [hopened] at hshut
    cases hshut
  exact ⟨⟨by decide, hinvalid _ _ (by decide)⟩, ⟨by decide, hinvalid _ _ (by decide)⟩⟩

end OperatingSystems.Lookup
