import OperatingSystems.LookupModel

/-!
What one step of the name lookup can do, said once: every enabled step is one of the moves below,
with everything it tests and everything it changes. All invariants are proved by cases on moves.
-/

namespace OperatingSystems.Lookup

variable {Line : Type} {m n : Nat}

/-! ### Updating one thread -/

section Updates

variable (s : State Line m n) (i i' : Fin m) (j j' : Fin n)

@[simp] theorem setRequester_self (r : Requester Line) : (s.setRequester i r).requester i = r :=
  Function.update_self ..

@[simp] theorem setRequester_of_ne {i i' : Fin m} (h : i' ≠ i) (r : Requester Line) :
    (s.setRequester i r).requester i' = s.requester i' :=
  Function.update_of_ne h ..

@[simp] theorem setResolver_self (r : Resolver Line) : (s.setResolver j r).resolver j = r :=
  Function.update_self ..

@[simp] theorem setResolver_of_ne {j j' : Fin n} (h : j' ≠ j) (r : Resolver Line) :
    (s.setResolver j r).resolver j' = s.resolver j' :=
  Function.update_of_ne h ..

@[simp] theorem setRequester_resolver (r : Requester Line) :
    (s.setRequester i r).resolver = s.resolver := rfl

@[simp] theorem setResolver_requester (r : Resolver Line) :
    (s.setResolver j r).requester = s.requester := rfl

@[simp] theorem setRequester_files (r : Requester Line) :
    (s.setRequester i r).files = s.files := rfl

@[simp] theorem setRequester_fileLock (r : Requester Line) :
    (s.setRequester i r).fileLock = s.fileLock := rfl

@[simp] theorem setRequester_serviceLock (r : Requester Line) :
    (s.setRequester i r).serviceLock = s.serviceLock := rfl

@[simp] theorem setRequester_bufferLock (r : Requester Line) :
    (s.setRequester i r).bufferLock = s.bufferLock := rfl

@[simp] theorem setRequester_resultsLock (r : Requester Line) :
    (s.setRequester i r).resultsLock = s.resultsLock := rfl

@[simp] theorem setRequester_currentPosition (r : Requester Line) :
    (s.setRequester i r).currentPosition = s.currentPosition := rfl

@[simp] theorem setRequester_buffer (r : Requester Line) :
    (s.setRequester i r).buffer = s.buffer := rfl

@[simp] theorem setRequester_threadsFinished (r : Requester Line) :
    (s.setRequester i r).threadsFinished = s.threadsFinished := rfl

@[simp] theorem setRequester_fault (r : Requester Line) :
    (s.setRequester i r).fault = s.fault := rfl

@[simp] theorem setResolver_files (r : Resolver Line) :
    (s.setResolver j r).files = s.files := rfl

@[simp] theorem setResolver_fileLock (r : Resolver Line) :
    (s.setResolver j r).fileLock = s.fileLock := rfl

@[simp] theorem setResolver_serviceLock (r : Resolver Line) :
    (s.setResolver j r).serviceLock = s.serviceLock := rfl

@[simp] theorem setResolver_bufferLock (r : Resolver Line) :
    (s.setResolver j r).bufferLock = s.bufferLock := rfl

@[simp] theorem setResolver_resultsLock (r : Resolver Line) :
    (s.setResolver j r).resultsLock = s.resultsLock := rfl

@[simp] theorem setResolver_currentPosition (r : Resolver Line) :
    (s.setResolver j r).currentPosition = s.currentPosition := rfl

@[simp] theorem setResolver_buffer (r : Resolver Line) :
    (s.setResolver j r).buffer = s.buffer := rfl

@[simp] theorem setResolver_threadsFinished (r : Resolver Line) :
    (s.setResolver j r).threadsFinished = s.threadsFinished := rfl

@[simp] theorem setResolver_fault (r : Resolver Line) :
    (s.setResolver j r).fault = s.fault := rfl

end Updates

/-! ### Signals -/

/-- The states a signal on `isEmpty` can lead to. -/
inductive SignalsIsEmpty (s : State Line m n) : State Line m n → Prop where
  | nobody (hnone : ∀ j, (s.resolver j).waiting = false) : SignalsIsEmpty s s
  | woken (j : Fin n) (hwaiting : (s.resolver j).pc = .waitingIsEmpty) :
      SignalsIsEmpty s (s.setResolver j { s.resolver j with pc := .relockBuffer })

/-- The states a signal on `isFull` can lead to. -/
inductive SignalsIsFull (s : State Line m n) : State Line m n → Prop where
  | nobody (hnone : ∀ i, (s.requester i).waiting = false) : SignalsIsFull s s
  | woken (i : Fin m) (input : Line) (hwaiting : (s.requester i).pc = .waitingIsFull input) :
      SignalsIsFull s (s.setRequester i { s.requester i with pc := .relockBuffer input })

theorem Resolver.waiting_iff (r : Resolver Line) : r.waiting = true ↔ r.pc = .waitingIsEmpty := by
  unfold Resolver.waiting
  split <;> simp_all

theorem Requester.waiting_iff (r : Requester Line) :
    r.waiting = true ↔ ∃ input, r.pc = .waitingIsFull input := by
  unfold Requester.waiting
  split <;> simp_all

theorem Resolver.wake_of_waiting {r : Resolver Line} (h : r.pc = .waitingIsEmpty) :
    r.wake = { r with pc := .relockBuffer } := by
  simp only [Resolver.wake, h]

theorem Requester.wake_of_waiting {r : Requester Line} {input : Line}
    (h : r.pc = .waitingIsFull input) : r.wake = { r with pc := .relockBuffer input } := by
  simp only [Requester.wake, h]

theorem signalIsEmpty_cases {s s' : State Line m n} {woken : Option (Fin n)}
    (h : s.signalIsEmpty woken = some s') : SignalsIsEmpty s s' := by
  cases woken with
  | none =>
      simp only [State.signalIsEmpty, Option.ite_none_right_eq_some, Option.some.injEq] at h
      exact h.2 ▸ .nobody h.1
  | some j =>
      simp only [State.signalIsEmpty, Option.ite_none_right_eq_some, Option.some.injEq] at h
      have hwaiting := (Resolver.waiting_iff _).mp h.1
      rw [← h.2, Resolver.wake_of_waiting hwaiting]
      exact .woken j hwaiting

theorem signalIsFull_cases {s s' : State Line m n} {woken : Option (Fin m)}
    (h : s.signalIsFull woken = some s') : SignalsIsFull s s' := by
  cases woken with
  | none =>
      simp only [State.signalIsFull, Option.ite_none_right_eq_some, Option.some.injEq] at h
      exact h.2 ▸ .nobody h.1
  | some i =>
      simp only [State.signalIsFull, Option.ite_none_right_eq_some, Option.some.injEq] at h
      obtain ⟨input, hwaiting⟩ := (Requester.waiting_iff _).mp h.1
      rw [← h.2, Requester.wake_of_waiting hwaiting]
      exact .woken i input hwaiting

/-! ### Moves -/

/-- The moves of requester `i`. -/
inductive RequesterMove (env : Env Line) (s : State Line m n) (i : Fin m) :
    State Line m n → Prop where
  | claim (index : Nat) (hpc : (s.requester i).pc = .lockFiles) (hlock : s.fileLock = none)
      (hscan : scan 0 s.files = .found index) :
      RequesterMove env s i ({ s with
        fileLock := some (.requester i)
        files := markServiced s.files index }.setRequester i
          { s.requester i with
            pc := .unlockFiles
            canService := true
            currentFile := openFile env s.files index
            serviceCount := (s.requester i).serviceCount + 1
            claimed := (s.requester i).claimed ++ [index] })
  | finish (hpc : (s.requester i).pc = .lockFiles) (hlock : s.fileLock = none)
      (hscan : scan 0 s.files = .finished) :
      RequesterMove env s i ({ s with fileLock := some (.requester i) }.setRequester i
        { s.requester i with pc := .lockService, canService := false })
  | noFiles (hpc : (s.requester i).pc = .lockFiles) (hlock : s.fileLock = none)
      (hscan : scan 0 s.files = .nothing) :
      RequesterMove env s i ({ s with fileLock := some (.requester i) }.setRequester i
        { s.requester i with pc := .unlockFiles, canService := false })
  | report (hpc : (s.requester i).pc = .lockService) (hlock : s.serviceLock = none) :
      RequesterMove env s i ({ s with
        serviceLock := some (.requester i)
        serviceLog := s.serviceLog ++ [(i, (s.requester i).serviceCount)]
        threadsFinished := s.threadsFinished + 1 }.setRequester i
          { s.requester i with pc := .broadcastIsEmpty })
  | broadcast (hpc : (s.requester i).pc = .broadcastIsEmpty) :
      RequesterMove env s i
        (s.broadcastIsEmpty.setRequester i { s.requester i with pc := .unlockService })
  | unlockService (hpc : (s.requester i).pc = .unlockService) :
      RequesterMove env s i ({ s with serviceLock := none }.setRequester i
        { s.requester i with pc := .unlockFilesExit })
  | exit (hpc : (s.requester i).pc = .unlockFilesExit) :
      RequesterMove env s i ({ s with fileLock := none }.setRequester i
        { s.requester i with pc := .exited })
  | unlockFiles (hpc : (s.requester i).pc = .unlockFiles) :
      RequesterMove env s i ({ s with fileLock := none }.setRequester i
        { s.requester i with pc := .lockBuffer })
  | lockBuffer (hpc : (s.requester i).pc = .lockBuffer) (hlock : s.bufferLock = none) :
      RequesterMove env s i ({ s with bufferLock := some (.requester i) }.setRequester i
        { s.requester i with pc := .getline })
  | readFull (index : Nat) (input : Line) (rest : List Line)
      (hpc : (s.requester i).pc = .getline)
      (hfile : (s.requester i).currentFile = .opened index (input :: rest))
      (hfull : s.currentPosition = arraySize) :
      RequesterMove env s i (s.setRequester i
        { s.requester i with pc := .signalIsEmpty input, currentFile := .opened index rest })
  | readStore (index : Nat) (input : Line) (rest : List Line)
      (hpc : (s.requester i).pc = .getline)
      (hfile : (s.requester i).currentFile = .opened index (input :: rest))
      (hroom : s.currentPosition ≠ arraySize) :
      RequesterMove env s i
        (s.enqueue i { s.requester i with currentFile := .opened index rest } input)
  | endOfFile (index : Nat) (hpc : (s.requester i).pc = .getline)
      (hfile : (s.requester i).currentFile = .opened index []) :
      RequesterMove env s i (s.setRequester i { s.requester i with pc := .signalDone })
  | badStream (hpc : (s.requester i).pc = .getline)
      (hfile : ∀ index rest, (s.requester i).currentFile ≠ .opened index rest) :
      RequesterMove env s i { s with fault := some .badStream }
  | signalFull (input : Line) (s₁ : State Line m n)
      (hpc : (s.requester i).pc = .signalIsEmpty input) (hsignal : SignalsIsEmpty s s₁) :
      RequesterMove env s i (s₁.setRequester i { s.requester i with pc := .waitIsFull input })
  | wait (input : Line) (hpc : (s.requester i).pc = .waitIsFull input) :
      RequesterMove env s i ({ s with bufferLock := none }.setRequester i
        { s.requester i with pc := .waitingIsFull input })
  | relockFull (input : Line) (hpc : (s.requester i).pc = .relockBuffer input)
      (hlock : s.bufferLock = none) (hfull : s.currentPosition = arraySize) :
      RequesterMove env s i ({ s with bufferLock := some (.requester i) }.setRequester i
        { s.requester i with pc := .signalIsEmpty input })
  | relockStore (input : Line) (hpc : (s.requester i).pc = .relockBuffer input)
      (hlock : s.bufferLock = none) (hroom : s.currentPosition ≠ arraySize) :
      RequesterMove env s i
        ({ s with bufferLock := some (.requester i) }.enqueue i (s.requester i) input)
  | signalDone (s₁ : State Line m n) (hpc : (s.requester i).pc = .signalDone)
      (hsignal : SignalsIsEmpty s s₁) :
      RequesterMove env s i (s₁.setRequester i { s.requester i with pc := .unlockBuffer })
  | closeFile (hpc : (s.requester i).pc = .unlockBuffer) :
      RequesterMove env s i ({ s with bufferLock := none }.setRequester i
        { s.requester i with
          pc := if (s.requester i).canService then .lockFiles else .exited
          currentFile := .closed })

/-- The moves of resolver `j`. -/
inductive ResolverMove (env : Env Line) (s : State Line m n) (j : Fin n) :
    State Line m n → Prop where
  | leave (hpc : (s.resolver j).pc = .lockBuffer) (hlock : s.bufferLock = none)
      (hempty : s.currentPosition = 0) (hfinished : s.threadsFinished = m) :
      ResolverMove env s j ({ s with bufferLock := some (.resolver j) }.setResolver j
        { s.resolver j with pc := .unlockExit })
  | findEmpty (hpc : (s.resolver j).pc = .lockBuffer) (hlock : s.bufferLock = none)
      (hempty : s.currentPosition = 0) (hfinished : s.threadsFinished ≠ m) :
      ResolverMove env s j ({ s with bufferLock := some (.resolver j) }.setResolver j
        { s.resolver j with pc := .signalIsFull })
  | take (hpc : (s.resolver j).pc = .lockBuffer) (hlock : s.bufferLock = none)
      (hitems : s.currentPosition ≠ 0) :
      ResolverMove env s j
        ({ s with bufferLock := some (.resolver j) }.pop j (s.resolver j))
  | takeWoken (hpc : (s.resolver j).pc = .relockBuffer) (hlock : s.bufferLock = none) :
      ResolverMove env s j
        ({ s with bufferLock := some (.resolver j) }.pop j (s.resolver j))
  | exit (hpc : (s.resolver j).pc = .unlockExit) :
      ResolverMove env s j ({ s with bufferLock := none }.setResolver j
        { s.resolver j with pc := .exited })
  | signal (s₁ : State Line m n) (hpc : (s.resolver j).pc = .signalIsFull)
      (hsignal : SignalsIsFull s s₁) :
      ResolverMove env s j (s₁.setResolver j { s.resolver j with pc := .waitIsEmpty })
  | wait (hpc : (s.resolver j).pc = .waitIsEmpty) :
      ResolverMove env s j ({ s with bufferLock := none }.setResolver j
        { s.resolver j with pc := .waitingIsEmpty })
  | unlockBuffer (domainName : Line) (hpc : (s.resolver j).pc = .unlockBuffer domainName) :
      ResolverMove env s j ({ s with bufferLock := none }.setResolver j
        { s.resolver j with pc := .lockResults domainName })
  | resolve (domainName : Line) (hpc : (s.resolver j).pc = .lockResults domainName)
      (hlock : s.resultsLock = none) :
      ResolverMove env s j ({ s with
        resultsLock := some (.resolver j)
        results := s.results ++ [(domainName, env.dnslookup domainName)] }.setResolver j
          { s.resolver j with pc := .unlockResults })
  | unlockResults (hpc : (s.resolver j).pc = .unlockResults) :
      ResolverMove env s j ({ s with resultsLock := none }.setResolver j
        { s.resolver j with pc := .lockBuffer })

/-- The moves of the system, the spurious wake-ups included. -/
inductive Move (env : Env Line) (s : State Line m n) : Action m n → State Line m n → Prop where
  | requester (i : Fin m) (woken : Option (Fin n)) (s' : State Line m n)
      (hmove : RequesterMove env s i s') : Move env s (.requester i woken) s'
  | resolver (j : Fin n) (woken : Option (Fin m)) (s' : State Line m n)
      (hmove : ResolverMove env s j s') : Move env s (.resolver j woken) s'
  | spuriousRequester (i : Fin m) (input : Line)
      (hwaiting : (s.requester i).pc = .waitingIsFull input) :
      Move env s (.spuriousRequester i)
        (s.setRequester i { s.requester i with pc := .relockBuffer input })
  | spuriousResolver (j : Fin n) (hwaiting : (s.resolver j).pc = .waitingIsEmpty) :
      Move env s (.spuriousResolver j)
        (s.setResolver j { s.resolver j with pc := .relockBuffer })

theorem requesterStep_cases {env : Env Line} {s s' : State Line m n} {i : Fin m}
    {woken : Option (Fin n)} (h : requesterStep env s i woken = some s') :
    RequesterMove env s i s' := by
  unfold requesterStep at h
  cases hpc : (s.requester i).pc with
  | lockFiles =>
      simp only [hpc, Option.ite_none_right_eq_some, Option.isNone_iff_eq_none] at h
      obtain ⟨hlock, h⟩ := h
      cases hscan : scan 0 s.files with
      | found index =>
          simp only [hscan, Option.some.injEq] at h
          exact h ▸ .claim index hpc hlock hscan
      | finished =>
          simp only [hscan, Option.some.injEq] at h
          exact h ▸ .finish hpc hlock hscan
      | nothing =>
          simp only [hscan, Option.some.injEq] at h
          exact h ▸ .noFiles hpc hlock hscan
  | lockService =>
      simp only [hpc, Option.ite_none_right_eq_some, Option.isNone_iff_eq_none,
        Option.some.injEq] at h
      exact h.2 ▸ .report hpc h.1
  | broadcastIsEmpty =>
      simp only [hpc, Option.some.injEq] at h
      exact h ▸ .broadcast hpc
  | unlockService =>
      simp only [hpc, Option.some.injEq] at h
      exact h ▸ .unlockService hpc
  | unlockFilesExit =>
      simp only [hpc, Option.some.injEq] at h
      exact h ▸ .exit hpc
  | unlockFiles =>
      simp only [hpc, Option.some.injEq] at h
      exact h ▸ .unlockFiles hpc
  | lockBuffer =>
      simp only [hpc, Option.ite_none_right_eq_some, Option.isNone_iff_eq_none,
        Option.some.injEq] at h
      exact h.2 ▸ .lockBuffer hpc h.1
  | getline =>
      simp only [hpc] at h
      cases hfile : (s.requester i).currentFile with
      | opened index lines =>
          cases lines with
          | nil =>
              simp only [hfile, Option.some.injEq] at h
              rw [← hfile] at h
              exact h ▸ .endOfFile index hpc hfile
          | cons input rest =>
              simp only [hfile] at h
              split at h
              · rename_i hfull
                exact Option.some.inj h ▸ .readFull index input rest hpc hfile hfull
              · rename_i hroom
                exact Option.some.inj h ▸ .readStore index input rest hpc hfile hroom
      | _ =>
          simp only [hfile, Option.some.injEq] at h
          exact h ▸ .badStream hpc (by simp [hfile])
  | signalIsEmpty input =>
      simp only [hpc, Option.map_eq_some_iff] at h
      obtain ⟨s₁, hsignal, rfl⟩ := h
      exact .signalFull input s₁ hpc (signalIsEmpty_cases hsignal)
  | waitIsFull input =>
      simp only [hpc, Option.some.injEq] at h
      exact h ▸ .wait input hpc
  | waitingIsFull input => simp [hpc] at h
  | relockBuffer input =>
      simp only [hpc, Option.ite_none_right_eq_some, Option.isNone_iff_eq_none] at h
      obtain ⟨hlock, h⟩ := h
      split at h
      · rename_i hfull
        exact Option.some.inj h ▸ .relockFull input hpc hlock hfull
      · rename_i hroom
        exact Option.some.inj h ▸ .relockStore input hpc hlock hroom
  | signalDone =>
      simp only [hpc, Option.map_eq_some_iff] at h
      obtain ⟨s₁, hsignal, rfl⟩ := h
      exact .signalDone s₁ hpc (signalIsEmpty_cases hsignal)
  | unlockBuffer =>
      simp only [hpc, Option.some.injEq] at h
      exact h ▸ .closeFile hpc
  | exited => simp [hpc] at h

theorem resolverStep_cases {env : Env Line} {s s' : State Line m n} {j : Fin n}
    {woken : Option (Fin m)} (h : resolverStep env s j woken = some s') :
    ResolverMove env s j s' := by
  unfold resolverStep at h
  cases hpc : (s.resolver j).pc with
  | lockBuffer =>
      simp only [hpc, Option.ite_none_right_eq_some, Option.isNone_iff_eq_none] at h
      obtain ⟨hlock, h⟩ := h
      split at h
      · rename_i hempty
        split at h
        · rename_i hfinished
          exact Option.some.inj h ▸ .leave hpc hlock hempty hfinished
        · rename_i hfinished
          exact Option.some.inj h ▸ .findEmpty hpc hlock hempty hfinished
      · rename_i hitems
        exact Option.some.inj h ▸ .take hpc hlock hitems
  | unlockExit =>
      simp only [hpc, Option.some.injEq] at h
      exact h ▸ .exit hpc
  | signalIsFull =>
      simp only [hpc, Option.map_eq_some_iff] at h
      obtain ⟨s₁, hsignal, rfl⟩ := h
      exact .signal s₁ hpc (signalIsFull_cases hsignal)
  | waitIsEmpty =>
      simp only [hpc, Option.some.injEq] at h
      exact h ▸ .wait hpc
  | waitingIsEmpty => simp [hpc] at h
  | relockBuffer =>
      simp only [hpc, Option.ite_none_right_eq_some, Option.isNone_iff_eq_none,
        Option.some.injEq] at h
      exact h.2 ▸ .takeWoken hpc h.1
  | unlockBuffer domainName =>
      simp only [hpc, Option.some.injEq] at h
      exact h ▸ .unlockBuffer domainName hpc
  | lockResults domainName =>
      simp only [hpc, Option.ite_none_right_eq_some, Option.isNone_iff_eq_none,
        Option.some.injEq] at h
      exact h.2 ▸ .resolve domainName hpc h.1
  | unlockResults =>
      simp only [hpc, Option.some.injEq] at h
      exact h ▸ .unlockResults hpc
  | exited => simp [hpc] at h

/-- Every step is a move, and no thread moves after undefined behaviour. -/
theorem step_cases {env : Env Line} {s s' : State Line m n} {a : Action m n}
    (h : step env s a = some s') : s.fault = none ∧ Move env s a s' := by
  unfold step at h
  split at h
  · cases h
  · rename_i hfault
    refine ⟨by simpa using hfault, ?_⟩
    cases a with
    | requester i woken => exact .requester i woken s' (requesterStep_cases h)
    | resolver j woken => exact .resolver j woken s' (resolverStep_cases h)
    | spuriousRequester i =>
        simp only [Option.ite_none_right_eq_some, Option.some.injEq] at h
        obtain ⟨hwaiting, rfl⟩ := h
        obtain ⟨input, hpc⟩ := (Requester.waiting_iff _).mp hwaiting
        rw [Requester.wake_of_waiting hpc]
        exact .spuriousRequester i input hpc
    | spuriousResolver j =>
        simp only [Option.ite_none_right_eq_some, Option.some.injEq] at h
        obtain ⟨hwaiting, rfl⟩ := h
        have hpc := (Resolver.waiting_iff _).mp hwaiting
        rw [Resolver.wake_of_waiting hpc]
        exact .spuriousResolver j hpc

/-! ### What a move leaves alone -/

/-- A requester that another thread's step left alone, or woke. -/
def Requester.Woken (r r' : Requester Line) : Prop :=
  r' = r ∨ ∃ input, r.pc = .waitingIsFull input ∧ r' = { r with pc := .relockBuffer input }

/-- A resolver that another thread's step left alone, or woke. -/
def Resolver.Woken (r r' : Resolver Line) : Prop :=
  r' = r ∨ r.pc = .waitingIsEmpty ∧ r' = { r with pc := .relockBuffer }

/-- A signal on `isEmpty` changes nothing but the resolvers. -/
theorem SignalsIsEmpty.frame {s s' : State Line m n} (h : SignalsIsEmpty s s') :
    ∃ resolver, s' = { s with resolver := resolver } := by
  cases h with
  | nobody => exact ⟨s.resolver, rfl⟩
  | woken => exact ⟨_, rfl⟩

/-- A signal on `isFull` changes nothing but the requesters. -/
theorem SignalsIsFull.frame {s s' : State Line m n} (h : SignalsIsFull s s') :
    ∃ requester, s' = { s with requester := requester } := by
  cases h with
  | nobody => exact ⟨s.requester, rfl⟩
  | woken => exact ⟨_, rfl⟩

theorem SignalsIsEmpty.woken_resolver {s s' : State Line m n} (h : SignalsIsEmpty s s')
    (j : Fin n) : (s.resolver j).Woken (s'.resolver j) := by
  cases h with
  | nobody => exact Or.inl rfl
  | woken j' hwaiting =>
      by_cases hj : j = j'
      · subst hj
        exact Or.inr ⟨hwaiting, setResolver_self ..⟩
      · exact Or.inl (setResolver_of_ne _ hj _)

theorem SignalsIsFull.woken_requester {s s' : State Line m n} (h : SignalsIsFull s s')
    (i : Fin m) : (s.requester i).Woken (s'.requester i) := by
  cases h with
  | nobody => exact Or.inl rfl
  | woken i' input hwaiting =>
      by_cases hi : i = i'
      · subst hi
        exact Or.inr ⟨input, hwaiting, setRequester_self ..⟩
      · exact Or.inl (setRequester_of_ne _ hi _)

theorem Resolver.wake_woken (r : Resolver Line) : r.Woken r.wake := by
  by_cases h : r.pc = .waitingIsEmpty
  · exact Or.inr ⟨h, Resolver.wake_of_waiting h⟩
  · exact Or.inl (by unfold Resolver.wake; split <;> simp_all)

@[simp] theorem enqueue_files (s : State Line m n) (i : Fin m) (r : Requester Line)
    (input : Line) : (s.enqueue i r input).files = s.files := rfl

@[simp] theorem enqueue_buffer (s : State Line m n) (i : Fin m) (r : Requester Line)
    (input : Line) : (s.enqueue i r input).buffer =
      Function.update s.buffer s.currentPosition (some input) := rfl

@[simp] theorem enqueue_currentPosition (s : State Line m n) (i : Fin m) (r : Requester Line)
    (input : Line) : (s.enqueue i r input).currentPosition = s.currentPosition + 1 := rfl

@[simp] theorem broadcastIsEmpty_files (s : State Line m n) :
    s.broadcastIsEmpty.files = s.files := rfl

@[simp] theorem enqueue_requester_self (s : State Line m n) (i : Fin m) (r : Requester Line)
    (input : Line) : (s.enqueue i r input).requester i =
      { r with pc := .getline, enqueued := r.enqueued ++ [input] } :=
  setRequester_self ..

/-- A pop underflows, meets a slot never stored to, or takes the item on top. -/
theorem pop_cases (s : State Line m n) (j : Fin n) (r : Resolver Line) :
    (s.currentPosition ≤ 0 ∧ s.pop j r =
      { s with currentPosition := s.currentPosition - 1, fault := some .emptyBuffer }) ∨
    (0 < s.currentPosition ∧ s.buffer (s.currentPosition - 1) = none ∧
      s.pop j r =
        { s with currentPosition := s.currentPosition - 1, fault := some .unsetSlot }) ∨
    ∃ domainName, 0 < s.currentPosition ∧
      s.buffer (s.currentPosition - 1) = some domainName ∧
      s.pop j r = { s with currentPosition := s.currentPosition - 1 }.setResolver j
        { r with pc := .unlockBuffer domainName, popped := r.popped ++ [domainName] } := by
  by_cases hempty : s.currentPosition - 1 < 0
  · exact Or.inl ⟨by omega, by simp [State.pop, hempty]⟩
  · cases hslot : s.buffer (s.currentPosition - 1) with
    | none => exact Or.inr (Or.inl ⟨by omega, rfl, by simp [State.pop, hempty, hslot]⟩)
    | some domainName =>
        exact Or.inr (Or.inr ⟨domainName, by omega, rfl, by simp [State.pop, hempty, hslot]⟩)

/-- After a pop the resolver unlocks the buffer, unless the pop went wrong. -/
theorem pop_pc (s : State Line m n) (j : Fin n) :
    ((s.pop j (s.resolver j)).resolver j).pc = (s.resolver j).pc ∨
    ∃ domainName, ((s.pop j (s.resolver j)).resolver j).pc = .unlockBuffer domainName := by
  rcases pop_cases s j (s.resolver j) with ⟨_, hpop⟩ | ⟨_, _, hpop⟩ | ⟨domainName, _, _, hpop⟩
  · exact Or.inl (by rw [hpop])
  · exact Or.inl (by rw [hpop])
  · exact Or.inr ⟨domainName, by rw [hpop, setResolver_self]⟩

/-- A pop changes nothing but the position and the resolver, and may go wrong. -/
theorem pop_frame (s : State Line m n) (j : Fin n) (r : Resolver Line) :
    ∃ resolver fault, s.pop j r = { s with
      currentPosition := s.currentPosition - 1
      resolver := resolver
      fault := fault } := by
  rcases pop_cases s j r with ⟨_, hpop⟩ | ⟨_, _, hpop⟩ | ⟨domainName, _, _, hpop⟩
  · exact ⟨_, _, hpop⟩
  · exact ⟨_, _, hpop⟩
  · exact ⟨_, _, hpop⟩

@[simp] theorem pop_requester (s : State Line m n) (j : Fin n) (r : Resolver Line) :
    (s.pop j r).requester = s.requester := by
  obtain ⟨resolver, fault, hpop⟩ := pop_frame s j r
  rw [hpop]

@[simp] theorem pop_currentPosition (s : State Line m n) (j : Fin n) (r : Resolver Line) :
    (s.pop j r).currentPosition = s.currentPosition - 1 := by
  obtain ⟨resolver, fault, hpop⟩ := pop_frame s j r
  rw [hpop]

@[simp] theorem pop_files (s : State Line m n) (j : Fin n) (r : Resolver Line) :
    (s.pop j r).files = s.files := by
  obtain ⟨resolver, fault, hpop⟩ := pop_frame s j r
  rw [hpop]

@[simp] theorem pop_threadsFinished (s : State Line m n) (j : Fin n) (r : Resolver Line) :
    (s.pop j r).threadsFinished = s.threadsFinished := by
  obtain ⟨resolver, fault, hpop⟩ := pop_frame s j r
  rw [hpop]

theorem RequesterMove.others {env : Env Line} {s s' : State Line m n} {i i' : Fin m}
    (h : RequesterMove env s i s') (hne : i' ≠ i) : s'.requester i' = s.requester i' := by
  cases h with
  | signalFull _ _ _ hsignal | signalDone _ _ hsignal =>
      obtain ⟨resolver, rfl⟩ := hsignal.frame
      exact setRequester_of_ne _ hne _
  | badStream => rfl
  | _ => exact setRequester_of_ne _ hne _

theorem RequesterMove.resolvers {env : Env Line} {s s' : State Line m n} {i : Fin m}
    (h : RequesterMove env s i s') (j : Fin n) : (s.resolver j).Woken (s'.resolver j) := by
  cases h with
  | signalFull _ _ _ hsignal | signalDone _ _ hsignal => exact hsignal.woken_resolver j
  | broadcast => exact Resolver.wake_woken _
  | _ => exact Or.inl rfl

/-- A requester's move leaves the buffer alone, or stores one name at a position that it has found
not to be the end. -/
theorem RequesterMove.stores {env : Env Line} {s s' : State Line m n} {i : Fin m}
    (h : RequesterMove env s i s') :
    (s'.currentPosition = s.currentPosition ∧ s'.buffer = s.buffer) ∨
    ∃ input, ((s.requester i).pc = .getline ∨ (s.requester i).pc = .relockBuffer input) ∧
      s.currentPosition ≠ arraySize ∧ s'.currentPosition = s.currentPosition + 1 ∧
      s'.buffer = Function.update s.buffer s.currentPosition (some input) := by
  cases h with
  | signalFull _ _ _ hsignal | signalDone _ _ hsignal =>
      obtain ⟨resolver, rfl⟩ := hsignal.frame
      exact Or.inl ⟨rfl, rfl⟩
  | readStore index input rest hpc hfile hroom => exact Or.inr ⟨input, Or.inl hpc, hroom, rfl, rfl⟩
  | relockStore input hpc hlock hroom => exact Or.inr ⟨input, Or.inr hpc, hroom, rfl, rfl⟩
  | _ => exact Or.inl ⟨rfl, rfl⟩

theorem ResolverMove.others {env : Env Line} {s s' : State Line m n} {j j' : Fin n}
    (h : ResolverMove env s j s') (hne : j' ≠ j) : s'.resolver j' = s.resolver j' := by
  cases h with
  | signal _ _ hsignal =>
      obtain ⟨requester, rfl⟩ := hsignal.frame
      exact setResolver_of_ne _ hne _
  | take | takeWoken =>
      simp only [State.pop]
      split
      · rfl
      · split
        · exact setResolver_of_ne _ hne _
        · rfl
  | _ => exact setResolver_of_ne _ hne _

theorem ResolverMove.requesters {env : Env Line} {s s' : State Line m n} {j : Fin n}
    (h : ResolverMove env s j s') (i : Fin m) : (s.requester i).Woken (s'.requester i) := by
  cases h with
  | signal _ _ hsignal => exact hsignal.woken_requester i
  | take | takeWoken => exact Or.inl (congrFun (pop_requester ..) i)
  | _ => exact Or.inl rfl

end OperatingSystems.Lookup
