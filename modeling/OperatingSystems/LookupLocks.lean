import OperatingSystems.LookupMoves

/-!
The mutexes of the name lookup. Where a thread stands determines which of them it holds, so the
recorded owner of each is the one thread whose program counter says so.
-/

namespace OperatingSystems.Lookup

open Threads

variable {Line : Type} {m n : Nat}

inductive Lock where
  | files
  | service
  | buffer
  | results

def State.owner (s : State Line m n) : Lock → Option (Thread m n)
  | .files => s.fileLock
  | .service => s.serviceLock
  | .buffer => s.bufferLock
  | .results => s.resultsLock

def RequesterPc.holds : RequesterPc Line → Lock → Bool
  | .lockService, .files | .broadcastIsEmpty, .files | .unlockService, .files
  | .unlockFilesExit, .files | .unlockFiles, .files => true
  | .broadcastIsEmpty, .service | .unlockService, .service => true
  | .getline, .buffer | .signalIsEmpty _, .buffer | .waitIsFull _, .buffer
  | .signalDone, .buffer | .unlockBuffer, .buffer => true
  | _, _ => false

def ResolverPc.holds : ResolverPc Line → Lock → Bool
  | .unlockExit, .buffer | .signalIsFull, .buffer | .waitIsEmpty, .buffer
  | .unlockBuffer _, .buffer => true
  | .unlockResults, .results => true
  | _, _ => false

/-- The thread stands between locking and unlocking the mutex. -/
def State.holds (s : State Line m n) (lock : Lock) : Thread m n → Prop
  | .requester i => (s.requester i).pc.holds lock = true
  | .resolver j => (s.resolver j).pc.holds lock = true

/-- The owner of every mutex is the thread that holds it. -/
def State.LocksOwned (s : State Line m n) : Prop := ∀ lock, Owned (s.owner lock) (s.holds lock)

/-! ### Frame lemmas -/

/-- A waiting requester holds no mutex, and one that was woken still has to take it. -/
theorem Requester.Woken.holds_iff {r r' : Requester Line} (h : r.Woken r') (lock : Lock) :
    r'.pc.holds lock = r.pc.holds lock := by
  rcases h with rfl | ⟨input, hpc, rfl⟩
  · rfl
  · rw [hpc]
    cases lock <;> rfl

theorem Resolver.Woken.holds_iff {r r' : Resolver Line} (h : r.Woken r') (lock : Lock) :
    r'.pc.holds lock = r.pc.holds lock := by
  rcases h with rfl | ⟨hpc, rfl⟩
  · rfl
  · rw [hpc]
    cases lock <;> rfl

/-! ### The invariant -/

theorem RequesterMove.locksOwned {env : Env Line} {s s' : State Line m n} {i : Fin m}
    (h : RequesterMove env s i s') (howned : s.LocksOwned) : s'.LocksOwned := by
  intro lock
  refine (howned lock).move (t := .requester i) ?_ ?_
  · rintro (i' | j) hne
    · simp only [State.holds, h.others (by simpa using hne)]
    · simp only [State.holds, (h.resolvers j).holds_iff]
  · cases h with
    | signalFull _ _ hpc hsignal | signalDone _ hpc hsignal =>
        obtain ⟨resolver, rfl⟩ := hsignal.frame
        cases lock <;> simp [State.holds, State.owner, RequesterPc.holds, hpc]
    | badStream => exact Or.inl ⟨by cases lock <;> rfl, Iff.rfl⟩
    | closeFile hpc =>
        cases lock <;> cases (s.requester i).canService <;>
          simp [State.holds, State.owner, RequesterPc.holds, hpc]
    | claim _ hpc hlock | finish hpc hlock | noFiles hpc hlock | report hpc hlock
    | lockBuffer hpc hlock | relockFull _ hpc hlock =>
        cases lock <;> simp [State.holds, State.owner, RequesterPc.holds, hpc, hlock]
    | relockStore _ hpc hlock =>
        cases lock <;> simp [State.holds, State.owner, RequesterPc.holds, State.enqueue, hpc, hlock]
    | readStore _ _ _ hpc =>
        cases lock <;> simp [State.holds, State.owner, RequesterPc.holds, State.enqueue, hpc]
    | broadcast hpc =>
        cases lock <;>
          simp [State.holds, State.owner, RequesterPc.holds, State.broadcastIsEmpty, hpc]
    | unlockService hpc | exit hpc | unlockFiles hpc | readFull _ _ _ hpc | endOfFile _ hpc
    | wait _ hpc => cases lock <;> simp [State.holds, State.owner, RequesterPc.holds, hpc]

theorem ResolverMove.locksOwned {env : Env Line} {s s' : State Line m n} {j : Fin n}
    (h : ResolverMove env s j s') (howned : s.LocksOwned) (hfault : s'.fault = none) :
    s'.LocksOwned := by
  intro lock
  refine (howned lock).move (t := .resolver j) ?_ ?_
  · rintro (i | j') hne
    · simp only [State.holds, (h.requesters i).holds_iff]
    · simp only [State.holds, h.others (by simpa using hne)]
  · cases h with
    | signal _ hpc hsignal =>
        obtain ⟨requester, rfl⟩ := hsignal.frame
        cases lock <;> simp [State.holds, State.owner, ResolverPc.holds, hpc]
    | take hpc hlock | takeWoken hpc hlock =>
        rcases pop_cases { s with bufferLock := some (.resolver j) } j (s.resolver j) with
          ⟨_, hpop⟩ | ⟨_, _, hpop⟩ | ⟨domainName, _, _, hpop⟩
        · simp [hpop] at hfault
        · simp [hpop] at hfault
        · rw [hpop]
          cases lock <;> simp [State.holds, State.owner, ResolverPc.holds, hpc, hlock]
    | leave hpc hlock | findEmpty hpc hlock | resolve _ hpc hlock =>
        cases lock <;> simp [State.holds, State.owner, ResolverPc.holds, hpc, hlock]
    | exit hpc | wait hpc | unlockBuffer _ hpc | unlockResults hpc =>
        cases lock <;> simp [State.holds, State.owner, ResolverPc.holds, hpc]

/-- A spurious wake-up leaves every mutex with its owner. -/
theorem State.LocksOwned.of_woken {s s' : State Line m n} (howned : s.LocksOwned)
    (howner : ∀ lock, s'.owner lock = s.owner lock)
    (hrequesters : ∀ i, (s.requester i).Woken (s'.requester i))
    (hresolvers : ∀ j, (s.resolver j).Woken (s'.resolver j)) : s'.LocksOwned := by
  intro lock
  rw [howner]
  apply (howned lock).congr
  rintro (i | j)
  · simp only [State.holds, (hrequesters i).holds_iff]
  · simp only [State.holds, (hresolvers j).holds_iff]

theorem step_locksOwned {env : Env Line} {s s' : State Line m n} {a : Action m n}
    (h : step env s a = some s') (howned : s.LocksOwned) (hfault : s'.fault = none) :
    s'.LocksOwned := by
  cases (step_cases h).2 with
  | requester _ _ _ hmove => exact hmove.locksOwned howned
  | resolver _ _ _ hmove => exact hmove.locksOwned howned hfault
  | spuriousRequester i input hwaiting =>
      refine howned.of_woken (fun lock => by cases lock <;> rfl)
        (SignalsIsFull.woken i input hwaiting).woken_requester fun j => Or.inl rfl
  | spuriousResolver j hwaiting =>
      refine howned.of_woken (fun lock => by cases lock <;> rfl) (fun i => Or.inl rfl)
        (SignalsIsEmpty.woken j hwaiting).woken_resolver

/-- Until something undefined happens, every mutex is owned by the thread that holds it. -/
theorem locksOwned {args : Args Line}
    {s : State Line args.requesterThreadsCount args.resolverThreadCount}
    (h : Reachable args s) (hfault : s.fault = none) : s.LocksOwned := by
  revert hfault
  refine h.invariant (fun s => s.fault = none → s.LocksOwned) ?_ ?_
  · intro _ lock
    rintro (i | j) <;> cases lock <;> simp [start, State.owner, State.holds, RequesterPc.holds,
      ResolverPc.holds]
  · intro s a s' hinv _ hstep hfault
    exact step_locksOwned hstep (hinv (step_cases hstep).1) hfault

end OperatingSystems.Lookup
