import OperatingSystems.LookupLocks
import OperatingSystems.LookupFinish

/-!
Whether the name lookup can get stuck. Two requesters cannot both wait on `isFull` with nobody left
to signal, and the mutexes are taken in order. What remains is a lost wake-up: `threadsFinished` is
incremented and `isEmpty` broadcast without `buffer_lock`, so the last broadcast can fall between a
resolver's test of `threadsFinished` and its wait.
-/

namespace OperatingSystems.Lookup

open Threads

variable {Line : Type} {m n : Nat}

/-! ### Positions -/

def RequesterPc.broadcasting : RequesterPc Line → Bool
  | .broadcastIsEmpty => true
  | _ => false

/-- The requester has broadcast `isEmpty` and is about to exit. -/
def RequesterPc.broadcasted : RequesterPc Line → Bool
  | .unlockService | .unlockFilesExit | .exited => true
  | _ => false

/-- The requester has signalled `isEmpty` and waits, or is about to wait, on `isFull`. -/
def RequesterPc.suspended : RequesterPc Line → Bool
  | .waitIsFull _ | .waitingIsFull _ => true
  | _ => false

/-- The requester has been woken and has yet to take the buffer. -/
def RequesterPc.relocking : RequesterPc Line → Bool
  | .relockBuffer _ => true
  | _ => false

/-- The requester will signal or broadcast `isEmpty` before it waits or exits. -/
def RequesterPc.willSignal (pc : RequesterPc Line) : Bool := !(pc.suspended || pc.broadcasted)

/-- The resolver has found the buffer empty and `threadsFinished` short of `threadCount`, and does
not yet wait. -/
def ResolverPc.committed : ResolverPc Line → Bool
  | .signalIsFull | .waitIsEmpty => true
  | _ => false

/-- The resolver waits on `isEmpty`, or will do so whatever the others do. -/
def ResolverPc.parked : ResolverPc Line → Bool
  | .signalIsFull | .waitIsEmpty | .waitingIsEmpty => true
  | _ => false

def ResolverPc.awake : ResolverPc Line → Bool
  | .waitingIsEmpty | .exited => false
  | _ => true

/-- The mutex that the thread's next operation takes. -/
def RequesterPc.wants : RequesterPc Line → Option Lock
  | .lockFiles => some .files
  | .lockService => some .service
  | .lockBuffer | .relockBuffer _ => some .buffer
  | _ => none

def ResolverPc.wants : ResolverPc Line → Option Lock
  | .lockBuffer | .relockBuffer => some .buffer
  | .lockResults _ => some .results
  | _ => none

/-! ### Stuck states -/

/-- Some thread has not exited, and no thread can take a step unless a wait ends spuriously. -/
def State.Stuck (env : Env Line) (s : State Line m n) : Prop :=
  s.fault = none ∧
  ((∃ i, (s.requester i).pc.hasExited = false) ∨ ∃ j, (s.resolver j).pc.hasExited = false) ∧
  (∀ i woken, (step env s (.requester i woken)).isNone) ∧
  ∀ j woken, (step env s (.resolver j woken)).isNone

instance (env : Env Line) (s : State Line m n) : Decidable (s.Stuck env) :=
  inferInstanceAs (Decidable (_ ∧ _ ∧ _ ∧ _))

/-- The last broadcast does not fall between a resolver's test of `threadsFinished` and its wait:
when a requester broadcasts and every requester has been counted, no resolver is on its way from
the one to the other. -/
def LastBroadcastSeen (s : State Line m n) : Action m n → Prop
  | .requester i _ => (s.requester i).pc.broadcasting = true → s.threadsFinished = m →
      ∀ j, (s.resolver j).pc.committed = false
  | _ => True

instance (s : State Line m n) (a : Action m n) : Decidable (LastBroadcastSeen s a) :=
  match a with
  | .requester _ _ => inferInstanceAs (Decidable (_ → _ → _))
  | .resolver _ _ | .spuriousRequester _ | .spuriousResolver _ =>
      inferInstanceAs (Decidable True)

/-! ### Blocked threads -/

theorem signalIsEmpty_enabled (s : State Line m n) : ∃ woken, (s.signalIsEmpty woken).isSome := by
  by_cases h : ∀ j, (s.resolver j).waiting = false
  · exact ⟨none, by simp [State.signalIsEmpty, h]⟩
  · obtain ⟨j, hj⟩ := not_forall.mp h
    exact ⟨some j, by simp [State.signalIsEmpty, hj]⟩

theorem signalIsFull_enabled (s : State Line m n) : ∃ woken, (s.signalIsFull woken).isSome := by
  by_cases h : ∀ i, (s.requester i).waiting = false
  · exact ⟨none, by simp [State.signalIsFull, h]⟩
  · obtain ⟨i, hi⟩ := not_forall.mp h
    exact ⟨some i, by simp [State.signalIsFull, hi]⟩

/-- A requester that cannot move has exited, waits on `isFull`, or wants a mutex that is taken. -/
theorem requester_blocked {env : Env Line} {s : State Line m n} {i : Fin m}
    (h : ∀ woken, requesterStep env s i woken = none) :
    (s.requester i).pc = .exited ∨ (∃ input, (s.requester i).pc = .waitingIsFull input) ∨
      ∃ lock, (s.requester i).pc.wants = some lock ∧ s.owner lock ≠ none := by
  have hnone := h none
  obtain ⟨woken, hwoken⟩ := signalIsEmpty_enabled s
  obtain ⟨s₁, hs₁⟩ := Option.isSome_iff_exists.mp hwoken
  have hsignal := h woken
  unfold requesterStep at hnone hsignal
  cases hpc : (s.requester i).pc with
  | exited => exact Or.inl rfl
  | waitingIsFull input => exact Or.inr (Or.inl ⟨input, rfl⟩)
  | lockFiles =>
      refine Or.inr (Or.inr ⟨.files, rfl, fun hfree => ?_⟩)
      rw [State.owner] at hfree
      simp only [hpc, hfree, Option.isNone_none, if_true] at hnone
      cases hscan : scan 0 s.files <;> simp [hscan] at hnone
  | lockService =>
      refine Or.inr (Or.inr ⟨.service, rfl, fun hfree => ?_⟩)
      rw [State.owner] at hfree
      simp [hpc, hfree] at hnone
  | lockBuffer =>
      refine Or.inr (Or.inr ⟨.buffer, rfl, fun hfree => ?_⟩)
      rw [State.owner] at hfree
      simp [hpc, hfree] at hnone
  | relockBuffer input =>
      refine Or.inr (Or.inr ⟨.buffer, rfl, fun hfree => ?_⟩)
      rw [State.owner] at hfree
      by_cases hfull : s.currentPosition = arraySize <;> simp [hpc, hfree, hfull] at hnone
  | signalIsEmpty | signalDone => simp [hpc, hs₁] at hsignal
  | getline =>
      simp only [hpc] at hnone
      rcases hfile : (s.requester i).currentFile with _ | _ | _ | ⟨index, _ | ⟨input, rest⟩⟩
      case opened.cons =>
        by_cases hfull : s.currentPosition = arraySize <;> simp [hfile, hfull] at hnone
      all_goals simp [hfile] at hnone
  | broadcastIsEmpty | unlockService | unlockFilesExit | unlockFiles | waitIsFull
  | unlockBuffer => simp [hpc] at hnone

/-- A resolver that cannot move has exited, waits on `isEmpty`, or wants a mutex that is taken. -/
theorem resolver_blocked {env : Env Line} {s : State Line m n} {j : Fin n}
    (h : ∀ woken, resolverStep env s j woken = none) :
    (s.resolver j).pc = .exited ∨ (s.resolver j).pc = .waitingIsEmpty ∨
      ∃ lock, (s.resolver j).pc.wants = some lock ∧ s.owner lock ≠ none := by
  have hnone := h none
  obtain ⟨woken, hwoken⟩ := signalIsFull_enabled s
  obtain ⟨s₁, hs₁⟩ := Option.isSome_iff_exists.mp hwoken
  have hsignal := h woken
  unfold resolverStep at hnone hsignal
  cases hpc : (s.resolver j).pc with
  | exited => exact Or.inl rfl
  | waitingIsEmpty => exact Or.inr (Or.inl rfl)
  | lockBuffer =>
      refine Or.inr (Or.inr ⟨.buffer, rfl, fun hfree => ?_⟩)
      rw [State.owner] at hfree
      simp only [hpc, hfree, Option.isNone_none, if_true] at hnone
      split at hnone
      · split at hnone <;> simp at hnone
      · simp at hnone
  | relockBuffer =>
      refine Or.inr (Or.inr ⟨.buffer, rfl, fun hfree => ?_⟩)
      rw [State.owner] at hfree
      simp [hpc, hfree] at hnone
  | lockResults domainName =>
      refine Or.inr (Or.inr ⟨.results, rfl, fun hfree => ?_⟩)
      rw [State.owner] at hfree
      simp [hpc, hfree] at hnone
  | signalIsFull => simp [hpc, hs₁] at hsignal
  | unlockExit | waitIsEmpty | unlockBuffer | unlockResults => simp [hpc] at hnone

/-- The order in which a thread takes mutexes. -/
def Lock.rank : Lock → Nat
  | .files => 0
  | _ => 1

theorem RequesterPc.rank_lt {pc : RequesterPc Line} {lock lock' : Lock}
    (hholds : pc.holds lock = true) (hwants : pc.wants = some lock') : lock.rank < lock'.rank := by
  cases pc with
  | lockService =>
      cases hwants
      cases lock <;> simp_all [RequesterPc.holds, Lock.rank]
  | _ => cases lock <;> simp_all [RequesterPc.holds, RequesterPc.wants]

theorem ResolverPc.not_holds {pc : ResolverPc Line} {lock lock' : Lock}
    (hwants : pc.wants = some lock') : pc.holds lock = false := by
  cases pc <;> cases hwants <;> cases lock <;> rfl

/-- In a stuck state every requester has exited or waits, and so has or does every resolver. -/
theorem State.Stuck.parked {env : Env Line} {s : State Line m n} (h : s.Stuck env)
    (howned : s.LocksOwned) :
    (∀ i, (s.requester i).pc = .exited ∨ ∃ input, (s.requester i).pc = .waitingIsFull input) ∧
      ∀ j, (s.resolver j).pc = .exited ∨ (s.resolver j).pc = .waitingIsEmpty := by
  obtain ⟨hfault, -, hrequesters, hresolvers⟩ := h
  have hrequester i := requester_blocked (show ∀ woken, requesterStep env s i woken = none by
    simpa [step, hfault] using hrequesters i)
  have hresolver j := resolver_blocked (show ∀ woken, resolverStep env s j woken = none by
    simpa [step, hfault] using hresolvers j)
  have hfree : ∀ lock, s.owner lock = none := by
    refine free_of_ranked Lock.rank 1 (fun lock => by cases lock <;> decide) ?_
    intro lock t howner
    have hholds := (howned lock t).mp howner
    cases t with
    | requester i =>
        simp only [State.holds] at hholds
        rcases hrequester i with hpc | ⟨input, hpc⟩ | ⟨lock', hwants, htaken⟩
        · cases lock <;> simp [hpc, RequesterPc.holds] at hholds
        · cases lock <;> simp [hpc, RequesterPc.holds] at hholds
        · exact ⟨lock', RequesterPc.rank_lt hholds hwants, htaken⟩
    | resolver j =>
        simp only [State.holds] at hholds
        rcases hresolver j with hpc | hpc | ⟨lock', hwants, htaken⟩
        · cases lock <;> simp [hpc, ResolverPc.holds] at hholds
        · cases lock <;> simp [hpc, ResolverPc.holds] at hholds
        · simp [ResolverPc.not_holds hwants] at hholds
  constructor
  · intro i
    rcases hrequester i with hpc | hpc | ⟨lock, _, htaken⟩
    · exact Or.inl hpc
    · exact Or.inr hpc
    · exact absurd (hfree lock) htaken
  · intro j
    rcases hresolver j with hpc | hpc | ⟨lock, _, htaken⟩
    · exact Or.inl hpc
    · exact Or.inr hpc
    · exact absurd (hfree lock) htaken

end OperatingSystems.Lookup
