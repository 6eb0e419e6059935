import OperatingSystems.LookupDeadlock

/-!
Wake-ups are not lost, with one exception. While a requester waits on `isFull` somebody remains who
will signal it, or who will wake such a thread; after the last broadcast no resolver waits on
`isEmpty`, unless it was on its way to the wait at that moment.
-/

namespace OperatingSystems.Lookup

open Threads

variable {Line : Type} {m n : Nat}

/-- A resolver that is about to wait has left a woken requester behind, if any waited. -/
def State.Handed (s : State Line m n) : Prop :=
  ∀ j, (s.resolver j).pc = .waitIsEmpty → (∃ i, (s.requester i).waiting = true) →
    ∃ i, (s.requester i).pc.relocking = true

/-- While a requester waits on `isFull`, a resolver is awake or a requester will wake one. -/
def State.Attended (s : State Line m n) : Prop :=
  (∃ i, (s.requester i).pc.suspended = true) →
    (∃ j, (s.resolver j).pc.awake = true) ∨ ∃ i, (s.requester i).pc.willSignal = true

/-- Once every requester has broadcast, no resolver waits. -/
def State.Dismissed (s : State Line m n) : Prop :=
  (∀ i, (s.requester i).pc.broadcasted = true) → ∀ j, (s.resolver j).pc.parked = false

/-! ### Woken threads -/

section Woken

variable {r r' : Requester Line} {q q' : Resolver Line}

theorem Requester.Woken.waiting_of (h : r.Woken r') (hwaiting : r'.waiting = true) :
    r.waiting = true := by
  rcases h with rfl | ⟨input, hpc, rfl⟩
  · exact hwaiting
  · simp [Requester.waiting] at hwaiting

theorem Requester.Woken.relocking (h : r.Woken r') (hrelocking : r.pc.relocking = true) :
    r'.pc.relocking = true := by
  rcases h with rfl | ⟨input, hpc, rfl⟩
  · exact hrelocking
  · rfl

theorem Requester.Woken.suspended_of (h : r.Woken r') (hsuspended : r'.pc.suspended = true) :
    r.pc.suspended = true := by
  rcases h with rfl | ⟨input, hpc, rfl⟩
  · exact hsuspended
  · rw [hpc]
    rfl

theorem Requester.Woken.willSignal (h : r.Woken r') (hsignal : r.pc.willSignal = true) :
    r'.pc.willSignal = true := by
  rcases h with rfl | ⟨input, hpc, rfl⟩
  · exact hsignal
  · rfl

theorem Requester.Woken.broadcasted_of (h : r.Woken r') (hdone : r'.pc.broadcasted = true) :
    r.pc.broadcasted = true := by
  rcases h with rfl | ⟨input, hpc, rfl⟩
  · exact hdone
  · simp [RequesterPc.broadcasted] at hdone

theorem Resolver.Woken.waitIsEmpty_of (h : q.Woken q') (hpc' : q'.pc = .waitIsEmpty) :
    q.pc = .waitIsEmpty := by
  rcases h with rfl | ⟨hpc, rfl⟩
  · exact hpc'
  · cases hpc'

theorem Resolver.Woken.awake (h : q.Woken q') (hawake : q.pc.awake = true) :
    q'.pc.awake = true := by
  rcases h with rfl | ⟨hpc, rfl⟩
  · exact hawake
  · rfl

theorem Resolver.Woken.parked_of (h : q.Woken q') (hparked : q'.pc.parked = true) :
    q.pc.parked = true := by
  rcases h with rfl | ⟨hpc, rfl⟩
  · exact hparked
  · cases hparked

end Woken

/-! ### A resolver about to wait -/

theorem State.Handed.of_woken {s s' : State Line m n} (h : s.Handed)
    (hrequesters : ∀ i, (s.requester i).Woken (s'.requester i))
    (hresolvers : ∀ j, (s'.resolver j).pc = .waitIsEmpty → (s.resolver j).pc = .waitIsEmpty) :
    s'.Handed := by
  rintro j hpc ⟨i, hwaiting⟩
  obtain ⟨i', hrelocking⟩ := h j (hresolvers j hpc) ⟨i, (hrequesters i).waiting_of hwaiting⟩
  exact ⟨i', (hrequesters i').relocking hrelocking⟩

/-- While the buffer is locked by somebody else a requester neither starts nor ends a wait. -/
theorem RequesterMove.buffer_taken {env : Env Line} {s s' : State Line m n} {i : Fin m}
    (h : RequesterMove env s i s') (htaken : s.bufferLock ≠ none)
    (hholds : (s.requester i).pc.holds .buffer = false) :
    (s.requester i).pc.relocking = false ∧ (s'.requester i).waiting = false := by
  cases h with
  | claim _ hpc | finish hpc | noFiles hpc | report hpc | broadcast hpc | unlockService hpc
  | exit hpc | unlockFiles hpc => simp [RequesterPc.relocking, Requester.waiting, hpc]
  | lockBuffer _ hlock | relockFull _ _ hlock | relockStore _ _ hlock => exact absurd hlock htaken
  | readFull _ _ _ hpc | readStore _ _ _ hpc | endOfFile _ hpc | badStream hpc
  | signalFull _ _ hpc | wait _ hpc | signalDone _ hpc | closeFile hpc =>
      simp [RequesterPc.holds, hpc] at hholds

theorem RequesterMove.handed {env : Env Line} {s s' : State Line m n} {i : Fin m}
    (h : RequesterMove env s i s') (howned : s.LocksOwned) (hhanded : s.Handed) : s'.Handed := by
  rintro j hpc' ⟨i', hwaiting⟩
  have hpc := (h.resolvers j).waitIsEmpty_of hpc'
  have hj : s.holds .buffer (.resolver j) := by simp [State.holds, ResolverPc.holds, hpc]
  have htaken : s.bufferLock ≠ none := fun hfree =>
    Option.some_ne_none _ (((howned .buffer _).mpr hj).symm.trans hfree)
  have hholds : (s.requester i).pc.holds .buffer = false := by
    by_contra hi
    cases (howned .buffer).unique (t := .requester i) (by simpa [State.holds] using hi) hj
  obtain ⟨hrelocking, hquiet⟩ := h.buffer_taken htaken hholds
  have hother : i' ≠ i := by
    rintro rfl
    simp [hquiet] at hwaiting
  obtain ⟨k, hk⟩ := hhanded j hpc ⟨i', h.others hother ▸ hwaiting⟩
  refine ⟨k, ?_⟩
  rw [h.others fun heq => by simp [heq, hrelocking] at hk]
  exact hk

theorem ResolverMove.handed {env : Env Line} {s s' : State Line m n} {j : Fin n}
    (h : ResolverMove env s j s') (hhanded : s.Handed) : s'.Handed := by
  by_cases hpc' : (s'.resolver j).pc = .waitIsEmpty
  · rintro _ - ⟨i, hwaiting⟩
    cases h with
    | signal _ _ hsignal =>
        cases hsignal with
        | nobody hnone => simp [hnone i] at hwaiting
        | woken i' => exact ⟨i', by simp [RequesterPc.relocking]⟩
    | take hpc | takeWoken hpc =>
        rcases pop_pc { s with bufferLock := some (.resolver j) } j with hstay | ⟨_, hgone⟩
        · cases hpc.symm.trans (hstay.symm.trans hpc')
        · cases hgone.symm.trans hpc'
    | _ => simp at hpc'
  · refine hhanded.of_woken h.requesters fun j' hj' => ?_
    rw [← h.others fun heq => hpc' (heq ▸ hj')]
    exact hj'

/-! ### A requester that waits -/

theorem awake_of_not_waiting {r : Resolver Line} (hwaiting : r.waiting = false)
    (hleaving : r.pc.leaving = false) : r.pc.awake = true := by
  cases hpc : r.pc <;>
    simp_all [Resolver.waiting, ResolverPc.leaving, ResolverPc.awake]

theorem Resolver.wake_awake {r : Resolver Line} (hleaving : r.pc.leaving = false) :
    r.wake.pc.awake = true := by
  cases hwaiting : r.waiting with
  | true =>
      rw [Resolver.wake_of_waiting ((Resolver.waiting_iff _).mp hwaiting)]
      rfl
  | false => exact r.wake_woken.awake (awake_of_not_waiting hwaiting hleaving)

/-- While a requester is still to finish, no resolver leaves. -/
theorem State.Orderly.not_leaving {s : State Line m n} (h : s.Orderly) {i : Fin m}
    (hcounted : (s.requester i).pc.counted = false) (j : Fin n) :
    (s.resolver j).pc.leaving = false := by
  by_contra hleaving
  have hall := h.threadsFinished_eq_iff.mp (h.left j (by simpa using hleaving))
  simp [hall i] at hcounted

theorem RequesterPc.not_counted_of_suspended {pc : RequesterPc Line} (h : pc.suspended = true) :
    pc.counted = false := by
  cases pc <;> simp_all [RequesterPc.suspended, RequesterPc.counted]

theorem State.Attended.of_woken {s s' : State Line m n} (h : s.Attended)
    (hrequesters : ∀ i, (s.requester i).Woken (s'.requester i))
    (hresolvers : ∀ j, (s.resolver j).Woken (s'.resolver j)) : s'.Attended := by
  rintro ⟨i, hi⟩
  rcases h ⟨i, (hrequesters i).suspended_of hi⟩ with ⟨j, hj⟩ | ⟨i', hi'⟩
  · exact Or.inl ⟨j, (hresolvers j).awake hj⟩
  · exact Or.inr ⟨i', (hrequesters i').willSignal hi'⟩

/-- A requester stops being one that will signal only by signalling: it then leaves a resolver
awake, since none has exited while it is still to finish. -/
theorem RequesterMove.attended {env : Env Line} {s s' : State Line m n} {i : Fin m}
    (h : RequesterMove env s i s') (hn : 0 < n) (horderly : s.Orderly)
    (hattended : s.Attended) : s'.Attended := by
  rintro ⟨k, hk⟩
  by_cases hwill : (s'.requester i).pc.willSignal = true
  · exact Or.inr ⟨i, hwill⟩
  have hstill (hbefore : (s.requester i).pc.willSignal = false)
      (hsuspended : (s'.requester i).pc.suspended = true → (s.requester i).pc.suspended = true) :
      (∃ j, (s'.resolver j).pc.awake = true) ∨ ∃ i, (s'.requester i).pc.willSignal = true := by
    have hk' : (s.requester k).pc.suspended = true := by
      by_cases hki : k = i
      · exact hki ▸ hsuspended (hki ▸ hk)
      · exact h.others hki ▸ hk
    rcases hattended ⟨k, hk'⟩ with ⟨j, hj⟩ | ⟨i', hi'⟩
    · exact Or.inl ⟨j, (h.resolvers j).awake hj⟩
    · refine Or.inr ⟨i', ?_⟩
      rw [h.others fun heq => by simp [← heq, hi'] at hbefore]
      exact hi'
  have hplaced := horderly.placed i
  cases h with
  | signalFull input s₁ hpc hsignal =>
      cases hsignal with
      | nobody hnone =>
          refine Or.inl ⟨⟨0, hn⟩, awake_of_not_waiting (hnone _) ?_⟩
          exact horderly.not_leaving (i := i) (by simp [hpc, RequesterPc.counted]) _
      | woken j => exact Or.inl ⟨j, by simp [ResolverPc.awake]⟩
  | broadcast hpc =>
      have hki : k ≠ i := by
        rintro rfl
        simp [RequesterPc.suspended] at hk
      rw [setRequester_of_ne _ hki] at hk
      refine Or.inl ⟨⟨0, hn⟩, ?_⟩
      have hleaving := horderly.not_leaving (RequesterPc.not_counted_of_suspended hk) ⟨0, hn⟩
      exact Resolver.wake_awake hleaving
  | wait _ hpc | unlockService hpc | exit hpc =>
      exact hstill (by simp [hpc, RequesterPc.willSignal, RequesterPc.suspended,
        RequesterPc.broadcasted]) (by simp [hpc, RequesterPc.suspended])
  | closeFile hpc =>
      rw [Requester.Placed, hpc] at hplaced
      simp [RequesterPc.willSignal, RequesterPc.suspended, RequesterPc.broadcasted, hplaced.1]
        at hwill
  | badStream hpc =>
      simp [RequesterPc.willSignal, RequesterPc.suspended, RequesterPc.broadcasted, hpc] at hwill
  | _ =>
      simp [RequesterPc.willSignal, RequesterPc.suspended, RequesterPc.broadcasted] at hwill

/-- A resolver stops being awake only by waiting, after it has woken a requester. -/
theorem ResolverMove.attended {env : Env Line} {s s' : State Line m n} {j : Fin n}
    (h : ResolverMove env s j s') (howned : s.LocksOwned) (horderly : s.Orderly)
    (hhanded : s.Handed) (hattended : s.Attended) : s'.Attended := by
  rintro ⟨i, hi⟩
  have hi := (h.requesters i).suspended_of hi
  by_cases hawake : (s'.resolver j).pc.awake = true
  · exact Or.inl ⟨j, hawake⟩
  have hstill (hbefore : (s.resolver j).pc.awake = false) :
      (∃ j, (s'.resolver j).pc.awake = true) ∨ ∃ i, (s'.requester i).pc.willSignal = true := by
    rcases hattended ⟨i, hi⟩ with ⟨j', hj'⟩ | ⟨i', hi'⟩
    · refine Or.inl ⟨j', ?_⟩
      rw [h.others fun heq => by simp [← heq, hj'] at hbefore]
      exact hj'
    · exact Or.inr ⟨i', (h.requesters i').willSignal hi'⟩
  cases h with
  | exit hpc =>
      have := horderly.not_leaving (RequesterPc.not_counted_of_suspended hi) j
      simp [hpc, ResolverPc.leaving] at this
  | wait hpc =>
      have hj : s.holds .buffer (.resolver j) := by simp [State.holds, ResolverPc.holds, hpc]
      have hwaiting : (s.requester i).waiting = true := by
        cases hpci : (s.requester i).pc with
        | waitingIsFull input => exact (Requester.waiting_iff _).mpr ⟨input, hpci⟩
        | waitIsFull input =>
            -- it would hold the buffer together with the resolver
            cases (howned .buffer).unique (t := .requester i)
              (by simp [State.holds, RequesterPc.holds, hpci]) hj
        | _ => simp [RequesterPc.suspended, hpci] at hi
      obtain ⟨i', hi'⟩ := hhanded j hpc ⟨i, hwaiting⟩
      refine Or.inr ⟨i', ?_⟩
      cases hpci' : (s.requester i').pc <;>
        simp_all [RequesterPc.relocking, RequesterPc.willSignal, RequesterPc.suspended,
          RequesterPc.broadcasted]
  | take hpc | takeWoken hpc =>
      rcases pop_pc { s with bufferLock := some (.resolver j) } j with hstay | ⟨_, hgone⟩
      · simp [hstay, hpc, ResolverPc.awake] at hawake
      · simp [hgone, ResolverPc.awake] at hawake
  | _ => simp [ResolverPc.awake] at hawake

/-! ### After the last broadcast -/

theorem RequesterPc.counted_of_broadcasted {pc : RequesterPc Line} (h : pc.broadcasted = true) :
    pc.counted = true := by
  cases pc <;> simp_all [RequesterPc.broadcasted, RequesterPc.counted]

theorem RequesterMove.dismissed {env : Env Line} {s s' : State Line m n} {i : Fin m}
    {woken : Option (Fin n)} (h : RequesterMove env s i s')
    (hseen : LastBroadcastSeen s (.requester i woken)) (horderly : s.Orderly)
    (hdismissed : s.Dismissed) : s'.Dismissed := by
  intro hall j
  by_contra hparked
  have hparked := (h.resolvers j).parked_of (by simpa using hparked)
  have hothers : ∀ i', i' ≠ i → (s.requester i').pc.broadcasted = true := fun i' hne =>
    h.others hne ▸ hall i'
  by_cases hi : (s.requester i).pc.broadcasted = true
  · have hbefore : ∀ i', (s.requester i').pc.broadcasted = true := fun i' => by
      by_cases hne : i' = i
      · exact hne ▸ hi
      · exact hothers i' hne
    simp [hdismissed hbefore j] at hparked
  have hplaced := horderly.placed i
  have hlast := hall i
  cases h with
  | broadcast hpc =>
      have hcounted : ∀ i', (s.requester i').pc.counted = true := fun i' => by
        by_cases hne : i' = i
        · simp [hne, hpc, RequesterPc.counted]
        · exact RequesterPc.counted_of_broadcasted (hothers i' hne)
      have hcommitted := hseen (by simp [hpc, RequesterPc.broadcasting])
        (horderly.threadsFinished_eq_iff.mpr hcounted) j
      cases hpcj : (s.resolver j).pc <;>
        simp_all [ResolverPc.parked, ResolverPc.committed, State.broadcastIsEmpty, Resolver.wake]
  | unlockService hpc | exit hpc => simp [hpc, RequesterPc.broadcasted] at hi
  | closeFile hpc =>
      rw [Requester.Placed, hpc] at hplaced
      simp [RequesterPc.broadcasted, hplaced.1] at hlast
  | badStream => exact hi hlast
  | _ => simp [RequesterPc.broadcasted] at hlast

theorem ResolverMove.dismissed {env : Env Line} {s s' : State Line m n} {j : Fin n}
    (h : ResolverMove env s j s') (horderly : s.Orderly) (hdismissed : s.Dismissed) :
    s'.Dismissed := by
  intro hall j'
  have hbefore : ∀ i, (s.requester i).pc.broadcasted = true := fun i =>
    (h.requesters i).broadcasted_of (hall i)
  have hquiet := hdismissed hbefore
  by_cases hj : j' = j
  · subst hj
    have hquiet := hquiet j'
    cases h with
    | findEmpty _ _ _ hfinished =>
        exact absurd (horderly.threadsFinished_eq_iff.mpr fun i =>
          RequesterPc.counted_of_broadcasted (hbefore i)) hfinished
    | signal _ hpc | wait hpc => simp [hpc, ResolverPc.parked] at hquiet
    | take hpc | takeWoken hpc =>
        rcases pop_pc { s with bufferLock := some (.resolver j') } j' with hstay | ⟨_, hgone⟩
        · simp [hstay, hpc, ResolverPc.parked]
        · simp [hgone, ResolverPc.parked]
    | _ => simp [ResolverPc.parked]
  · rw [h.others hj]
    exact hquiet j'

/-! ### Every run -/

/-- What holds in every state of a run in which the last broadcast is seen. -/
structure State.Awaited (s : State Line m n) : Prop where
  handed : s.Handed
  attended : s.Attended
  dismissed : s.Dismissed

theorem State.Awaited.of_woken {s s' : State Line m n} (h : s.Awaited)
    (hrequesters : ∀ i, (s.requester i).Woken (s'.requester i))
    (hresolvers : ∀ j, (s.resolver j).Woken (s'.resolver j)) : s'.Awaited where
  handed := h.handed.of_woken hrequesters fun j => (hresolvers j).waitIsEmpty_of
  attended := h.attended.of_woken hrequesters hresolvers
  dismissed hall j := by
    by_contra hparked
    have hparked := (hresolvers j).parked_of (by simpa using hparked)
    simp [h.dismissed (fun i => (hrequesters i).broadcasted_of (hall i)) j] at hparked

theorem step_awaited {env : Env Line} {s s' : State Line m n} {a : Action m n}
    (h : step env s a = some s') (hn : 0 < n) (hseen : LastBroadcastSeen s a)
    (howned : s.LocksOwned) (horderly : s.Orderly) (hawaited : s.Awaited) : s'.Awaited := by
  cases (step_cases h).2 with
  | requester i woken _ hmove =>
      exact ⟨hmove.handed howned hawaited.handed, hmove.attended hn horderly hawaited.attended,
        hmove.dismissed hseen horderly hawaited.dismissed⟩
  | resolver j woken _ hmove =>
      exact ⟨hmove.handed hawaited.handed,
        hmove.attended howned horderly hawaited.handed hawaited.attended,
        hmove.dismissed horderly hawaited.dismissed⟩
  | spuriousRequester i input hwaiting =>
      exact hawaited.of_woken (SignalsIsFull.woken i input hwaiting).woken_requester
        fun _ => Or.inl rfl
  | spuriousResolver j hwaiting =>
      exact hawaited.of_woken (fun _ => Or.inl rfl)
        (SignalsIsEmpty.woken j hwaiting).woken_resolver

variable {args : Args Line} {s : State Line args.requesterThreadsCount args.resolverThreadCount}

theorem start_awaited : (start args).Awaited where
  handed j hpc := by cases hpc
  attended := by
    rintro ⟨i, hi⟩
    cases hi
  dismissed _ j := rfl

theorem awaited (h : Runs.Reach (step args.env) LastBroadcastSeen (start args) s) :
    s.Awaited := by
  refine h.invariant_of (Reachable args) State.Awaited
    (fun s hs => hs.mono fun _ _ _ => trivial) start_awaited ?_
  intro s a s' hreach hawaited hseen hstep
  exact step_awaited hstep args.resolvers_pos hseen
    (locksOwned hreach (step_cases hstep).1) (orderly hreach) hawaited

/-- **When the lookup cannot get stuck.** In every run in which the last broadcast does not fall
between a resolver's test and its wait, every state reached lets some thread go on until all have
exited, and no resolver waits on `isEmpty` after the last requester has exited. -/
theorem not_stuck (h : Runs.Reach (step args.env) LastBroadcastSeen (start args) s) :
    ¬s.Stuck args.env ∧
      ((∀ i, (s.requester i).pc.hasExited = true) → ∀ j, (s.resolver j).waiting = false) := by
  have hawaited := awaited h
  have hreach : Reachable args s := h.mono fun _ _ _ => trivial
  have hgone (hall : ∀ i, (s.requester i).pc = .exited) (j) :
      (s.resolver j).pc.parked = false :=
    hawaited.dismissed (fun i => by simp [hall i, RequesterPc.broadcasted]) j
  constructor
  · intro hstuck
    obtain ⟨hrequesters, hresolvers⟩ := hstuck.parked (locksOwned hreach hstuck.1)
    by_cases hall : ∀ i, (s.requester i).pc = .exited
    · have hleft : ∀ j, (s.resolver j).pc = .exited := fun j => by
        rcases hresolvers j with hpc | hpc
        · exact hpc
        · simpa [hpc, ResolverPc.parked] using hgone hall j
      rcases hstuck.2.1 with ⟨i, hi⟩ | ⟨j, hj⟩
      · simp [hall i, RequesterPc.hasExited] at hi
      · simp [hleft j, ResolverPc.hasExited] at hj
    · obtain ⟨i, hi⟩ := not_forall.mp hall
      obtain ⟨input, hpc⟩ := (hrequesters i).resolve_left hi
      rcases hawaited.attended ⟨i, by simp [hpc, RequesterPc.suspended]⟩ with ⟨j, hj⟩ | ⟨i', hi'⟩
      · rcases hresolvers j with hpc | hpc <;> simp [hpc, ResolverPc.awake] at hj
      · rcases hrequesters i' with hpc | ⟨_, hpc⟩ <;>
          simp [hpc, RequesterPc.willSignal, RequesterPc.suspended, RequesterPc.broadcasted] at hi'
  · intro hexited j
    have hall : ∀ i, (s.requester i).pc = .exited := fun i => by
      have := hexited i
      cases hpc : (s.requester i).pc <;> simp_all [RequesterPc.hasExited]
    have := hgone hall j
    cases hpc : (s.resolver j).pc <;> simp_all [ResolverPc.parked, Resolver.waiting]

theorem oneAfterOther_not_stuck :
    ∃ s, Runs.exec (step oneEach.env) (start oneEach) oneAfterOther = some s ∧
      ¬s.Stuck oneEach.env ∧
      ((∀ i, (s.requester i).pc.hasExited = true) → ∀ j, (s.resolver j).waiting = false) := by
  have hexec : (Runs.exec (Runs.guarded (step oneEach.env) LastBroadcastSeen) (start oneEach)
      oneAfterOther).isSome := by decide
  obtain ⟨s, hs⟩ := Option.isSome_iff_exists.mp hexec
  exact ⟨s, Runs.exec_of_guarded hs, not_stuck (Runs.Reach.of_guarded_exec .refl hs)⟩

/-- The resolver takes the only name, finds the buffer empty and the requester not finished; the
requester finishes, broadcasts to nobody and exits; the resolver waits. -/
def broadcastTooEarly : List (Action 1 1) :=
  List.replicate 7 requesterGoes ++ List.replicate 5 resolverGoes ++
    List.replicate 5 requesterGoes ++ List.replicate 2 resolverGoes

theorem broadcastTooEarly_stuck :
    oneEach.validFiles ≠ [] ∧ ¬∀ s, Reachable oneEach s → ¬s.Stuck oneEach.env := by
  refine ⟨by decide, fun h => ?_⟩
  have hrun : (Runs.exec (step oneEach.env) (start oneEach) broadcastTooEarly).map
      (fun s => decide (s.Stuck oneEach.env)) = some true := by decide
  obtain ⟨s, hexec, hstuck⟩ := Option.map_eq_some_iff.mp hrun
  exact h s (Runs.reachable_of_exec hexec) (of_decide_eq_true hstuck)

end OperatingSystems.Lookup
