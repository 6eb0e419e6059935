import OperatingSystems.LookupMoves

/-!
The resolver side of the shared buffer. The wait on `isEmpty` stands in an `if`, so a resolver that
resumes takes an item whether or not one is left; a finishing requester's broadcast, another
resolver that was faster, or a spurious wake-up all let it resume on the empty buffer.
-/

namespace OperatingSystems.Lookup

open Runs

variable {Line : Type} {m n : Nat}

/-- A resolver does not return from its wait on `isEmpty` while the buffer is empty. -/
def ResumesFilled (s : State Line m n) : Action m n → Prop
  | .resolver j _ => (s.resolver j).pc = .relockBuffer → s.currentPosition ≠ 0
  | _ => True

/-- Requesters never move `currentPosition` down. -/
theorem RequesterMove.currentPosition_le {env : Env Line} {s s' : State Line m n} {i : Fin m}
    (h : RequesterMove env s i s') : s.currentPosition ≤ s'.currentPosition := by
  cases h with
  | readStore | relockStore => simp
  | signalFull _ _ _ hsignal | signalDone _ _ hsignal =>
      obtain ⟨resolver, rfl⟩ := hsignal.frame
      exact le_rfl
  | _ => exact le_rfl

/-- A resolver moves `currentPosition` below zero exactly by resuming on an empty buffer. -/
theorem ResolverMove.nonneg_iff {env : Env Line} {s s' : State Line m n} {j : Fin n}
    (h : ResolverMove env s j s') (hs : 0 ≤ s.currentPosition) (woken : Option (Fin m)) :
    0 ≤ s'.currentPosition ↔ ResumesFilled s (.resolver j woken) := by
  cases h with
  | take hpc _ hitems =>
      simp only [pop_currentPosition, ResumesFilled, hpc]
      simp
      omega
  | takeWoken hpc _ =>
      simp only [pop_currentPosition, ResumesFilled, hpc]
      simp
      omega
  | signal _ hpc hsignal =>
      obtain ⟨requester, rfl⟩ := hsignal.frame
      simpa [ResumesFilled, hpc] using hs
  | leave hpc | findEmpty hpc | exit hpc | wait hpc | unlockBuffer _ hpc | resolve _ hpc
  | unlockResults hpc => simpa [ResumesFilled, hpc] using hs

theorem step_nonneg_iff {env : Env Line} {s s' : State Line m n} {a : Action m n}
    (hs : 0 ≤ s.currentPosition) (h : step env s a = some s') :
    0 ≤ s'.currentPosition ↔ ResumesFilled s a := by
  cases (step_cases h).2 with
  | requester i woken _ hmove =>
      exact ⟨fun _ => trivial, fun _ => hs.trans hmove.currentPosition_le⟩
  | resolver j woken _ hmove => exact hmove.nonneg_iff hs woken
  | spuriousRequester | spuriousResolver => exact ⟨fun _ => trivial, fun _ => hs⟩

/-- **When the buffer is never popped empty.** Whatever the threads, the files and the order of
steps: `currentPosition` is non-negative in every state of a run exactly when no resolver of the
run resumes from its wait on an empty buffer. -/
theorem currentPosition_nonneg_iff (args : Args Line)
    (schedule : List (Action args.requesterThreadsCount args.resolverThreadCount)) :
    (∀ s ∈ visited (step args.env) (start args) schedule, 0 ≤ s.currentPosition) ↔
      Along (step args.env) ResumesFilled (start args) schedule :=
  visited_iff_along (fun _ => True) (fun _ _ _ _ _ => trivial)
    (fun _ _ _ _ hs h => step_nonneg_iff hs h) trivial (le_refl (0 : Int)) schedule

/-- The plain run of one requester and one resolver: the resolver waits, takes the only name, waits
again, is woken by the broadcast of the finishing requester, and pops the empty buffer. -/
def poppedEmpty : List (Action 1 1) :=
  List.replicate 3 resolverGoes ++ List.replicate 5 requesterGoes ++
    [requesterWakes, requesterGoes] ++ List.replicate 7 resolverGoes ++
    List.replicate 3 requesterGoes ++ [resolverGoes]

theorem oneEach_underflows :
    oneEach.validFiles ≠ [] ∧ ¬∀ s, Reachable oneEach s → 0 ≤ s.currentPosition := by
  refine ⟨by decide, fun h => ?_⟩
  have hrun : (exec (step oneEach.env) (start oneEach) poppedEmpty).map State.currentPosition =
      some (-1) := by decide
  obtain ⟨s, hexec, hposition⟩ := Option.map_eq_some_iff.mp hrun
  have := h s (reachable_of_exec hexec)
  omega

end OperatingSystems.Lookup
