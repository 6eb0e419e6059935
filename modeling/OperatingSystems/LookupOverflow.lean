import OperatingSystems.LookupMoves

/-!
The requester side of the shared buffer. A requester that has waited for room looks again, and it
holds `buffer_lock` from the test to the store, so that it stores below the end whatever the others
have done in between.
-/

namespace OperatingSystems.Lookup

open Runs

variable {Line : Type} {m n : Nat}

/-- A resolver's move never moves the position up. -/
theorem ResolverMove.currentPosition_le {env : Env Line} {s s' : State Line m n} {j : Fin n}
    (h : ResolverMove env s j s') : s'.currentPosition ≤ s.currentPosition := by
  cases h with
  | signal _ _ hsignal =>
      obtain ⟨requester, rfl⟩ := hsignal.frame
      exact le_rfl
  | take | takeWoken => simp
  | _ => exact le_rfl

theorem step_currentPosition_le {env : Env Line} {s s' : State Line m n} {a : Action m n}
    (hs : s.currentPosition ≤ arraySize) (h : step env s a = some s') :
    s'.currentPosition ≤ arraySize := by
  cases (step_cases h).2 with
  | requester i woken _ hmove =>
      rcases hmove.stores with ⟨hposition, -⟩ | ⟨_, -, hroom, hposition, -⟩ <;> omega
  | resolver j woken _ hmove => exact hmove.currentPosition_le.trans hs
  | spuriousRequester | spuriousResolver => exact hs

variable {args : Args Line} {s : State Line args.requesterThreadsCount args.resolverThreadCount}

theorem currentPosition_le (h : Reachable args s) : s.currentPosition ≤ arraySize :=
  h.invariant (fun s => s.currentPosition ≤ (arraySize : Int)) (Int.natCast_nonneg arraySize)
    fun _ _ _ hs _ hstep => step_currentPosition_le hs hstep

/-- **No store past the end.** Whatever the threads, the files and the order of steps, the position
never exceeds `arraySize`, and a requester's step that changes the buffer stores one name below
it. -/
theorem stores_below_end (h : Reachable args s) :
    s.currentPosition ≤ arraySize ∧
    ∀ i woken s', step args.env s (.requester i woken) = some s' →
      (s'.currentPosition = s.currentPosition ∧ s'.buffer = s.buffer) ∨
      ∃ input, s.currentPosition < arraySize ∧ s'.currentPosition = s.currentPosition + 1 ∧
        s'.buffer = Function.update s.buffer s.currentPosition (some input) := by
  have hle := currentPosition_le h
  refine ⟨hle, ?_⟩
  intro i woken s' hstep
  cases (step_cases hstep).2 with
  | requester _ _ _ hmove =>
      apply hmove.stores.imp_right
      rintro ⟨input, -, hroom, hstored⟩
      exact ⟨input, lt_of_le_of_ne hle hroom, hstored⟩

/-- `oneEach` with a line more than the buffer holds. -/
def oneFull : Args String :=
  { oneEach with
    env :=
      { file := fun _ =>
          { readable := true, writable := true, regular := true
            lines := List.replicate (arraySize + 1) "a.com" }
        dnslookup := fun _ => none } }

/-- The requester has stored 19 names, and stores the one that fills the buffer. -/
theorem oneEach_stores_below_end : ∃ s s',
    exec (step oneFull.env) (start oneFull) (List.replicate 22 requesterGoes) = some s ∧
      step oneFull.env s requesterGoes = some s' ∧ s'.currentPosition = arraySize ∧
      ∃ input, s.currentPosition < arraySize ∧ s'.currentPosition = s.currentPosition + 1 ∧
        s'.buffer = Function.update s.buffer s.currentPosition (some input) := by
  have hrun : ((exec (step oneFull.env) (start oneFull)
      (List.replicate 22 requesterGoes)).bind fun s =>
        (step oneFull.env s requesterGoes).map fun s' =>
          (s.currentPosition, s'.currentPosition)) = some (19, 20) := by decide
  obtain ⟨s, hexec, hnext⟩ := Option.bind_eq_some_iff.mp hrun
  obtain ⟨s', hstep, hpositions⟩ := Option.map_eq_some_iff.mp hnext
  obtain ⟨hbefore, hafter⟩ := Prod.mk.inj hpositions
  refine ⟨s, s', hexec, hstep, hafter, ?_⟩
  rcases (stores_below_end (reachable_of_exec hexec)).2 (0 : Fin 1) none s' hstep with
    ⟨hsame, -⟩ | hstores
  · omega
  · exact hstores

end OperatingSystems.Lookup
