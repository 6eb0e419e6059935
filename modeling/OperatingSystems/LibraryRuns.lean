import Mathlib.Logic.Function.Basic
import Mathlib.Data.List.Basic

/-!
Runs of a system whose steps are labelled and may be disabled. A step condition restricts which
steps a run may take, so that "in every run whose steps all meet the condition" and "in every
reachable state" are one notion; the executable form follows an explicit schedule of labels.
-/

namespace Runs

variable {State Label : Type*} (step : State → Label → Option State)

/-- The states reached from `start` by enabled steps that all meet the condition `ok`. -/
inductive Reach (ok : State → Label → Prop) (start : State) : State → Prop where
  | refl : Reach ok start start
  | tail {s s' : State} {a : Label} (hreach : Reach ok start s) (hok : ok s a)
      (hstep : step s a = some s') : Reach ok start s'

/-- Reachability by any enabled steps. -/
abbrev Reachable (start : State) : State → Prop := Reach step (fun _ _ => True) start

variable {step} {ok : State → Label → Prop} {start : State}

theorem Reach.mono {ok' : State → Label → Prop} (hsub : ∀ s a, ok s a → ok' s a) {s : State}
    (h : Reach step ok start s) : Reach step ok' start s := by
  induction h with
  | refl => exact .refl
  | tail _ hok hstep ih => exact .tail ih (hsub _ _ hok) hstep

theorem Reach.trans {s s' : State} (h : Reach step ok start s) (h' : Reach step ok s s') :
    Reach step ok start s' := by
  induction h' with
  | refl => exact h
  | tail _ hok hstep ih => exact .tail ih hok hstep

theorem reachable_step {s s' : State} {a : Label} (h : step s a = some s') :
    Reachable step s s' :=
  .tail .refl trivial h

/-- The invariant rule: what holds at the start and is kept by the allowed steps holds in every
state reached. -/
theorem Reach.invariant (inv : State → Prop) (hstart : inv start)
    (hkeep : ∀ s a s', inv s → ok s a → step s a = some s' → inv s') {s : State}
    (h : Reach step ok start s) : inv s := by
  induction h with
  | refl => exact hstart
  | tail _ hok hstep ih => exact hkeep _ _ _ ih hok hstep

/-- The invariant rule relative to facts that are already known of the states reached. -/
theorem Reach.invariant_of (known inv : State → Prop)
    (hknown : ∀ s, Reach step ok start s → known s) (hstart : inv start)
    (hkeep : ∀ s a s', known s → inv s → ok s a → step s a = some s' → inv s') {s : State}
    (h : Reach step ok start s) : inv s := by
  induction h with
  | refl => exact hstart
  | tail hreach hok hstep ih => exact hkeep _ _ _ (hknown _ hreach) ih hok hstep

/-! ### Explicit schedules -/

variable (step)

/-- Performs the labels in order; `none` as soon as one of them is disabled. -/
def exec : State → List Label → Option State
  | s, [] => some s
  | s, a :: rest => (step s a).bind fun s' => exec s' rest

/-- The states a schedule visits, up to its first disabled label. -/
def visited : State → List Label → List State
  | s, [] => [s]
  | s, a :: rest =>
      s :: match step s a with
        | some s' => visited s' rest
        | none => []

/-- Every step that the schedule takes meets the condition. -/
def Along (ok : State → Label → Prop) : State → List Label → Prop
  | _, [] => True
  | s, a :: rest => (∀ s', step s a = some s' → ok s a ∧ Along ok s' rest)

variable {step}

theorem reachable_of_exec {s s' : State} {schedule : List Label}
    (h : exec step s schedule = some s') : Reachable step s s' := by
  induction schedule generalizing s with
  | nil =>
      rw [exec, Option.some.injEq] at h
      exact h ▸ .refl
  | cons a rest ih =>
      rw [exec] at h
      cases hstep : step s a with
      | none => simp [hstep] at h
      | some next =>
          rw [hstep, Option.bind_some] at h
          exact (reachable_step hstep).trans (ih h)

/-- Performs a step only if it meets the condition. -/
def guarded (step : State → Label → Option State) (ok : State → Label → Prop)
    [∀ s a, Decidable (ok s a)] (s : State) (a : Label) : Option State :=
  if ok s a then step s a else none

theorem exec_of_guarded [∀ s a, Decidable (ok s a)] {s s' : State} {schedule : List Label}
    (h : exec (guarded step ok) s schedule = some s') : exec step s schedule = some s' := by
  induction schedule generalizing s with
  | nil => exact h
  | cons a rest ih =>
      rw [exec, guarded] at h
      rw [exec]
      split at h
      · cases hstep : step s a with
        | none => simp [hstep] at h
        | some next =>
            rw [hstep, Option.bind_some] at h
            exact ih h
      · simp at h

theorem Reach.of_guarded_exec [∀ s a, Decidable (ok s a)] {s s' : State} {schedule : List Label}
    (hreach : Reach step ok start s) (h : exec (guarded step ok) s schedule = some s') :
    Reach step ok start s' := by
  induction schedule generalizing s with
  | nil =>
      rw [exec, Option.some.injEq] at h
      exact h ▸ hreach
  | cons a rest ih =>
      rw [exec, guarded] at h
      by_cases hok : ok s a
      · cases hstep : step s a with
        | none => simp [hok, hstep] at h
        | some next =>
            rw [if_pos hok, hstep, Option.bind_some] at h
            exact ih (.tail hreach hok hstep) h
      · simp [hok] at h

/-- A schedule keeps a property of states exactly when it keeps to the step condition, if the
condition is what a single step from a good state needs. -/
theorem visited_iff_along {good : State → Prop} (known : State → Prop)
    (hkeep : ∀ s a s', known s → step s a = some s' → known s')
    (hgood : ∀ s a s', known s → good s → step s a = some s' → (good s' ↔ ok s a))
    {s : State} (hknown : known s) (hs : good s) (schedule : List Label) :
    (∀ s' ∈ visited step s schedule, good s') ↔ Along step ok s schedule := by
  induction schedule generalizing s with
  | nil => simpa [visited, Along] using hs
  | cons a rest ih =>
      rw [visited, Along]
      cases hstep : step s a with
      | none => simpa using hs
      | some next =>
          have hiff := hgood s a next hknown hs hstep
          have hnext := hkeep s a next hknown hstep
          constructor
          · intro hall s' heq
            obtain rfl : next = s' := Option.some.inj heq
            have hgoodNext : good next := by
              apply hall next
              rw [List.mem_cons]
              right
              cases rest <;> simp [visited]
            refine ⟨hiff.mp hgoodNext, (ih hnext hgoodNext).mp fun s' hmem => hall s' ?_⟩
            exact List.mem_cons_of_mem _ hmem
          · intro hall s' hmem
            obtain ⟨hok, hrest⟩ := hall next rfl
            rcases List.mem_cons.mp hmem with rfl | hmem
            · exact hs
            · exact (ih hnext (hiff.mpr hok)).mpr hrest s' hmem

/-! ### Ranks -/

/-- If every step lowers a rank, except that some labels may raise it a little, the rank at the
start bounds the length of a schedule. -/
theorem exec_length_le {rank : State → Nat} {raises : Label → Bool} {most : Nat}
    (hstep : ∀ s a s', step s a = some s' →
      rank s' + 1 ≤ rank s + if raises a then most else 0)
    {s s' : State} {schedule : List Label} (h : exec step s schedule = some s') :
    schedule.length + rank s' ≤ rank s + most * schedule.countP raises := by
  induction schedule generalizing s with
  | nil =>
      rw [exec, Option.some.injEq] at h
      simp [h]
  | cons a rest ih =>
      rw [exec, Option.bind_eq_some_iff] at h
      obtain ⟨next, ha, hrest⟩ := h
      have hnext := hstep s a next ha
      have hlength := ih hrest
      rw [List.length_cons, List.countP_cons, Nat.mul_add]
      cases hraises : raises a <;> simp [hraises] at hnext ⊢ <;> omega

end Runs
