import OperatingSystems.ProgramDecisions

/-!
Where the initialisation of a context writes. The functions are run again with a list of the
entries of `brings` that they write to, which tells a store past the end of the array from one
inside it.
-/

namespace OperatingSystems.Simulator

open Loop

/-! ### The entries that are written -/

/-- `recordDecisions`, and the entries it writes to. -/
def recordDecisionsLogged (rand : Stream) (prob : ℚ) :
    Nat → Nat → Bool → Bcontext → Option (Bcontext × Nat) × List Nat
  | 0, _, _, _ => (none, [])
  | fuel + 1, drawn, cvalue, c =>
      if c.bsize < maxBrings then
        if binary prob (rand drawn) = cvalue then
          let rest := recordDecisionsLogged rand prob fuel (drawn + 1) cvalue
            { c with brings := Function.update c.brings c.bsize (c.brings c.bsize + 1) }
          (rest.1, c.bsize :: rest.2)
        else
          let rest := recordDecisionsLogged rand prob fuel (drawn + 1) (!cvalue)
            { c with
              bsize := c.bsize + 1
              brings := Function.update c.brings (c.bsize + 1) 1 }
          (rest.1, (c.bsize + 1) :: rest.2)
      else (some (c, drawn), [])

/-- `recordRuns`, and the entries it writes to. -/
def recordRunsLogged (rand : Stream) (b : Branch) (drawn : Nat) (c : Bcontext) :
    (Bcontext × Nat) × List Nat :=
  loop (fun s _ => (recordRun rand b s.1, s.2 ++ [s.1.1.bsize, s.1.1.bsize + 1]))
    (maxBrings / 2) ((c, drawn), [])

/-- `bcontext_init`, and the entries of `brings` it writes to. -/
def bcontextInitLogged (rand : Stream) (fuel drawn : Nat) (c : Bcontext) (b : Branch) :
    Option (Bcontext × Nat) × List Nat :=
  match b.btype with
  | .GOTO =>
      (some ({ boffset := 0
               bsize := 1
               bvalue := true
               bcount := 0
               brings := fun i =>
                 if i = 0 then 0x7fffffff else if i < maxBrings then 0 else c.brings i }, drawn),
        List.range maxBrings)
  | .IF =>
      let cvalue := binary b.prob (rand drawn)
      recordDecisionsLogged rand b.prob fuel (drawn + 1) cvalue
        { c with boffset := 0, bsize := 0, bvalue := cvalue, bcount := 0 }
  | .FOR =>
      let s := recordRunsLogged rand b drawn
        { c with boffset := 0, bsize := 0, bvalue := true, bcount := 0 }
      (some s.1, s.2)
  | .NFOR =>
      let s := recordRunsLogged rand b drawn
        { c with boffset := 0, bsize := 0, bvalue := false, bcount := 0 }
      (some s.1, s.2)

section Erasure

variable (rand : Stream) (fuel drawn : Nat) (c : Bcontext) (b : Branch)

theorem recordDecisionsLogged_fst (prob : ℚ) (cvalue : Bool) :
    (recordDecisionsLogged rand prob fuel drawn cvalue c).1 =
      recordDecisions rand prob fuel drawn cvalue c := by
  induction fuel generalizing drawn cvalue c with
  | zero => rfl
  | succ fuel ih =>
      rw [recordDecisionsLogged, recordDecisions]
      split_ifs
      · exact ih ..
      · exact ih ..
      · rfl

theorem recordRunsLogged_fst : (recordRunsLogged rand b drawn c).1 = recordRuns rand b drawn c :=
  loop_erase Prod.fst (fun _ _ => rfl) _ _

/-- The list does not change what is computed. -/
theorem bcontextInitLogged_fst :
    (bcontextInitLogged rand fuel drawn c b).1 = bcontextInit rand fuel drawn c b := by
  unfold bcontextInitLogged bcontextInit
  cases b.btype with
  | GOTO => rfl
  | IF => exact recordDecisionsLogged_fst ..
  | FOR => exact congrArg some (recordRunsLogged_fst ..)
  | NFOR => exact congrArg some (recordRunsLogged_fst ..)

end Erasure

/-! ### Writes inside the array -/

/-- How many of `n` draws after the first give another outcome than the draw before. -/
def changes (rand : Stream) (prob : ℚ) : Nat → Nat → Nat
  | _, 0 => 0
  | drawn, n + 1 =>
      changes rand prob (drawn + 1) n +
        if binary prob (rand (drawn + 1)) = binary prob (rand drawn) then 0 else 1

section Writes

variable {rand : Stream} {drawn : Nat} {c : Bcontext} {b : Branch}

/-- Each change of outcome moves the writes on by one entry. -/
theorem recordDecisions_writes (prob : ℚ) (fuel : Nat) (hsize : c.bsize < maxBrings) :
    (∀ i ∈ (recordDecisionsLogged rand prob fuel (drawn + 1) (binary prob (rand drawn)) c).2,
      i < maxBrings) ↔ c.bsize + changes rand prob drawn fuel < maxBrings := by
  induction fuel generalizing drawn c with
  | zero => simpa [recordDecisionsLogged, changes] using hsize
  | succ fuel ih =>
      rw [recordDecisionsLogged, if_pos hsize, changes]
      by_cases hsame : binary prob (rand (drawn + 1)) = binary prob (rand drawn)
      · rw [if_pos hsame, if_pos hsame, ← hsame, List.forall_mem_cons, Nat.add_zero]
        exact (and_iff_right hsize).trans (ih hsize)
      · have hflip : (!binary prob (rand drawn)) = binary prob (rand (drawn + 1)) :=
          Bool.not_eq.mpr (Ne.symm hsame)
        rw [if_neg hsame, if_neg hsame, hflip, List.forall_mem_cons]
        by_cases hnext : c.bsize + 1 < maxBrings
        · rw [Nat.add_comm (changes ..), ← Nat.add_assoc]
          exact (and_iff_right hnext).trans (ih hnext)
        · refine iff_of_false (fun h => hnext h.1) ?_
          omega

/-- The loop of the `FOR` and `NFOR` cases writes pairs of entries, the last at the end of the
array. -/
theorem recordRuns_writes (hsize : c.bsize = 0) :
    ∀ i ∈ (recordRunsLogged rand b drawn c).2, i < maxBrings := by
  let inv (n : Nat) (s : (Bcontext × Nat) × List Nat) : Prop :=
    s.1.1.bsize = 2 * n ∧ ∀ i ∈ s.2, i < 2 * n
  have hruns : inv (maxBrings / 2) (recordRunsLogged rand b drawn c) := by
    apply loop_invariant inv
    · exact ⟨hsize, fun i hi => absurd hi List.not_mem_nil⟩
    rintro n s - ⟨hn, hwrites⟩
    refine ⟨congrArg (· + 2) hn, fun i hi => ?_⟩
    simp only [List.mem_append, List.mem_cons, List.not_mem_nil, or_false, hn] at hi
    rcases hi with hi | rfl | rfl
    · have := hwrites i hi
      omega
    · omega
    · omega
  exact hruns.2

/-- The loop of the `IF` case does not end before it has written past the array. -/
theorem recordDecisions_changes {prob : ℚ} {fuel : Nat} {r : Bcontext × Nat}
    (hsize : c.bsize < maxBrings)
    (h : recordDecisions rand prob fuel (drawn + 1) (binary prob (rand drawn)) c = some r) :
    maxBrings ≤ c.bsize + changes rand prob drawn fuel := by
  induction fuel generalizing drawn c with
  | zero => cases h
  | succ fuel ih =>
      rw [recordDecisions, if_pos hsize] at h
      rw [changes]
      split_ifs at h ⊢ with hsame
      · rw [← hsame] at h
        have hrest := fun hless => ih hless h
        exact hrest hsize
      · have hflip : (!binary prob (rand drawn)) = binary prob (rand (drawn + 1)) :=
          Bool.not_eq.mpr (Ne.symm hsame)
        rw [hflip] at h
        rw [Nat.add_comm (changes ..), ← Nat.add_assoc]
        by_cases hnext : c.bsize + 1 < maxBrings
        · exact ih hnext h
        · omega

end Writes

/-- An initialisation writes inside the array, however long it runs, unless it is that of an `IF`
whose draws change often enough for it to end. -/
theorem writes_inside_iff (rand : Stream) (drawn : Nat) (c : Bcontext) (b : Branch) :
    (∀ fuel, ∀ i ∈ (bcontextInitLogged rand fuel drawn c b).2, i < maxBrings) ↔
      (b.btype = .IF → ∀ n, changes rand b.prob drawn n < maxBrings) := by
  cases hb : b.btype with
  | GOTO =>
      simp only [bcontextInitLogged, hb, reduceCtorEq, false_imp_iff, iff_true]
      exact fun _ i hi => List.mem_range.mp hi
  | IF =>
      simp only [bcontextInitLogged, hb, true_imp_iff]
      refine forall_congr' fun fuel => ?_
      apply (recordDecisions_writes b.prob fuel maxBrings_pos).trans
      rw [Nat.zero_add]
  | FOR =>
      simp only [bcontextInitLogged, hb, reduceCtorEq, false_imp_iff, iff_true]
      exact fun _ => recordRuns_writes rfl
  | NFOR =>
      simp only [bcontextInitLogged, hb, reduceCtorEq, false_imp_iff, iff_true]
      exact fun _ => recordRuns_writes rfl

/-- Whenever the initialisation of an `IF` ends, it has written past the array. -/
theorem if_writes_past {rand : Stream} {fuel drawn : Nat} {c : Bcontext} {b : Branch}
    {r : Bcontext × Nat} (hb : b.btype = .IF) (h : bcontextInit rand fuel drawn c b = some r) :
    ¬ ∀ i ∈ (bcontextInitLogged rand fuel drawn c b).2, i < maxBrings := by
  rw [bcontextInit, hb] at h
  simp only [bcontextInitLogged, hb]
  rw [recordDecisions_writes b.prob fuel maxBrings_pos, not_lt]
  exact recordDecisions_changes maxBrings_pos h

/-- The loading of the fifth program writes past the array of its first branch. -/
theorem writes_past_pgm5 :
    ¬ ∀ i ∈ (bcontextInitLogged alternating 202 0 bcontextClear ((programs 4).branch 0)).2,
      i < maxBrings := by
  have hprob : 0 < ((programs 4).branch 0).prob ∧ ((programs 4).branch 0).prob ≤ 3 / 5 := by
    decide +kernel
  have hends : (bcontextInit alternating 202 0 bcontextClear ((programs 4).branch 0)).isSome :=
    bcontextInit_ends (fun _ => alternating_changes hprob.1 hprob.2) (by decide) 0 _
  obtain ⟨r, hr⟩ := Option.isSome_iff_exists.mp hends
  exact if_writes_past rfl hr

end OperatingSystems.Simulator
