import OperatingSystems.ProgramDecisions
import Mathlib.Algebra.BigOperators.Ring.Finset
import Mathlib.Algebra.Ring.Periodic
import Mathlib.Data.Nat.Periodic

/-!
The decisions that a context makes, as one sequence, and the sequence that each kind of branch
records: the draws themselves for an `IF`, rounds for a loop, and one long run for a `GOTO`.
-/

namespace OperatingSystems.Simulator

namespace Bcontext

/-- The context after `t` decisions. -/
def after (c : Bcontext) : Nat → Bcontext
  | 0 => c
  | t + 1 => (bcontextDecide (c.after t)).2

/-- The decision that follows `t` others. -/
def decision (c : Bcontext) (t : Nat) : Bool := (bcontextDecide (c.after t)).1

/-! ### The sequence of decisions -/

section Filled

variable {c : Bcontext} (h : c.Filled)

include h

theorem Filled.stands_after (t : Nat) : c.Stands (c.after t) t := by
  induction t with
  | zero => exact h.stands
  | succ t ih => exact ih.next h

theorem Filled.decision_eq {t : Nat} {v : Bool} (hv : c.Says t v) : c.decision t = v :=
  (h.stands_after t).decide h hv

/-- The offset stays in the table, whose size does not change. -/
theorem Filled.boffset_after (t : Nat) :
    (c.after t).bsize = c.bsize ∧ (c.after t).boffset < c.bsize := by
  obtain ⟨i, j, -, -, hd⟩ := h.stands_after t
  rw [hd]
  exact ⟨rfl, Nat.mod_lt i h.bsize⟩

end Filled

/-! ### Periods -/

section Period

variable {c : Bcontext}

theorem begins_add_bsize (i : Nat) : c.begins (i + c.bsize) = c.begins i + c.begins c.bsize := by
  induction i with
  | zero => rw [Nat.zero_add, begins, Nat.zero_add]
  | succ i ih =>
      have hlength : c.length (i + c.bsize) = c.length i := by
        rw [length, length, Nat.add_mod_right]
      calc c.begins (i + 1 + c.bsize)
          = c.begins (i + c.bsize + 1) := by rw [Nat.add_right_comm]
        _ = c.begins (i + c.bsize) + c.length (i + c.bsize) := rfl
        _ = c.begins i + c.begins c.bsize + c.length i := by rw [ih, hlength]
        _ = c.begins (i + 1) + c.begins c.bsize := Nat.add_right_comm ..

theorem value_add_bsize (heven : c.bsize % 2 = 0) (i : Nat) : c.value (i + c.bsize) = c.value i := by
  rw [value, value, Nat.add_mod, heven, Nat.add_zero, Nat.mod_mod]

/-- After an even number of runs the table starts over with the same decisions. -/
theorem Filled.decision_periodic (h : c.Filled) (heven : c.bsize % 2 = 0) :
    Function.Periodic c.decision (c.begins c.bsize) := by
  intro t
  obtain ⟨v, hv⟩ := h.exists_said t
  rw [h.decision_eq hv]
  obtain ⟨i, hlow, hhigh, rfl⟩ := hv
  apply h.decision_eq
  refine ⟨i + c.bsize, ?_, ?_, (value_add_bsize heven i).symm⟩
  · rw [begins_add_bsize]
    exact Nat.add_le_add_right hlow _
  · rw [Nat.add_right_comm, begins_add_bsize]
    exact Nat.add_lt_add_right hhigh _

/-- Up to the end of the table, no entry comes twice. -/
theorem begins_eq_sum {n : Nat} (hn : n ≤ c.bsize) :
    c.begins n = ∑ i ∈ Finset.range n, (c.brings i).toNat := by
  induction n with
  | zero => rfl
  | succ n ih =>
      rw [begins, ih (Nat.le_of_succ_le hn), Finset.sum_range_succ, length,
        Nat.mod_eq_of_lt (Nat.lt_of_succ_le hn)]

end Period

end Bcontext

/-! ### `IF` -/

/-- The runs of the table and the current run after it hold the first `n` outcomes. -/
structure Bcontext.Records (outcome : Nat → Bool) (c : Bcontext) (n : Nat) : Prop where
  pos : ∀ i, i ≤ c.bsize → 1 ≤ c.brings i
  runs : ∀ i, i ≤ c.bsize → ∀ j, j < (c.brings i).toNat →
    outcome (∑ k ∈ Finset.range i, (c.brings k).toNat + j) = c.value i
  total : n = ∑ k ∈ Finset.range (c.bsize + 1), (c.brings k).toNat

theorem sum_update_of_le (brings : Nat → Int) {i m : Nat} (v : Int) (h : i ≤ m) :
    ∑ k ∈ Finset.range i, (Function.update brings m v k).toNat =
      ∑ k ∈ Finset.range i, (brings k).toNat := by
  refine Finset.sum_congr rfl fun k hk => ?_
  rw [Function.update_of_ne (by simp only [Finset.mem_range] at hk; omega)]

section Records

variable {outcome : Nat → Bool} {c : Bcontext} {n : Nat} (h : c.Records outcome n)

include h

/-- An outcome as before makes the current run longer. -/
theorem Bcontext.Records.longer (hsame : outcome n = c.value c.bsize) :
    Bcontext.Records outcome
      { c with brings := Function.update c.brings c.bsize (c.brings c.bsize + 1) } (n + 1) := by
  have hpos := h.pos c.bsize le_rfl
  have hn := h.total
  rw [Finset.sum_range_succ] at hn
  refine ⟨fun i hi => ?_, fun i hi j hj => ?_, ?_⟩
  · rcases Nat.lt_or_eq_of_le hi with hlt | rfl
    · simp only [Function.update_of_ne hlt.ne]
      exact h.pos i hi
    · simp only [Function.update_self]
      omega
  · simp only [sum_update_of_le _ _ hi]
    rcases Nat.lt_or_eq_of_le hi with hlt | rfl
    · simp only [Function.update_of_ne hlt.ne] at hj
      exact h.runs i hi j hj
    · simp only [Function.update_self] at hj
      by_cases hlast : j < (c.brings c.bsize).toNat
      · exact h.runs c.bsize le_rfl j hlast
      · obtain rfl : j = (c.brings c.bsize).toNat := by omega
        rw [← hn]
        exact hsame
  · simp only [Finset.sum_range_succ, sum_update_of_le _ _ le_rfl, Function.update_self]
    omega

/-- What is recorded is decided again. -/
theorem Bcontext.Records.decision_eq (hfilled : c.Filled) {t : Nat} (ht : t < c.begins c.bsize) :
    c.decision t = outcome t := by
  obtain ⟨v, i, hlow, hhigh, rfl⟩ := hfilled.exists_said t
  have hi : i < c.bsize := hfilled.begins_strictMono.lt_iff_lt.mp (hlow.trans_lt ht)
  obtain ⟨j, rfl⟩ := Nat.exists_eq_add_of_le hlow
  have hj : j < c.length i := Nat.lt_of_add_lt_add_left hhigh
  rw [hfilled.decision_eq ⟨i, hlow, hhigh, rfl⟩, c.begins_eq_sum hi.le]
  rw [Bcontext.length, Nat.mod_eq_of_lt hi] at hj
  exact (h.runs i hi.le j hj).symm

/-- Another outcome begins the next run. -/
theorem Bcontext.Records.turns (hother : outcome n = !c.value c.bsize) :
    Bcontext.Records outcome
      { c with bsize := c.bsize + 1, brings := Function.update c.brings (c.bsize + 1) 1 }
      (n + 1) := by
  refine ⟨fun i hi => ?_, fun i hi j hj => ?_, ?_⟩
  · rcases Nat.lt_or_eq_of_le hi with hlt | rfl
    · simp only [Function.update_of_ne hlt.ne]
      exact h.pos i (Nat.le_of_lt_succ hlt)
    · simp only [Function.update_self, le_refl]
  · simp only [sum_update_of_le _ _ hi]
    rcases Nat.lt_or_eq_of_le hi with hlt | rfl
    · simp only [Function.update_of_ne hlt.ne] at hj
      exact h.runs i (Nat.le_of_lt_succ hlt) j hj
    · obtain rfl : j = 0 := by simpa using hj
      rw [Nat.add_zero, ← h.total, hother]
      exact (c.value_succ c.bsize).symm
  · rw [h.total]
    simp only [Finset.sum_range_succ _ (c.bsize + 1), sum_update_of_le _ _ le_rfl,
      Function.update_self]
    rfl

end Records

section Init

variable {rand : Stream} {drawn drawn' : Nat} {c d : Bcontext}

/-- The loop of the `IF` case records what it draws; the last draw is counted in the entry after
the table. -/
theorem recordDecisions_records {prob : ℚ} {fuel start n : Nat} {cvalue : Bool}
    (h : recordDecisions rand prob fuel (start + n) cvalue c = some (d, drawn'))
    (hrecords : c.Records (fun t => binary prob (rand (start + t))) n)
    (hvalue : cvalue = c.value c.bsize) (hsize : c.bsize ≤ maxBrings)
    (hlast : c.bsize = maxBrings → c.brings maxBrings = 1) :
    d.bsize = maxBrings ∧ d.brings maxBrings = 1 ∧ ∃ n',
      drawn' = start + n' ∧ d.Records (fun t => binary prob (rand (start + t))) n' := by
  induction fuel generalizing n cvalue c with
  | zero => cases h
  | succ fuel ih =>
      rw [recordDecisions] at h
      split_ifs at h with hless hsame
      · refine ih h (hrecords.longer (hsame.trans hvalue)) hvalue hsize fun heq => ?_
        exact absurd heq hless.ne
      · have hother : binary prob (rand (start + n)) = !cvalue := by
          cases hcvalue : cvalue <;> simpa [hcvalue] using hsame
        refine ih h (hrecords.turns (hother.trans (congrArg _ hvalue))) ?_ hless fun heq => ?_
        · rw [hvalue]
          exact (c.value_succ c.bsize).symm
        · simp only [← heq, Function.update_self]
      · obtain ⟨rfl, rfl⟩ := Prod.mk.inj (Option.some.inj h)
        have hfull : c.bsize = maxBrings := hsize.antisymm (not_lt.mp hless)
        exact ⟨hfull, hlast hfull, n, rfl, hrecords⟩

/-- An `IF` repeats what was drawn for it, all but the last draw, over and over. -/
theorem if_replays {b : Branch} {fuel : Nat} (hb : b.btype = .IF)
    (h : bcontextInit rand fuel drawn bcontextClear b = some (d, drawn')) :
    ∃ N : Nat, 0 < N ∧ (N : Int) = ∑ i ∈ Finset.range maxBrings, d.brings i ∧
      drawn' = drawn + N + 1 ∧
      ∀ t, d.decision t = binary b.prob (rand (drawn + t % N)) := by
  let outcome (t : Nat) : Bool := binary b.prob (rand (drawn + t))
  let start : Bcontext := { bcontextClear with bsize := 0, bvalue := outcome 0 }
  have hrec : recordDecisions rand b.prob fuel (drawn + 1) (outcome 0) start =
      some (d, drawn') := by
    rw [bcontextInit, hb] at h
    exact h
  have hstart : start.Records outcome 1 := by
    refine ⟨fun i hi => ?_, fun i hi j hj => ?_, rfl⟩
    · obtain rfl : i = 0 := Nat.le_zero.mp hi
      exact le_rfl
    · obtain rfl : i = 0 := Nat.le_zero.mp hi
      obtain rfl : j = 0 := Nat.lt_one_iff.mp hj
      rfl
  have hfilled : d.Filled :=
    recordDecisions_filled hrec rfl rfl (Nat.zero_le _) hstart.pos
  obtain ⟨hsize, hlast, n, rfl, hrecords⟩ :=
    recordDecisions_records hrec hstart rfl (Nat.zero_le _) fun heq =>
      absurd (show 0 = maxBrings from heq) (by decide)
  have hsum : (d.begins d.bsize : Int) = ∑ i ∈ Finset.range maxBrings, d.brings i := by
    rw [d.begins_eq_sum le_rfl, hsize, Nat.cast_sum]
    refine Finset.sum_congr rfl fun i hi => Int.toNat_of_nonneg ?_
    have := hfilled.brings i (by simpa [hsize] using hi)
    omega
  have htotal : n = d.begins d.bsize + 1 := by
    rw [hrecords.total, Finset.sum_range_succ, ← d.begins_eq_sum le_rfl, hsize, hlast]
    rfl
  have hpos : 0 < d.begins d.bsize := by
    have := hfilled.begins_strictMono hfilled.bsize
    rwa [Bcontext.begins] at this
  refine ⟨_, hpos, hsum, by omega, fun t => ?_⟩
  rw [← (hfilled.decision_periodic (by rw [hsize]; decide)).map_mod_nat t]
  exact hrecords.decision_eq hfilled (Nat.mod_lt t hpos)

end Init

theorem if_replays_pgm5 : ∃ d drawn',
    bcontextInit alternating 202 0 bcontextClear ((programs 4).branch 0) = some (d, drawn') ∧
      ∃ N : Nat, 0 < N ∧ (N : Int) = ∑ i ∈ Finset.range maxBrings, d.brings i ∧
        drawn' = 0 + N + 1 ∧
        ∀ t, d.decision t = binary ((programs 4).branch 0).prob (alternating (0 + t % N)) := by
  have hprob : 0 < ((programs 4).branch 0).prob ∧ ((programs 4).branch 0).prob ≤ 3 / 5 := by
    decide +kernel
  have hends : (bcontextInit alternating 202 0 bcontextClear ((programs 4).branch 0)).isSome :=
    bcontextInit_ends (fun _ => alternating_changes hprob.1 hprob.2) (by decide) 0 _
  obtain ⟨⟨d, drawn'⟩, hd⟩ := Option.isSome_iff_exists.mp hends
  exact ⟨d, drawn', hd, if_replays rfl hd⟩

/-! ### `FOR` and `NFOR` -/

/-- The decisions come in rounds: a number of equal ones and then the other one. -/
def Bcontext.Rounds (c : Bcontext) (v : Bool) (rounds : Nat → Nat) : Prop :=
  ∀ e, (List.range (∑ i ∈ Finset.range e, (rounds i + 1))).map c.decision =
    (List.range e).flatMap fun i => List.replicate (rounds i) v ++ [!v]

theorem Bcontext.Blocks.rounds {c : Bcontext} (hfilled : c.Filled) (h : c.Blocks) :
    c.Rounds c.bvalue fun e => (c.rounds e).toNat := by
  have hbegins : ∀ e, ∑ i ∈ Finset.range e, ((c.rounds i).toNat + 1) = c.begins (2 * e) := by
    intro e
    induction e with
    | zero => rfl
    | succ e ih => rw [Finset.sum_range_succ, ih, h.begins_succ hfilled]
  intro e
  rw [hbegins]
  induction e with
  | zero => rfl
  | succ e ih =>
      have hround : (List.range (c.rounds e).toNat).map (fun j => c.decision (c.begins (2 * e) + j)) =
          List.replicate (c.rounds e).toNat c.bvalue := by
        rw [List.eq_replicate_iff, List.length_map, List.length_range]
        refine ⟨rfl, fun v hv => ?_⟩
        obtain ⟨j, hj, rfl⟩ := List.mem_map.mp hv
        exact hfilled.decision_eq (c.says_block e (List.mem_range.mp hj))
      rw [h.begins_succ hfilled, List.range_add, List.map_append, ih, List.range_succ (n := e),
        List.flatMap_append, List.map_map]
      simp only [List.range_succ, List.map_append, List.flatMap_singleton, List.map_cons,
        List.map_nil, Function.comp_def, hround, hfilled.decision_eq (hfilled.says_leave e)]

/-- A loop stays and leaves in rounds, each with a number of repetitions that the branch allows,
and the offset stays in the table. -/
theorem loop_rounds {b : Branch} {v : Bool} (hb : b.btype = if v then .FOR else .NFOR)
    (hmin : 1 ≤ b.min) (rand : Stream) (fuel drawn : Nat) (c : Bcontext) :
    ∃ d drawn', bcontextInit rand fuel drawn c b = some (d, drawn') ∧
      (∃ rounds : Nat → Nat, (∀ e, b.Allows (rounds e)) ∧ d.Rounds v rounds) ∧
      ∀ t, (d.after t).boffset < (d.after t).bsize ∧ (d.after t).bsize ≤ maxBrings ∧
        0 < (d.after t).bsize := by
  let start : Bcontext := { c with boffset := 0, bsize := 0, bvalue := v, bcount := 0 }
  have hinit : bcontextInit rand fuel drawn c b = some (recordRuns rand b drawn start) := by
    rw [bcontextInit, hb]
    cases v <;> rfl
  obtain ⟨⟨d, drawn'⟩, hrec⟩ : ∃ s, recordRuns rand b drawn start = s := ⟨_, rfl⟩
  obtain ⟨hfilled, hblocks, hsize, hvalue, hallows⟩ := recordRuns_blocks hmin rfl rfl rfl hrec
  have hdecisions := hblocks.rounds hfilled
  rw [hvalue] at hdecisions
  refine ⟨d, drawn', hinit.trans (congrArg some hrec), ⟨_, fun e => ?_, hdecisions⟩, fun t => ?_⟩
  · have hrounds : b.Allows (d.rounds e) :=
      hallows _ (Nat.mod_lt (2 * e) hfilled.bsize) (hblocks.mod_even e)
    have hmin_le := hrounds.min_le
    rwa [Int.toNat_of_nonneg (by omega)]
  · obtain ⟨hbsize, hboffset⟩ := hfilled.boffset_after t
    rw [hbsize]
    exact ⟨hboffset, hsize.le, hfilled.bsize⟩

theorem loop_rounds_pgm2 : ∃ d drawn',
    bcontextInit alternating 0 0 bcontextClear ((programs 1).branch 0) = some (d, drawn') ∧
      (∃ rounds : Nat → Nat, (∀ e, ((programs 1).branch 0).Allows (rounds e)) ∧
        d.Rounds true rounds) ∧
      ∀ t, (d.after t).boffset < (d.after t).bsize ∧ (d.after t).bsize ≤ maxBrings ∧
        0 < (d.after t).bsize :=
  loop_rounds rfl (by decide) _ _ _ _

/-! ### `GOTO` -/

/-- After `n` decisions the branch is taken: the counter is set to its target, from where the
program starts over if that is none of its addresses. -/
def Branch.Taken (b : Branch) (d : Bcontext) (n : Nat) : Prop :=
  d.decision n = true ∧ ∀ ⦃p : Program⦄ ⦃contexts pc⦄ ⦃k : Nat⦄, p.branch k = b →
    contexts k = d.after n →
    (processDobranch ⟨p, contexts, pc⟩ k).pc =
      if b.whereto < 0 ∨ b.whereto ≥ p.size then 0 else b.whereto

theorem Branch.taken_iff {b : Branch} {d : Bcontext} {n : Nat} :
    b.Taken d n ↔ d.decision n = true := by
  refine ⟨fun h => h.1, fun h => ⟨h, fun p contexts pc k hbranch hcontext => ?_⟩⟩
  rw [Bcontext.decision, ← hcontext] at h
  simp only [processDobranch, h, hbranch, if_true]

theorem bcontextInit_goto_ends {b : Branch} (hb : b.btype = .GOTO) (rand : Stream)
    (fuel drawn : Nat) (c : Bcontext) :
    ∃ d drawn', bcontextInit rand fuel drawn c b = some (d, drawn') := by
  rw [bcontextInit, hb]
  exact ⟨_, _, rfl⟩

/-- The one run of a `GOTO` is followed by the same run of the other decision. -/
theorem goto_decision {rand : Stream} {fuel drawn drawn' : Nat} {c d : Bcontext} {b : Branch}
    (hb : b.btype = .GOTO) (h : bcontextInit rand fuel drawn c b = some (d, drawn')) (n : Nat) :
    d.decision n = true ↔ Even (n / Bcontext.jumps) := by
  obtain ⟨hfilled, hsize, hvalue, hlength⟩ := bcontextInit_goto hb h
  have hlengths : ∀ i, d.length i = Bcontext.jumps := by
    intro i
    rw [← hlength, Bcontext.length, Bcontext.length, hsize, Nat.mod_one, Nat.mod_one]
  have hbegins : ∀ i, d.begins i = i * Bcontext.jumps := by
    intro i
    induction i with
    | zero => rw [Bcontext.begins, Nat.zero_mul]
    | succ i ih => rw [Bcontext.begins, ih, hlengths, Nat.succ_mul]
  have hpos : 0 < Bcontext.jumps := by decide
  have hsaid : d.Says n (d.value (n / Bcontext.jumps)) := by
    refine ⟨n / Bcontext.jumps, ?_, ?_, rfl⟩
    · rw [hbegins]
      exact Nat.div_mul_le_self n _
    · rw [hbegins]
      exact Nat.lt_mul_of_div_lt (Nat.lt_succ_self _) hpos
  rw [hfilled.decision_eq hsaid, Bcontext.value, hvalue, Nat.even_iff]
  split_ifs with heven
  · simp [heven]
  · simp [heven]

/-- A `GOTO` is taken `2 ^ 31 - 1` times, then not taken as often, and so on. -/
theorem goto_taken {b : Branch} (hb : b.btype = .GOTO) (rand : Stream) (fuel drawn : Nat)
    (c : Bcontext) :
    ∃ d drawn', bcontextInit rand fuel drawn c b = some (d, drawn') ∧
      ∀ n, b.Taken d n ↔ Even (n / (2 ^ 31 - 1)) := by
  obtain ⟨d, drawn', hd⟩ := bcontextInit_goto_ends hb rand fuel drawn c
  exact ⟨d, drawn', hd, fun n => Branch.taken_iff.trans (goto_decision hb hd n)⟩

theorem goto_taken_pgm1 : ∃ d drawn', bcontextInit (fun _ => 0) 0 0 bcontextClear
    ((programs 0).branch 1) = some (d, drawn') ∧
      ∀ n, ((programs 0).branch 1).Taken d n ↔ Even (n / (2 ^ 31 - 1)) :=
  goto_taken rfl _ _ _ _

/-- After `2 ^ 31 - 1` jumps the first program runs on past its `GOTO`. -/
theorem goto_not_taken : ∃ d drawn', bcontextInit (fun _ => 0) 0 0 bcontextClear
    ((programs 0).branch 1) = some (d, drawn') ∧
      ¬ ((programs 0).branch 1).Taken d (2 ^ 31 - 1) ∧
      (processDobranch ⟨programs 0, fun _ => d.after (2 ^ 31 - 1), 1401⟩ 1).pc = 1402 := by
  obtain ⟨d, drawn', hd⟩ :=
    bcontextInit_goto_ends (b := (programs 0).branch 1) rfl (fun _ => 0) 0 0 bcontextClear
  have hodd : ¬ Even ((2 ^ 31 - 1) / Bcontext.jumps) := by decide
  have hdecision : ¬ d.decision (2 ^ 31 - 1) = true := (goto_decision rfl hd _).not.mpr hodd
  refine ⟨d, drawn', hd, fun htaken => hdecision htaken.1, ?_⟩
  rw [Bcontext.decision] at hdecision
  simp only [processDobranch, if_neg hdecision]
  decide

end OperatingSystems.Simulator
