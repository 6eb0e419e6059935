import OperatingSystems.ProgramModel
import Mathlib.Order.Monotone.Basic
import Mathlib.Tactic.NormNum

/-!
Branch contexts as tables. A context holds its decisions as the lengths of runs of equal ones, and
starts over after the last run; it is read off here which decision comes when, without the counters
that `bcontextDecide` keeps, and the counters are shown to follow the table.
-/

namespace OperatingSystems.Simulator

open Loop

namespace Bcontext

/-! ### Tables -/

/-- The length of the `i`-th run of equal decisions. -/
def length (c : Bcontext) (i : Nat) : Nat := (c.brings (i % c.bsize)).toNat

/-- The number of decisions before the `i`-th run. -/
def begins (c : Bcontext) : Nat → Nat
  | 0 => 0
  | i + 1 => c.begins i + c.length i

/-- The decision of which the `i`-th run consists. -/
def value (c : Bcontext) (i : Nat) : Bool := if i % 2 = 0 then c.bvalue else !c.bvalue

/-- The `t`-th decision of the table. -/
def Says (c : Bcontext) (t : Nat) (v : Bool) : Prop :=
  ∃ i, c.begins i ≤ t ∧ t < c.begins (i + 1) ∧ v = c.value i

/-- How often a loop is repeated when it is entered for the `e`-th time. -/
def rounds (c : Bcontext) (e : Nat) : Int := c.brings (2 * e % c.bsize)

/-- A context that has not decided yet, and in which every run has a decision. -/
structure Filled (c : Bcontext) : Prop where
  boffset : c.boffset = 0
  bcount : c.bcount = 0
  bsize : 0 < c.bsize
  brings : ∀ i, i < c.bsize → 1 ≤ c.brings i

/-- The context as it stands after `t` decisions. -/
def Stands (c d : Bcontext) (t : Nat) : Prop :=
  ∃ i j, t = c.begins i + j ∧ j < c.length i ∧
    d = { c with boffset := i % c.bsize, bvalue := c.value i, bcount := j }

theorem value_succ (c : Bcontext) (i : Nat) : c.value (i + 1) = !c.value i := by
  rcases Nat.mod_two_eq_zero_or_one i with hi | hi
  · rw [value, value, if_pos hi, if_neg (by omega)]
  · rw [value, value, if_pos (by omega), if_neg (by omega), Bool.not_not]

section Filled

variable {c d : Bcontext} {t : Nat} (h : c.Filled)

include h

theorem Filled.length_pos (i : Nat) : 0 < c.length i := by
  have := h.brings _ (Nat.mod_lt i h.bsize)
  rw [length]
  omega

theorem Filled.begins_lt (i : Nat) : c.begins i < c.begins (i + 1) :=
  Nat.lt_add_of_pos_right (h.length_pos i)

theorem Filled.begins_strictMono : StrictMono c.begins := strictMono_nat_of_lt_succ h.begins_lt

/-- Every decision lies in a run. -/
theorem Filled.exists_run (t : Nat) : ∃ i j, t = c.begins i + j ∧ j < c.length i := by
  induction t with
  | zero => exact ⟨0, 0, rfl, h.length_pos 0⟩
  | succ t ih =>
      obtain ⟨i, j, rfl, hj⟩ := ih
      by_cases hend : j + 1 < c.length i
      · exact ⟨i, j + 1, rfl, hend⟩
      · refine ⟨i + 1, 0, ?_, h.length_pos _⟩
        rw [begins]
        omega

/-- No decision lies in two runs. -/
theorem Filled.run_unique {i j i' : Nat} (hj : j < c.length i) (hlow : c.begins i' ≤ c.begins i + j)
    (hhigh : c.begins i + j < c.begins (i' + 1)) : i' = i := by
  have hend : c.begins i + j < c.begins (i + 1) := Nat.add_lt_add_left hj _
  have hle : i' < i + 1 := h.begins_strictMono.lt_iff_lt.mp (hlow.trans_lt hend)
  have hge : i < i' + 1 :=
    h.begins_strictMono.lt_iff_lt.mp ((Nat.le_add_right _ j).trans_lt hhigh)
  omega

theorem Filled.stands : c.Stands c 0 := by
  refine ⟨0, 0, rfl, h.length_pos 0, ?_⟩
  obtain ⟨boffset, bsize, bvalue, bcount, brings⟩ := c
  obtain rfl : boffset = 0 := h.boffset
  obtain rfl : bcount = 0 := h.bcount
  rw [Nat.zero_mod]
  rfl

/-- What the context decides is what the table says. -/
theorem Stands.decide {v : Bool} (hd : c.Stands d t) (hv : c.Says t v) : d.bvalue = v := by
  obtain ⟨i, j, rfl, hj, rfl⟩ := hd
  obtain ⟨i', hlow, hhigh, rfl⟩ := hv
  rw [h.run_unique hj hlow hhigh]

/-- The next decision of the table comes next. -/
theorem Stands.next (hd : c.Stands d t) : c.Stands (bcontextDecide d).2 (t + 1) := by
  obtain ⟨i, j, rfl, hj, rfl⟩ := hd
  have hlength : (c.length i : Int) = c.brings (i % c.bsize) := by
    have := h.brings _ (Nat.mod_lt i h.bsize)
    rw [length]
    omega
  simp only [bcontextDecide]
  by_cases hend : j + 1 < c.length i
  · rw [if_neg (by omega)]
    exact ⟨i, j + 1, rfl, hend, rfl⟩
  · rw [if_pos (by omega)]
    refine ⟨i + 1, 0, ?_, h.length_pos _, ?_⟩
    · rw [begins]
      omega
    · rw [Nat.mod_add_mod, value_succ, Nat.cast_zero]

theorem Filled.exists_said (t : Nat) : ∃ v, c.Says t v := by
  obtain ⟨i, j, rfl, hj⟩ := h.exists_run t
  exact ⟨c.value i, i, Nat.le_add_right _ j, Nat.add_lt_add_left hj _, rfl⟩

theorem Filled.says_unique {v v' : Bool} (hv : c.Says t v) (hv' : c.Says t v') : v = v' := by
  obtain ⟨i, hlow, hhigh, rfl⟩ := hv
  obtain ⟨i', hlow', hhigh', rfl⟩ := hv'
  obtain ⟨j, rfl⟩ := Nat.exists_eq_add_of_le hlow
  rw [h.run_unique (Nat.lt_of_add_lt_add_left hhigh) hlow' hhigh']

/-- A table decides each way time and again. -/
theorem Filled.says_later (t : Nat) (v : Bool) : ∃ n, c.Says (t + n) v := by
  obtain ⟨i, j, rfl, hj⟩ := h.exists_run t
  by_cases hv : v = c.value i
  · exact ⟨0, i, Nat.le_add_right _ j, Nat.add_lt_add_left hj _, hv⟩
  · refine ⟨c.length i - j, i + 1, ?_, ?_, ?_⟩
    · rw [begins]
      omega
    · have := h.begins_lt (i + 1)
      rw [begins] at this
      omega
    · rw [value_succ]
      cases v <;> simpa using hv

end Filled

/-! ### Loops and jumps -/

/-- A table for the branch back of a loop: each number of repetitions is followed by one decision
against. -/
structure Repeats (c : Bcontext) (lo hi : Int) : Prop where
  bvalue : c.bvalue = true
  even : c.bsize % 2 = 0
  rounds : ∀ i, i < c.bsize → i % 2 = 0 → lo ≤ c.brings i ∧ c.brings i < hi
  leave : ∀ i, i < c.bsize → i % 2 = 1 → c.brings i = 1

/-- A table in which each run for is followed by one decision against. -/
structure Blocks (c : Bcontext) : Prop where
  even : c.bsize % 2 = 0
  leave : ∀ i, i < c.bsize → i % 2 = 1 → c.brings i = 1

theorem says_block (c : Bcontext) (e : Nat) {j : Nat} (hj : j < (c.rounds e).toNat) :
    c.Says (c.begins (2 * e) + j) c.bvalue := by
  refine ⟨2 * e, Nat.le_add_right _ j, Nat.add_lt_add_left hj _, ?_⟩
  rw [value, if_pos (Nat.mul_mod_right 2 e)]

theorem Blocks.mod_even {c : Bcontext} (h : c.Blocks) (e : Nat) : 2 * e % c.bsize % 2 = 0 := by
  rw [Nat.mod_mod_of_dvd _ (Nat.dvd_of_mod_eq_zero h.even), Nat.mul_mod_right]

section Blocks

variable {c : Bcontext} (hfilled : c.Filled) (h : c.Blocks)

include hfilled h

theorem Blocks.length_leave (e : Nat) : c.length (2 * e + 1) = 1 := by
  rw [length, h.leave _ (Nat.mod_lt _ hfilled.bsize)]
  · rfl
  · rw [Nat.mod_mod_of_dvd _ (Nat.dvd_of_mod_eq_zero h.even)]
    omega

theorem Blocks.begins_succ (e : Nat) :
    c.begins (2 * (e + 1)) = c.begins (2 * e) + ((c.rounds e).toNat + 1) := by
  show c.begins (2 * e + 1) + c.length (2 * e + 1) = _
  rw [h.length_leave hfilled]
  rfl

omit h in
theorem Filled.says_leave (e : Nat) :
    c.Says (c.begins (2 * e) + (c.rounds e).toNat) (!c.bvalue) := by
  show c.Says (c.begins (2 * e + 1)) (!c.bvalue)
  refine ⟨2 * e + 1, le_rfl, hfilled.begins_lt _, ?_⟩
  rw [value_succ, value, if_pos (Nat.mul_mod_right 2 e)]

end Blocks

section Repeats

variable {c : Bcontext} {lo hi : Int} (h : c.Repeats lo hi)

include h

theorem Repeats.blocks : c.Blocks := ⟨h.even, h.leave⟩

theorem Repeats.says_back (e : Nat) {j : Nat} (hj : j < (c.rounds e).toNat) :
    c.Says (c.begins (2 * e) + j) true := by
  rw [← h.bvalue]
  exact c.says_block e hj

theorem Repeats.says_on (hfilled : c.Filled) (e : Nat) :
    c.Says (c.begins (2 * e) + (c.rounds e).toNat) false := by
  have hleave := hfilled.says_leave e
  rwa [h.bvalue] at hleave

theorem Repeats.mem_rounds (hfilled : c.Filled) (e : Nat) : lo ≤ c.rounds e ∧ c.rounds e < hi :=
  h.rounds _ (Nat.mod_lt _ hfilled.bsize) (h.blocks.mod_even e)

end Repeats

/-- How often a `GOTO` jumps before its context changes its mind. -/
def jumps : Nat := 2 ^ 31 - 1

theorem says_jump {c : Bcontext} (hvalue : c.bvalue = true) (hrings : c.length 0 = jumps) {t : Nat}
    (ht : t < jumps) : c.Says t true := by
  refine ⟨0, Nat.zero_le t, ?_, hvalue.symm⟩
  rw [begins, begins, hrings]
  omega

end Bcontext

/-! ### Initialisation -/

/-- The context is a table for the branch. -/
structure Bcontext.Suits (c : Bcontext) (b : Branch) : Prop where
  filled : c.Filled
  goto : b.btype = .GOTO → c.bvalue = true ∧ c.length 0 = jumps
  loop : b.btype = .FOR → c.Repeats b.min b.max

/-- The bounds of a loop branch are in order. -/
def Branch.Bounded (b : Branch) : Prop :=
  b.btype = .FOR ∨ b.btype = .NFOR → 1 ≤ b.min ∧ b.min < b.max

/-- What the `FOR` and `NFOR` cases may record as a number of repetitions. -/
def Branch.Allows (b : Branch) (n : Int) : Prop :=
  if b.max > b.min then b.min ≤ n ∧ n < b.max else n = b.min

theorem Branch.Allows.min_le {b : Branch} {n : Int} (h : b.Allows n) : b.min ≤ n := by
  unfold Branch.Allows at h
  split_ifs at h
  · exact h.1
  · exact h.ge

theorem maxBrings_pos : 0 < maxBrings := by decide

section Init

variable {rand : Stream} {drawn drawn' : Nat} {c d : Bcontext}

/-- Whatever is drawn, the runs of an `IF` come to have a decision each. -/
theorem recordDecisions_filled {prob : ℚ} {fuel : Nat} {cvalue : Bool}
    (h : recordDecisions rand prob fuel drawn cvalue c = some (d, drawn')) (hoffset : c.boffset = 0)
    (hcount : c.bcount = 0) (hsize : c.bsize ≤ maxBrings)
    (hrings : ∀ i, i ≤ c.bsize → 1 ≤ c.brings i) : d.Filled := by
  induction fuel generalizing drawn cvalue c with
  | zero => cases h
  | succ fuel ih =>
      rw [recordDecisions] at h
      split_ifs at h with hless hsame
      · refine ih h hoffset hcount hsize fun i hi => ?_
        by_cases heq : i = c.bsize
        · have := hrings i hi
          rw [heq] at this ⊢
          simp only [Function.update_self]
          omega
        · simp only [Function.update_of_ne heq]
          exact hrings i hi
      · refine ih h hoffset hcount (Nat.succ_le_of_lt hless) fun i hi => ?_
        by_cases heq : i = c.bsize + 1
        · simp only [heq, Function.update_self, le_refl]
        · simp only [Function.update_of_ne heq]
          simp only at hi
          exact hrings i (by omega)
      · obtain ⟨rfl, -⟩ := Prod.mk.inj (Option.some.inj h)
        refine ⟨hoffset, hcount, ?_, fun i hi => hrings i hi.le⟩
        exact Nat.lt_of_lt_of_le maxBrings_pos (not_lt.mp hless)

/-- The number of repetitions that is recorded for a loop. -/
theorem allows_length (x : Fin (2 ^ 48)) (b : Branch) :
    b.Allows (if b.max > b.min then lrand48 x % (b.max - b.min) + b.min else b.min) := by
  unfold Branch.Allows
  split_ifs with hlt
  · have hlow := Int.emod_nonneg (lrand48 x) (by omega : b.max - b.min ≠ 0)
    have hhigh := Int.emod_lt_of_pos (lrand48 x) (by omega : 0 < b.max - b.min)
    omega
  · rfl

/-- The entries that the loop of the `FOR` and `NFOR` cases makes. -/
theorem recordRuns_spec {b : Branch} (hsize : c.bsize = 0)
    (h : recordRuns rand b drawn c = (d, drawn')) :
    d = { c with bsize := maxBrings, brings := d.brings } ∧
      ∀ i, i < maxBrings → (i % 2 = 0 → b.Allows (d.brings i)) ∧
        (i % 2 = 1 → d.brings i = 1) := by
  let inv (n : Nat) (s : Bcontext × Nat) : Prop :=
    s.1 = { c with bsize := 2 * n, brings := s.1.brings } ∧
      ∀ i, i < 2 * n → (i % 2 = 0 → b.Allows (s.1.brings i)) ∧
        (i % 2 = 1 → s.1.brings i = 1)
  have hruns : inv (maxBrings / 2) (recordRuns rand b drawn c) := by
    rw [recordRuns]
    apply loop_invariant inv
    · exact ⟨by rw [Nat.mul_zero, ← hsize], fun i hi => absurd hi (Nat.not_lt_zero i)⟩
    rintro n ⟨s, m⟩ - ⟨hs, hentries⟩
    obtain ⟨boffset, bsize, bvalue, bcount, brings⟩ := s
    obtain ⟨rfl, rfl, rfl, rfl, -⟩ := Bcontext.mk.inj hs
    refine ⟨rfl, fun i hi => ?_⟩
    simp only [recordRun]
    rcases (by omega : i = 2 * n + 1 ∨ i = 2 * n ∨ i < 2 * n) with rfl | rfl | hless
    · exact ⟨fun hi => absurd hi (by omega), fun _ => Function.update_self ..⟩
    · rw [Function.update_of_ne (by omega), Function.update_self]
      exact ⟨fun _ => allows_length (rand m) b, fun hi => absurd hi (by omega)⟩
    · rw [Function.update_of_ne (by omega), Function.update_of_ne (by omega)]
      exact hentries i hless
  rw [h] at hruns
  exact hruns

/-- They make a table in which each number of repetitions is followed by one decision against. -/
theorem recordRuns_blocks {b : Branch} (hmin : 1 ≤ b.min) (hoffset : c.boffset = 0)
    (hcount : c.bcount = 0) (hsize : c.bsize = 0) (h : recordRuns rand b drawn c = (d, drawn')) :
    d.Filled ∧ d.Blocks ∧ d.bsize = maxBrings ∧ d.bvalue = c.bvalue ∧
      ∀ i, i < d.bsize → i % 2 = 0 → b.Allows (d.brings i) := by
  obtain ⟨hd, hentries⟩ := recordRuns_spec hsize h
  have hdsize : d.bsize = maxBrings := congrArg Bcontext.bsize hd
  rw [← hdsize] at hentries
  refine ⟨⟨?_, ?_, ?_, fun i hi => ?_⟩, ⟨?_, fun i hi => (hentries i hi).2⟩, hdsize, ?_,
    fun i hi => (hentries i hi).1⟩
  · exact (congrArg Bcontext.boffset hd).trans hoffset
  · exact (congrArg Bcontext.bcount hd).trans hcount
  · rw [hdsize]
    decide
  · rcases Nat.mod_two_eq_zero_or_one i with heven | hodd
    · exact hmin.trans ((hentries i hi).1 heven).min_le
    · rw [(hentries i hi).2 hodd]
  · rw [hdsize]
    decide
  · exact (congrArg Bcontext.bvalue hd).trans rfl

theorem bcontextInit_goto {fuel : Nat} {b : Branch} (hb : b.btype = .GOTO)
    (h : bcontextInit rand fuel drawn c b = some (d, drawn')) :
    d.Filled ∧ d.bsize = 1 ∧ d.bvalue = true ∧ d.length 0 = Bcontext.jumps := by
  rw [bcontextInit, hb] at h
  obtain ⟨rfl, -⟩ := Prod.mk.inj (Option.some.inj h)
  refine ⟨⟨rfl, rfl, Nat.one_pos, fun i hi => ?_⟩, rfl, rfl, rfl⟩
  obtain rfl : i = 0 := by simpa using hi
  show (1 : Int) ≤ 0x7fffffff
  decide

/-- `bcontext_init` makes a table for its branch, from a context whose first run is not empty. -/
theorem bcontextInit_suits {fuel : Nat} {b : Branch} (hb : b.Bounded) (hc : 1 ≤ c.brings 0)
    (h : bcontextInit rand fuel drawn c b = some (d, drawn')) : d.Suits b := by
  cases hbtype : b.btype with
  | GOTO =>
      obtain ⟨hfilled, -, hvalue, hlength⟩ := bcontextInit_goto hbtype h
      refine ⟨hfilled, fun _ => ⟨hvalue, hlength⟩, ?_⟩
      exact fun hfor => absurd (hbtype.symm.trans hfor) (by decide)
  | IF =>
      rw [bcontextInit, hbtype] at h
      refine ⟨recordDecisions_filled h rfl rfl (Nat.zero_le _) fun i hi => ?_, ?_, ?_⟩
      · obtain rfl : i = 0 := by simpa using hi
        exact hc
      · exact fun hgoto => absurd (hbtype.symm.trans hgoto) (by decide)
      · exact fun hfor => absurd (hbtype.symm.trans hfor) (by decide)
  | FOR =>
      rw [bcontextInit, hbtype] at h
      obtain ⟨hmin, hlt⟩ := hb (Or.inl hbtype)
      obtain ⟨hfilled, hblocks, -, hvalue, hrounds⟩ :=
        recordRuns_blocks hmin rfl rfl rfl (Option.some.inj h)
      simp only [Branch.Allows, if_pos hlt] at hrounds
      refine ⟨hfilled, ?_, fun _ => ⟨hvalue, hblocks.even, hrounds, hblocks.leave⟩⟩
      exact fun hgoto => absurd (hbtype.symm.trans hgoto) (by decide)
  | NFOR =>
      rw [bcontextInit, hbtype] at h
      obtain ⟨hmin, -⟩ := hb (Or.inr hbtype)
      obtain ⟨hfilled, -⟩ := recordRuns_blocks hmin rfl rfl rfl (Option.some.inj h)
      refine ⟨hfilled, ?_, ?_⟩
      · exact fun hgoto => absurd (hbtype.symm.trans hgoto) (by decide)
      · exact fun hfor => absurd (hbtype.symm.trans hfor) (by decide)

end Init

/-! ### Initialisation ends -/

section Ends

variable {rand : Stream}

/-- The loop of the `IF` case ends if every draw gives another outcome than the one before. -/
theorem recordDecisions_ends {prob : ℚ}
    (hchange : ∀ i, binary prob (rand (i + 1)) = !binary prob (rand i)) {fuel drawn : Nat}
    {cvalue : Bool} {c : Bcontext} (hsize : c.bsize ≤ maxBrings)
    (hfuel : 2 * (maxBrings - c.bsize) + (if binary prob (rand drawn) = cvalue then 1 else 0) <
      fuel) : (recordDecisions rand prob fuel drawn cvalue c).isSome := by
  induction fuel generalizing drawn cvalue c with
  | zero => exact absurd hfuel (Nat.not_lt_zero _)
  | succ fuel ih =>
      rw [recordDecisions]
      split_ifs with hless hsame
      · refine ih hsize ?_
        rw [if_pos hsame] at hfuel
        rw [hchange, hsame, if_neg (by simp)]
        simp only
        omega
      · refine ih (Nat.succ_le_of_lt hless) ?_
        have hflip : binary prob (rand drawn) = !cvalue := by
          cases cvalue <;> simpa using hsame
        rw [if_neg hsame] at hfuel
        rw [hchange, hflip, if_neg (by simp)]
        simp only
        omega
      · rfl

theorem bcontextInit_ends {b : Branch}
    (hchange : b.btype = .IF → ∀ i, binary b.prob (rand (i + 1)) = !binary b.prob (rand i))
    {fuel : Nat} (hfuel : 2 * maxBrings + 1 < fuel) (drawn : Nat) (c : Bcontext) :
    (bcontextInit rand fuel drawn c b).isSome := by
  unfold bcontextInit
  cases hb : b.btype with
  | IF =>
      apply recordDecisions_ends (hchange hb) (Nat.zero_le _)
      simp only
      split <;> omega
  | _ => rfl

end Ends

/-- The least and the greatest state of the generator in turn. -/
def alternating : Stream := fun i => if i % 2 = 0 then 0 else ⟨2 ^ 48 - 1, by norm_num⟩

theorem alternating_changes {prob : ℚ} (hpos : 0 < prob) (hle : prob ≤ 3 / 5) (i : Nat) :
    binary prob (alternating (i + 1)) = !binary prob (alternating i) := by
  have hlow : binary prob 0 = true := by simpa [binary, drand48] using hpos
  have hhigh : binary prob ⟨2 ^ 48 - 1, by norm_num⟩ = false := by
    have hlast : (3 / 5 : ℚ) ≤ drand48 ⟨2 ^ 48 - 1, by norm_num⟩ := by
      norm_num [drand48]
    rw [binary, decide_eq_false_iff_not, not_lt]
    exact hle.trans hlast
  rcases Nat.mod_two_eq_zero_or_one i with hi | hi
  · have hi' : (i + 1) % 2 ≠ 0 := by omega
    simp only [alternating, if_pos hi, if_neg hi', hlow, hhigh, Bool.not_true]
  · have hi' : (i + 1) % 2 = 0 := by omega
    simp only [alternating, hi, one_ne_zero, if_false, if_pos hi', hlow, hhigh, Bool.not_false]

end OperatingSystems.Simulator
