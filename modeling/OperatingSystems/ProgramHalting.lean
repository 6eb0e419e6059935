import OperatingSystems.ProgramCourse
import Mathlib.Data.Set.Insert

/-!
The five programs end, whatever their branch contexts hold. No context decides the same for ever,
so a loop is left; a passage through the text of a program is put together from straight lines,
branches and loops.
-/

namespace OperatingSystems.Simulator

open Runs

/-! ### Decisions -/

/-- A bound on the number of decisions until the context decides as asked. -/
def Bcontext.wait (v : Bool) (c : Bcontext) : Nat :=
  if c.bvalue = v then 0 else (c.brings c.boffset - c.bcount).toNat + 1

theorem Bcontext.wait_decide {v : Bool} {c : Bcontext} (h : c.bvalue ≠ v) :
    (bcontextDecide c).2.wait v < c.wait v := by
  have hflip : (!c.bvalue) = v := by
    cases hc : c.bvalue <;> cases v <;> simp_all
  unfold bcontextDecide
  split_ifs with hend
  · simp [Bcontext.wait, hflip, h]
  · simp only [Bcontext.wait, if_neg h]
    omega

/-! ### Instructions -/

/-- The tables of the program are in ascending order, and it has an exit. -/
structure Program.Ordered (p : Program) : Prop where
  exits_ne : p.exits ≠ []
  exits_lt : p.exits.Pairwise (· < ·)
  branches_lt : p.branches.Pairwise (·.wherefrom < ·.wherefrom)

theorem Program.Ordered.exits_le {p : Program} (h : p.Ordered) : p.exits.Pairwise (· ≤ ·) :=
  h.exits_lt.imp le_of_lt

section Instructions

variable {p : Program} {contexts : Nat → Bcontext} {pc : Int}

theorem next_exit (hsorted : p.exits.Pairwise (· ≤ ·)) (h : pc ∈ p.exits) :
    (⟨p, contexts, pc⟩ : Control).next = none := by
  obtain ⟨k, hk⟩ := Option.isSome_iff_exists.mp (Program.exit_found hsorted h)
  rw [Control.next, hk]

theorem bisect_exit_eq_none (hexits : p.exits ≠ []) (h : pc ∉ p.exits) :
    bisect p.exit pc 0 (p.exits.length - 1) = none := by
  have hpos := List.length_pos_iff.mpr hexits
  refine bisect_eq_none (by omega) fun k hk hle heq => h ?_
  exact heq ▸ Program.exit_mem hk (by omega)

theorem next_branch (hp : p.Ordered) (hexit : pc ∉ p.exits) {k : Nat}
    (hk : k < p.branches.length) (hfrom : (p.branch k).wherefrom = pc) :
    (⟨p, contexts, pc⟩ : Control).next = some (processDobranch ⟨p, contexts, pc⟩ k) := by
  have hsorted : ∀ i j : Int, 0 ≤ i → i < j → j ≤ p.branches.length - 1 →
      (p.branch i).wherefrom < (p.branch j).wherefrom := by
    intro i j hi hij hj
    rw [Program.branch, Program.branch, if_neg (by omega), if_neg (by omega),
      List.getD_eq_getElem _ _ (by omega), List.getD_eq_getElem _ _ (by omega)]
    exact List.pairwise_iff_getElem.mp hp.branches_lt _ _ _ _ (by omega)
  rw [Control.next, bisect_exit_eq_none hp.exits_ne hexit]
  simp only [bisect_complete hsorted (Int.natCast_nonneg k) (by omega) hfrom, Int.toNat_natCast,
    if_neg (by omega : ¬ (k : Int) < 0)]

/-- The search of an empty table compares with slot `0` and then with the slot before it. -/
theorem bisect_empty (hempty : p.branches = []) :
    bisect (fun k => (p.branch k).wherefrom) pc 0 (p.branches.length - 1) =
      if pc = (p.spare 0).wherefrom then some 0
      else if pc = (p.spare (-1)).wherefrom then some (-1) else none := by
  rw [bisect]
  simp only [Program.branch_of_empty hempty]
  rw [hempty, if_neg (by decide)]
  rfl

theorem next_empty (hexits : p.exits ≠ []) (hexit : pc ∉ p.exits) (hempty : p.branches = [])
    (hfrom : pc = (p.spare 0).wherefrom) :
    (⟨p, contexts, pc⟩ : Control).next = some (processDobranch ⟨p, contexts, pc⟩ 0) := by
  rw [Control.next, bisect_exit_eq_none hexits hexit]
  simp only [bisect_empty hempty, if_pos hfrom]
  rfl

/-- What the model makes of a step that uses the context before the table. -/
theorem next_before (hexits : p.exits ≠ []) (hexit : pc ∉ p.exits) (hempty : p.branches = [])
    (hfrom : pc ≠ (p.spare 0).wherefrom) (hbefore : pc = (p.spare (-1)).wherefrom) :
    (⟨p, contexts, pc⟩ : Control).next = some ⟨p, contexts, pc⟩ := by
  rw [Control.next, bisect_exit_eq_none hexits hexit]
  simp only [bisect_empty hempty, if_neg hfrom, if_pos hbefore]
  rfl

theorem next_default (hexits : p.exits ≠ []) (hexit : pc ∉ p.exits)
    (hbranch : ∀ b ∈ p.branches, b.wherefrom ≠ pc)
    (hempty : p.branches = [] → pc ≠ (p.spare 0).wherefrom ∧ pc ≠ (p.spare (-1)).wherefrom) :
    (⟨p, contexts, pc⟩ : Control).next =
      some ⟨p, contexts, if pc + 1 < 0 ∨ pc + 1 > p.size then 0 else pc + 1⟩ := by
  have hnone : bisect (fun k => (p.branch k).wherefrom) pc 0 (p.branches.length - 1) = none := by
    by_cases hnil : p.branches = []
    · obtain ⟨hfirst, hbefore⟩ := hempty hnil
      rw [bisect_empty hnil, if_neg hfirst, if_neg hbefore]
    · have hpos := List.length_pos_iff.mpr hnil
      refine bisect_eq_none (by omega) fun k hk hle => hbranch _ ?_
      exact Program.branch_mem_of_lt hk (by omega)
  rw [Control.next, bisect_exit_eq_none hexits hexit]
  simp only [hnone]

theorem next_line (hexits : p.exits ≠ []) (hexit : pc ∉ p.exits)
    (hbranch : ∀ b ∈ p.branches, b.wherefrom ≠ pc)
    (hempty : p.branches = [] → pc ≠ (p.spare 0).wherefrom ∧ pc ≠ (p.spare (-1)).wherefrom)
    (hrange : 0 ≤ pc + 1 ∧ pc + 1 ≤ p.size) :
    (⟨p, contexts, pc⟩ : Control).next = some ⟨p, contexts, pc + 1⟩ := by
  rw [next_default hexits hexit hbranch hempty, if_neg (by omega)]

end Instructions

/-! ### Passages -/

/-- From the address, whatever the contexts hold, the program comes to one of the targets, and
takes no decisions but those of the slots. -/
def Program.Passes (p : Program) (slots : Set Nat) (pc : Int) (targets : Set Int) : Prop :=
  ∀ contexts, Eventually Control.next (fun c => c.program = p ∧ c.pc ∈ targets ∧
    ∀ k, k ∉ slots → c.bcontexts k = contexts k) ⟨p, contexts, pc⟩

/-- There is a branch at the address, and both its outcomes are addresses of the program. -/
structure Program.BranchAt (p : Program) (k : Nat) (pc : Int) : Prop where
  next : ∀ contexts, (⟨p, contexts, pc⟩ : Control).next = some (processDobranch ⟨p, contexts, pc⟩ k)
  whereto : 0 ≤ (p.branch k).whereto ∧ (p.branch k).whereto < p.size
  after : 0 ≤ pc + 1 ∧ pc + 1 < p.size

/-- Where the decision leads. -/
def Program.outcome (p : Program) (k : Nat) (pc : Int) (decision : Bool) : Int :=
  if decision then (p.branch k).whereto else pc + 1

section Passages

variable {p : Program} {slots : Set Nat} {targets : Set Int} {pc : Int} {k : Nat}

theorem Program.BranchAt.next_eq (h : p.BranchAt k pc) (contexts : Nat → Bcontext) :
    (⟨p, contexts, pc⟩ : Control).next = some ⟨p,
      Function.update contexts k (bcontextDecide (contexts k)).2,
      p.outcome k pc (contexts k).bvalue⟩ := by
  have hrange : 0 ≤ p.outcome k pc (contexts k).bvalue ∧
      p.outcome k pc (contexts k).bvalue < p.size := by
    unfold Program.outcome
    split_ifs
    · exact h.whereto
    · exact h.after
  unfold Program.outcome at hrange ⊢
  rw [h.next, processDobranch]
  simp only [bcontextDecide, Option.some.injEq, Control.mk.injEq, true_and]
  rw [if_neg (by omega)]

theorem Program.Passes.here (h : pc ∈ targets) : p.Passes slots pc targets :=
  fun _ => .done ⟨rfl, h, fun _ _ => rfl⟩

theorem Program.Passes.trans {middle : Set Int} (h : p.Passes slots pc middle)
    (hrest : ∀ pc, pc ∈ middle → p.Passes slots pc targets) : p.Passes slots pc targets := by
  intro contexts
  refine (h contexts).bind fun c hc => ?_
  obtain ⟨rfl, hpc, hkept⟩ := hc
  refine (hrest c.pc hpc c.bcontexts).mono fun d hd => ⟨hd.1, hd.2.1, fun k hk => ?_⟩
  rw [hd.2.2 k hk, hkept k hk]

/-- A stretch of the text without exits and branches. -/
structure Program.Clear (p : Program) (a b : Int) : Prop where
  exits : ∀ e ∈ p.exits, ¬ (a ≤ e ∧ e < b)
  branches : ∀ br ∈ p.branches, ¬ (a ≤ br.wherefrom ∧ br.wherefrom < b)
  spare : p.branches.length = 0 →
    ∀ k ∈ ([0, -1] : List Int), ¬ (a ≤ (p.spare k).wherefrom ∧ (p.spare k).wherefrom < b)
  start : 0 ≤ a
  size : b ≤ p.size

instance (p : Program) (a b : Int) : Decidable (p.Clear a b) :=
  decidable_of_iff ((∀ e ∈ p.exits, ¬ (a ≤ e ∧ e < b)) ∧
      (∀ br ∈ p.branches, ¬ (a ≤ br.wherefrom ∧ br.wherefrom < b)) ∧
      (p.branches.length = 0 → ∀ k ∈ ([0, -1] : List Int),
        ¬ (a ≤ (p.spare k).wherefrom ∧ (p.spare k).wherefrom < b)) ∧ 0 ≤ a ∧ b ≤ p.size)
    ⟨fun ⟨hexits, hbranches, hspare, hstart, hsize⟩ => ⟨hexits, hbranches, hspare, hstart, hsize⟩,
      fun h => ⟨h.exits, h.branches, h.spare, h.start, h.size⟩⟩

theorem Program.Clear.next {a b : Int} (h : p.Clear a b) (hp : p.Ordered) (hle : a ≤ pc)
    (hlt : pc < b) (contexts : Nat → Bcontext) :
    (⟨p, contexts, pc⟩ : Control).next = some ⟨p, contexts, pc + 1⟩ := by
  have hstart := h.start
  have hsize := h.size
  refine next_line hp.exits_ne (fun he => h.exits pc he ⟨hle, hlt⟩) (fun br hbr heq => ?_)
    (fun hnil => ?_) (by omega)
  · exact h.branches br hbr (heq ▸ ⟨hle, hlt⟩)
  · have hspare := h.spare (List.length_eq_zero_iff.mpr hnil)
    exact ⟨fun heq => hspare 0 (by simp) (heq ▸ ⟨hle, hlt⟩),
      fun heq => hspare (-1) (by simp) (heq ▸ ⟨hle, hlt⟩)⟩

/-- A straight line. -/
theorem Program.Passes.line (hp : p.Ordered) {a : Int} (b : Int) (hclear : p.Clear a b)
    (hle : a ≤ b) (hrest : p.Passes slots b targets) : p.Passes slots a targets := by
  obtain ⟨n, rfl⟩ : ∃ n : Nat, b = a + n := ⟨(b - a).toNat, by omega⟩
  induction n generalizing a with
  | zero => simpa using hrest
  | succ n ih =>
      push_cast at hclear hrest
      have hnext : ∀ contexts, (⟨p, contexts, a⟩ : Control).next = some ⟨p, contexts, a + 1⟩ :=
        hclear.next hp le_rfl (by omega)
      have hshift : a + 1 + (n : Int) = a + (n + 1) := by omega
      have hrest' : p.Passes slots (a + 1) targets := by
        refine ih ?_ (by omega) ?_
        · rw [hshift]
          refine ⟨fun e he hin => hclear.exits e he (by omega),
            fun br hbr hin => hclear.branches br hbr (by omega),
            fun h k hk hin => hclear.spare h k hk (by omega), ?_, hclear.size⟩
          have := hclear.start
          omega
        · rwa [hshift]
      exact fun contexts => .step (hnext contexts) (hrest' contexts)

/-- A branch, whichever way it is decided. -/
theorem Program.Passes.branch (h : p.BranchAt k pc) (hk : k ∈ slots)
    (htaken : p.Passes slots (p.branch k).whereto targets)
    (hafter : p.Passes slots (pc + 1) targets) : p.Passes slots pc targets := by
  intro contexts
  have houtcome : p.Passes slots (p.outcome k pc (contexts k).bvalue) targets := by
    unfold Program.outcome
    split_ifs
    · exact htaken
    · exact hafter
  refine .step (h.next_eq contexts) ((houtcome _).mono fun c hc => ⟨hc.1, hc.2.1, fun j hj => ?_⟩)
  rw [hc.2.2 j hj, Function.update_of_ne (ne_of_mem_of_not_mem hk hj).symm]

/-- A branch that is decided time and again: one decision leads on, the other, without other
decisions of the same context, leads on or back to the branch. -/
theorem Program.Passes.loop (h : p.BranchAt k pc) (v : Bool) {inner : Set Nat}
    (hk : k ∈ slots) (hinner : inner ⊆ slots) (hnot : k ∉ inner)
    (hon : p.Passes slots (p.outcome k pc v) targets)
    (hback : p.Passes inner (p.outcome k pc (!v)) (insert pc targets)) :
    p.Passes slots pc targets := by
  intro contexts
  refine Eventually.loop Nat.lt_wfRel.wf (fun c : Control => (c.bcontexts k).wait v)
    (fun c => c.program = p ∧ c.pc = pc ∧ ∀ j, j ∉ slots → c.bcontexts j = contexts j)
    ?_ ⟨rfl, rfl, fun _ _ => rfl⟩
  rintro ⟨_, now, _⟩ ⟨rfl, rfl, hkept⟩
  have hother : ∀ j, j ∉ slots →
      Function.update now k (bcontextDecide (now k)).2 j = contexts j := by
    intro j hj
    rw [Function.update_of_ne (ne_of_mem_of_not_mem hk hj).symm]
    exact hkept j hj
  refine .step (h.next_eq now) ?_
  by_cases hv : (now k).bvalue = v
  · rw [hv]
    refine (hon _).mono fun c hc => Or.inl ⟨hc.1, hc.2.1, fun j hj => ?_⟩
    rw [hc.2.2 j hj, hother j hj]
  · have hflip : (now k).bvalue = !v := by
      cases v <;> simpa using hv
    rw [hflip]
    refine (hback _).mono fun c hc => ?_
    have hslots : ∀ j, j ∉ slots → c.bcontexts j = contexts j := fun j hj => by
      rw [hc.2.2 j fun hin => hj (hinner hin), hother j hj]
    rcases hc.2.1 with hpc | hpc
    · refine Or.inr ⟨⟨hc.1, hpc, hslots⟩, ?_⟩
      have hdecided : c.bcontexts k = (bcontextDecide (now k)).2 := by
        rw [hc.2.2 k hnot, Function.update_self]
      show (c.bcontexts k).wait v < (now k).wait v
      rw [hdecided]
      exact Bcontext.wait_decide hv
    · exact Or.inl ⟨hc.1, hpc, hslots⟩

theorem Program.Passes.mono {wider : Set Nat} (h : p.Passes slots pc targets)
    (hslots : slots ⊆ wider) : p.Passes wider pc targets := fun contexts =>
  (h contexts).mono fun _ hc => ⟨hc.1, hc.2.1, fun k hk => hc.2.2 k fun hin => hk (hslots hin)⟩

/-- A branch back that is taken until its context decides against it, with its body. -/
theorem Program.Passes.repeat {inner : Set Nat} (h : p.BranchAt k pc) (hnot : k ∉ inner)
    (hbody : p.Passes inner (p.branch k).whereto {pc}) :
    p.Passes (insert k inner) pc {pc + 1} := by
  refine .loop h false (Set.mem_insert k inner) (Set.subset_insert k inner) hnot ?_ ?_
  · exact .here (by simp [Program.outcome])
  · refine hbody.trans fun pc' hpc => .here ?_
    exact Or.inl hpc

/-- The same from the beginning of the body. -/
theorem Program.Passes.repeatBody {inner : Set Nat} (h : p.BranchAt k pc) (hnot : k ∉ inner)
    (hbody : p.Passes inner (p.branch k).whereto {pc}) :
    p.Passes (insert k inner) (p.branch k).whereto {pc + 1} := by
  refine (hbody.mono (Set.subset_insert k inner)).trans fun pc' hpc => ?_
  obtain rfl : pc' = pc := hpc
  exact .repeat h hnot hbody

/-- A program that passes from its first address to an exit ends. -/
theorem Program.Passes.ends (hp : p.Ordered) (h : p.Passes slots 0 targets)
    (htargets : ∀ pc, pc ∈ targets → pc ∈ p.exits) (contexts : Nat → Bcontext) :
    ∃ n, (⟨p, contexts, 0⟩ : Control).EndsAt n := by
  refine Control.endsAt_of_eventually ((h contexts).mono fun c hc => ?_)
  obtain ⟨rfl, hpc, -⟩ := hc
  exact next_exit hp.exits_le (htargets c.pc hpc)

end Passages

/-! ### The five programs -/

theorem programs_ordered (t : Fin programCount) : (programs t).Ordered := by
  have hall : ∀ t, (programs t).exits ≠ [] ∧ (programs t).exits.Pairwise (· < ·) ∧
      (programs t).branches.Pairwise (·.wherefrom < ·.wherefrom) := by
    decide
  exact ⟨(hall t).1, (hall t).2.1, (hall t).2.2⟩

theorem branchAt_programs (t : Fin programCount) (k : Nat)
    (hk : k < (programs t).branches.length) :
    (programs t).BranchAt k ((programs t).branch k).wherefrom := by
  have hrange : ∀ t, ∀ b ∈ (programs t).branches, b.wherefrom ∉ (programs t).exits ∧
      (0 ≤ b.whereto ∧ b.whereto < (programs t).size) ∧
      0 ≤ b.wherefrom + 1 ∧ b.wherefrom + 1 < (programs t).size := by
    decide
  have hmem : (programs t).branch k ∈ (programs t).branches :=
    Program.branch_mem_of_lt (Int.natCast_nonneg k) (by omega)
  obtain ⟨hexit, hwhereto, hafter⟩ := hrange t _ hmem
  exact ⟨fun contexts => next_branch (programs_ordered t) hexit hk rfl, hwhereto, hafter⟩

/-- The fourth program has no branches, but takes a decision at its first address. -/
theorem branchAt_empty : (programs 3).BranchAt 0 0 where
  next _ := next_empty (programs_ordered 3).exits_ne (by decide) rfl rfl
  whereto := by decide
  after := by decide

theorem pgm1_passes : ∃ slots, (programs 0).Passes slots 0 {1534} := by
  have hp := programs_ordered 0
  have hbody : (programs 0).Passes {0, 1} 0 {1533} := by
    have hlast : (programs 0).Passes {0, 1} 1402 {1533} :=
      .line hp 1533 (by decide) (by decide) (.here rfl)
    refine .line hp 500 (by decide) (by decide) ?_
    refine .branch (branchAt_programs 0 0 (by decide)) (by simp) hlast ?_
    refine .line hp 1401 (by decide) (by decide) ?_
    exact .branch (branchAt_programs 0 1 (by decide)) (by simp) (.here rfl) hlast
  exact ⟨_, .repeatBody (branchAt_programs 0 2 (by decide)) (by simp) hbody⟩

theorem pgm2_passes : ∃ slots, (programs 1).Passes slots 0 {1130} := by
  have hbody : (programs 1).Passes ∅ 0 {1129} :=
    .line (programs_ordered 1) 1129 (by decide) (by decide) (.here rfl)
  exact ⟨_, .repeatBody (branchAt_programs 1 0 (by decide)) (by simp) hbody⟩

theorem pgm3_passes : ∃ slots, (programs 2).Passes slots 0 {1684} := by
  have hp := programs_ordered 2
  have hinner : (programs 2).Passes ∅ 1166 {1682} :=
    .line hp 1682 (by decide) (by decide) (.here rfl)
  have hbody : (programs 2).Passes (insert 0 ∅) 0 {1683} :=
    .line hp 1682 (by decide) (by decide)
      (Program.Passes.repeat (branchAt_programs 2 0 (by decide)) (by simp) hinner)
  exact ⟨_, .repeatBody (branchAt_programs 2 1 (by decide)) (by simp) hbody⟩

theorem pgm4_passes : ∃ slots, (programs 3).Passes slots 0 {1911} := by
  have hstay : (programs 3).Passes ∅ 0 {0} := .here rfl
  refine ⟨_, (Program.Passes.repeat branchAt_empty (by simp) hstay).trans fun pc hpc => ?_⟩
  obtain rfl : pc = 1 := hpc
  exact .line (programs_ordered 3) 1911 (by decide) (by decide) (.here rfl)

theorem pgm5_passes : ∃ slots, (programs 4).Passes slots 0 {504} := by
  have hp := programs_ordered 4
  -- From 501 the program goes back to the `IF` at 500, whose context is not used on the way.
  have hback : (programs 4).Passes {1, 2} 501 {500, 503} := by
    refine .branch (branchAt_programs 4 1 (by decide)) (by simp) ?_ ?_
    · exact .line hp 500 (by decide) (by decide) (.here (Or.inl rfl))
    · exact .branch (branchAt_programs 4 2 (by decide)) (by simp) (.here (Or.inr rfl))
        (.here (Or.inr rfl))
  have hif : (programs 4).Passes {0, 1, 2} 500 {503} :=
    .loop (branchAt_programs 4 0 (by decide)) true (by simp) (Set.subset_insert 0 _) (by simp)
      (.here rfl) hback
  have hbody : (programs 4).Passes {0, 1, 2} 0 {503} := .line hp 500 (by decide) (by decide) hif
  exact ⟨_, .repeatBody (branchAt_programs 4 3 (by decide)) (by simp) hbody⟩

/-- Whatever its branch contexts hold, each of the five programs ends. -/
theorem programs_end (t : Fin programCount) (contexts : Nat → Bcontext) :
    ∃ n, (⟨programs t, contexts, 0⟩ : Control).EndsAt n := by
  have hpasses : ∃ slots e, e ∈ (programs t).exits ∧ (programs t).Passes slots 0 {e} := by
    match t with
    | 0 => exact ⟨_, 1534, by decide, pgm1_passes.choose_spec⟩
    | 1 => exact ⟨_, 1130, by decide, pgm2_passes.choose_spec⟩
    | 2 => exact ⟨_, 1684, by decide, pgm3_passes.choose_spec⟩
    | 3 => exact ⟨_, 1911, by decide, pgm4_passes.choose_spec⟩
    | 4 => exact ⟨_, 504, by decide, pgm5_passes.choose_spec⟩
  obtain ⟨slots, e, he, hpasses⟩ := hpasses
  refine hpasses.ends (programs_ordered t) (fun pc hpc => ?_) contexts
  obtain rfl : pc = e := hpc
  exact he

end OperatingSystems.Simulator
