import OperatingSystems.ProgramModel
import Mathlib.Data.List.GetD

/-!
The search that an instruction makes in the two tables of its program, and what follows for the
instruction: it is an exit, takes a decision, or goes on to the next address.
-/

namespace OperatingSystems.Simulator

/-! ### The search -/

section Search

variable {key : Int → Int} {pc min max k : Int}

/-- What the search finds is in the table, and has the key. -/
theorem bisect_sound (hle : min ≤ max) (h : bisect key pc min max = some k) :
    min ≤ k ∧ k ≤ max ∧ key k = pc := by
  induction min, max using bisect.induct key pc with
  | case1 min max hlt mid hmid =>
      rw [bisect, if_pos hlt, if_pos hmid, Option.some.injEq] at h
      exact ⟨by omega, by omega, h ▸ hmid.symm⟩
  | case2 min max hlt mid hne hbelow ih =>
      rw [bisect, if_pos hlt, if_neg hne, if_pos hbelow] at h
      obtain ⟨hmin, hmax, hkey⟩ := ih (by omega) h
      exact ⟨hmin, by omega, hkey⟩
  | case3 min max hlt mid hne habove ih =>
      rw [bisect, if_pos hlt, if_neg hne, if_neg habove] at h
      obtain ⟨hmin, hmax, hkey⟩ := ih (by omega) h
      exact ⟨by omega, hmax, hkey⟩
  | case4 min max hnlt hmin =>
      rw [bisect, if_neg hnlt, if_pos hmin, Option.some.injEq] at h
      exact ⟨by omega, by omega, h ▸ hmin.symm⟩
  | case5 min max hnlt hne hmax =>
      rw [bisect, if_neg hnlt, if_neg hne, if_pos hmax, Option.some.injEq] at h
      exact ⟨by omega, by omega, h ▸ hmax.symm⟩
  | case6 min max hnlt hne hne' =>
      rw [bisect, if_neg hnlt, if_neg hne, if_neg hne'] at h
      cases h

/-- What is in a table in ascending order is not missed, even if it is there several times. -/
theorem bisect_isSome (hsorted : ∀ i j, min ≤ i → i < j → j ≤ max → key i ≤ key j)
    (hmin : min ≤ k) (hmax : k ≤ max) (hkey : key k = pc) : (bisect key pc min max).isSome := by
  induction min, max using bisect.induct key pc with
  | case1 min max hlt mid hmid =>
      rw [bisect, if_pos hlt, if_pos hmid]
      rfl
  | case2 min max hlt mid hne hbelow ih =>
      rw [bisect, if_pos hlt, if_neg hne, if_pos hbelow]
      have hkmid : k ≤ mid := by
        by_contra hlt'
        have := hsorted mid k (by omega) (by omega) hmax
        omega
      exact ih (fun i j hi hij hj => hsorted i j hi hij (by omega)) hmin hkmid
  | case3 min max hlt mid hne habove ih =>
      rw [bisect, if_pos hlt, if_neg hne, if_neg habove]
      have hmidk : mid ≤ k := by
        by_contra hlt'
        have := hsorted k mid hmin (by omega) (by omega)
        omega
      exact ih (fun i j hi hij hj => hsorted i j (by omega) hij hj) hmidk hmax
  | case4 min max hnlt hmin' =>
      rw [bisect, if_neg hnlt, if_pos hmin']
      rfl
  | case5 min max hnlt hne hmax' =>
      rw [bisect, if_neg hnlt, if_neg hne, if_pos hmax']
      rfl
  | case6 min max hnlt hne hne' =>
      have hk : k = min ∨ k = max := by omega
      rcases hk with rfl | rfl
      · exact absurd hkey.symm hne
      · exact absurd hkey.symm hne'

/-- In a table in strictly ascending order the search finds what is there. -/
theorem bisect_complete (hsorted : ∀ i j, min ≤ i → i < j → j ≤ max → key i < key j)
    (hmin : min ≤ k) (hmax : k ≤ max) (hkey : key k = pc) : bisect key pc min max = some k := by
  have hfound := bisect_isSome (fun i j hi hij hj => (hsorted i j hi hij hj).le) hmin hmax hkey
  obtain ⟨i, hi⟩ := Option.isSome_iff_exists.mp hfound
  obtain ⟨hmini, himax, hikey⟩ := bisect_sound (hmin.trans hmax) hi
  rw [hi]
  rcases lt_trichotomy i k with hlt | rfl | hgt
  · have hless := hsorted i k hmini hlt hmax
    omega
  · rfl
  · have hless := hsorted k i hmin hgt himax
    omega

theorem bisect_eq_none (hle : min ≤ max) (habsent : ∀ k, min ≤ k → k ≤ max → key k ≠ pc) :
    bisect key pc min max = none := by
  rw [Option.eq_none_iff_forall_ne_some]
  intro k hk
  obtain ⟨hmin, hmax, hkey⟩ := bisect_sound hle hk
  exact habsent k hmin hmax hkey

end Search

/-! ### The entries that the search reads -/

/-- `bisect` with fuel for its loop, and the entries it reads. -/
def bisectLogged (key : Int → Int) (pc : Int) : Nat → Int → Int → Option (Option Int) × List Int
  | 0, _, _ => (none, [])
  | fuel + 1, min, max =>
      if min + 1 < max then
        let mid := (min + max) / 2
        if pc = key mid then (some (some mid), [mid])
        else if pc < key mid then
          let rest := bisectLogged key pc fuel min mid
          (rest.1, mid :: rest.2)
        else
          let rest := bisectLogged key pc fuel mid max
          (rest.1, mid :: rest.2)
      else if pc = key min then (some (some min), [min])
      else if pc = key max then (some (some max), [min, max])
      else (some none, [min, max])

section Reads

variable {key : Int → Int} {pc min max : Int} {fuel : Nat} (hle : min ≤ max)

include hle

/-- The interval shrinks in each iteration, and the search ends. -/
theorem bisectLogged_fst (hfuel : max - min < fuel) :
    (bisectLogged key pc fuel min max).1 = some (bisect key pc min max) := by
  induction fuel generalizing min max with
  | zero => omega
  | succ fuel ih =>
      rw [bisectLogged, bisect]
      dsimp only
      split_ifs
      · rfl
      · exact ih (by omega) (by omega)
      · exact ih (by omega) (by omega)
      · rfl
      · rfl
      · rfl

/-- The search reads no entry outside the interval. -/
theorem bisectLogged_snd : ∀ k ∈ (bisectLogged key pc fuel min max).2, min ≤ k ∧ k ≤ max := by
  induction fuel generalizing min max with
  | zero => exact fun k hk => absurd hk List.not_mem_nil
  | succ fuel ih =>
      have hmid : min + 1 < max → min ≤ (min + max) / 2 ∧ (min + max) / 2 ≤ max := by omega
      rw [bisectLogged]
      dsimp only
      split_ifs with hlt
      · simpa using hmid hlt
      · obtain ⟨hlow, hhigh⟩ := hmid hlt
        refine List.forall_mem_cons.mpr ⟨⟨hlow, hhigh⟩, fun k hk => ?_⟩
        obtain ⟨hmin, hmax⟩ := ih hlow k hk
        exact ⟨hmin, hmax.trans hhigh⟩
      · obtain ⟨hlow, hhigh⟩ := hmid hlt
        refine List.forall_mem_cons.mpr ⟨⟨hlow, hhigh⟩, fun k hk => ?_⟩
        obtain ⟨hmin, hmax⟩ := ih hhigh k hk
        exact ⟨hlow.trans hmin, hmax⟩
      · simpa using hle
      · simpa using hle
      · simpa using hle

end Reads

/-- The search in a table of `n` entries ends, and reads no others. -/
def SearchesInside (key : Int → Int) (pc : Int) (n : Nat) : Prop :=
  (∃ fuel, (bisectLogged key pc fuel 0 (n - 1)).1 = some (bisect key pc 0 (n - 1))) ∧
    ∀ fuel, ∀ k ∈ (bisectLogged key pc fuel 0 (n - 1)).2, 0 ≤ k ∧ k < n

theorem searchesInside (key : Int → Int) (pc : Int) {n : Nat} (hn : 1 ≤ n) :
    SearchesInside key pc n := by
  refine ⟨⟨n, bisectLogged_fst (by omega) (by omega)⟩, fun fuel k hk => ?_⟩
  obtain ⟨hmin, hmax⟩ := bisectLogged_snd (by omega) k hk
  exact ⟨hmin, by omega⟩

/-! ### The tables -/

theorem Program.exit_mem {p : Program} {k : Int} (hk : 0 ≤ k) (hlt : k < p.exits.length) :
    p.exit k ∈ p.exits := by
  rw [Program.exit, if_neg (by omega), List.getD_eq_getElem _ _ (by omega)]
  exact List.getElem_mem _

theorem Program.branch_mem_of_lt {p : Program} {k : Int} (hk : 0 ≤ k)
    (hlt : k < p.branches.length) : p.branch k ∈ p.branches := by
  rw [Program.branch, if_neg (by omega), List.getD_eq_getElem _ _ (by omega)]
  exact List.getElem_mem _

theorem Program.branch_of_empty {p : Program} (hempty : p.branches = []) (k : Int) :
    p.branch k = p.spare k := by
  rw [Program.branch, hempty, List.getD_nil, ite_self]

/-- No exit is missed. -/
theorem Program.exit_found {p : Program} {pc : Int} (hsorted : p.exits.Pairwise (· ≤ ·))
    (hpc : pc ∈ p.exits) : (bisect p.exit pc 0 (p.exits.length - 1)).isSome := by
  obtain ⟨i, hi, hget⟩ := List.getElem_of_mem hpc
  have hentry : ∀ j : Nat, (hj : j < p.exits.length) → p.exit j = p.exits[j] := by
    intro j hj
    rw [Program.exit, if_neg (by omega), Int.toNat_natCast, List.getD_eq_getElem _ _ hj]
  refine bisect_isSome (k := i) ?_ (by omega) (by omega) ((hentry i hi).trans hget)
  intro a b ha hab hb
  obtain ⟨a, rfl⟩ := Int.eq_ofNat_of_zero_le ha
  obtain ⟨b, rfl⟩ := Int.eq_ofNat_of_zero_le (by omega : 0 ≤ b)
  rw [hentry a (by omega), hentry b (by omega)]
  exact List.pairwise_iff_getElem.mp hsorted a b _ _ (by omega)

/-- No branch is missed. -/
theorem Program.branch_found {p : Program} {pc : Int}
    (hsorted : p.branches.Pairwise (·.wherefrom ≤ ·.wherefrom)) {br : Branch}
    (hbr : br ∈ p.branches) (hpc : br.wherefrom = pc) :
    (bisect (fun k => (p.branch k).wherefrom) pc 0 (p.branches.length - 1)).isSome := by
  obtain ⟨i, hi, hget⟩ := List.getElem_of_mem hbr
  have hentry : ∀ j : Nat, (hj : j < p.branches.length) → p.branch j = p.branches[j] := by
    intro j hj
    rw [Program.branch, if_neg (by omega), Int.toNat_natCast, List.getD_eq_getElem _ _ hj]
  refine bisect_isSome (k := i) ?_ (by omega) (by omega) (by rw [hentry i hi, hget, hpc])
  intro a b ha hab hb
  obtain ⟨a, rfl⟩ := Int.eq_ofNat_of_zero_le ha
  obtain ⟨b, rfl⟩ := Int.eq_ofNat_of_zero_le (by omega : 0 ≤ b)
  simp only [hentry a (by omega), hentry b (by omega)]
  exact List.pairwise_iff_getElem.mp hsorted a b _ _ (by omega)

/-- A program with an exit ends only at its exits. -/
theorem Control.mem_exits_of_next {c : Control} (hexits : c.program.exits ≠ [])
    (h : c.next = none) : c.pc ∈ c.program.exits := by
  have hpos := List.length_pos_iff.mpr hexits
  rw [Control.next] at h
  split at h
  · rename_i k hk
    obtain ⟨hmin, hmax, hkey⟩ := bisect_sound (by omega) hk
    exact hkey ▸ Program.exit_mem hmin (by omega)
  · split at h <;> cases h

theorem Control.next_program {c d : Control} (h : c.next = some d) : d.program = c.program := by
  rw [Control.next] at h
  split at h
  · cases h
  · split at h
    · obtain rfl := Option.some.inj h
      split_ifs <;> rfl
    · obtain rfl := Option.some.inj h
      rfl

/-- An instruction keeps the counter within the program. -/
theorem Control.next_pc {c d : Control} (h : c.next = some d) (hsize : 0 ≤ c.program.size)
    (hpc : 0 ≤ c.pc ∧ c.pc ≤ c.program.size) : 0 ≤ d.pc ∧ d.pc ≤ c.program.size := by
  rw [Control.next] at h
  split at h
  · cases h
  · split at h
    · obtain rfl := Option.some.inj h
      split_ifs
      · exact hpc
      · simp only [processDobranch]
        split_ifs <;> omega
    · obtain rfl := Option.some.inj h
      simp only
      split_ifs <;> omega

end OperatingSystems.Simulator
