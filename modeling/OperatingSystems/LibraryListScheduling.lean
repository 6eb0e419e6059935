import Mathlib.Algebra.BigOperators.Intervals
import Mathlib.Algebra.Order.BigOperators.Group.Finset
import Mathlib.Data.List.MinMax
import Mathlib.Order.Lattice.Nat
import Mathlib.Tactic.Linarith

/-!
List scheduling. The jobs of a list are put on machines in the order of the list, each on the
machine that is free first. The latest end is at most the average load and most of one job, and so
less than twice what any other distribution of the jobs achieves.
-/

namespace ListScheduling

open Finset

/-! ### Schedules -/

/-- The machine that is free first; of several, the one with the least number. -/
def firstFree (machines : Nat) (free : Nat → Nat) : Nat :=
  ((List.range machines).argmin free).getD 0

/-- When each machine is free after the first `n` jobs. -/
def freeAfter (machines : Nat) (duration : Nat → Nat) : Nat → Nat → Nat
  | 0 => fun _ => 0
  | n + 1 =>
      let free := freeAfter machines duration n
      let machine := firstFree machines free
      Function.update free machine (free machine + duration n)

/-- The machine of the job. -/
def machine (machines : Nat) (duration : Nat → Nat) (job : Nat) : Nat :=
  firstFree machines (freeAfter machines duration job)

/-- When the job starts. -/
def start (machines : Nat) (duration : Nat → Nat) (job : Nat) : Nat :=
  freeAfter machines duration job (machine machines duration job)

/-- When the first `n` jobs have ended. -/
def makespan (machines : Nat) (duration : Nat → Nat) (n : Nat) : Nat :=
  (range machines).sup (freeAfter machines duration n)

example : (List.range 5).map (machine 2 fun job => [3, 1, 2, 2, 1].getD job 0) = [0, 1, 1, 0, 1] := by
  decide

variable {machines : Nat} {free duration : Nat → Nat} {n job i : Nat}

theorem idxOf_range {m : Nat} (hi : i < m) : (List.range m).idxOf i = i := by
  have hindex := List.nodup_range.idxOf_getElem i (hi.trans_eq List.length_range.symm)
  rwa [List.getElem_range] at hindex

theorem firstFree_eq_iff (hmachines : 0 < machines) :
    firstFree machines free = i ↔
      i < machines ∧ (∀ j, j < machines → free i ≤ free j) ∧ ∀ j, j < i → free i < free j := by
  obtain ⟨first, hfirst⟩ : ∃ first, (List.range machines).argmin free = some first := by
    rw [← Option.ne_none_iff_exists', Ne, List.argmin_eq_none, List.range_eq_nil]
    exact hmachines.ne'
  have hspec : first < machines ∧ (∀ j, j < machines → free first ≤ free j) ∧
      ∀ j, j < first → free first < free j := by
    obtain ⟨hmem, hle, hindex⟩ := List.argmin_eq_some_iff.mp hfirst
    rw [List.mem_range] at hmem
    refine ⟨hmem, fun j hj => hle j (List.mem_range.mpr hj), fun j hj => not_le.mp fun hback => ?_⟩
    have hj' := hj.trans hmem
    have hidx := hindex j (List.mem_range.mpr hj') hback
    rw [idxOf_range hmem, idxOf_range hj'] at hidx
    omega
  rw [firstFree, hfirst, Option.getD_some]
  constructor
  · rintro rfl
    exact hspec
  · rintro ⟨hlt, hle, hbefore⟩
    rcases Nat.lt_trichotomy first i with hlow | rfl | hhigh
    · exact absurd (hspec.2.1 i hlt) (not_le.mpr (hbefore first hlow))
    · rfl
    · exact absurd (hle first hspec.1) (not_le.mpr (hspec.2.2 i hhigh))

theorem machine_lt (hmachines : 0 < machines) : machine machines duration job < machines :=
  ((firstFree_eq_iff hmachines).mp rfl).1

/-- No machine is free before the job starts. -/
theorem start_le (hmachines : 0 < machines) (hi : i < machines) :
    start machines duration job ≤ freeAfter machines duration job i :=
  ((firstFree_eq_iff hmachines).mp rfl).2.1 i hi

theorem freeAfter_machine :
    freeAfter machines duration (job + 1) (machine machines duration job) =
      start machines duration job + duration job :=
  Function.update_self ..

theorem freeAfter_of_ne (h : i ≠ machine machines duration job) :
    freeAfter machines duration (job + 1) i = freeAfter machines duration job i :=
  Function.update_of_ne h ..

theorem freeAfter_le_succ :
    freeAfter machines duration job i ≤ freeAfter machines duration (job + 1) i := by
  by_cases h : i = machine machines duration job
  · subst h
    rw [freeAfter_machine]
    exact Nat.le_add_right _ _
  · rw [freeAfter_of_ne h]

theorem freeAfter_mono {n n' : Nat} (h : n ≤ n') :
    freeAfter machines duration n i ≤ freeAfter machines duration n' i := by
  induction n', h using Nat.le_induction with
  | base => exact le_rfl
  | succ n' _ ih => exact ih.trans freeAfter_le_succ

/-! ### The makespan -/

/-- The machines do the work of the jobs and nothing else. -/
theorem sum_freeAfter (hmachines : 0 < machines) (n : Nat) :
    ∑ i ∈ range machines, freeAfter machines duration n i = ∑ job ∈ range n, duration job := by
  induction n with
  | zero => simp [freeAfter]
  | succ n ih =>
      have hmem : machine machines duration n ∈ range machines :=
        mem_range.mpr (machine_lt hmachines)
      rw [sum_range_succ, ← ih, ← add_sum_erase _ _ hmem, ← add_sum_erase (range machines)
        (freeAfter machines duration n) hmem, freeAfter_machine]
      have hrest : ∑ i ∈ (range machines).erase (machine machines duration n),
          freeAfter machines duration (n + 1) i =
            ∑ i ∈ (range machines).erase (machine machines duration n),
              freeAfter machines duration n i :=
        sum_congr rfl fun i hi => freeAfter_of_ne (ne_of_mem_erase hi)
      rw [hrest]
      unfold start
      omega

/-- A machine is free at most the average load and most of one job after the start. -/
theorem mul_freeAfter_le {longest : Nat} (hmachines : 0 < machines)
    (hlongest : ∀ job, job < n → duration job ≤ longest) (hi : i < machines) :
    machines * freeAfter machines duration n i ≤
      ∑ job ∈ range n, duration job + (machines - 1) * longest := by
  induction n generalizing i with
  | zero => simp [freeAfter]
  | succ n ih =>
      rw [sum_range_succ]
      by_cases h : i = machine machines duration n
      · subst h
        have hleast : machines * start machines duration n ≤ ∑ job ∈ range n, duration job := by
          rw [← sum_freeAfter hmachines n]
          calc machines * start machines duration n
              = ∑ _i ∈ range machines, start machines duration n := by
                rw [sum_const_nat fun _ _ => rfl, card_range]
            _ ≤ ∑ i ∈ range machines, freeAfter machines duration n i :=
                sum_le_sum fun i hi => start_le hmachines (mem_range.mp hi)
        have hlast := Nat.mul_le_mul_left (machines - 1) (hlongest n (Nat.lt_succ_self n))
        obtain ⟨others, rfl⟩ := Nat.exists_eq_add_of_lt hmachines
        rw [freeAfter_machine, Nat.mul_add]
        simp only [Nat.zero_add, Nat.add_sub_cancel] at hlast hleast ⊢
        linarith [Nat.add_one_mul others (duration n)]
      · rw [freeAfter_of_ne h]
        have ih := ih (fun job hjob => hlongest job (Nat.lt_succ_of_lt hjob)) hi
        omega

theorem freeAfter_le_makespan (hi : i < machines) :
    freeAfter machines duration n i ≤ makespan machines duration n :=
  le_sup (mem_range.mpr hi)

theorem makespan_le {latest : Nat}
    (h : ∀ i, i < machines → freeAfter machines duration n i ≤ latest) :
    makespan machines duration n ≤ latest :=
  Finset.sup_le fun i hi => h i (mem_range.mp hi)

theorem mul_makespan_le {longest : Nat} (hmachines : 0 < machines)
    (hlongest : ∀ job, job < n → duration job ≤ longest) :
    machines * makespan machines duration n ≤
      ∑ job ∈ range n, duration job + (machines - 1) * longest := by
  obtain ⟨i, hi, hmax⟩ := exists_mem_eq_sup (range machines)
    (nonempty_range_iff.mpr hmachines.ne') (freeAfter machines duration n)
  rw [makespan, hmax]
  exact mul_freeAfter_le hmachines hlongest (mem_range.mp hi)

/-- The jobs before the number of the machines each get a machine of their own. -/
theorem freeAfter_early (hpos : ∀ job, job < n → 0 < duration job) (hn : n ≤ machines) (i : Nat) :
    freeAfter machines duration n i = if i < n then duration i else 0 := by
  induction n generalizing i with
  | zero => rfl
  | succ n ih =>
      have ih := ih (fun job hjob => hpos job (Nat.lt_succ_of_lt hjob)) (Nat.le_of_succ_le hn)
      have hlast : machine machines duration n = n := by
        refine (firstFree_eq_iff (Nat.zero_lt_of_lt hn)).mpr ⟨hn, fun j _ => ?_, fun j hj => ?_⟩
        · rw [ih n, if_neg (lt_irrefl n)]
          exact Nat.zero_le _
        · rw [ih n, if_neg (lt_irrefl n), ih j, if_pos hj]
          exact hpos j (Nat.lt_succ_of_lt hj)
      by_cases hi : i = n
      · subst hi
        have hend : freeAfter machines duration (i + 1) (machine machines duration i) =
            start machines duration i + duration i := freeAfter_machine
        rw [start, hlast, ih i, if_neg (lt_irrefl i), Nat.zero_add] at hend
        rw [hend, if_pos (Nat.lt_succ_self i)]
      · rw [freeAfter_of_ne (by rwa [hlast]), ih i]
        by_cases hlt : i < n
        · rw [if_pos hlt, if_pos (Nat.lt_succ_of_lt hlt)]
        · rw [if_neg hlt, if_neg (by omega)]

/-- With as many jobs as machines, every other machine takes some of the work. -/
theorem makespan_add_le (hmachines : 0 < machines) (hn : machines ≤ n)
    (hpos : ∀ job, job < n → 0 < duration job) :
    makespan machines duration n + (machines - 1) ≤ ∑ job ∈ range n, duration job := by
  obtain ⟨i, hi, hmax⟩ := exists_mem_eq_sup (range machines)
    (nonempty_range_iff.mpr hmachines.ne') (freeAfter machines duration n)
  have hbusy : ∀ j ∈ (range machines).erase i, 1 ≤ freeAfter machines duration n j := by
    intro j hj
    have hlt := mem_range.mp (mem_of_mem_erase hj)
    have hearly : freeAfter machines duration machines j = duration j := by
      rw [freeAfter_early (fun job hjob => hpos job (hjob.trans_le hn)) le_rfl, if_pos hlt]
    exact (hpos j (hlt.trans_le hn)).trans_le (hearly ▸ freeAfter_mono hn)
  rw [makespan, hmax, ← sum_freeAfter hmachines n, ← add_sum_erase _ _ hi]
  refine Nat.add_le_add_left ?_ _
  calc machines - 1 = ∑ _j ∈ (range machines).erase i, 1 := by
        rw [sum_const_nat fun _ _ => rfl, card_erase_of_mem hi, card_range, Nat.mul_one]
    _ ≤ ∑ j ∈ (range machines).erase i, freeAfter machines duration n j := sum_le_sum hbusy

/-- The work is done between the start and the makespan. -/
theorem sum_le_mul_makespan (hmachines : 0 < machines) :
    ∑ job ∈ range n, duration job ≤ machines * makespan machines duration n := by
  rw [← sum_freeAfter hmachines n]
  calc ∑ i ∈ range machines, freeAfter machines duration n i
      ≤ ∑ _i ∈ range machines, makespan machines duration n :=
        sum_le_sum fun i hi => freeAfter_le_makespan (mem_range.mp hi)
    _ = machines * makespan machines duration n := by
        rw [sum_const_nat fun _ _ => rfl, card_range]

/-- What a machine has to do when the jobs are distributed in some way. -/
def load (duration : Nat → Nat) (n : Nat) (on : Nat → Nat) (i : Nat) : Nat :=
  ∑ job ∈ range n with on job = i, duration job

/-- No other distribution of the jobs is twice as good. -/
theorem mul_makespan_le_load {on : Nat → Nat} {latest : Nat} (hmachines : 0 < machines)
    (hon : ∀ job, job < n → on job < machines)
    (hlatest : ∀ i, i < machines → load duration n on i ≤ latest) :
    machines * makespan machines duration n ≤ (2 * machines - 1) * latest := by
  have hlongest : ∀ job, job < n → duration job ≤ latest := by
    intro job hjob
    refine le_trans ?_ (hlatest (on job) (hon job hjob))
    exact single_le_sum (f := duration) (fun _ _ => Nat.zero_le _)
      (mem_filter.mpr ⟨mem_range.mpr hjob, rfl⟩)
  have htotal : ∑ job ∈ range n, duration job ≤ machines * latest := by
    calc ∑ job ∈ range n, duration job
        = ∑ i ∈ range machines, load duration n on i :=
          (sum_fiberwise_of_maps_to
            (fun job hjob => mem_range.mpr (hon job (mem_range.mp hjob))) duration).symm
      _ ≤ ∑ _i ∈ range machines, latest :=
          sum_le_sum fun i hi => hlatest i (mem_range.mp hi)
      _ = machines * latest := by rw [sum_const_nat fun _ _ => rfl, card_range]
  refine (mul_makespan_le hmachines hlongest).trans ?_
  rw [show 2 * machines - 1 = machines + (machines - 1) by omega, Nat.add_mul]
  omega

end ListScheduling
