import OperatingSystems.SimulatorSolo

/-!
When the step of a job returns `FALSE`: at the exits of its program, which the search in the table
finds as a scan would, and every job of the five programs comes to one, if it gets its pages.
-/

namespace OperatingSystems.Simulator

/-! ### One step -/

/-- The lookup by bisection agrees with a scan of the tables. -/
theorem processStep_scans {q : Process} (hactive : q.active = true) (hin : q.pages q.page = 0)
    (hexits_pos : 1 ≤ q.program.exits.length) (hbranches_pos : 1 ≤ q.program.branches.length)
    (hexits_lt : q.program.exits.Pairwise (· < ·))
    (hbranches_lt : q.program.branches.Pairwise (·.wherefrom < ·.wherefrom)) :
    ((processStep q).1 = false ↔ q.pc ∈ q.program.exits) ∧
      (q.pc ∉ q.program.exits →
        (∀ k : Nat, k < q.program.branches.length → (q.program.branch k).wherefrom = q.pc →
          processStep q =
            (true, { q.chargeCompute with toControl := processDobranch q.toControl k })) ∧
        ((∀ k : Nat, k < q.program.branches.length → (q.program.branch k).wherefrom ≠ q.pc) →
          processStep q = (true, { q.chargeCompute with
            pc := if q.pc + 1 < 0 ∨ q.pc + 1 > q.program.size then 0 else q.pc + 1 }))) ∧
      SearchesInside q.program.exit q.pc q.program.exits.length ∧
      SearchesInside (fun k => (q.program.branch k).wherefrom) q.pc q.program.branches.length := by
  have hp : q.program.Ordered := ⟨List.length_pos_iff.mp hexits_pos, hexits_lt, hbranches_lt⟩
  have hne : q.program.branches ≠ [] := List.length_pos_iff.mp hbranches_pos
  refine ⟨⟨fun hfalse => ?_, fun hpc => ?_⟩, fun hpc => ⟨fun k hk hfrom => ?_, fun habsent => ?_⟩,
    searchesInside _ _ hexits_pos, searchesInside _ _ hbranches_pos⟩
  · cases hnext : q.toControl.next with
    | none => exact Control.mem_exits_of_next hp.exits_ne hnext
    | some c =>
        rw [processStep_compute hactive hin hnext] at hfalse
        cases hfalse
  · rw [processStep_exit hactive hin (next_exit hp.exits_le hpc)]
  · rw [processStep_compute hactive hin (next_branch hp hpc hk hfrom)]
  · have hbranch : ∀ b ∈ q.program.branches, b.wherefrom ≠ q.pc := by
      intro b hb
      obtain ⟨k, hk, rfl⟩ := List.getElem_of_mem hb
      have := habsent k hk
      rwa [Program.branch, if_neg (by omega), Int.toNat_natCast, List.getD_eq_getElem _ _ hk]
        at this
    rw [processStep_compute hactive hin
      (next_default hp.exits_ne hpc hbranch fun hnil => absurd hnil hne)]
    rfl

/-- A job of the fifth program at an address, with its pages paged in. -/
def pgm5Job (pc : Int) : Process where
  program := programs 4
  bcontexts := fun _ => bcontextClear
  pc := pc
  npages := maxProcPages
  pages := fun _ => 0
  blocked := fun _ => false
  active := true
  compute := 0
  block := 0
  pid := 0
  kind := 4
  computed := []

/-- At its exit, at its second branch, and at an address that is neither. -/
theorem processStep_scans_pgm5 :
    (processStep (pgm5Job 504)).1 = false ∧
    processStep (pgm5Job 501) = (true, { (pgm5Job 501).chargeCompute with
      toControl := processDobranch (pgm5Job 501).toControl 1 }) ∧
    processStep (pgm5Job 130) = (true, { (pgm5Job 130).chargeCompute with pc := 131 }) ∧
    SearchesInside (programs 4).exit 501 1 ∧
    SearchesInside (fun k => ((programs 4).branch k).wherefrom) 501 4 := by
  have hexits : (programs 4).exits.Pairwise (· < ·) := by decide
  have hbranches : (programs 4).branches.Pairwise (·.wherefrom < ·.wherefrom) := by decide
  have hscans := fun pc =>
    processStep_scans (q := pgm5Job pc) rfl rfl (Nat.le_refl 1) (Nat.le_add_left 1 3) hexits
      hbranches
  obtain ⟨-, hsearches⟩ := (hscans 501).2
  refine ⟨(hscans 504).1.mpr (by decide), ?_, ?_, hsearches⟩
  · exact ((hscans 501).2.1 (by decide)).1 1 (by decide) rfl
  · exact ((hscans 130).2.1 (by decide)).2 (by decide)

/-! ### The exit of a job -/

/-- The job as its next step finds it. -/
def Process.before (q : Process) (schedule : Nat → Nat → Int) (n : Nat) : Process :=
  { q.after schedule n with pages := schedule n }

/-- Whenever the job is active, the page it is on comes to be resident before one of its next
steps. -/
def Process.Granted (q : Process) (schedule : Nat → Nat → Int) : Prop :=
  ∀ n, (q.after schedule n).active = true →
    ∃ m, n ≤ m ∧ (q.before schedule m).pages (q.before schedule m).page = 0

section Exit

variable {start : Process} {schedule : Nat → Nat → Int}

theorem after_inactive {i m : Nat} (hend : (start.after schedule i).active = false) (hle : i ≤ m) :
    (start.after schedule m).active = false := by
  induction m, hle using Nat.le_induction with
  | base => exact hend
  | succ m _ ih =>
      have hstill : (start.before schedule m).active = false := ih
      rw [Process.after]
      show (start.before schedule m).stepped.active = false
      rw [stepped_inactive hstill]
      exact hstill

/-- The first step at which the page is there comes after blocked steps only. -/
theorem Process.Running.waits {n m : Nat} (hrun : start.Running (start.after schedule n))
    (hle : n ≤ m) (hin : (start.before schedule m).pages (start.before schedule m).page = 0) :
    ∃ i, start.Running (start.after schedule i) ∧
      (start.after schedule i).compute = (start.after schedule n).compute ∧
      (start.before schedule i).pages (start.before schedule i).page = 0 := by
  obtain ⟨d, rfl⟩ := Nat.exists_eq_add_of_le hle
  induction d generalizing n with
  | zero => exact ⟨n, hrun, rfl, hin⟩
  | succ d ih =>
      by_cases hnow : (start.before schedule n).pages (start.before schedule n).page = 0
      · exact ⟨n, hrun, rfl, hnow⟩
      have hrun' : start.Running (start.before schedule n) := hrun.congr rfl rfl rfl rfl rfl rfl
      have hblocked : start.after schedule (n + 1) = (start.before schedule n).chargeBlock :=
        stepped_blocked hrun'.active hnow
      have hnext : start.Running (start.after schedule (n + 1)) := by
        rw [hblocked]
        exact hrun'.congr rfl rfl rfl rfl rfl rfl
      rw [← Nat.add_assoc, Nat.add_right_comm] at hin
      obtain ⟨i, hi, hcompute, hthere⟩ := ih hnext (Nat.le_add_right _ d) hin
      refine ⟨i, hi, hcompute.trans ?_, hthere⟩
      rw [hblocked]
      rfl

/-- A job that gets its pages computes its whole course. -/
theorem Process.Granted.computes (h : start.Granted schedule) (hstart : start.Running start)
    (hcompute : start.compute = 0) {k : Nat} (hlasts : start.toControl.Lasts k) :
    ∃ i, start.Running (start.after schedule i) ∧ (start.after schedule i).compute = k ∧
      (start.before schedule i).pages (start.before schedule i).page = 0 := by
  induction k with
  | zero =>
      obtain ⟨m, hle, hin⟩ := h 0 hstart.active
      have hfirst : start.Running (start.after schedule 0) := hstart
      obtain ⟨i, hi, hzero, hthere⟩ := hfirst.waits hle hin
      exact ⟨i, hi, hzero.trans hcompute, hthere⟩
  | succ k ih =>
      obtain ⟨i, hi, hk, hthere⟩ := ih fun m hm => hlasts m (Nat.lt_succ_of_lt hm)
      have hi' : start.Running (start.before schedule i) := hi.congr rfl rfl rfl rfl rfl rfl
      obtain ⟨c, hc⟩ := Option.isSome_iff_exists.mp (hlasts k (Nat.lt_succ_self k))
      have hnext : (start.before schedule i).toControl.next = some c := by
        rw [hi'.control]
        show (start.toControl.course (start.after schedule i).compute).next = some c
        rw [hk, hc]
      have hstep : start.after schedule (i + 1) =
          { (start.before schedule i).chargeCompute with toControl := c } :=
        stepped_compute hi'.active hthere hnext
      have hrun : start.Running (start.after schedule (i + 1)) := by
        rw [hstep]
        exact hi'.compute hnext
      have hsucc : (start.after schedule (i + 1)).compute = k + 1 := by
        rw [hstep]
        exact congrArg Nat.succ hk
      obtain ⟨m, hle, hin⟩ := h (i + 1) hrun.active
      obtain ⟨j, hj, heq, hthere'⟩ := hrun.waits hle hin
      exact ⟨j, hj, heq.trans hsucc, hthere'⟩

end Exit

theorem stepped_of_ends {q : Process} (h : (processStep q).1 = false) :
    q.stepped.active = false := by
  rw [Process.stepped, h, if_neg Bool.false_ne_true]
  split_ifs with hactive
  · rfl
  · exact Bool.eq_false_of_not_eq_true hactive

/-- Each of the five programs, with whatever branch contexts it is loaded, executes a number of
instructions that does not depend on its paging, and if it gets its pages, comes to an exit. -/
theorem programs_exit (t : Fin programCount) {rand : Stream} {fuel drawn pid drawn' : Nat}
    {kind : Fin programCount} {q : Process}
    (hload : processLoad rand fuel drawn (programs t) pid kind = some (q, drawn')) :
    ∃ n, ∀ schedule, (∀ m, (q.after schedule m).compute ≤ n + 1) ∧
      (q.Granted schedule → ∃ m, (q.after schedule m).compute = n ∧
        (∀ i, i < m → (processStep (q.before schedule i)).1 = true) ∧
        (processStep (q.before schedule m)).1 = false ∧
        (q.before schedule m).active = true ∧
        (q.before schedule m).pages (q.before schedule m).page = 0 ∧
        (q.before schedule m).pc ∈ (programs t).exits) := by
  have hfresh := processLoad_fresh hload
  have hstart : q.Running q := hfresh.running
  obtain ⟨n, hend⟩ : ∃ n, q.toControl.EndsAt n := by
    obtain ⟨⟨program, contexts, pc⟩, _⟩ := q
    obtain rfl : program = programs t := hfresh.program
    obtain rfl : pc = 0 := hfresh.pc
    exact programs_end t contexts
  refine ⟨n, fun schedule => ⟨fun m => ?_, fun hgranted => ?_⟩⟩
  · rcases after_way hstart schedule m with hrun | hended
    · by_contra hbeyond
      have hlast := hrun.lasts n (by omega)
      simp [hend.2] at hlast
    · obtain ⟨n', hend', -, hcompute, -⟩ := hended.ended
      obtain rfl := hend'.unique hend
      exact hcompute.le
  · obtain ⟨m, hrun, hcompute, hin⟩ := hgranted.computes hstart hfresh.compute hend.1
    have hrun' : q.Running (q.before schedule m) := hrun.congr rfl rfl rfl rfl rfl rfl
    have hnext : (q.before schedule m).toControl.next = none := by
      rw [hrun'.control]
      show (q.toControl.course (q.after schedule m).compute).next = none
      rw [hcompute, hend.2]
    have hprogram : (q.before schedule m).program = programs t := by
      rw [hrun'.control, Control.course_program, hfresh.program]
    refine ⟨m, hcompute, fun i hi => ?_, ?_, hrun'.active, hin, ?_⟩
    · by_contra hgoes
      have hover : (q.after schedule (i + 1)).active = false :=
        stepped_of_ends (Bool.eq_false_of_not_eq_true hgoes)
      exact absurd ((after_inactive hover hi).symm.trans hrun.active) (by decide)
    · rw [processStep_exit hrun'.active hin hnext]
    · rw [← hprogram]
      refine Control.mem_exits_of_next ?_ hnext
      rw [hprogram]
      exact (programs_ordered t).exits_ne

theorem programs_exit_pgm5 : ∃ q drawn' n,
    processLoad alternating 202 0 (programs 4) 0 4 = some (q, drawn') ∧
      ∃ m, (q.after (fun _ _ => 0) m).compute = n ∧
        (q.before (fun _ _ => 0) m).pc ∈ (programs 4).exits := by
  obtain ⟨⟨q, drawn'⟩, hload⟩ := processLoad_ends alternates_programs
    (by decide : 2 * maxBrings + 1 < 202) 4 0 0 4
  obtain ⟨n, hn⟩ := programs_exit 4 hload
  have hgranted : q.Granted fun _ _ => 0 := fun n _ => ⟨n, le_rfl, rfl⟩
  obtain ⟨m, hm, -, -, -, -, hpc⟩ := (hn fun _ _ => 0).2 hgranted
  exact ⟨q, drawn', n, hload, m, hm, hpc⟩

end OperatingSystems.Simulator
