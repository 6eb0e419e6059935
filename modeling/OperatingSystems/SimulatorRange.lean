import OperatingSystems.SimulatorSlots
import OperatingSystems.SimulatorProgress

/-!
The program counter and the program. A branch keeps the counter below the size of the program, but
the check behind the default action lets it come to the size itself, so that a job leaves its
program exactly when it computes at a last address that is neither an exit nor a branch.
-/

namespace OperatingSystems.Simulator

open Runs

/-- `MAXPC`. -/
def maxPc : Int := maxProcPages * pageSize

/-- A program that fits into the pages of a process, with its tables in ascending order. -/
structure Program.Fits (p : Program) : Prop where
  size_pos : 1 ≤ p.size
  size_le : p.size ≤ maxPc
  exits_ne : p.exits ≠ []
  branches_ne : p.branches ≠ []
  exits_le : p.exits.Pairwise (· ≤ ·)
  branches_le : p.branches.Pairwise (·.wherefrom ≤ ·.wherefrom)

/-- The counter is in the program. -/
def Control.Within (c : Control) : Prop := 0 ≤ c.pc ∧ c.pc < c.program.size

/-- The counter is at the last address of the program, and this is neither an exit nor a branch. -/
def Control.AtEdge (c : Control) : Prop :=
  c.pc = c.program.size - 1 ∧ c.pc ∉ c.program.exits ∧
    ∀ b ∈ c.program.branches, b.wherefrom ≠ c.pc

/-! ### One instruction -/

theorem Program.Fits.branch_of_found {p : Program} {pc k : Int} (h : p.Fits)
    (hfound : bisect (fun k => (p.branch k).wherefrom) pc 0 (p.branches.length - 1) = some k) :
    ∃ br ∈ p.branches, br.wherefrom = pc := by
  have hpos := List.length_pos_iff.mpr h.branches_ne
  obtain ⟨hmin, hmax, hkey⟩ := bisect_sound (by omega) hfound
  exact ⟨p.branch k, Program.branch_mem_of_lt hmin (by omega), hkey⟩

/-- The two range checks: an instruction leads out of the program only from its edge. -/
theorem next_within_iff {c d : Control} (hp : c.program.Fits) (hc : c.Within)
    (h : c.next = some d) : d.Within ↔ ¬ c.AtEdge := by
  have hsize := hp.size_pos
  obtain ⟨hpos, hlt⟩ := hc
  rw [Control.next] at h
  split at h
  · cases h
  · rename_i hexit
    have hnexit : c.pc ∉ c.program.exits := by
      intro hmem
      have hfound := Program.exit_found hp.exits_le hmem
      rw [hexit] at hfound
      cases hfound
    split at h
    · rename_i k hbranch
      obtain ⟨br, hbr, hfrom⟩ := hp.branch_of_found hbranch
      obtain rfl := Option.some.inj h
      have hedge : ¬ c.AtEdge := fun hedge => hedge.2.2 br hbr hfrom
      have hk : ¬ k < 0 := by
        have hlength := List.length_pos_iff.mpr hp.branches_ne
        have := (bisect_sound (by omega) hbranch).1
        omega
      simp only [hedge, not_false_iff, iff_true, Control.Within, if_neg hk, processDobranch]
      split_ifs <;> omega
    · rename_i hbranch
      have hnbranch : ∀ br ∈ c.program.branches, br.wherefrom ≠ c.pc := by
        intro br hbr hfrom
        have hfound := Program.branch_found hp.branches_le hbr hfrom
        rw [hbranch] at hfound
        cases hfound
      obtain rfl := Option.some.inj h
      have hedge : c.AtEdge ↔ c.pc = c.program.size - 1 :=
        ⟨fun hedge => hedge.1, fun hlast => ⟨hlast, hnexit, hnbranch⟩⟩
      simp only [hedge, Control.Within]
      split_ifs <;> omega

/-! ### Runs -/

/-- The job is about to compute at the edge of its program. -/
def Process.FallsOff (q : Process) : Prop :=
  q.active = true ∧ q.pages q.page = 0 ∧ q.toControl.AtEdge

/-- The job stands in its program, and hence on one of its pages. -/
def Process.InProgram (q : Process) : Prop := q.toControl.Within ∧ q.page < maxProcPages

/-- All jobs are in their programs, and no pager is shown a counter beyond the last page. -/
def State.InProgram (s : State) : Prop :=
  (∀ k, (s.queue k).InProgram) ∧ ∀ slot, (s.pentry slot).page < maxProcPages

/-- The step condition: no slot steps a job over the edge. -/
def KeepsInProgram (s : State) (a : Phase) : Prop :=
  ∀ slot k, a = .step slot → s.processes slot = some k → ¬ (s.queue k).FallsOff

theorem page_lt_of_within {q : Process} (hp : q.program.Fits) (h : q.toControl.Within) :
    q.page < maxProcPages := by
  have hsize := hp.size_le
  have hlt : q.pc < q.program.size := h.2
  simp only [maxPc, pageSize, maxProcPages] at hsize
  simp only [Process.page, pageSize, maxProcPages]
  omega

theorem inProgram_iff {s : State} (hp : ∀ k, (s.queue k).program.Fits) :
    s.InProgram ↔ ∀ k, (s.queue k).toControl.Within := by
  constructor
  · exact fun h k => (h.1 k).1
  · intro h
    refine ⟨fun k => ⟨h k, page_lt_of_within (hp k) (h k)⟩, fun slot => ?_⟩
    cases hslot : s.processes slot with
    | none =>
        simp only [State.pentry, hslot, Pentry.page]
        decide
    | some k =>
        simp only [State.pentry, hslot, Pentry.page]
        exact page_lt_of_within (hp k) (h k)

section Steps

variable {procs slot : Nat} {s s' : State}

/-- A move of a slot leads a job on by one instruction, or leaves it where it is. -/
theorem SlotMove.control_cases (h : SlotMove s slot s') (k : Fin queueSize) :
    (s'.queue k).toControl = (s.queue k).toControl ∨
      (s.processes slot = some k ∧ (s.queue k).active = true ∧
        (s.queue k).pages (s.queue k).page = 0 ∧
        (s.queue k).toControl.next = some (s'.queue k).toControl) := by
  cases h with
  | vacant _ => exact Or.inl (by rw [reload_queue])
  | blocked k' hk' =>
      left
      by_cases hk : k = k'
      · subst hk
        rw [setJob_self]
        rfl
      · rw [setJob_of_ne _ _ hk]
  | compute k' c hk' hactive hin hnext =>
      by_cases hk : k = k'
      · subst hk
        right
        rw [setJob_self]
        exact ⟨hk', hactive, hin, hnext⟩
      · exact Or.inl (by rw [setJob_of_ne _ _ hk])
  | exit k' hk' =>
      left
      obtain ⟨avail, pages, blocked, hunload⟩ :=
        processUnload_eq (s.setJob k' (s.queue k').chargeCompute) k'
      rw [hunload, reload_queue]
      by_cases hk : k = k'
      · subst hk
        rw [setJob_self, setJob_self]
        rfl
      · rw [setJob_of_ne _ _ hk]
        exact congrArg Process.toControl (setJob_of_ne _ _ hk)
  | inactive _ _ => exact Or.inl (by rw [reload_queue])

/-- A job that is about to compute and not at an exit is led on. -/
theorem SlotMove.control_next (h : SlotMove s slot s') {k : Fin queueSize} {d : Control}
    (hslot : s.processes slot = some k) (hactive : (s.queue k).active = true)
    (hin : (s.queue k).pages (s.queue k).page = 0)
    (hnext : (s.queue k).toControl.next = some d) : (s'.queue k).toControl = d := by
  cases h with
  | vacant hnone => simp [hslot] at hnone
  | blocked k' hk' _ hout =>
      obtain rfl := Option.some.inj (hslot.symm.trans hk')
      exact absurd hin hout
  | compute k' c hk' _ _ hnext' =>
      obtain rfl := Option.some.inj (hslot.symm.trans hk')
      rw [setJob_self]
      exact Option.some.inj (hnext'.symm.trans hnext)
  | exit k' hk' _ _ hnone =>
      obtain rfl := Option.some.inj (hslot.symm.trans hk')
      simp [hnext] at hnone
  | inactive k' hk' hinactive =>
      obtain rfl := Option.some.inj (hslot.symm.trans hk')
      simp [hactive] at hinactive

theorem phase_control {a : Phase} (h : phase procs s a = some s') :
    (∃ slot, a = .step slot ∧ SlotMove s slot s') ∨
      ((∀ slot, a ≠ .step slot) ∧ ∀ k, (s'.queue k).toControl = (s.queue k).toControl) := by
  have hpaged : ∀ t, Paged s t → ∀ k, (t.queue k).toControl = (s.queue k).toControl := fun t ht k =>
    ht.same (fun q => q.toControl) (fun _ _ => rfl) k
  cases a with
  | step slot =>
      rw [phase, Option.ite_none_right_eq_some] at h
      exact Or.inl ⟨slot, rfl, Option.some.inj h.2 ▸ stepSlot_move s slot⟩
  | age slot =>
      rw [phase, Option.ite_none_right_eq_some] at h
      refine Or.inr ⟨fun _ => Phase.noConfusion, ?_⟩
      exact hpaged _ (Option.some.inj h.2 ▸ paged_ageSlot s slot)
  | request r =>
      refine Or.inr ⟨fun _ => Phase.noConfusion, ?_⟩
      exact hpaged _ (Option.some.inj h ▸ paged_answer procs r s)
  | clock =>
      refine Or.inr ⟨fun _ => Phase.noConfusion, ?_⟩
      exact hpaged _ (Option.some.inj h ▸ paged_clock s _)

theorem phase_program {a : Phase} (h : phase procs s a = some s') (k : Fin queueSize) :
    (s'.queue k).program = (s.queue k).program := by
  rcases phase_control h with ⟨slot, -, hmove⟩ | ⟨-, hsame⟩
  · rcases hmove.control_cases k with hsame | ⟨-, -, -, hnext⟩
    · exact congrArg Control.program hsame
    · exact Control.next_program hnext
  · exact congrArg Control.program (hsame k)

theorem phase_inProgram {a : Phase} (hp : ∀ k, (s.queue k).program.Fits) (hs : s.InProgram)
    (h : phase procs s a = some s') : s'.InProgram ↔ KeepsInProgram s a := by
  have hp' : ∀ k, (s'.queue k).program.Fits := fun k => phase_program h k ▸ hp k
  have hwithin := (inProgram_iff hp).mp hs
  rw [inProgram_iff hp']
  rcases phase_control h with ⟨slot, rfl, hmove⟩ | ⟨hno, hsame⟩
  · constructor
    · intro hall slot' k hstep hslot ⟨hactive, hin, hedge⟩
      obtain rfl : slot = slot' := Phase.step.inj hstep
      cases hnext : (s.queue k).toControl.next with
      | none => exact hedge.2.1 (Control.mem_exits_of_next (hp k).exits_ne hnext)
      | some d =>
          have hd := hall k
          rw [hmove.control_next hslot hactive hin hnext] at hd
          exact (next_within_iff (hp k) (hwithin k) hnext).mp hd hedge
    · intro hkeep k
      rcases hmove.control_cases k with hsame | ⟨hslot, hactive, hin, hnext⟩
      · rw [hsame]
        exact hwithin k
      · apply (next_within_iff (hp k) (hwithin k) hnext).mpr
        exact fun hedge => hkeep slot k rfl hslot ⟨hactive, hin, hedge⟩
  · refine iff_of_true (fun k => ?_) fun slot _ hstep => absurd hstep (hno slot)
    rw [hsame k]
    exact hwithin k

end Steps

/-- **The counter leaves a program only over its edge.** In a run of the simulator, from any state
in which the jobs are in their programs, under any schedule of steps, ageing and requests: the jobs
stay in their programs, and the indices of pages below `MAXPROCPAGES`, exactly if no job computes
at a last address of its program that is neither an exit nor a branch. -/
theorem pc_in_program_iff (procs : Nat) (s : State) (schedule : List Phase)
    (hp : ∀ k, (s.queue k).program.Fits) (hs : ∀ k, (s.queue k).toControl.Within) :
    (∀ s' ∈ visited (phase procs) s schedule, s'.InProgram) ↔
      Along (phase procs) KeepsInProgram s schedule := by
  apply visited_iff_along (fun s => ∀ k, (s.queue k).program.Fits)
  · intro s a s' hp h k
    rw [phase_program h k]
    exact hp k
  · exact fun s a s' hp hs h => phase_inProgram hp hs h
  · exact hp
  · exact (inProgram_iff hp).mpr hs

/-! ### A program with an edge -/

theorem stepSlot_compute {s : State} {slot : Nat} {k : Fin queueSize} {c : Control}
    (hslot : s.processes slot = some k) (hactive : (s.queue k).active = true)
    (hin : (s.queue k).pages (s.queue k).page = 0)
    (hnext : (s.queue k).toControl.next = some c) :
    s.stepSlot slot = s.setJob k { (s.queue k).chargeCompute with toControl := c } := by
  simp only [State.stepSlot, hslot, processStep_compute hactive hin hnext, if_true]

/-- It jumps to its last address, at which there is neither an exit nor a branch. -/
def edgeProgram : Program where
  size := maxPc
  branches := [⟨0, maxPc - 1, .GOTO, 0, 0, 1⟩]
  exits := [1]
  nbranches_le := by decide
  nexits_le := by decide

/-- A job of this program as it is loaded, with its pages paged in. -/
def edgeJob : Process where
  program := edgeProgram
  bcontexts := fun k => if k = 0 then
      { boffset := 0, bsize := 1, bvalue := true, bcount := 0,
        brings := fun i => if i = 0 then 0x7fffffff else 0 }
    else bcontextClear
  pc := 0
  npages := maxProcPages
  pages := fun _ => 0
  blocked := fun _ => false
  active := true
  compute := 0
  block := 0
  pid := 0
  kind := 0
  computed := []

/-- The job in slot `0`. -/
def edgeState : State where
  sysclock := 0
  pagesavail := physicalPages - maxProcPages
  processes := fun slot => if slot = 0 then some 0 else none
  queue := fun _ => edgeJob
  queueend := 1

theorem edgeProgram_ordered : edgeProgram.Ordered :=
  ⟨by decide, List.pairwise_singleton .., List.pairwise_singleton ..⟩

theorem edgeProgram_fits : edgeProgram.Fits where
  size_pos := by decide
  size_le := le_rfl
  exits_ne := List.cons_ne_nil _ _
  branches_ne := List.cons_ne_nil _ _
  exits_le := List.pairwise_singleton ..
  branches_le := List.pairwise_singleton ..

theorem edgeState_within (k : Fin queueSize) : (edgeState.queue k).toControl.Within := by
  show 0 ≤ edgeJob.pc ∧ edgeJob.pc < edgeProgram.size
  decide

/-- The first step is still within the program. -/
theorem edge_first_step : (∀ k, (edgeState.queue k).toControl.Within) ∧
    ∀ s' ∈ visited (phase 1) edgeState [.step 0], s'.InProgram := by
  refine ⟨edgeState_within, ?_⟩
  apply (pc_in_program_iff 1 edgeState [.step 0] (fun _ => edgeProgram_fits) edgeState_within).mpr
  refine fun s' _ => ⟨fun slot k _ _ hoff => ?_, trivial⟩
  have hlast : edgeJob.pc = edgeProgram.size - 1 := hoff.2.2.1
  revert hlast
  decide

/-- The second step leads to the address `MAXPC`, on a page that no process has. -/
theorem edge_left : (∀ k, (edgeState.queue k).program.Fits) ∧
    (∀ k, (edgeState.queue k).toControl.Within) ∧
    ∃ s' ∈ visited (phase 1) edgeState [.step 0, .step 0],
      ¬ s'.InProgram ∧ (s'.queue 0).pc = maxPc ∧ (s'.queue 0).page = maxProcPages := by
  refine ⟨fun _ => edgeProgram_fits, edgeState_within, ?_⟩
  have hjump : edgeJob.toControl.next = some (processDobranch edgeJob.toControl 0) :=
    next_branch edgeProgram_ordered (by decide) (by decide) (by decide)
  obtain ⟨c, hc⟩ : ∃ c, c = processDobranch edgeJob.toControl 0 := ⟨_, rfl⟩
  have hprogram : c.program = edgeProgram := by rw [hc]; rfl
  have hpc : c.pc = maxPc - 1 := by rw [hc]; rfl
  rw [← hc] at hjump
  have hfall : c.next = some ⟨c.program, c.bcontexts, c.pc + 1⟩ := by
    apply next_line <;> rw [hprogram]
    · exact edgeProgram_ordered.exits_ne
    all_goals rw [hpc]; decide
  have hfirst : edgeState.stepSlot 0 =
      edgeState.setJob 0 { edgeJob.chargeCompute with toControl := c } :=
    stepSlot_compute rfl rfl rfl hjump
  obtain ⟨q, hq⟩ : ∃ q, (edgeState.stepSlot 0).stepSlot 0 = (edgeState.stepSlot 0).setJob 0 q ∧
      q.pc = c.pc + 1 := by
    refine ⟨_, stepSlot_compute (c := ⟨c.program, c.bcontexts, c.pc + 1⟩) ?_ ?_ ?_ ?_, rfl⟩ <;>
      rw [hfirst]
    · rfl
    · rw [setJob_self]
      rfl
    · rw [setJob_self]
      rfl
    · rw [setJob_self]
      exact hfall
  have hend : (((edgeState.stepSlot 0).stepSlot 0).queue 0).pc = maxPc := by
    rw [hq.1, setJob_self, hq.2, hpc]
    rfl
  have hpage : (((edgeState.stepSlot 0).stepSlot 0).queue 0).page = maxProcPages := by
    rw [Process.page, hend]
    decide
  refine ⟨(edgeState.stepSlot 0).stepSlot 0, ?_, fun hin => ?_, hend, hpage⟩
  · simp [visited, phase]
  · have hlt := (hin.1 0).2
    rw [hpage] at hlt
    exact lt_irrefl _ hlt

end OperatingSystems.Simulator
