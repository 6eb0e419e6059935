import OperatingSystems.SimulatorSolo

/-!
Programs without branches. The search of an empty table still looks at what its first slot and the
memory before the table hold, and a cleared branch context decides to branch: whether such a program
runs straight through depends on the two entries. Where they are zero, the program executes its
first address twice.
-/

namespace OperatingSystems.Simulator

open Runs

/-- The addresses from the first one to the last. -/
def addressesTo (last : Int) : List Int := (List.range (last + 1).toNat).map fun i : Nat => (i : Int)

/-- What a program without branches is to do: however it is loaded and paged, it computes at one
address after the other, to the exit, and has then computed at all of them. -/
def Program.RunsStraight (p : Program) (exit : Int) : Prop :=
  ∀ (rand : Stream) (fuel drawn pid : Nat) (kind : Fin programCount) (q : Process) (drawn' : Nat),
    processLoad rand fuel drawn p pid kind = some (q, drawn') →
    ∀ (schedule : Nat → Nat → Int) (n : Nat),
      (q.after schedule n).computed <+: addressesTo exit ∧
        ((q.after schedule n).active = false →
          (q.after schedule n).computed = addressesTo exit ∧
            ((q.after schedule n).compute : Int) = exit + 1)

/-- What the search finds in the empty table does not keep the program from going on by one. The
first slot has a cleared context, which decides to branch; the one before it has none. -/
def Program.GoesOn (p : Program) (pc : Int) : Prop :=
  if pc = (p.spare 0).wherefrom then (p.spare 0).whereto = pc + 1
  else pc ≠ (p.spare (-1)).wherefrom

instance (p : Program) (pc : Int) : Decidable (p.GoesOn pc) :=
  inferInstanceAs (Decidable (if pc = (p.spare 0).wherefrom then (p.spare 0).whereto = pc + 1
    else pc ≠ (p.spare (-1)).wherefrom))

/-- What is computed in the ticks of a straight line is told by their number. -/
theorem pc_of_prefix {c : Control} {n : Nat} {last : Int}
    (h : c.pcs (n + 1) <+: addressesTo last) : (c.course n).pc = n := by
  have hlength : n < (c.pcs (n + 1)).length := by
    rw [Control.pcs, List.length_map, List.length_range]
    exact Nat.lt_succ_self n
  have hget := h.getElem hlength
  simpa only [Control.pcs, addressesTo, List.getElem_map, List.getElem_range] using hget

section Empty

variable {p : Program} (hempty : p.branches = [])

include hempty

/-- No random number is drawn, and all contexts stay cleared. -/
theorem processLoad_empty (rand : Stream) (fuel drawn pid : Nat) (kind : Fin programCount) :
    ∃ q, processLoad rand fuel drawn p pid kind = some (q, drawn) ∧
      q.toControl = ⟨p, fun _ => bcontextClear, 0⟩ := by
  have hcount : p.branches.length < maxBranches := by
    rw [hempty]
    decide
  have hinit : initContexts rand fuel p p.branches.length drawn (fun _ => bcontextClear) =
      some (fun _ => bcontextClear, drawn) := by
    rw [hempty]
    rfl
  rw [processLoad, if_pos hcount, hinit]
  exact ⟨_, rfl, rfl⟩

/-- An instruction of which the context of the first slot is still cleared, should it be used. -/
theorem next_empty_pc (hexits : p.exits ≠ []) {pc : Int} (hexit : pc ∉ p.exits) (hpc : 0 ≤ pc)
    (hsize : pc + 1 < p.size) (contexts : Nat → Bcontext)
    (hfirst : pc = (p.spare 0).wherefrom → contexts 0 = bcontextClear) :
    ∃ d, (⟨p, contexts, pc⟩ : Control).next = some d ∧ (d.pc = pc + 1 ↔ p.GoesOn pc) ∧
      (pc ≠ (p.spare 0).wherefrom → d.bcontexts = contexts) := by
  by_cases hfrom : pc = (p.spare 0).wherefrom
  · refine ⟨_, next_empty hexits hexit hempty hfrom, ?_, fun hne => absurd hfrom hne⟩
    have hdecision : (bcontextDecide (contexts 0)).1 = true := by
      rw [hfirst hfrom]
      rfl
    simp only [Program.GoesOn, if_pos hfrom, processDobranch, hdecision, if_true, Nat.cast_zero,
      Program.branch_of_empty hempty]
    split_ifs <;> omega
  · by_cases hbefore : pc = (p.spare (-1)).wherefrom
    · refine ⟨_, next_before hexits hexit hempty hfrom hbefore, ?_, fun _ => rfl⟩
      simp only [Program.GoesOn, if_neg hfrom]
      omega
    · have hbranch : ∀ b ∈ p.branches, b.wherefrom ≠ pc := by
        rw [hempty]
        exact fun b hb => absurd hb List.not_mem_nil
      refine ⟨_, next_line hexits hexit hbranch (fun _ => ⟨hfrom, hbefore⟩) ⟨by omega, by omega⟩,
        ?_, fun _ => rfl⟩
      simpa only [Program.GoesOn, if_neg hfrom, true_iff] using hbefore

variable {exit : Int} (hleast : ∀ e ∈ p.exits, exit ≤ e) (hsize : exit < p.size)

include hleast hsize

/-- As long as nothing keeps it from going on, the program stands at the address that is the number
of its instructions, and a slot that it has not come to is cleared. -/
theorem course_straight (hexits : p.exits ≠ []) {n : Nat} (hn : n ≤ exit)
    (hon : ∀ m, m < n → p.GoesOn (m : Nat)) :
    (⟨p, fun _ => bcontextClear, 0⟩ : Control).Lasts n ∧
      ∃ contexts, (⟨p, fun _ => bcontextClear, 0⟩ : Control).course n = ⟨p, contexts, n⟩ ∧
        ((p.spare 0).wherefrom < 0 ∨ n ≤ (p.spare 0).wherefrom → contexts 0 = bcontextClear) := by
  induction n with
  | zero => exact ⟨fun m hm => absurd hm (Nat.not_lt_zero m), _, rfl, fun _ => rfl⟩
  | succ n ih =>
      obtain ⟨hlasts, contexts, hcourse, hcleared⟩ :=
        ih (by omega) fun m hm => hon m (Nat.lt_succ_of_lt hm)
      have hexit : (n : Int) ∉ p.exits := fun hmem => absurd (hleast n hmem) (by omega)
      obtain ⟨d, hnext, hpc, hkept⟩ := next_empty_pc hempty hexits hexit (Int.natCast_nonneg n)
        (by omega) contexts fun hfrom => hcleared (Or.inr hfrom.le)
      have hcourse' : (⟨p, fun _ => bcontextClear, 0⟩ : Control).course (n + 1) = d :=
        Control.course_succ (hcourse ▸ hnext)
      refine ⟨hlasts.succ (by rw [hcourse, hnext]; rfl), d.bcontexts, ?_, fun hleft => ?_⟩
      · have hprogram : d.program = p := Control.next_program hnext
        have hpc' : d.pc = n + 1 := hpc.mpr (hon n (Nat.lt_succ_self n))
        rw [hcourse', ← hprogram, Nat.cast_succ, ← hpc']
      · rw [hkept (by omega)]
        exact hcleared (by omega)

/-- If it runs straight, nothing keeps it from going on before the exit. -/
theorem Program.RunsStraight.goesOn (h : p.RunsStraight exit) (hexits : p.exits ≠ []) {n : Nat}
    (hn : n < exit) : p.GoesOn n := by
  obtain ⟨q, hload, hcontrol⟩ := processLoad_empty hempty alternating 0 0 0 0
  have hfresh := processLoad_fresh hload
  induction n using Nat.strong_induction_on with
  | _ n ih =>
      obtain ⟨hlasts, contexts, hcourse, hcleared⟩ := course_straight hempty hleast hsize hexits
        hn.le fun m hm => ih m hm (by omega)
      have hexit : (n : Int) ∉ p.exits := fun hmem => absurd (hleast n hmem) (by omega)
      obtain ⟨d, hnext, hpc, -⟩ := next_empty_pc hempty hexits hexit (Int.natCast_nonneg n)
        (by omega) contexts fun hfrom => hcleared (Or.inr hfrom.le)
      refine hpc.mp ?_
      -- The next tick computes where the instruction led.
      have hlasts' : q.toControl.Lasts (n + 1) := by
        rw [hcontrol]
        exact hlasts.succ (by rw [hcourse, hnext]; rfl)
      have hpre := (h _ _ _ _ _ _ _ hload (fun _ _ => 0) (n + 2)).1
      rw [after_resident_pcs hfresh.running hfresh.compute hlasts', hcontrol] at hpre
      have hstands := pc_of_prefix hpre
      rwa [Control.course_succ (hcourse ▸ hnext), Nat.cast_succ] at hstands

end Empty

end OperatingSystems.Simulator
