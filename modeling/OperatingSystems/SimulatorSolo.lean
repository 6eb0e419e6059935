import OperatingSystems.SimulatorSteps

/-!
One job under any paging. Whatever happens to its pages between its steps, the job computes at the
counters of its course, in their order, and no further than to the exit; the jobs of the simulator
are jobs of this kind.
-/

namespace OperatingSystems.Simulator

open Loop Runs

/-- The job after `n` steps, the pages before each of which are as the schedule has them. -/
def Process.after (q : Process) (schedule : Nat → Nat → Int) : Nat → Process
  | 0 => q
  | n + 1 => { q.after schedule n with pages := schedule n }.stepped

variable {start : Process} {schedule : Nat → Nat → Int}

theorem stepped_inactive {q : Process} (h : q.active = false) : q.stepped = q := by
  simp [Process.stepped, processStep, h]

/-- A step leads a running job on, or ends it. -/
theorem Process.Running.stepped {q : Process} (h : start.Running q) :
    start.Running q.stepped ∨ start.Ended q.stepped := by
  by_cases hin : q.pages q.page = 0
  · cases hnext : q.toControl.next with
    | none =>
        rw [stepped_exit h.active hin hnext]
        exact Or.inr (h.ended hnext)
    | some c =>
        rw [stepped_compute h.active hin hnext]
        exact Or.inl (h.compute hnext)
  · rw [stepped_blocked h.active hin]
    exact Or.inl (h.congr rfl rfl rfl rfl rfl rfl)

theorem after_way (hstart : start.Running start) (schedule : Nat → Nat → Int) (n : Nat) :
    start.Running (start.after schedule n) ∨ start.Ended (start.after schedule n) := by
  induction n with
  | zero => exact Or.inl hstart
  | succ n ih =>
      rcases ih with hrun | hend
      · have hpaged : start.Running { start.after schedule n with pages := schedule n } :=
          hrun.congr rfl rfl rfl rfl rfl rfl
        exact hpaged.stepped
      · right
        have hpaged : start.Ended { start.after schedule n with pages := schedule n } := hend.congr
        rw [Process.after, stepped_inactive hpaged.active]
        exact hpaged

/-! ### What is computed -/

theorem Control.pcs_prefix (c : Control) {m n : Nat} (h : m ≤ n) : c.pcs m <+: c.pcs n := by
  obtain ⟨d, rfl⟩ := Nat.exists_eq_add_of_le h
  rw [Control.pcs, Control.pcs, List.range_add, List.map_append]
  exact List.prefix_append ..

/-- A job whose program ends computes along its course, and has computed all of it when it is no
longer active. -/
theorem after_computed (hstart : start.Running start) {n : Nat} (hend : start.toControl.EndsAt n)
    (schedule : Nat → Nat → Int) (m : Nat) :
    (start.after schedule m).computed <+: start.toControl.pcs (n + 1) ∧
      ((start.after schedule m).active = false →
        (start.after schedule m).computed = start.toControl.pcs (n + 1) ∧
          (start.after schedule m).compute = n + 1) := by
  rcases after_way hstart schedule m with hrun | hended
  · refine ⟨?_, fun hinactive => absurd (hrun.active.symm.trans hinactive) (by decide)⟩
    rw [hrun.computed]
    apply Control.pcs_prefix
    by_contra hbeyond
    have hlast := hrun.lasts n (by omega)
    simp [hend.2] at hlast
  · obtain ⟨n', hend', -, hcompute, hcomputed⟩ := hended.ended
    obtain rfl := hend'.unique hend
    exact ⟨hcomputed ▸ List.prefix_refl _, fun _ => ⟨hcomputed, hcompute⟩⟩

/-- A job that always has its pages computes in every step. -/
theorem after_resident (hstart : start.Running start) (hcompute : start.compute = 0) {n : Nat}
    (hlasts : start.toControl.Lasts n) :
    start.Running (start.after (fun _ _ => 0) n) ∧
      (start.after (fun _ _ => 0) n).compute = n := by
  induction n with
  | zero => exact ⟨hstart, hcompute⟩
  | succ n ih =>
      obtain ⟨hrun, hn⟩ := ih fun m hm => hlasts m (Nat.lt_succ_of_lt hm)
      have hrun' : start.Running { start.after (fun _ _ => 0) n with pages := fun _ => 0 } :=
        hrun.congr rfl rfl rfl rfl rfl rfl
      obtain ⟨c, hc⟩ := Option.isSome_iff_exists.mp (hlasts n (Nat.lt_succ_self n))
      have hnext : ({ start.after (fun _ _ => 0) n with
          pages := fun _ => 0 } : Process).toControl.next = some c := by
        rw [hrun'.control]
        show (start.toControl.course (start.after (fun _ _ => 0) n).compute).next = some c
        rw [hn, hc]
      rw [Process.after, stepped_compute hrun'.active rfl hnext]
      exact ⟨hrun'.compute hnext, congrArg Nat.succ hn⟩

theorem after_resident_computed (hstart : start.Running start) (hcompute : start.compute = 0)
    {n : Nat} (hlasts : start.toControl.Lasts n) :
    (start.after (fun _ _ => 0) n).computed = start.toControl.pcs n := by
  obtain ⟨hrun, hn⟩ := after_resident hstart hcompute hlasts
  rw [hrun.computed, hn]

/-- In its last step it computes at the exit. -/
theorem after_resident_end (hstart : start.Running start) (hcompute : start.compute = 0)
    {n : Nat} (hend : start.toControl.EndsAt n) :
    (start.after (fun _ _ => 0) (n + 1)).active = false ∧
      (start.after (fun _ _ => 0) (n + 1)).computed = start.toControl.pcs (n + 1) := by
  obtain ⟨hrun, hn⟩ := after_resident hstart hcompute hend.1
  have hrun' : start.Running { start.after (fun _ _ => 0) n with pages := fun _ => 0 } :=
    hrun.congr rfl rfl rfl rfl rfl rfl
  have hnext : ({ start.after (fun _ _ => 0) n with
      pages := fun _ => 0 } : Process).toControl.next = none := by
    rw [hrun'.control]
    show (start.toControl.course (start.after (fun _ _ => 0) n).compute).next = none
    rw [hn, hend.2]
  have hinactive : (start.after (fun _ _ => 0) (n + 1)).active = false := by
    rw [Process.after, stepped_exit hrun'.active rfl hnext]
    rfl
  exact ⟨hinactive, ((after_computed hstart hend _ _).2 hinactive).1⟩

/-- A job that has its pages computes at the counter its course leads to, be it an exit. -/
theorem after_resident_pcs (hstart : start.Running start) (hcompute : start.compute = 0)
    {n : Nat} (hlasts : start.toControl.Lasts n) :
    (start.after (fun _ _ => 0) (n + 1)).computed = start.toControl.pcs (n + 1) := by
  cases hnext : (start.toControl.course n).next with
  | none => exact (after_resident_end hstart hcompute ⟨hlasts, hnext⟩).2
  | some c =>
      refine after_resident_computed hstart hcompute (hlasts.succ ?_)
      rw [hnext]
      rfl

/-! ### The jobs of the simulator -/

/-- In every iteration of the main loop, under every pager, each job is where some paging of it
alone would have led it. -/
theorem run_after {config : Config} (pager : Pager) {s₀ : State} (h : config.Starts s₀)
    (n : Nat) (k : Fin queueSize) :
    ∃ schedule m pages,
      (config.run pager s₀ n).2.queue k = { (s₀.queue k).after schedule m with pages } := by
  obtain ⟨fuel, jobs, -, hsched⟩ := run_scheduled pager h
  induction n with
  | zero => exact ⟨fun _ _ => 0, 0, (s₀.queue k).pages, rfl⟩
  | succ n ih =>
      obtain ⟨schedule, m, pages, hk⟩ := ih
      obtain ⟨pages', hpages'⟩ := (paged_tick pager config.procs (config.run pager s₀ n)).queue k
      have hplaced := (hsched n).toPlaced
      rw [run_succ]
      by_cases hloaded : ∃ slot, (config.run pager s₀ n).2.processes slot = some k
      · obtain ⟨slot, hslot⟩ := hloaded
        refine ⟨fun i => if i = m then pages else schedule i, m + 1, pages', ?_⟩
        have hsame : ∀ i, i ≤ m → (s₀.queue k).after (fun i => if i = m then pages else
            schedule i) i = (s₀.queue k).after schedule i := by
          intro i hi
          induction i with
          | zero => rfl
          | succ i ih => rw [Process.after, Process.after, ih (by omega), if_neg (by omega)]
        rw [hpages', allstep_queue_of_loaded hplaced hslot, hk, Process.after, hsame m le_rfl,
          if_pos rfl]
      · refine ⟨schedule, m, pages', ?_⟩
        rw [hpages', allstep_queue_of_idle hplaced (not_exists.mp hloaded), hk]

end OperatingSystems.Simulator
