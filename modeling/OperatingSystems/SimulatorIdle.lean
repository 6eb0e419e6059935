import OperatingSystems.SimulatorResidence

/-!
What the successive snapshots show of a processor. It is active as long as there is work for it:
until the queue is empty and every job it has held has finished; from then on it is idle for good.
-/

namespace OperatingSystems.Simulator

open Loop Runs

variable {procs : Nat} {jobs : Fin queueSize → Process} {s s' : State}

theorem pentry_active_iff (h : Scheduled procs jobs s) (slot : Nat) :
    (s.pentry slot).active = true ↔ ∃ k, s.processes slot = some k := by
  cases hslot : s.processes slot with
  | none => simp [State.pentry, hslot]
  | some k => simp [State.pentry, hslot, (h.running slot k hslot).active]

theorem pentry_inactive_iff (h : Scheduled procs jobs s) (slot : Nat) :
    (s.pentry slot).active = false ↔ s.processes slot = none := by
  rw [← Bool.not_eq_true, pentry_active_iff h, not_exists]
  exact Option.eq_none_iff_forall_ne_some.symm

/-- A job that is gone from its slot later on has left it for good. -/
theorem Later.left (h : Later s s') (hplaced : Placed procs jobs s) {slot : Nat}
    {k : Fin queueSize} (hk : s.processes slot = some k) (hgone : s'.processes slot ≠ some k) :
    s'.Left k := by
  have hlt := hplaced.loaded_lt slot k hk
  refine ⟨hlt.trans_le h.queueend_le, fun slot' hslot' => ?_⟩
  rcases h.loaded slot' k hslot' with hbefore | hqueued
  · rw [hplaced.one_slot slot' slot k hbefore hk] at hslot'
    exact hgone hslot'
  · exact absurd hlt (not_lt.mpr hqueued)

/-! ### Snapshots -/

section Snapshots

variable {config : Config} (pager : Pager) {s₀ : State}

theorem run_later_shown (n : Nat) :
    Later (config.run pager s₀ n).2 (config.shown pager s₀ n) :=
  reachable_later ((allstep_reach _).trans (allage_reach _))

theorem shown_later_run (n : Nat) :
    Later (config.shown pager s₀ n) (config.run pager s₀ (n + 1)).2 :=
  (run_succ_requested pager n).1.later

theorem run_later_of_le {m n : Nat} (h : m ≤ n) :
    Later (config.run pager s₀ m).2 (config.run pager s₀ n).2 := by
  obtain ⟨d, rfl⟩ := Nat.exists_eq_add_of_le h
  exact run_later pager m d

theorem shown_later {m n : Nat} (h : m ≤ n) :
    Later (config.shown pager s₀ m) (config.shown pager s₀ n) := by
  rcases Nat.lt_or_eq_of_le h with hlt | rfl
  · exact ((shown_later_run pager m).trans (run_later_of_le pager hlt)).trans
      (run_later_shown pager n)
  · exact .refl _

/-- The jobs that the slot has held in the iterations up to `n`, at their beginning or when the
pager was called. -/
def Config.Held (config : Config) (pager : Pager) (s₀ : State) (slot n : Nat)
    (k : Fin queueSize) : Prop :=
  ∃ m, m ≤ n ∧ ((config.run pager s₀ m).2.processes slot = some k ∨
    (config.shown pager s₀ m).processes slot = some k)

theorem held_first (h : config.Starts s₀) {slot : Nat} (hslot : slot < config.procs) (n : Nat) :
    ∃ k, config.Held pager s₀ slot n k := by
  obtain ⟨k, hk⟩ := Option.isSome_iff_exists.mp (start_loaded h hslot)
  exact ⟨k, 0, Nat.zero_le n, Or.inl hk⟩

/-- The jobs that an empty slot has held have left it. -/
theorem left_of_held (h : config.Starts s₀) {slot n : Nat} {k : Fin queueSize}
    (hnone : (config.shown pager s₀ n).processes slot = none)
    (hheld : config.Held pager s₀ slot n k) : (config.shown pager s₀ n).Left k := by
  have hgone : (config.shown pager s₀ n).processes slot ≠ some k := by
    rw [hnone]
    exact (Option.some_ne_none k).symm
  obtain ⟨m, hm, hk | hk⟩ := hheld
  · obtain ⟨fuel, jobs, -, hsched⟩ := (run_reaches pager h m).scheduled
    exact ((run_later_of_le pager hm).trans (run_later_shown pager n)).left hsched.toPlaced hk hgone
  · obtain ⟨fuel, jobs, -, hsched⟩ := (shown_reaches pager h m).scheduled
    exact (shown_later pager hm).left hsched.toPlaced hk hgone

/-- A snapshot shows a processor idle exactly if there is nothing left for it to do. -/
theorem shown_idle_iff (htable : config.table = programs) (h : config.Starts s₀) {slot : Nat}
    (hslot : slot < config.procs) (n : Nat) :
    ((config.shown pager s₀ n).pentry slot).active = false ↔
      queueSize ≤ (config.shown pager s₀ n).queueend ∧
        ∀ k, config.Held pager s₀ slot n k → ((config.shown pager s₀ n).queue k).Finished := by
  have hreach := shown_reaches pager h n
  obtain ⟨fuel, jobs, -, hsched⟩ := hreach.scheduled
  rw [pentry_inactive_iff hsched]
  constructor
  · intro hnone
    refine ⟨hsched.filled slot hslot hnone, fun k hheld => ?_⟩
    obtain ⟨hlt, hidle⟩ := left_of_held pager h hnone hheld
    exact hreach.finished htable hlt hidle
  · rintro ⟨-, hfinished⟩
    rw [Option.eq_none_iff_forall_ne_some]
    intro k hk
    have hactive := (hsched.running slot k hk).active
    have hinactive := (hfinished k ⟨n, le_rfl, Or.inr hk⟩).1
    rw [hactive] at hinactive
    cases hinactive

end Snapshots

/-- **A processor is idle only when no work is left, and then for good.** For every pager, stream
and number of processors, in the snapshot of every iteration: a processor is inactive exactly if
the queue is empty and all jobs it has held, of which there is one at least, have finished; a
processor that is inactive is so in all later snapshots; and those beyond `-procs` are never
active. -/
theorem idle_for_good (config : Config) (htable : config.table = programs) (pager : Pager)
    (s₀ : State) (h : config.Starts s₀) (n slot : Nat) :
    let snapshot := fun n => (config.shown pager s₀ n).pentry
    (slot < config.procs →
      ((∃ k, config.Held pager s₀ slot n k) ∧
        ((snapshot n slot).active = false ↔
          queueSize ≤ (config.shown pager s₀ n).queueend ∧
            ∀ k, config.Held pager s₀ slot n k →
              ((config.shown pager s₀ n).queue k).Finished)) ∧
      ∀ m, n ≤ m → (snapshot n slot).active = false → (snapshot m slot).active = false) ∧
    (config.procs ≤ slot → (snapshot n slot).active = false) := by
  intro snapshot
  obtain ⟨fuel, jobs, -, hsched⟩ := (shown_reaches pager h n).scheduled
  refine ⟨fun hslot => ⟨⟨held_first pager h hslot n, shown_idle_iff pager htable h hslot n⟩, ?_⟩, ?_⟩
  · intro m hm hidle
    obtain ⟨fuel', jobs', -, hsched'⟩ := (shown_reaches pager h m).scheduled
    rw [pentry_inactive_iff hsched] at hidle
    exact (pentry_inactive_iff hsched' slot).mpr ((shown_later pager hm).empty hsched hslot hidle)
  · intro hbeyond
    rw [pentry_inactive_iff hsched, Option.eq_none_iff_forall_ne_some]
    intro k hk
    exact absurd (hsched.slot_lt slot k hk) (not_lt.mpr hbeyond)

theorem idle_for_good_alternating : ∃ s₀, alternatingConfig.Starts s₀ ∧
    (∃ k, alternatingConfig.Held eager s₀ 0 3 k) ∧
    ¬ (queueSize ≤ (alternatingConfig.shown eager s₀ 3).queueend ∧
      ∀ k, alternatingConfig.Held eager s₀ 0 3 k →
        ((alternatingConfig.shown eager s₀ 3).queue k).Finished) ∧
    ((alternatingConfig.shown eager s₀ 3).pentry maxProcesses).active = false := by
  obtain ⟨s₀, hstart⟩ := alternatingConfig_starts
  obtain ⟨fuel, jobs, -, hsched⟩ := (shown_reaches eager hstart 3).scheduled
  have hstill : Still s₀ (alternatingConfig.run eager s₀ (3 + 1)).2 :=
    still_start eager hstart rfl (by decide)
  have hactive : ((alternatingConfig.shown eager s₀ 3).pentry 0).active ≠ false := by
    rw [Ne, pentry_inactive_iff hsched, ← (run_succ_requested eager 3).1.processes,
      hstill.processes]
    exact Option.isSome_iff_ne_none.mp (start_loaded hstart (by decide))
  have hidle := fun slot => idle_for_good alternatingConfig rfl eager s₀ hstart 3 slot
  obtain ⟨⟨hheld, hiff⟩, -⟩ := (hidle 0).1 (by decide)
  exact ⟨s₀, hstart, hheld, hiff.not.mp hactive, (hidle maxProcesses).2 le_rfl⟩

end OperatingSystems.Simulator
