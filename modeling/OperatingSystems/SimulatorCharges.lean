import OperatingSystems.SimulatorSteps
import Mathlib.Data.Finset.Option

/-!
What the ticks are charged to. In every tick each slot that holds a job charges one tick to this
job, as blocked or as compute, and nothing else is charged; a job belongs to one slot for good, so
the jobs of a slot share out the ticks in which the slot was in use.
-/

namespace OperatingSystems.Simulator

open Loop Runs

/-! ### One tick -/

/-- The ticks that a job has been charged so far. -/
def Process.charges (q : Process) : Nat := q.block + q.compute

/-- The tick is charged as blocked or as compute. -/
def Process.ChargedOnce (q q' : Process) : Prop :=
  (q'.block = q.block + 1 ∧ q'.compute = q.compute) ∨
    (q'.block = q.block ∧ q'.compute = q.compute + 1)

theorem Process.ChargedOnce.charges {q q' : Process} (h : q.ChargedOnce q') :
    q'.charges = q.charges + 1 := by
  simp only [Process.ChargedOnce, Process.charges] at h ⊢
  omega

theorem stepped_chargedOnce {q : Process} (hactive : q.active = true) :
    q.ChargedOnce q.stepped := by
  by_cases hin : q.pages q.page = 0
  · right
    cases hnext : q.toControl.next with
    | none =>
        rw [stepped_exit hactive hin hnext]
        exact ⟨rfl, rfl⟩
    | some c =>
        rw [stepped_compute hactive hin hnext]
        exact ⟨rfl, rfl⟩
  · left
    rw [stepped_blocked hactive hin]
    exact ⟨rfl, rfl⟩

variable {procs : Nat} {jobs : Fin queueSize → Process}

theorem tick_charges_loaded (pager : Pager) {s : pager.State × State}
    (hplaced : Placed procs jobs s.2) {slot : Nat} {k : Fin queueSize}
    (hslot : s.2.processes slot = some k) :
    (s.2.queue k).ChargedOnce ((tick pager procs s).2.queue k) := by
  have hpaged := paged_tick pager procs s
  have hcharged := stepped_chargedOnce (hplaced.running slot k hslot).active
  rw [← allstep_queue_of_loaded hplaced hslot] at hcharged
  rw [Process.ChargedOnce, hpaged.block, hpaged.compute]
  exact hcharged

/-- The tick is blocked if the job does not have its page. -/
theorem tick_charges_blocked (pager : Pager) {s : pager.State × State}
    (hplaced : Placed procs jobs s.2) {slot : Nat} {k : Fin queueSize}
    (hslot : s.2.processes slot = some k)
    (hout : (s.2.queue k).pages (s.2.queue k).page ≠ 0) :
    ((tick pager procs s).2.queue k).block = (s.2.queue k).block + 1 := by
  have hpaged := paged_tick pager procs s
  rw [hpaged.block, allstep_queue_of_loaded hplaced hslot,
    stepped_blocked (hplaced.running slot k hslot).active hout]
  rfl

theorem tick_charges_idle (pager : Pager) {s : pager.State × State}
    (hplaced : Placed procs jobs s.2) {k : Fin queueSize}
    (hidle : ∀ slot, s.2.processes slot ≠ some k) :
    ((tick pager procs s).2.queue k).block = (s.2.queue k).block ∧
      ((tick pager procs s).2.queue k).compute = (s.2.queue k).compute := by
  have hpaged := paged_tick pager procs s
  rw [hpaged.block, hpaged.compute, allstep_queue_of_idle hplaced hidle]
  exact ⟨rfl, rfl⟩

/-! ### The jobs of a slot -/

/-- The jobs that have been loaded into the slot up to iteration `n`. A job stays in its slot at
least until the next step of the slot, so the states between the iterations show all of them. -/
def loadedInto (run : Nat → State) (slot n : Nat) : Finset (Fin queueSize) :=
  (Finset.range (n + 1)).biUnion fun m => ((run m).processes slot).toFinset

theorem mem_loadedInto {run : Nat → State} {slot n : Nat} {k : Fin queueSize} :
    k ∈ loadedInto run slot n ↔ ∃ m, m ≤ n ∧ (run m).processes slot = some k := by
  simp only [loadedInto, Finset.mem_biUnion, Finset.mem_range, Option.mem_toFinset,
    Option.mem_def, Nat.lt_succ_iff]

theorem loadedInto_succ (run : Nat → State) (slot n : Nat) :
    loadedInto run slot (n + 1) =
      ((run (n + 1)).processes slot).toFinset ∪ loadedInto run slot n := by
  rw [loadedInto, Finset.range_add_one, Finset.biUnion_insert]
  rfl

section Run

variable {config : Config} (pager : Pager) {s₀ : State}

/-- A job is never loaded into two slots. -/
theorem run_one_slot (h : config.Starts s₀) {m n slot slot' : Nat} {k : Fin queueSize}
    (hm : (config.run pager s₀ m).2.processes slot = some k)
    (hn : (config.run pager s₀ n).2.processes slot' = some k) : slot' = slot := by
  obtain ⟨fuel, jobs, -, hsched⟩ := run_scheduled pager h
  have hstays : ∀ {m n slot slot' : Nat}, m ≤ n →
      (config.run pager s₀ m).2.processes slot = some k →
      (config.run pager s₀ n).2.processes slot' = some k → slot' = slot := by
    intro m n slot slot' hle hm hn
    obtain ⟨d, rfl⟩ := Nat.exists_eq_add_of_le hle
    rcases (run_later pager m d).loaded slot' k hn with hbefore | hqueued
    · exact (hsched m).one_slot slot' slot k hbefore hm
    · exact absurd ((hsched m).loaded_lt slot k hm) (not_lt.mpr hqueued)
  rcases Nat.le_total m n with hle | hle
  · exact hstays hle hm hn
  · exact (hstays hle hn hm).symm

/-- The ticks charged to the jobs of the slot up to iteration `n`. -/
def slotCharges (run : Nat → State) (slot n : Nat) : Nat :=
  ∑ k ∈ loadedInto run slot n, ((run n).queue k).charges

theorem charges_succ (h : config.Starts s₀) {slot n : Nat} {k : Fin queueSize}
    (hk : k ∈ loadedInto (fun n => (config.run pager s₀ n).2) slot n) :
    ((config.run pager s₀ (n + 1)).2.queue k).charges =
      ((config.run pager s₀ n).2.queue k).charges +
        if (config.run pager s₀ n).2.processes slot = some k then 1 else 0 := by
  obtain ⟨fuel, jobs, -, hsched⟩ := run_scheduled pager h
  obtain ⟨m, -, hm⟩ := mem_loadedInto.mp hk
  have hplaced := (hsched n).toPlaced
  rw [run_succ]
  split_ifs with hnow
  · exact (tick_charges_loaded pager hplaced hnow).charges
  · have hidle : ∀ slot', (config.run pager s₀ n).2.processes slot' ≠ some k := by
      intro slot' hslot'
      rw [run_one_slot pager h hm hslot'] at hslot'
      exact hnow hslot'
    obtain ⟨hblock, hcompute⟩ := tick_charges_idle pager hplaced hidle
    rw [Process.charges, hblock, hcompute]
    rfl

/-- A job that is new in the slot has not been charged yet. -/
theorem charges_of_new (h : config.Starts s₀) {slot n : Nat} {k : Fin queueSize}
    (hk : (config.run pager s₀ (n + 1)).2.processes slot = some k)
    (hnew : (config.run pager s₀ n).2.processes slot ≠ some k) :
    ((config.run pager s₀ (n + 1)).2.queue k).charges = 0 := by
  obtain ⟨fuel, jobs, hjobs, hsched⟩ := run_scheduled pager h
  have hplaced := (hsched n).toPlaced
  have hwaits : (config.run pager s₀ n).2.queueend ≤ k.val :=
    ((run_later pager n 1).loaded slot k hk).resolve_left hnew
  have hidle : ∀ slot', (config.run pager s₀ n).2.processes slot' ≠ some k := fun slot' hslot' =>
    absurd (hplaced.loaded_lt slot' k hslot') (not_lt.mpr hwaits)
  obtain ⟨hblock, hcompute⟩ := tick_charges_idle pager hplaced hidle
  rw [run_succ, Process.charges, hblock, hcompute, hplaced.waiting k hwaits,
    (initqueue_start hjobs k).1, (initqueue_fresh hjobs k).compute]

/-- A tick charges one tick to the jobs of a slot if the slot is in use, and none otherwise. -/
theorem slotCharges_succ (h : config.Starts s₀) (slot n : Nat) :
    slotCharges (fun n => (config.run pager s₀ n).2) slot (n + 1) =
      slotCharges (fun n => (config.run pager s₀ n).2) slot n +
        ((config.run pager s₀ n).2.processes slot).isSome.toNat := by
  have hone : ∑ k ∈ loadedInto (fun n => (config.run pager s₀ n).2) slot n,
      (if (config.run pager s₀ n).2.processes slot = some k then 1 else 0) =
        ((config.run pager s₀ n).2.processes slot).isSome.toNat := by
    cases hslot : (config.run pager s₀ n).2.processes slot with
    | none => simp
    | some j =>
        have hj : j ∈ loadedInto (fun n => (config.run pager s₀ n).2) slot n :=
          mem_loadedInto.mpr ⟨n, le_rfl, hslot⟩
        simp only [Option.some.injEq, Finset.sum_ite_eq, if_pos hj, Option.isSome_some,
          Bool.toNat_true]
  rw [slotCharges, slotCharges, loadedInto_succ, ← hone, ← Finset.sum_add_distrib]
  rw [← Finset.sum_subset Finset.subset_union_right]
  · exact Finset.sum_congr rfl fun k hk => charges_succ pager h hk
  · intro k hk hold
    have hnow : (config.run pager s₀ (n + 1)).2.processes slot = some k := by
      simpa [hold] using hk
    exact charges_of_new pager h hnow fun hbefore => hold (mem_loadedInto.mpr ⟨n, le_rfl, hbefore⟩)

/-! ### The whole run -/

/-- An empty slot stays empty. -/
theorem run_empty_succ (h : config.Starts s₀) {slot n : Nat} (hslot : slot < config.procs)
    (hnone : (config.run pager s₀ n).2.processes slot = none) :
    (config.run pager s₀ (n + 1)).2.processes slot = none := by
  obtain ⟨fuel, jobs, -, hsched⟩ := run_scheduled pager h
  exact (run_later pager n 1).empty (hsched n) hslot hnone

/-- A job that has left its slot is no longer active. -/
theorem inactive_of_left (h : config.Starts s₀) {slot n : Nat} {k : Fin queueSize}
    (hk : (config.run pager s₀ n).2.processes slot = some k)
    (hnone : (config.run pager s₀ (n + 1)).2.processes slot = none) :
    ((config.run pager s₀ (n + 1)).2.queue k).active = false := by
  obtain ⟨fuel, jobs, -, hsched⟩ := run_scheduled pager h
  apply ((hsched (n + 1)).ended k _ _).active
  · exact ((hsched n).loaded_lt slot k hk).trans_le (run_later pager n 1).queueend_le
  · intro slot' hslot'
    rw [run_one_slot pager h hk hslot', hnone] at hslot'
    cases hslot'

/-- The charges of a slot's jobs: the number of ticks if the slot is in use, and else the ticks up
to the one in which the slot was emptied. -/
theorem slotCharges_eq (h : config.Starts s₀) {slot : Nat} (hslot : slot < config.procs)
    (n : Nat) :
    (((config.run pager s₀ n).2.processes slot).isSome ∧
      slotCharges (fun n => (config.run pager s₀ n).2) slot n = n) ∨
    ((config.run pager s₀ n).2.processes slot = none ∧
      ∃ t k, t < n ∧ (config.run pager s₀ t).2.processes slot = some k ∧
        ((config.run pager s₀ (t + 1)).2.queue k).active = false ∧
        (∀ m, t < m → m ≤ n → (config.run pager s₀ m).2.processes slot = none) ∧
        slotCharges (fun n => (config.run pager s₀ n).2) slot n = t + 1) := by
  induction n with
  | zero =>
      left
      refine ⟨start_loaded h hslot, Finset.sum_eq_zero ?_⟩
      intro k _
      obtain ⟨fuel, jobs, hjobs, hqueue, -⟩ := start_boot h
      show (s₀.queue k).charges = 0
      rw [hqueue, Process.charges, (initqueue_start hjobs k).1, (initqueue_fresh hjobs k).compute]
  | succ n ih =>
      have hsum := slotCharges_succ pager h slot n
      rcases ih with ⟨hused, hcharges⟩ | ⟨hnone, t, k, hlt, hk, hinactive, hsince, hcharges⟩
      · rw [hused, hcharges] at hsum
        obtain ⟨k, hk⟩ := Option.isSome_iff_exists.mp hused
        cases hnext : (config.run pager s₀ (n + 1)).2.processes slot with
        | some j => exact Or.inl ⟨rfl, hsum⟩
        | none =>
            right
            refine ⟨rfl, n, k, Nat.lt_succ_self n, hk, inactive_of_left pager h hk hnext, ?_,
              hsum⟩
            intro m hlt hle
            obtain rfl : m = n + 1 := by omega
            exact hnext
      · right
        have hnext := run_empty_succ pager h hslot hnone
        rw [hnone, hcharges] at hsum
        refine ⟨hnext, t, k, Nat.lt_succ_of_lt hlt, hk, hinactive, ?_, hsum⟩
        intro m hlt hle
        rcases Nat.lt_or_eq_of_le hle with hle | rfl
        · exact hsince m hlt (Nat.le_of_lt_succ hle)
        · exact hnext

end Run

/-- **Every tick of a used slot is charged once.** For every pager, table, stream and number of
slots: after `n` iterations the jobs that have been loaded into a slot have been charged `n` ticks
if the slot is in use, and otherwise the ticks up to and including the one of its last unload; an
iteration charges each loaded job one tick, as blocked or as compute, and no other job any. -/
theorem ticks_charged (config : Config) (pager : Pager) (s₀ : State) (h : config.Starts s₀)
    (n slot : Nat) (hslot : slot < config.procs) :
    let run := fun n => (config.run pager s₀ n).2
    (((run n).processes slot).isSome → slotCharges run slot n = n) ∧
    ((run n).processes slot = none →
      ∃ t k, t < n ∧ (run t).sysclock = t ∧ (run t).processes slot = some k ∧
        ((run (t + 1)).queue k).active = false ∧
        (∀ m, t < m → m ≤ n → (run m).processes slot = none) ∧
        slotCharges run slot n = t + 1) ∧
    (∀ k, (run n).processes slot = some k →
      ((run n).queue k).ChargedOnce ((run (n + 1)).queue k)) ∧
    ∀ k, (∀ slot', (run n).processes slot' ≠ some k) →
      ((run (n + 1)).queue k).block = ((run n).queue k).block ∧
        ((run (n + 1)).queue k).compute = ((run n).queue k).compute := by
  intro run
  obtain ⟨fuel, jobs, -, hsched⟩ := run_scheduled pager h
  have hsucc : run (n + 1) = (tick pager config.procs (config.run pager s₀ n)).2 :=
    congrArg Prod.snd (run_succ pager n)
  refine ⟨?_, ?_, ?_, ?_⟩
  · intro hused
    rcases slotCharges_eq pager h hslot n with ⟨-, hcharges⟩ | ⟨hnone, -⟩
    · exact hcharges
    · have hnone : (run n).processes slot = none := hnone
      rw [hnone] at hused
      cases hused
  · intro hnone
    rcases slotCharges_eq pager h hslot n with ⟨hused, -⟩ | ⟨-, t, k, hlt, hk, hend⟩
    · have hused : ((run n).processes slot).isSome := hused
      rw [hnone] at hused
      cases hused
    · exact ⟨t, k, hlt, run_sysclock pager h t, hk, hend⟩
  · intro k hk
    rw [hsucc]
    exact tick_charges_loaded pager (hsched n).toPlaced hk
  · intro k hidle
    rw [hsucc]
    exact tick_charges_idle pager (hsched n).toPlaced hidle

theorem ticks_charged_alternating : ∃ s₀, alternatingConfig.Starts s₀ ∧
    slotCharges (fun n => (alternatingConfig.run eager s₀ n).2) 0 100 = 100 := by
  obtain ⟨s₀, hstart⟩ := alternatingConfig_starts
  have hstill : Still s₀ (alternatingConfig.run eager s₀ 100).2 :=
    still_start eager hstart rfl (by decide)
  refine ⟨s₀, hstart, (ticks_charged alternatingConfig eager s₀ hstart 100 0 (by decide)).1 ?_⟩
  rw [hstill.processes]
  exact start_loaded hstart (by decide)

end OperatingSystems.Simulator
