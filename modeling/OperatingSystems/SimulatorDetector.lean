import OperatingSystems.SimulatorScoreRange
import OperatingSystems.SimulatorSpent

/-!
The detection of deadlocks. After every iteration `allblocked` looks at the page that each job in a
slot is on, and reports that all of these are swapped out. A report means that no job computes for
the next `PAGEWAIT` ticks and one more, whatever the pager does; once the pager does nothing any
more, a report is right, and no deadlock goes unreported.
-/

namespace OperatingSystems.Simulator

open Loop Runs Frames

/-! ### The detector -/

/-- The counters of `allblocked`. -/
structure Tally where
  allfree : Nat
  runnable : Nat
  memwait : Nat
  freewait : Nat

/-- The counter that goes with the status of a page. -/
def Tally.count (tally : Tally) (stat : Int) : Tally :=
  if stat > 0 then { tally with memwait := tally.memwait + 1 }
  else if stat = 0 then { tally with runnable := tally.runnable + 1 }
  else if stat < -pageWait then { tally with allfree := tally.allfree + 1 }
  else { tally with freewait := tally.freewait + 1 }

/-- One slot of `allblocked`. -/
def State.tallySlot (s : State) (tally : Tally) (slot : Nat) : Tally :=
  match s.processes slot with
  | none => tally
  | some k => if (s.queue k).active then tally.count ((s.queue k).pages (s.queue k).page) else tally

/-- The loop of `allblocked`. -/
def State.tally (procs : Nat) (s : State) : Tally := loop s.tallySlot procs ⟨0, 0, 0, 0⟩

def allblocked (procs : Nat) (s : State) : Bool :=
  let tally := s.tally procs
  tally.allfree ≠ 0 ∧ tally.memwait = 0 ∧ tally.runnable = 0 ∧ tally.freewait = 0

/-! ### What it counts -/

/-- The jobs in the slots whose page has a status with the given property. -/
def State.standing (procs : Nat) (s : State) (p : Int → Prop) [DecidablePred p] :
    Finset (Fin queueSize) :=
  (s.inSlots procs).filter fun k => p ((s.queue k).pages (s.queue k).page)

variable {procs : Nat} {jobs : Fin queueSize → Process} {s : State}

theorem mem_standing {p : Int → Prop} [DecidablePred p] {k : Fin queueSize} :
    k ∈ s.standing procs p ↔
      (∃ slot, slot < procs ∧ s.processes slot = some k) ∧
        p ((s.queue k).pages (s.queue k).page) := by
  rw [State.standing, Finset.mem_filter, mem_inSlots]

/-- One more slot, with its job or without. -/
theorem inSlots_succ (n : Nat) (s : State) :
    s.inSlots (n + 1) = (s.processes n).toFinset ∪ s.inSlots n := by
  rw [State.inSlots, Finset.range_add_one, Finset.biUnion_insert]
  rfl

theorem standing_vacant {n : Nat} (hslot : s.processes n = none) (p : Int → Prop)
    [DecidablePred p] : s.standing (n + 1) p = s.standing n p := by
  rw [State.standing, inSlots_succ, hslot, Option.toFinset_none, Finset.empty_union]
  rfl

theorem card_standing_succ (hplaced : Placed procs jobs s) {n : Nat} {k : Fin queueSize}
    (hslot : s.processes n = some k) (p : Int → Prop) [DecidablePred p] :
    (s.standing (n + 1) p).card =
      (s.standing n p).card + if p ((s.queue k).pages (s.queue k).page) then 1 else 0 := by
  have hnew : k ∉ s.standing n p := by
    rw [mem_standing]
    rintro ⟨⟨slot, hlt, hk⟩, -⟩
    exact absurd (hplaced.one_slot slot n k hk hslot) (Nat.ne_of_lt hlt)
  have hinsert : s.inSlots (n + 1) = insert k (s.inSlots n) := by
    rw [inSlots_succ, hslot, Option.toFinset_some, Finset.insert_eq]
  rw [State.standing, hinsert, Finset.filter_insert]
  split_ifs
  · exact Finset.card_insert_of_notMem hnew
  · rfl

/-- The counters are the numbers of jobs whose page is out, there, on its way in, and on its way
out. -/
theorem tally_eq (hplaced : Placed procs jobs s) (n : Nat) :
    s.tally n =
      { allfree := (s.standing n (· < -pageWait)).card
        runnable := (s.standing n (· = 0)).card
        memwait := (s.standing n (0 < ·)).card
        freewait := (s.standing n fun stat => -pageWait ≤ stat ∧ stat < 0).card } := by
  have hwait := pageWait_pos
  induction n with
  | zero => rfl
  | succ n ih =>
      have hstep : s.tally (n + 1) = s.tallySlot (s.tally n) n := rfl
      rw [hstep, ih, State.tallySlot]
      cases hslot : s.processes n with
      | none => simp only [standing_vacant hslot]
      | some k =>
          simp only [(hplaced.running n k hslot).active, if_true, card_standing_succ hplaced hslot]
          generalize (s.queue k).pages (s.queue k).page = stat
          unfold Tally.count
          split_ifs <;> first | omega | rfl

/-- A report: some job is loaded, and the pages that the loaded jobs are on are out. -/
theorem allblocked_iff (hplaced : Placed procs jobs s) :
    allblocked procs s = true ↔ (∃ slot k, s.processes slot = some k) ∧
      ∀ slot k, s.processes slot = some k → (s.queue k).pages (s.queue k).page < -pageWait := by
  have hwait := pageWait_pos
  simp only [allblocked, tally_eq hplaced, Finset.card_eq_zero, decide_eq_true_eq, ne_eq,
    Finset.eq_empty_iff_forall_notMem, mem_standing, not_forall, not_and, not_not]
  constructor
  · rintro ⟨⟨k, ⟨slot, -, hslot⟩, -⟩, hcoming, hin, hgoing⟩
    refine ⟨⟨slot, k, hslot⟩, fun slot k hslot => ?_⟩
    have hplace : ∃ slot, slot < procs ∧ s.processes slot = some k :=
      ⟨slot, hplaced.slot_lt slot k hslot, hslot⟩
    have hcoming := hcoming k hplace
    have hin := hin k hplace
    have hgoing := hgoing k hplace
    omega
  · rintro ⟨⟨slot, k, hslot⟩, hout⟩
    have hall : ∀ k, (∃ slot, slot < procs ∧ s.processes slot = some k) →
        (s.queue k).pages (s.queue k).page < -pageWait := fun k ⟨slot, _, hslot⟩ =>
      hout slot k hslot
    refine ⟨⟨k, ⟨slot, hplaced.slot_lt slot k hslot, hslot⟩, hout slot k hslot⟩, ?_, ?_, ?_⟩ <;>
    · intro k hplace
      have hnow := hall k hplace
      omega

/-! ### What the counters foretell -/

section Run

variable {config : Config} {pager : Pager} {s₀ : State}

theorem tally_run (h : config.Starts s₀) (n : Nat) :
    (config.run pager s₀ n).2.tally config.procs =
      { allfree := ((config.run pager s₀ n).2.standing config.procs (· < -pageWait)).card
        runnable := ((config.run pager s₀ n).2.ready config.procs).card
        memwait := ((config.run pager s₀ n).2.standing config.procs (0 < ·)).card
        freewait := ((config.run pager s₀ n).2.standing config.procs
          fun stat => -pageWait ≤ stat ∧ stat < 0).card } := by
  obtain ⟨fuel, jobs, -, hsched⟩ := run_scheduled pager h
  exact tally_eq (hsched n).toPlaced config.procs

/-- A loaded job is ready or waits. -/
theorem card_inSlots (procs : Nat) (s : State) :
    (s.ready procs).card + (s.waiting procs).card = (s.inSlots procs).card :=
  Finset.card_filter_add_card_filter_not _

/-- A job that waits is counted once, by what it waits for. -/
theorem card_waiting (procs : Nat) (s : State) :
    (s.waiting procs).card = (s.standing procs (0 < ·)).card +
      (s.standing procs fun stat => -pageWait ≤ stat ∧ stat < 0).card +
      (s.standing procs (· < -pageWait)).card := by
  have hwait := pageWait_pos
  simp only [State.waiting, State.standing, Finset.card_filter, ← Finset.sum_add_distrib]
  refine Finset.sum_congr rfl fun k _ => ?_
  generalize (s.queue k).pages (s.queue k).page = stat
  split_ifs <;> omega

/-- What one iteration adds to the totals. -/
theorem totals_succ (pager : Pager) (h : config.Starts s₀) (n : Nat) :
    (config.run pager s₀ (n + 1)).2.blockTotal = (config.run pager s₀ n).2.blockTotal +
        ((config.run pager s₀ n).2.waiting config.procs).card ∧
      (config.run pager s₀ (n + 1)).2.computeTotal = (config.run pager s₀ n).2.computeTotal +
        ((config.run pager s₀ n).2.ready config.procs).card := by
  have hnow := run_totals pager h n
  have hnext := run_totals pager h (n + 1)
  rw [hnow.1, hnow.2, hnext.1, hnext.2]
  exact ⟨Finset.sum_range_succ _ _, Finset.sum_range_succ _ _⟩

/-- **What the counters foretell.** For every pager and after any number of iterations, the counters
of `allblocked` count the loaded jobs, each of them once; `runnable` is the number of instructions
that the next iteration executes, and the other three are together the number of blocked ticks that
it charges. -/
theorem tally_next (config : Config) (pager : Pager) (s₀ : State) (h : config.Starts s₀) (n : Nat) :
    let s := (config.run pager s₀ n).2
    let s' := (config.run pager s₀ (n + 1)).2
    let tally := s.tally config.procs
    tally.allfree + tally.runnable + tally.memwait + tally.freewait =
        (s.inSlots config.procs).card ∧
      s'.computeTotal = s.computeTotal + tally.runnable ∧
      s'.blockTotal = s.blockTotal + (tally.allfree + tally.memwait + tally.freewait) := by
  intro s s' tally
  have htally : tally = _ := tally_run h n
  have hfree : tally.allfree = (s.standing config.procs (· < -pageWait)).card :=
    congrArg Tally.allfree htally
  have hrunnable : tally.runnable = (s.ready config.procs).card := congrArg Tally.runnable htally
  have hcoming : tally.memwait = (s.standing config.procs (0 < ·)).card :=
    congrArg Tally.memwait htally
  have hgoing : tally.freewait =
      (s.standing config.procs fun stat => -pageWait ≤ stat ∧ stat < 0).card :=
    congrArg Tally.freewait htally
  have hwaiting := card_waiting config.procs s
  have hloaded := card_inSlots config.procs s
  obtain ⟨hblock, hcompute⟩ : s'.blockTotal = s.blockTotal + (s.waiting config.procs).card ∧
      s'.computeTotal = s.computeTotal + (s.ready config.procs).card := totals_succ pager h n
  omega

theorem tally_next_alternating : ∃ s₀, alternatingConfig.Starts s₀ ∧
    (alternatingConfig.run lru s₀ 101).2.computeTotal =
      (alternatingConfig.run lru s₀ 100).2.computeTotal +
        ((alternatingConfig.run lru s₀ 100).2.tally 20).runnable := by
  obtain ⟨s₀, hstart⟩ := alternatingConfig_starts
  exact ⟨s₀, hstart, (tally_next alternatingConfig lru s₀ hstart 100).2.1⟩

/-! ### After a report -/

theorem Still.inSlots {s s' : State} (h : Still s s') (procs : Nat) :
    s'.inSlots procs = s.inSlots procs := by
  rw [State.inSlots, State.inSlots, h.processes]

/-- As long as no job has its page, all loaded jobs are charged for it. -/
theorem charged_of_quiet (h : config.Starts s₀) {n d : Nat}
    (hquiet : ∀ e, e < d → (config.run pager s₀ (n + e)).2.Quiet) :
    (config.run pager s₀ (n + d)).2.computeTotal = (config.run pager s₀ n).2.computeTotal ∧
      (config.run pager s₀ (n + d)).2.blockTotal = (config.run pager s₀ n).2.blockTotal +
        d * ((config.run pager s₀ n).2.inSlots config.procs).card ∧
      ∀ slot k, (config.run pager s₀ n).2.processes slot = some k →
        ((config.run pager s₀ (n + d)).2.queue k).block =
          ((config.run pager s₀ n).2.queue k).block + d := by
  induction d with
  | zero => exact ⟨rfl, by simp, fun _ _ _ => rfl⟩
  | succ d ih =>
      obtain ⟨hcompute, hblock, hjobs⟩ := ih fun e he => hquiet e (Nat.lt_succ_of_lt he)
      have hstill : Still (config.run pager s₀ n).2 (config.run pager s₀ (n + d)).2 :=
        still_of_quiet pager h fun e he => hquiet e (Nat.lt_succ_of_lt he)
      have hnow := hquiet d (Nat.lt_succ_self d)
      obtain ⟨hcharged, hexecuted⟩ := totals_succ pager h (n + d)
      -- No job is ready, so that every loaded job waits.
      have hready : ((config.run pager s₀ (n + d)).2.ready config.procs).card = 0 := by
        refine Finset.card_eq_zero.mpr (Finset.filter_eq_empty_iff.mpr fun k hk => ?_)
        obtain ⟨slot, -, hslot⟩ := mem_inSlots.mp hk
        exact hnow slot k hslot
      have hloaded := card_inSlots config.procs (config.run pager s₀ (n + d)).2
      rw [hstill.inSlots] at hloaded
      rw [← Nat.add_assoc n d 1]
      refine ⟨by omega, ?_, fun slot k hk => ?_⟩
      · rw [Nat.succ_mul]
        omega
      · obtain ⟨fuel, jobs, -, hsched⟩ := run_scheduled pager h
        have hslot : (config.run pager s₀ (n + d)).2.processes slot = some k := by
          rw [hstill.processes, hk]
        have hout := hnow slot k hslot
        rw [run_succ, tick_charges_blocked pager (hsched (n + d)).toPlaced hslot hout,
          hjobs slot k hk, Nat.add_assoc]

/-- **A report is followed by a lull.** When `allblocked` reports a deadlock after `n` iterations,
then, whatever the pager asks for, in the next `PAGEWAIT + 1` iterations no job executes an
instruction, no job leaves its slot, and every loaded job is charged a blocked tick each time. -/
theorem allblocked_lull (config : Config) (htable : config.table = programs) (pager : Pager)
    (s₀ : State) (h : config.Starts s₀) (n : Nat)
    (hblocked : allblocked config.procs (config.run pager s₀ n).2 = true) (d : Nat)
    (hd : d ≤ pageWait.toNat + 1) :
    let s := (config.run pager s₀ n).2
    let s' := (config.run pager s₀ (n + d)).2
    s'.processes = s.processes ∧ (∀ k, (s'.queue k).toControl = (s.queue k).toControl) ∧
      s'.computeTotal = s.computeTotal ∧
      s'.blockTotal = s.blockTotal + d * (s.inSlots config.procs).card ∧
      ∀ slot k, s.processes slot = some k → (s'.queue k).block = (s.queue k).block + d := by
  intro s s'
  have hwait := pageWait_pos
  obtain ⟨fuel, jobs, -, hsched⟩ := run_scheduled pager h
  obtain ⟨-, hout⟩ := (allblocked_iff (hsched n).toPlaced).mp hblocked
  have hquiet : ∀ e, e < d → (config.run pager s₀ (n + e)).2.Quiet := by
    intro e he slot k hk
    have hle : (e : Int) ≤ pageWait := by omega
    exact ((fetching_run pager h htable hout hle).2 slot k hk).ne_zero hle
  have hstill : Still s s' := still_of_quiet pager h hquiet
  obtain ⟨hcompute, hblock, hjobs⟩ := charged_of_quiet h hquiet
  exact ⟨hstill.processes, hstill.control, hcompute, hblock, hjobs⟩

/-- Before the first iteration no job has a page. -/
theorem start_blocked (h : config.Starts s₀) : allblocked config.procs s₀ = true := by
  have hwait := pageWait_pos
  obtain ⟨fuel, jobs, -, hsched⟩ := run_scheduled lru h
  obtain ⟨k, hk⟩ := Option.isSome_iff_exists.mp (start_loaded h config.procs_pos)
  refine (allblocked_iff (hsched 0).toPlaced).mpr ⟨⟨0, k, hk⟩, fun slot k _ => ?_⟩
  have hout := (start_unpaged h k).2 (s₀.queue k).page
  change (s₀.queue k).pages (s₀.queue k).page < -pageWait
  omega

theorem allblocked_lull_alternating : ∃ s₀, alternatingConfig.Starts s₀ ∧
    allblocked 20 s₀ = true ∧
    (alternatingConfig.run lru s₀ 101).2.processes = s₀.processes ∧
    (alternatingConfig.run lru s₀ 101).2.computeTotal = s₀.computeTotal ∧
    ∀ slot k, s₀.processes slot = some k →
      ((alternatingConfig.run lru s₀ 101).2.queue k).block = (s₀.queue k).block + 101 := by
  obtain ⟨s₀, hstart⟩ := alternatingConfig_starts
  have hblocked := start_blocked hstart
  obtain ⟨hprocesses, -, hcompute, -, hjobs⟩ :=
    allblocked_lull alternatingConfig rfl lru s₀ hstart 0 hblocked 101 (by decide)
  rw [Nat.zero_add] at hprocesses hcompute hjobs
  exact ⟨s₀, hstart, hblocked, hprocesses, hcompute, hjobs⟩

/-! ### When the pager is done -/

/-- From iteration `n` on the pager starts no transfer any more. -/
def Config.Silent (config : Config) (pager : Pager) (s₀ : State) (n : Nat) : Prop :=
  ∀ m, n ≤ m → ∀ c,
    (config.run pager s₀ (m + 1)).2.pool.cell c = (config.shown pager s₀ m).pool.cell c

/-- A step leaves a page where it is, or puts it out. -/
theorem stepped_cell {q : Process} (hactive : q.active = true) (j : Nat) :
    q.stepped.pages j = q.pages j ∨ q.stepped.pages j = -pageWait - 1 := by
  by_cases hin : q.pages q.page = 0
  · cases hnext : q.toControl.next with
    | none =>
        have hpages : q.stepped.pages j =
            if j < q.npages ∧ q.pages j ≥ -pageWait then -pageWait - 1 else q.pages j := by
          rw [stepped_exit hactive hin hnext]
          rfl
        rw [hpages]
        split_ifs
        · exact Or.inr rfl
        · exact Or.inl rfl
    | some c =>
        rw [stepped_compute hactive hin hnext]
        exact Or.inl rfl
  · rw [stepped_blocked hactive hin]
    exact Or.inl rfl

/-- What is left of the transfers `d` iterations after the pager has stopped. -/
theorem fading_run (h : config.Starts s₀) {n : Nat} (hsilent : config.Silent pager s₀ n) (d : Nat)
    (c : Cell) : Fading pageWait d ((config.run pager s₀ (n + d)).2.pool.cell c) := by
  obtain ⟨fuel, jobs, -, hsched⟩ := run_scheduled pager h
  induction d with
  | zero =>
      have hframed := (run_reaches pager h n).framed.balanced
      exact fading_zero (hframed.lower c) (hframed.upper c)
  | succ d ih =>
      have hstep : (allstep config.procs (config.run pager s₀ (n + d)).2).pool.cell c =
            (config.run pager s₀ (n + d)).2.pool.cell c ∨
          (allstep config.procs (config.run pager s₀ (n + d)).2).pool.cell c = -pageWait - 1 := by
        change ((allstep config.procs (config.run pager s₀ (n + d)).2).queue c.1).pages c.2 =
            ((config.run pager s₀ (n + d)).2.queue c.1).pages c.2 ∨
          ((allstep config.procs (config.run pager s₀ (n + d)).2).queue c.1).pages c.2 = _
        by_cases hloaded : ∃ slot, (config.run pager s₀ (n + d)).2.processes slot = some c.1
        · obtain ⟨slot, hslot⟩ := hloaded
          rw [allstep_queue_of_loaded (hsched (n + d)).toPlaced hslot]
          exact stepped_cell ((hsched (n + d)).running slot c.1 hslot).active c.2
        · rw [allstep_queue_of_idle (hsched (n + d)).toPlaced (not_exists.mp hloaded)]
          exact Or.inl rfl
      have haged : (config.shown pager s₀ (n + d)).pool.cell c = ageCell pageWait
          ((allstep config.procs (config.run pager s₀ (n + d)).2).pool.cell c) :=
        (aged_allage (run_reaches pager h (n + d)).allstep).cell c
      rw [← Nat.add_assoc, hsilent (n + d) (Nat.le_add_right n d), haged]
      apply Fading.succ
      rcases hstep with hsame | hgone
      · rw [hsame]
        exact ih
      · exact Or.inr (Or.inl hgone)

/-- Once the pager has stopped, jobs whose pages are out stay where they are. -/
theorem out_of_silent (h : config.Starts s₀) (htable : config.table = programs) {n m : Nat}
    (hsilent : config.Silent pager s₀ n) (hm : n ≤ m)
    (hout : ∀ slot k, (config.run pager s₀ m).2.processes slot = some k →
      ((config.run pager s₀ m).2.queue k).pages ((config.run pager s₀ m).2.queue k).page <
        -pageWait) (d : Nat) :
    ∀ slot k, (config.run pager s₀ (m + d)).2.processes slot = some k →
      ((config.run pager s₀ (m + d)).2.queue k).pages
        ((config.run pager s₀ (m + d)).2.queue k).page < -pageWait := by
  have hwait := pageWait_pos
  induction d with
  | zero => exact hout
  | succ d ih =>
      have hquiet : (config.run pager s₀ (m + d)).2.Quiet := by
        intro slot k hk
        have hnow := ih slot k hk
        omega
      have htick := run_quietTick pager h hquiet
      have hstill := htick.still_mid.trans htick.still
      intro slot k hk
      rw [← Nat.add_assoc] at hk ⊢
      have hnow := ih slot k (hstill.processes ▸ hk)
      have hpage := (run_reaches pager h (m + d)).page_lt htable k
      have hnext : ((config.run pager s₀ (m + d + 1)).2.queue k).pages
          ((config.run pager s₀ (m + d)).2.queue k).page = ageCell pageWait
            (((config.run pager s₀ (m + d)).2.queue k).pages
              ((config.run pager s₀ (m + d)).2.queue k).page) :=
        (hsilent (m + d) (by omega) (k, ⟨_, hpage⟩)).trans (htick.aged.cell (k, ⟨_, hpage⟩))
      rw [hstill.page k, hnext, ageCell, if_pos (Or.inr hnow)]
      exact hnow

/-- Once the pager has stopped and the last transfers have ended, a report is a deadlock: the
main loop is not over, and no job will ever compute again. -/
theorem allblocked_silent (h : config.Starts s₀) (htable : config.table = programs) {n m : Nat}
    (hsilent : config.Silent pager s₀ n) (hm : n + pageWait.toNat ≤ m) :
    allblocked config.procs (config.run pager s₀ m).2 = true ↔
      alldone config.procs (config.run pager s₀ m).2 = false ∧
        ∀ l, m ≤ l → (config.run pager s₀ l).2.computeTotal =
          (config.run pager s₀ m).2.computeTotal := by
  have hwait := pageWait_pos
  obtain ⟨fuel, jobs, -, hsched⟩ := run_scheduled pager h
  rw [allblocked_iff (hsched m).toPlaced]
  constructor
  · rintro ⟨⟨slot, k, hslot⟩, hout⟩
    refine ⟨Bool.eq_false_iff.mpr fun hdone => ?_, fun l hl => ?_⟩
    · exact ((hsched m).idle_of_alldone config.procs_pos hdone k).2 slot hslot
    · obtain ⟨d, rfl⟩ := Nat.exists_eq_add_of_le hl
      refine (charged_of_quiet h fun e _ => ?_).1
      intro slot k hk
      have hnow := out_of_silent h htable hsilent (by omega) hout e slot k hk
      omega
  · rintro ⟨hnot, hdead⟩
    refine ⟨loaded_of_not_alldone hnot, fun slot k hslot => ?_⟩
    have hnext := hdead (m + 1) (Nat.le_succ m)
    rw [(totals_succ pager h m).2] at hnext
    have hready : (config.run pager s₀ m).2.ready config.procs = ∅ :=
      Finset.card_eq_zero.mp (by omega)
    have habsent : ((config.run pager s₀ m).2.queue k).pages
        ((config.run pager s₀ m).2.queue k).page ≠ 0 := fun hin =>
      Finset.notMem_empty k (hready ▸ Finset.mem_filter.mpr
        ⟨mem_inSlots.mpr ⟨slot, (hsched m).slot_lt slot k hslot, hslot⟩, hin⟩)
    obtain ⟨d, rfl⟩ := Nat.exists_eq_add_of_le (Nat.le_of_add_right_le hm)
    have hpage := (run_reaches pager h (n + d)).page_lt htable k
    have hsettled := (fading_run h hsilent d (k, ⟨_, hpage⟩)).settled (by omega)
    have hout := hsettled.resolve_left habsent
    change ((config.run pager s₀ (n + d)).2.queue k).pages
      ((config.run pager s₀ (n + d)).2.queue k).page = _ at hout
    omega

/-- The totals of a run come to an end. -/
theorem computeTotal_settles (pager : Pager) (h : config.Starts s₀)
    (htable : config.table = programs) : ∃ N, ∀ m, (config.run pager s₀ m).2.computeTotal ≤
      (config.run pager s₀ N).2.computeTotal := by
  obtain ⟨bound, hbound⟩ := Config.Reaches.computeTotal_bounded htable (run_reaches pager h 0)
  obtain ⟨N, -, hleast⟩ := WellFounded.has_min
    (measure fun m => bound - (config.run pager s₀ m).2.computeTotal).wf Set.univ ⟨0, trivial⟩
  refine ⟨N, fun m => ?_⟩
  have hm := hbound _ (run_reaches pager h m)
  have hnot : ¬ bound - (config.run pager s₀ m).2.computeTotal <
    bound - (config.run pager s₀ N).2.computeTotal := hleast m trivial
  omega

end Run

/-- **When the pager is done, the detector is right.** If the pager starts no transfer from
iteration `n` on, then after `PAGEWAIT` more iterations `allblocked` reports a deadlock if and only
if the main loop is not over and no job will ever execute an instruction again; and from some
iteration on it reports one exactly as long as the main loop goes on. -/
theorem allblocked_exact (config : Config) (htable : config.table = programs) (pager : Pager)
    (s₀ : State) (h : config.Starts s₀) (n : Nat) (hsilent : config.Silent pager s₀ n) :
    (∀ m, n + pageWait.toNat ≤ m →
      (allblocked config.procs (config.run pager s₀ m).2 = true ↔
        alldone config.procs (config.run pager s₀ m).2 = false ∧
          ∀ l, m ≤ l → (config.run pager s₀ l).2.computeTotal =
            (config.run pager s₀ m).2.computeTotal)) ∧
    ∃ N, ∀ m, N ≤ m → (allblocked config.procs (config.run pager s₀ m).2 = true ↔
      alldone config.procs (config.run pager s₀ m).2 = false) := by
  refine ⟨fun m hm => allblocked_silent h htable hsilent hm, ?_⟩
  obtain ⟨N, hN⟩ := computeTotal_settles pager h htable
  refine ⟨max N (n + pageWait.toNat), fun m hm => ?_⟩
  rw [allblocked_silent h htable hsilent (le_of_max_le_right hm), and_iff_left_iff_imp]
  intro _ l hl
  have hmono : ∀ {m l}, m ≤ l → (config.run pager s₀ m).2.computeTotal ≤
      (config.run pager s₀ l).2.computeTotal := by
    intro m l hle
    rw [(run_totals pager h m).2, (run_totals pager h l).2]
    exact Finset.sum_le_sum_of_subset (Finset.range_mono hle)
  exact le_antisymm ((hN l).trans (hmono (le_of_max_le_left hm))) (hmono hl)

/-- A pager that makes no calls. -/
def mute : Pager where
  State := Unit
  init := ()
  pageit _ st := .ret st

theorem allblocked_exact_mute : ∃ s₀, alternatingConfig.Starts s₀ ∧
    alternatingConfig.Silent mute s₀ 0 ∧
    ∃ N, ∀ m, N ≤ m → (allblocked 20 (alternatingConfig.run mute s₀ m).2 = true ↔
      alldone 20 (alternatingConfig.run mute s₀ m).2 = false) := by
  obtain ⟨s₀, hstart⟩ := alternatingConfig_starts
  have hsilent : alternatingConfig.Silent mute s₀ 0 := fun m _ c => by
    rw [run_succ_called]
    rfl
  exact ⟨s₀, hstart, hsilent,
    (allblocked_exact alternatingConfig rfl mute s₀ hstart 0 hsilent).2⟩

end OperatingSystems.Simulator
