import OperatingSystems.SimulatorScore
import OperatingSystems.SimulatorTransfers
import Mathlib.Algebra.BigOperators.Fin

/-!
The range of the score. `allscore` adds the counters of the jobs up in an `int`, which is exact as
long as the totals fit into one. The counters count steps of the run, of which there is no bound: a
pager may keep all jobs waiting for as long as it likes and then serve them to their end.
-/

namespace OperatingSystems.Simulator

open Loop Runs Frames

/-! ### Sums in an `int` -/

/-- The blocked ticks of all jobs. -/
def State.blockTotal (s : State) : Nat := ∑ k, (s.queue k).block

/-- A sum that is cut to an `int` after every addition is the exact sum, cut once. -/
theorem foldl_toInt {ι : Type} (f : ι → Nat) (l : List ι) (x : Int) :
    l.foldl (fun total i => toInt (total + f i)) (toInt x) = toInt (x + (l.map f).sum) := by
  induction l generalizing x with
  | nil => simp
  | cons i l ih =>
      have hstep : toInt (toInt x + f i) = toInt (x + f i) := Int.bmod_add_bmod ..
      rw [List.foldl_cons, hstep, ih, List.map_cons, List.sum_cons]
      push_cast
      rw [Int.add_assoc]

theorem foldl_toInt_eq_sum (f : Fin queueSize → Nat) :
    (List.finRange queueSize).foldl (fun total k => toInt (total + f k)) 0 =
      toInt (∑ k, f k : Nat) := by
  rw [show (0 : Int) = toInt 0 from rfl, foldl_toInt, Int.zero_add, Fin.sum_univ_def]

/-- What `allscore` prints. -/
theorem allscore_eq (s : State) :
    allscore s = (toInt s.blockTotal, toInt s.computeTotal) := by
  have hblock : (allscore s).1 =
      (List.finRange queueSize).foldl (fun total k => toInt (total + (s.queue k).block)) 0 :=
    (List.foldl_hom Prod.fst fun _ _ => rfl).symm
  apply Prod.ext
  · rw [hblock, foldl_toInt_eq_sum fun k => (s.queue k).block, State.blockTotal]
  · rw [allscore_compute, foldl_toInt_eq_sum fun k => (s.queue k).compute, State.computeTotal]

theorem toInt_eq_iff (n : Nat) : toInt n = n ↔ n < 2 ^ 31 := by
  rw [toInt, Int.bmod_def]
  split_ifs <;> omega

/-- The score is exact if and only if both totals fit into an `int`. -/
theorem allscore_exact_iff (s : State) :
    allscore s = ((s.blockTotal : Int), (s.computeTotal : Int)) ↔
      s.blockTotal < 2 ^ 31 ∧ s.computeTotal < 2 ^ 31 := by
  rw [allscore_eq, Prod.mk.injEq, toInt_eq_iff, toInt_eq_iff]

/-! ### What the counters count -/

/-- The jobs in the slots. -/
def State.inSlots (procs : Nat) (s : State) : Finset (Fin queueSize) :=
  (Finset.range procs).biUnion fun slot => (s.processes slot).toFinset

/-- The jobs in the slots that are without the page they are on. -/
def State.waiting (procs : Nat) (s : State) : Finset (Fin queueSize) :=
  (s.inSlots procs).filter fun k => (s.queue k).pages (s.queue k).page ≠ 0

/-- The jobs in the slots that have the page they are on. -/
def State.ready (procs : Nat) (s : State) : Finset (Fin queueSize) :=
  (s.inSlots procs).filter fun k => (s.queue k).pages (s.queue k).page = 0

variable {procs : Nat} {jobs : Fin queueSize → Process}

theorem mem_inSlots {s : State} {k : Fin queueSize} :
    k ∈ s.inSlots procs ↔ ∃ slot, slot < procs ∧ s.processes slot = some k := by
  simp only [State.inSlots, Finset.mem_biUnion, Finset.mem_range, Option.mem_toFinset,
    Option.mem_def]

theorem card_waiting_add_card_ready (procs : Nat) (s : State) :
    (s.waiting procs).card + (s.ready procs).card ≤ procs := by
  calc
    (s.waiting procs).card + (s.ready procs).card = (s.inSlots procs).card := by
      rw [Nat.add_comm]
      exact Finset.card_filter_add_card_filter_not _
    _ ≤ (Finset.range procs).card * 1 := by
      apply Finset.card_biUnion_le_card_mul
      intro slot _
      cases s.processes slot with
      | none => exact Nat.zero_le 1
      | some k => exact le_rfl
    _ = procs := by rw [Finset.card_range, Nat.mul_one]

/-- A tick adds one to the block counters of the jobs that wait and to the compute counters of
those that are ready. -/
theorem tick_counters (pager : Pager) {s : pager.State × State} (hplaced : Placed procs jobs s.2)
    (k : Fin queueSize) :
    ((tick pager procs s).2.queue k).block =
        (s.2.queue k).block + (if k ∈ s.2.waiting procs then 1 else 0) ∧
      ((tick pager procs s).2.queue k).compute =
        (s.2.queue k).compute + (if k ∈ s.2.ready procs then 1 else 0) := by
  simp only [State.waiting, State.ready, Finset.mem_filter]
  by_cases hloaded : k ∈ s.2.inSlots procs
  · obtain ⟨slot, -, hslot⟩ := mem_inSlots.mp hloaded
    have hactive := (hplaced.running slot k hslot).active
    have hpaged := paged_tick pager procs s
    rw [hpaged.block, hpaged.compute, allstep_queue_of_loaded hplaced hslot]
    by_cases hin : (s.2.queue k).pages (s.2.queue k).page = 0
    · have hblock := stepped_block hactive hin
      have hcharged := (stepped_chargedOnce hactive).charges
      have hcompute : (s.2.queue k).stepped.compute = (s.2.queue k).compute + 1 := by
        simp only [Process.charges, hblock] at hcharged
        omega
      simp [hloaded, hin, hblock, hcompute]
    · rw [stepped_blocked hactive hin]
      simp [hloaded, hin, Process.chargeBlock]
  · have hidle : ∀ slot, s.2.processes slot ≠ some k := fun slot hslot =>
      hloaded (mem_inSlots.mpr ⟨slot, hplaced.slot_lt slot k hslot, hslot⟩)
    obtain ⟨hblock, hcompute⟩ := tick_charges_idle pager hplaced hidle
    simp [hblock, hcompute, hloaded]

/-- The jobs that wait in the iterations before `n`, each counted once per iteration. -/
def Config.blockTicks (config : Config) (pager : Pager) (s₀ : State) (n : Nat) : Nat :=
  ∑ t ∈ Finset.range n, ((config.run pager s₀ t).2.waiting config.procs).card

/-- The jobs that are ready in the iterations before `n`. -/
def Config.computeTicks (config : Config) (pager : Pager) (s₀ : State) (n : Nat) : Nat :=
  ∑ t ∈ Finset.range n, ((config.run pager s₀ t).2.ready config.procs).card

section Run

variable {config : Config} (pager : Pager) {s₀ : State}

/-- The counters of all jobs together count what has happened in the run. -/
theorem run_totals (h : config.Starts s₀) (n : Nat) :
    (config.run pager s₀ n).2.blockTotal = config.blockTicks pager s₀ n ∧
      (config.run pager s₀ n).2.computeTotal = config.computeTicks pager s₀ n := by
  obtain ⟨fuel, jobs, hjobs, hsched⟩ := run_scheduled pager h
  induction n with
  | zero =>
      obtain ⟨fuel', jobs', hjobs', hqueue, -⟩ := start_boot h
      have hzero : ∀ k, (s₀.queue k).block = 0 ∧ (s₀.queue k).compute = 0 := by
        intro k
        rw [hqueue]
        exact ⟨(initqueue_start hjobs' k).1, (initqueue_fresh hjobs' k).compute⟩
      refine ⟨?_, ?_⟩
      · apply Finset.sum_eq_zero
        intro k _
        exact (hzero k).1
      · apply Finset.sum_eq_zero
        intro k _
        exact (hzero k).2
  | succ n ih =>
      have hcounters := tick_counters pager (hsched n).toPlaced
      rw [← run_succ] at hcounters
      have hsum : ∀ A : Finset (Fin queueSize), ∑ k, (if k ∈ A then 1 else 0) = A.card := by
        simp
      refine ⟨?_, ?_⟩
      · rw [Config.blockTicks, Finset.sum_range_succ, ← Config.blockTicks, ← ih.1,
          State.blockTotal, State.blockTotal, ← hsum, ← Finset.sum_add_distrib]
        exact Finset.sum_congr rfl fun k _ => (hcounters k).1
      · rw [Config.computeTicks, Finset.sum_range_succ, ← Config.computeTicks, ← ih.2,
          State.computeTotal, State.computeTotal, ← hsum, ← Finset.sum_add_distrib]
        exact Finset.sum_congr rfl fun k _ => (hcounters k).2

/-- A run is charged at most one tick a slot in every iteration. -/
theorem ticks_le (config : Config) (pager : Pager) (s₀ : State) (n : Nat) :
    config.blockTicks pager s₀ n + config.computeTicks pager s₀ n ≤ config.procs * n := by
  rw [Config.blockTicks, Config.computeTicks, ← Finset.sum_add_distrib]
  calc
    _ ≤ (Finset.range n).card * config.procs :=
      Finset.sum_le_card_nsmul _ _ _ fun t _ => card_waiting_add_card_ready config.procs _
    _ = config.procs * n := by rw [Finset.card_range, Nat.mul_comm]

/-- The state in which the main loop ends is that of the iteration which its clock shows. -/
theorem mainLoop_eq_run (h : config.Starts s₀) {fuel : Nat} {s : State}
    (hloop : mainLoop pager config.procs fuel (pager.init, s₀) = some s) :
    s = (config.run pager s₀ s.sysclock).2 := by
  obtain ⟨n, hn, -⟩ := mainLoop_eq_some hloop
  have hrun : s = (config.run pager s₀ n).2 := hn
  rw [hrun, run_sysclock pager h]

/-- A run of fewer than `2 ^ 31` iterations, counted once for every slot, has an exact score. -/
theorem score_exact_of_short (h : config.Starts s₀) {fuel : Nat} {s : State}
    (hloop : mainLoop pager config.procs fuel (pager.init, s₀) = some s)
    (hshort : config.procs * s.sysclock < 2 ^ 31) :
    allscore s = ((s.blockTotal : Int), (s.computeTotal : Int)) := by
  have hrun := mainLoop_eq_run pager h hloop
  obtain ⟨hblock, hcompute⟩ := run_totals pager h s.sysclock
  have hle := ticks_le config pager s₀ s.sysclock
  rw [← hblock, ← hcompute, ← hrun] at hle
  rw [allscore_exact_iff]
  omega

end Run

/-! ### A pager that takes its time -/

/-- The pager that makes no call in the first `idle` iterations and goes on as the given one. -/
def Pager.lazy (pager : Pager) (idle : Nat) : Pager where
  State := Nat × pager.State
  init := (0, pager.init)
  pageit q st :=
    if st.1 < idle then .ret (st.1 + 1, st.2)
    else pager.pageit q st.2 >>= fun memory => .ret (st.1, memory)

section Lazy

variable {config : Config} {pager : Pager} {idle : Nat} {s₀ : State}

/-- The state of the given pager, as one of the lazy pager when it has begun. -/
def begun (idle : Nat) (s : pager.State × State) : (pager.lazy idle).State × State :=
  ((idle, s.1), s.2)

theorem callyou_begun (idle procs : Nat) (s : pager.State × State) :
    callyou (pager.lazy idle) procs (begun idle s) = begun idle (callyou pager procs s) := by
  have hpageit : (pager.lazy idle).pageit s.2.pentry (idle, s.1) =
      pager.pageit s.2.pentry s.1 >>= fun memory => .ret (idle, memory) :=
    if_neg (lt_irrefl idle)
  exact (congrArg (fun t => CallTree.run (PageCall.answer procs) t s.2) hpageit).trans
    (CallTree.run_bind _ _ _ s.2)

theorem tick_begun (procs : Nat) (s : pager.State × State) :
    tick (pager.lazy idle) procs (begun idle s) = begun idle (tick pager procs s) := by
  have hcall := callyou_begun idle procs (s.1, allage procs (allstep procs s.2))
  exact congrArg (fun x => (x.1, { x.2 with sysclock := x.2.sysclock + 1 })) hcall

theorem ticks_begun (procs : Nat) (s : pager.State × State) (n : Nat) :
    (tick (pager.lazy idle) procs)^[n] (begun idle s) =
      begun idle ((tick pager procs)^[n] s) :=
  (Function.Semiconj.iterate_right (fun s => (tick_begun procs s).symm) n s).symm

/-- Before that, an iteration is one without a call. -/
theorem tick_waits {t : Nat} (ht : t < idle) (procs : Nat) (memory : pager.State) (s : State) :
    tick (pager.lazy idle) procs ((t, memory), s) =
      ((t + 1, memory), { midTick procs s with sysclock := (midTick procs s).sysclock + 1 }) := by
  have hcall : callyou (pager.lazy idle) procs ((t, memory), midTick procs s) =
      ((t + 1, memory), midTick procs s) :=
    congrArg (fun t => CallTree.run (PageCall.answer procs) t (midTick procs s)) (if_pos ht)
  exact congrArg (fun x => (x.1, { x.2 with sysclock := x.2.sysclock + 1 })) hcall

/-- A job that has been waiting for its first page from the start. -/
structure Idles (k : Fin queueSize) (t : Nat) (s : State) : Prop where
  loaded : s.processes 0 = some k
  page : (s.queue k).page = 0
  cell : ∀ j, s.pool.cell (k, j) = -pageWait - 1
  block : (s.queue k).block = t

theorem start_idles (h : config.Starts s₀) {k : Fin queueSize} (hslot : s₀.processes 0 = some k) :
    Idles k 0 s₀ := by
  obtain ⟨hpage, hpages⟩ := start_unpaged h k
  obtain ⟨fuel, jobs, hjobs, hqueue, -⟩ := start_boot h
  refine ⟨hslot, hpage, fun j => hpages j, ?_⟩
  rw [hqueue]
  exact (initqueue_start hjobs k).1

/-- In an iteration without a call the job goes on waiting. -/
theorem Idles.succ (h : config.Starts s₀) {k : Fin queueSize} {t : Nat}
    (hidles : Idles k t (config.run pager s₀ t).2)
    (hnext : (config.run pager s₀ (t + 1)).2 = { config.shown pager s₀ t with
      sysclock := (config.shown pager s₀ t).sysclock + 1 }) :
    Idles k (t + 1) (config.run pager s₀ (t + 1)).2 := by
  obtain ⟨fuel, jobs, -, hsched⟩ := run_scheduled pager h
  have hwait := pageWait_pos
  have hout : ((config.run pager s₀ t).2.queue k).pages
      ((config.run pager s₀ t).2.queue k).page ≠ 0 := by
    have hcell : ((config.run pager s₀ t).2.queue k).pages 0 = -pageWait - 1 := hidles.cell 0
    rw [hidles.page]
    omega
  have hwaiting : k ∈ (config.run pager s₀ t).2.waiting config.procs :=
    Finset.mem_filter.mpr
      ⟨mem_inSlots.mpr ⟨0, (hsched t).slot_lt 0 k hidles.loaded, hidles.loaded⟩, hout⟩
  have hblock := (tick_counters pager (hsched t).toPlaced k).1
  rw [← run_succ, if_pos hwaiting, hidles.block] at hblock
  obtain ⟨hloaded, hpage⟩ := shown_blocked h hidles.loaded hout
  refine ⟨?_, ?_, ?_, hblock⟩
  · rw [hnext]
    exact hloaded
  · rw [hnext]
    exact hpage.trans hidles.page
  · intro j
    have hcell := shown_cell h hloaded j
    rw [hidles.cell j, ageCell, if_pos (by omega)] at hcell
    rw [hnext]
    exact hcell

/-- As long as the pager makes no call, the first job waits for its first page. -/
theorem lazy_idles (h : config.Starts s₀) {k : Fin queueSize} (hslot : s₀.processes 0 = some k)
    {t : Nat} (ht : t ≤ idle) :
    (config.run (pager.lazy idle) s₀ t).1 = (t, pager.init) ∧
      Idles k t (config.run (pager.lazy idle) s₀ t).2 := by
  induction t with
  | zero => exact ⟨rfl, start_idles h hslot⟩
  | succ t ih =>
      obtain ⟨hmemory, hidles⟩ := ih (Nat.le_of_succ_le ht)
      have hnow : config.run (pager.lazy idle) s₀ t =
          ((t, pager.init), (config.run (pager.lazy idle) s₀ t).2) := Prod.ext hmemory rfl
      have hstep := congrArg (tick (pager.lazy idle) config.procs) hnow
      have hnext := ((run_succ (pager.lazy idle) t).trans hstep).trans
        (tick_waits ht config.procs pager.init (config.run (pager.lazy idle) s₀ t).2)
      exact ⟨congrArg Prod.fst hnext, hidles.succ h (congrArg Prod.snd hnext)⟩

theorem blockTicks_mono (pager : Pager) {m n : Nat} (hle : m ≤ n) :
    config.blockTicks pager s₀ m ≤ config.blockTicks pager s₀ n :=
  Finset.sum_le_sum_of_subset (Finset.range_mono hle)

/-- The run with the lazy pager ends when the one with the given pager does, and by then the first
job alone has waited for all the idle iterations. -/
theorem lazy_ends {inv : pager.State → Prop} (htable : config.table = programs)
    (live : pager.Live inv) (h : config.Starts s₀) (idle : Nat) :
    ∃ fuel s, mainLoop (pager.lazy idle) config.procs fuel ((pager.lazy idle).init, s₀) = some s ∧
      idle ≤ s.blockTotal := by
  obtain ⟨k, hslot⟩ := Option.isSome_iff_exists.mp (start_loaded h config.procs_pos)
  obtain ⟨hmemory, hidles⟩ := lazy_idles h hslot (le_refl idle)
  have hbegins : config.run (pager.lazy idle) s₀ idle =
      begun idle (pager.init, (config.run (pager.lazy idle) s₀ idle).2) := Prod.ext hmemory rfl
  obtain ⟨n, hn⟩ := live_ends htable live (pager.init, (config.run (pager.lazy idle) s₀ idle).2)
    (run_reaches (pager.lazy idle) h idle) live.init
  have hdone : alldone config.procs
      ((tick (pager.lazy idle) config.procs)^[n + idle] ((pager.lazy idle).init, s₀)).2 = true := by
    rw [Function.iterate_add_apply]
    show alldone config.procs
      ((tick (pager.lazy idle) config.procs)^[n] (config.run (pager.lazy idle) s₀ idle)).2 = true
    rw [hbegins, ticks_begun]
    exact hn
  obtain ⟨fuel, s, hloop⟩ := mainLoop_ends hdone
  refine ⟨fuel, s, hloop, ?_⟩
  obtain ⟨m, hm, hends⟩ := mainLoop_eq_some hloop
  have hrun : s = (config.run (pager.lazy idle) s₀ m).2 := hm
  have hlate : idle ≤ m := by
    by_contra hearly
    have hwaits : Idles k m (config.run (pager.lazy idle) s₀ m).2 :=
      (lazy_idles h hslot (le_of_not_ge hearly)).2
    obtain ⟨fuel', jobs, -, hsched⟩ := run_scheduled (pager.lazy idle) h
    rw [hrun] at hends
    exact ((hsched m).idle_of_alldone config.procs_pos hends k).2 0 hwaits.loaded
  calc
    idle = ((config.run (pager.lazy idle) s₀ idle).2.queue k).block := hidles.block.symm
    _ ≤ (config.run (pager.lazy idle) s₀ idle).2.blockTotal :=
      Finset.single_le_sum (f := fun k => ((config.run (pager.lazy idle) s₀ idle).2.queue k).block)
        (fun _ _ => Nat.zero_le _) (Finset.mem_univ k)
    _ = config.blockTicks (pager.lazy idle) s₀ idle := (run_totals (pager.lazy idle) h idle).1
    _ ≤ config.blockTicks (pager.lazy idle) s₀ m := blockTicks_mono (pager.lazy idle) hlate
    _ = s.blockTotal := by rw [hrun, (run_totals (pager.lazy idle) h m).1]

end Lazy

/-- **The score is exact as long as the counted ticks fit into an `int`.** In every run of the main
loop that ends, with every pager, `allscore` prints the exact totals of the jobs' counters if and
only if the jobs found waiting, counted over the iterations of the run, and the jobs found ready
are both fewer than `2 ^ 31`. -/
theorem score_exact_iff (config : Config) (pager : Pager) (s₀ s : State) (h : config.Starts s₀)
    (fuel : Nat) (hloop : mainLoop pager config.procs fuel (pager.init, s₀) = some s) :
    allscore s = (((∑ k, (s.queue k).block : Nat) : Int),
        ((∑ k, (s.queue k).compute : Nat) : Int)) ↔
      config.blockTicks pager s₀ s.sysclock < 2 ^ 31 ∧
        config.computeTicks pager s₀ s.sysclock < 2 ^ 31 := by
  have hrun := mainLoop_eq_run pager h hloop
  obtain ⟨hblock, hcompute⟩ := run_totals pager h s.sysclock
  rw [← hblock, ← hcompute, ← hrun]
  exact allscore_exact_iff s

theorem score_exact_iff_alternating : ∃ s₀ fuel s,
    mainLoop lru alternatingConfig.procs fuel (lru.init, s₀) = some s ∧
    (allscore s = (((∑ k, (s.queue k).block : Nat) : Int),
        ((∑ k, (s.queue k).compute : Nat) : Int)) ↔
      alternatingConfig.blockTicks lru s₀ s.sysclock < 2 ^ 31 ∧
        alternatingConfig.computeTicks lru s₀ s.sysclock < 2 ^ 31) := by
  obtain ⟨s₀, hstart⟩ := alternatingConfig_starts
  obtain ⟨fuel, s, hloop⟩ := (live_terminates rfl lru_live hstart).1
  exact ⟨s₀, fuel, s, hloop, score_exact_iff alternatingConfig lru s₀ s hstart fuel hloop⟩

/-- A single slot, and a pager that lets `2 ^ 31` iterations go by before it does its work. -/
theorem score_not_exact : ∃ s₀ fuel s, singleSlotConfig.Starts s₀ ∧
    mainLoop (lru.lazy (2 ^ 31)) singleSlotConfig.procs fuel ((lru.lazy (2 ^ 31)).init, s₀) =
      some s ∧
    allscore s ≠ (((∑ k, (s.queue k).block : Nat) : Int),
      ((∑ k, (s.queue k).compute : Nat) : Int)) := by
  obtain ⟨s₀, hstart⟩ : ∃ s, singleSlotConfig.Starts s := starts_of_alternating rfl rfl
  obtain ⟨fuel, s, hloop, hlarge⟩ := lazy_ends rfl lru_live hstart (2 ^ 31)
  refine ⟨s₀, fuel, s, hstart, hloop, ?_⟩
  intro hexact
  exact absurd ((allscore_exact_iff s).mp hexact).1 (not_lt.mpr hlarge)

end OperatingSystems.Simulator
