import OperatingSystems.SimulatorScore
import OperatingSystems.SimulatorSpent

/-!
What no pager can save. The first page of a job cannot be asked for before the job is loaded, and
takes `PAGEWAIT` ticks to arrive; so every job is blocked for that long before its first
instruction, and the ticks of the jobs have to fit into those of the slots.
-/

namespace OperatingSystems.Simulator

open Loop Runs Frames CallTree

/-- A job that has executed an instruction has waited for a page; until then each of its pages
that is there or on its way has been waited for as long as it has been on its way. -/
structure Process.Delayed (late : Nat) (q : Process) : Prop where
  charged : late ≤ q.block
  begun : q.compute ≠ 0 → pageWait + late ≤ q.block
  coming : q.compute = 0 → ∀ j : Fin maxProcPages, 0 ≤ q.pages j →
    pageWait + late ≤ q.block + q.pages j

section Run

variable {config : Config} {pager : Pager} {s₀ : State} {n : Nat} {k : Fin queueSize}
  (h : config.Starts s₀) (htable : config.table = programs)

include h

/-- What an iteration makes of a page that the step of the slots left at `v`. -/
theorem run_succ_shifted {v : Int} (j : Fin maxProcPages)
    (hcell : ((allstep config.procs (config.run pager s₀ n).2).queue k).pages j = v) :
    Shifted pageWait (ageCell pageWait v) (((config.run pager s₀ (n + 1)).2.queue k).pages j) := by
  have haged := (aged_allage (run_reaches pager h n).allstep).cell (k, j)
  have hbefore : (allstep config.procs (config.run pager s₀ n).2).pool.cell (k, j) = v := hcell
  rw [hbefore] at haged
  rw [← haged]
  exact ((run_succ_requested pager n).2 (shown_reaches pager h n).npages).cell (k, j)

include htable in
theorem delayed_of_blank (hblank : ((config.run pager s₀ n).2.queue k).Blank)
    (hcharged : config.late k ≤ ((config.run pager s₀ (n + 1)).2.queue k).block) :
    ((config.run pager s₀ (n + 1)).2.queue k).Delayed (config.late k) := by
  have hwait := pageWait_pos
  have hcompute : ((config.run pager s₀ (n + 1)).2.queue k).compute = 0 :=
    ((run_succ_paged config pager s₀ n).compute k).trans (hblank.shown h htable).compute
  refine ⟨hcharged, fun hbegun => absurd hcompute hbegun, fun _ j hheld => ?_⟩
  have hshift := run_succ_shifted h j ((hblank.allstep h htable).out j)
  rw [ageCell, if_pos (by omega)] at hshift
  unfold Shifted at hshift
  omega

/-- A tick of a loaded job. -/
theorem delayed_of_loaded {slot : Nat} (hslot : (config.run pager s₀ n).2.processes slot = some k)
    (hpage : ((config.run pager s₀ n).2.queue k).page < maxProcPages)
    (hdelayed : ((config.run pager s₀ n).2.queue k).Delayed (config.late k)) :
    ((config.run pager s₀ (n + 1)).2.queue k).Delayed (config.late k) := by
  have hwait := pageWait_pos
  obtain ⟨fuel, jobs, -, hsched⟩ := run_scheduled pager h
  have hcharged := tick_charges_loaded pager (hsched n).toPlaced hslot
  rw [← run_succ] at hcharged
  have hsteps := allstep_queue_of_loaded (hsched n).toPlaced hslot
  obtain ⟨hlate, hbegun, hcoming⟩ := hdelayed
  rcases hcharged with ⟨hblock, hcompute⟩ | ⟨hblock, hcompute⟩
  · refine ⟨by omega, fun hnot => ?_, fun hzero j hheld => ?_⟩
    · have := hbegun (hcompute ▸ hnot)
      omega
    · have hout : ((config.run pager s₀ n).2.queue k).pages
          ((config.run pager s₀ n).2.queue k).page ≠ 0 := by
        intro hin
        have hsame := stepped_block ((hsched n).running slot k hslot).active hin
        rw [← hsteps,
          ← ((shown_paged config pager s₀ n).trans (run_succ_paged config pager s₀ n)).block] at hsame
        omega
      have hkept : ((allstep config.procs (config.run pager s₀ n).2).queue k).pages j =
          ((config.run pager s₀ n).2.queue k).pages j := by
        rw [hsteps, stepped_blocked ((hsched n).running slot k hslot).active hout]
        rfl
      have hshift := run_succ_shifted h j hkept
      have hbefore := hcoming (hcompute ▸ hzero) j
      unfold Shifted ageCell at hshift
      split_ifs at hshift <;> omega
  · have hon := onPage_of_compute h hcompute
    have hwaited : pageWait + config.late k ≤ ((config.run pager s₀ n).2.queue k).block := by
      by_cases hzero : ((config.run pager s₀ n).2.queue k).compute = 0
      · have hin : ((config.run pager s₀ n).2.queue k).pages
            (⟨_, hpage⟩ : Fin maxProcPages) = 0 := hon.2
        have := hcoming hzero ⟨_, hpage⟩ hin.ge
        omega
      · exact hbegun hzero
    exact ⟨by omega, fun _ => by omega, fun hzero => by omega⟩

include htable in
theorem delayed_run (n : Nat) {k : Fin queueSize}
    (hk : k.val < (config.run pager s₀ (n + 1)).2.queueend) :
    ((config.run pager s₀ (n + 1)).2.queue k).Delayed (config.late k) := by
  obtain ⟨fuel, jobs, hjobs, hsched⟩ := run_scheduled pager h
  have hloads : ∀ n, (config.run pager s₀ n).2.queueend ≤ k.val →
      ((config.run pager s₀ (n + 1)).2.queue k).Delayed (config.late k) := by
    intro n hwaits
    have hbegun := begun_run pager h n
    apply delayed_of_blank h htable
    · rw [(hsched n).waiting k hwaits]
      exact (initqueue_fresh hjobs k).blank
    · rw [Config.late, if_neg (by omega)]
      exact Nat.zero_le _
  induction n with
  | zero =>
      by_cases hwaits : (config.run pager s₀ 0).2.queueend ≤ k.val
      · exact hloads 0 hwaits
      · obtain ⟨fuel', jobs', hjobs', hqueue, -⟩ := start_boot h
        have hblank : ((config.run pager s₀ 0).2.queue k).Blank := by
          show (s₀.queue k).Blank
          rw [hqueue]
          exact (initqueue_fresh hjobs' k).blank
        obtain ⟨slot, hslot⟩ := (loaded_iff_active (hsched 0) (not_le.mp hwaits)).mpr hblank.active
        apply delayed_of_blank h htable hblank
        have hcharged := tick_charges_loaded pager (hsched 0).toPlaced hslot
        rw [← run_succ] at hcharged
        have hzero := (hblank.shown h htable).compute
        rw [← (run_succ_paged config pager s₀ 0).compute] at hzero
        have hlate : config.late k ≤ 1 := by
          unfold Config.late
          split_ifs <;> omega
        rcases hcharged with ⟨hblock, -⟩ | ⟨-, hcompute⟩ <;> omega
  | succ n ih =>
      by_cases hwaits : (config.run pager s₀ (n + 1)).2.queueend ≤ k.val
      · exact hloads (n + 1) hwaits
      · by_cases hloaded : ∃ slot, (config.run pager s₀ (n + 1)).2.processes slot = some k
        · obtain ⟨slot, hslot⟩ := hloaded
          exact delayed_of_loaded h hslot ((run_reaches pager h (n + 1)).page_lt htable k)
            (ih (not_le.mp hwaits))
        · rw [queue_succ_of_idle h (not_exists.mp hloaded) (not_le.mp hwaits)]
          exact ih (not_le.mp hwaits)

/-! ### The ticks of the slots -/

include htable in
/-- A job that has been taken from the queue has been in a slot. -/
theorem loaded_once (n : Nat) {k : Fin queueSize}
    (hk : k.val < (config.run pager s₀ n).2.queueend) :
    ∃ m slot, m ≤ n ∧ slot < config.procs ∧
      (config.run pager s₀ m).2.processes slot = some k := by
  obtain ⟨fuel, jobs, hjobs, hsched⟩ := run_scheduled pager h
  have hnow : ∀ n, k.val < (config.run pager s₀ n).2.queueend →
      ((config.run pager s₀ n).2.queue k).active = true →
        ∃ m slot, m ≤ n ∧ slot < config.procs ∧
          (config.run pager s₀ m).2.processes slot = some k := by
    intro n hk hactive
    obtain ⟨slot, hslot⟩ := (loaded_iff_active (hsched n) hk).mpr hactive
    exact ⟨n, slot, le_rfl, (hsched n).slot_lt slot k hslot, hslot⟩
  induction n with
  | zero =>
      apply hnow 0 hk
      obtain ⟨fuel', jobs', hjobs', hqueue, -⟩ := start_boot h
      show (s₀.queue k).active = true
      rw [hqueue, (initqueue_fresh hjobs' k).active]
  | succ n ih =>
      by_cases hwaits : (config.run pager s₀ n).2.queueend ≤ k.val
      · apply hnow (n + 1) hk
        have hblank : ((config.run pager s₀ n).2.queue k).Blank := by
          rw [(hsched n).waiting k hwaits]
          exact (initqueue_fresh hjobs k).blank
        exact ((run_succ_paged config pager s₀ n).active k).trans (hblank.shown h htable).active
      · obtain ⟨m, slot, hm, hloaded⟩ := ih (not_le.mp hwaits)
        exact ⟨m, slot, Nat.le_succ_of_le hm, hloaded⟩

/-- The jobs of a slot are charged at most one tick for each iteration. -/
theorem slotCharges_le (pager : Pager) {slot : Nat} (hslot : slot < config.procs) (n : Nat) :
    slotCharges (fun n => (config.run pager s₀ n).2) slot n ≤ n := by
  rcases slotCharges_eq pager h hslot n with ⟨-, heq⟩ | ⟨-, t, -, hlt, -, -, -, heq⟩
  · exact heq.le
  · omega

include htable in
theorem charges_le (n : Nat) {k : Fin queueSize}
    (hk : k.val < (config.run pager s₀ n).2.queueend) :
    ((config.run pager s₀ n).2.queue k).charges ≤ n := by
  obtain ⟨m, slot, hm, hslot, hloaded⟩ := loaded_once h htable n hk
  refine le_trans ?_ (slotCharges_le h pager hslot n)
  exact Finset.single_le_sum (f := fun k => ((config.run pager s₀ n).2.queue k).charges)
    (fun _ _ => Nat.zero_le _) (mem_loadedInto.mpr ⟨m, hm, hloaded⟩)

include htable in
theorem sum_charges_le (n : Nat)
    (hall : ∀ k : Fin queueSize, k.val < (config.run pager s₀ n).2.queueend) :
    ∑ k, ((config.run pager s₀ n).2.queue k).charges ≤ config.procs * n := by
  set run := fun n => (config.run pager s₀ n).2 with hrun
  have hdisjoint : ((Finset.range config.procs : Finset Nat) : Set Nat).PairwiseDisjoint
      fun slot => loadedInto run slot n := by
    intro slot _ slot' _ hne
    refine Finset.disjoint_left.mpr fun k hk hk' => hne ?_
    obtain ⟨m, -, hm⟩ := mem_loadedInto.mp hk
    obtain ⟨m', -, hm'⟩ := mem_loadedInto.mp hk'
    exact (run_one_slot pager h hm hm').symm
  have hcover : (Finset.univ : Finset (Fin queueSize)) ⊆
      (Finset.range config.procs).biUnion fun slot => loadedInto run slot n := by
    intro k _
    obtain ⟨m, slot, hm, hslot, hloaded⟩ := loaded_once h htable n (hall k)
    exact Finset.mem_biUnion.mpr
      ⟨slot, Finset.mem_range.mpr hslot, mem_loadedInto.mpr ⟨m, hm, hloaded⟩⟩
  calc
    ∑ k, ((run n).queue k).charges ≤
        ∑ k ∈ (Finset.range config.procs).biUnion fun slot => loadedInto run slot n,
          ((run n).queue k).charges :=
      Finset.sum_le_sum_of_subset hcover
    _ = ∑ slot ∈ Finset.range config.procs, slotCharges run slot n :=
      Finset.sum_biUnion hdisjoint
    _ ≤ ∑ _slot ∈ Finset.range config.procs, n :=
      Finset.sum_le_sum fun slot hslot => slotCharges_le h pager (Finset.mem_range.mp hslot) n
    _ = config.procs * n := by rw [Finset.sum_const_nat fun _ _ => rfl, Finset.card_range]

end Run

/-- There is a job of the start for every slot. -/
theorem sum_late (config : Config) : ∑ k : Fin queueSize, config.late k = config.procs := by
  have hprocs := config.procs_le
  have hlt : config.procs ≤ queueSize := hprocs.trans (by decide)
  simp only [Config.late]
  rw [← Finset.card_filter]
  refine (Finset.card_bij (fun k _ => k.val) ?_ ?_ ?_).trans (Finset.card_range config.procs)
  · intro k hk
    exact Finset.mem_range.mpr (Finset.mem_filter.mp hk).2
  · intro k _ k' _ heq
    exact Fin.ext heq
  · intro i hi
    have hi := Finset.mem_range.mp hi
    exact ⟨⟨i, hi.trans_le hlt⟩, Finset.mem_filter.mpr ⟨Finset.mem_univ _, hi⟩, rfl⟩

/-- **What no pager can save.** Whatever the pager, the random stream and the number of processors,
when the main loop ends every job has been blocked for at least `PAGEWAIT` ticks, and one more if
it was loaded at the start; the run has taken at least this many ticks more than any job has
computed; and the ticks of all slots together cover all instructions and all these waits. -/
theorem run_takes (config : Config) (htable : config.table = programs) (pager : Pager) (s₀ s : State)
    (h : config.Starts s₀) (fuel : Nat)
    (hloop : mainLoop pager config.procs fuel (pager.init, s₀) = some s) :
    (∀ k, pageWait + (if k.val < config.procs then 1 else 0) ≤ (s.queue k).block) ∧
    (∀ k, ((s.queue k).compute : Int) + pageWait + (if k.val < config.procs then 1 else 0) ≤
      s.sysclock) ∧
    ∑ k, ((s.queue k).compute + pageWait.toNat) + config.procs ≤ config.procs * s.sysclock := by
  have hwait := pageWait_pos
  obtain ⟨n, rfl, -, hidle⟩ := mainLoop_run h hloop
  have hall := fun k => (hidle k).1
  have hclock := run_sysclock pager h (n + 1)
  have hlate : ∀ k, (config.late k : Int) = if k.val < config.procs then 1 else 0 := by
    intro k
    unfold Config.late
    split_ifs <;> rfl
  have hblock : ∀ k, pageWait + config.late k ≤
      ((config.run pager s₀ (n + 1)).2.queue k).block := by
    intro k
    obtain ⟨fuel', jobs, -, hended⟩ := mainLoop_ended ⟨s₀, h, .refl⟩ hloop
    obtain ⟨m, -, -, hcompute, -⟩ := (hended k).ended
    exact (delayed_run h htable n (hall k)).begun (by rw [hcompute]; omega)
  refine ⟨fun k => hlate k ▸ hblock k, fun k => ?_, ?_⟩
  · have hcharges := charges_le h htable (n + 1) (hall k)
    have hwaited := hblock k
    rw [← hlate, hclock]
    rw [Process.charges] at hcharges
    omega
  · rw [hclock, ← sum_late config, ← Finset.sum_add_distrib, sum_late]
    refine le_trans (Finset.sum_le_sum fun k _ => ?_) (sum_charges_le h htable (n + 1) hall)
    have hwaited := hblock k
    rw [Process.charges]
    omega

theorem run_takes_alternating : ∃ s₀ fuel s, alternatingConfig.Starts s₀ ∧
    mainLoop predict alternatingConfig.procs fuel (predict.init, s₀) = some s ∧
    ∑ k, ((s.queue k).compute + pageWait.toNat) + 20 ≤ 20 * s.sysclock := by
  obtain ⟨s₀, hstart⟩ := alternatingConfig_starts
  obtain ⟨fuel, s, hloop⟩ := (live_terminates rfl predict_live hstart).1
  exact ⟨s₀, fuel, s, hstart, hloop,
    (run_takes alternatingConfig rfl predict s₀ s hstart fuel hloop).2.2⟩

end OperatingSystems.Simulator
