import OperatingSystems.PagerBasicSerial

/-!
The simulation ends under `pager-basic`. Other processes may starve for as long as they please: the
first one gets its pages, so it computes time and again until its job ends, and the slot goes on
with the next job, or the next slot becomes the first.
-/

namespace OperatingSystems.Simulator

open Loop Runs Frames CallTree

/-- The ticks that a job has still to wait for the page that it is on. -/
def Process.remaining (q : Process) : Nat :=
  if q.pages q.page < 0 then pageWait.toNat + 1 else (q.pages q.page).toNat

/-- A tick without computation brings a job closer to its page, if the page is asked for when it is
out and never given up. -/
theorem QuietTick.remaining_lt {s m s' : State} (h : QuietTick s m s') {k : Fin queueSize}
    (hpage : (s.queue k).page < maxProcPages) (hnot : (s.queue k).pages (s.queue k).page ≠ 0)
    (hbefore : (s.queue k).Undisturbed) (hafter : (s'.queue k).Undisturbed)
    (hasks : (m.queue k).pages (m.queue k).page < -pageWait →
      (s'.queue k).pages (m.queue k).page = pageWait) :
    (s'.queue k).remaining < (s.queue k).remaining := by
  have hwait := pageWait_pos
  have haged : (m.queue k).pages (s.queue k).page =
      ageCell pageWait ((s.queue k).pages (s.queue k).page) := h.aged.cell (k, ⟨_, hpage⟩)
  have hserved : Shifted pageWait ((m.queue k).pages (s.queue k).page)
      ((s'.queue k).pages (s.queue k).page) := h.served.cell (k, ⟨_, hpage⟩)
  have hbefore : (s.queue k).pages (s.queue k).page = -pageWait - 1 ∨
      0 ≤ (s.queue k).pages (s.queue k).page := hbefore ⟨_, hpage⟩
  have hafter : (s'.queue k).pages (s.queue k).page = -pageWait - 1 ∨
      0 ≤ (s'.queue k).pages (s.queue k).page := hafter ⟨_, hpage⟩
  rw [h.still_mid.page k] at hasks
  rw [Process.remaining, Process.remaining, (h.still_mid.trans h.still).page k]
  generalize (s.queue k).pages (s.queue k).page = v at *
  generalize (m.queue k).pages (s.queue k).page = w at *
  generalize (s'.queue k).pages (s.queue k).page = v' at *
  unfold Shifted at hserved
  unfold ageCell at haged
  split_ifs at haged <;> split_ifs <;> omega

variable {config : Config} (htable : config.table = programs) {s₀ : State}

include htable

/-- In an iteration in which no job computes, the first job comes closer to its page. -/
theorem basic_wait (h : config.Starts s₀) {n slot : Nat} {k : Fin queueSize}
    (hslot : (config.run basic s₀ n).2.processes slot = some k)
    (hfirst : ∀ other, other < slot → (config.run basic s₀ n).2.processes other = none)
    (hquiet : (config.run basic s₀ n).2.Quiet) :
    (config.run basic s₀ (n + 1)).2.processes = (config.run basic s₀ n).2.processes ∧
      ((config.run basic s₀ (n + 1)).2.queue k).remaining <
        ((config.run basic s₀ n).2.queue k).remaining := by
  have hreach := run_reaches basic h n
  have hshown := shown_reaches basic h n
  have htick : QuietTick (config.run basic s₀ n).2 (config.shown basic s₀ n)
      (config.run basic s₀ (n + 1)).2 := by
    rw [run_succ]
    exact quietTick (config.run basic s₀ n) hreach hquiet
  refine ⟨(htick.still_mid.trans htick.still).processes, ?_⟩
  apply htick.remaining_lt (hreach.page_lt htable k) (hquiet slot k hslot)
    ((run_serial htable h n).undisturbed k) ((run_serial htable h (n + 1)).undisturbed k)
  intro hout
  have hasks := (shown_serial htable h n).asks hshown (hshown.page_lt htable)
    (config.run basic s₀ n).1 ((congrFun htick.still_mid.processes slot).trans hslot)
    (fun other hother => (congrFun htick.still_mid.processes other).trans (hfirst other hother))
    hout
  have hqueue : (config.run basic s₀ (n + 1)).2.queue = (callyou basic config.procs
      ((config.run basic s₀ n).1, config.shown basic s₀ n)).2.queue := by
    rw [run_succ_callyou]
  rw [hqueue]
  exact hasks

/-- As long as a job is loaded, some job computes sooner or later. -/
theorem basic_progress (h : config.Starts s₀) {n slot : Nat} {k : Fin queueSize}
    (hslot : (config.run basic s₀ n).2.processes slot = some k)
    (hfirst : ∀ other, other < slot → (config.run basic s₀ n).2.processes other = none) :
    ∃ m, (config.run basic s₀ n).2.computeTotal < (config.run basic s₀ m).2.computeTotal := by
  induction hleft : ((config.run basic s₀ n).2.queue k).remaining using Nat.strong_induction_on
    generalizing n with
  | _ left ih =>
      by_cases hquiet : (config.run basic s₀ n).2.Quiet
      · obtain ⟨hprocesses, hlt⟩ := basic_wait htable h hslot hfirst hquiet
        rw [hleft] at hlt
        rw [← hprocesses] at hslot
        simp only [← hprocesses] at hfirst
        obtain ⟨m, hm⟩ := ih _ hlt hslot hfirst rfl
        refine ⟨m, lt_of_le_of_lt ?_ hm⟩
        rw [run_succ]
        exact tick_computeTotal_le basic config.procs _
      · refine ⟨n + 1, ?_⟩
        rw [run_succ]
        exact tick_computeTotal_lt basic _ (run_reaches basic h n) hquiet

theorem basic_ends (h : config.Starts s₀) :
    ∃ n, alldone config.procs (config.run basic s₀ n).2 = true := by
  have hreach : config.Reaches s₀ := ⟨s₀, h, .refl⟩
  apply ends_of_progress htable (s := (basic.init, s₀)) hreach
  intro n hnot
  have hloaded : ∃ slot k, (config.run basic s₀ n).2.processes slot = some k :=
    loaded_of_not_alldone hnot
  obtain ⟨slot, k, hslot, hfirst⟩ := first_loaded hloaded
  exact basic_progress htable h hslot hfirst

/-- Slot 0 receives every job beyond those of the start. -/
theorem basic_receives (h : config.Starts s₀) {k : Fin queueSize} (hk : config.procs ≤ k.val) :
    ∃ n, (config.run basic s₀ n).2.processes 0 = some k := by
  classical
  obtain ⟨fuel, jobs, hjobs, hsched⟩ := run_scheduled basic h
  have hgone : ∃ n, k.val < (config.run basic s₀ n).2.queueend := by
    obtain ⟨n, hdone⟩ := basic_ends htable h
    exact ⟨n, ((hsched n).idle_of_alldone config.procs_pos hdone k).1⟩
  have hlt := Nat.find_spec hgone
  obtain ⟨m, hm⟩ : ∃ m, Nat.find hgone = m + 1 := by
    apply Nat.exists_eq_succ_of_ne_zero
    intro hzero
    rw [hzero] at hlt
    have hstart : (config.run basic s₀ 0).2.queueend = config.procs := (start_slots h).1
    omega
  have hwaits : (config.run basic s₀ m).2.queueend ≤ k.val :=
    not_lt.mp (Nat.find_min hgone (by omega))
  rw [hm] at hlt
  refine ⟨m + 1, ?_⟩
  rcases (hsched (m + 1)).job_cases k with ⟨hwait, -⟩ | ⟨slot, hslot, -⟩ | ⟨-, -, hended⟩
  · exact absurd hlt (not_lt.mpr hwait)
  · rcases (run_serial htable h (m + 1)).received slot k hslot with ⟨heq, hlt'⟩ | ⟨rfl, -⟩
    · omega
    · exact hslot
  · -- A job cannot be loaded and end in one iteration.
    obtain ⟨ticks, -, -, hcompute, -⟩ := hended.ended
    have hidle : ∀ slot, (config.run basic s₀ m).2.processes slot ≠ some k := fun slot hslot =>
      absurd ((hsched m).loaded_lt slot k hslot) (not_lt.mpr hwaits)
    have hsame := (tick_charges_idle basic (hsched m).toPlaced hidle).2
    rw [← run_succ, hcompute, (hsched m).waiting k hwaits, (initqueue_fresh hjobs k).compute] at hsame
    omega

omit htable in
/-- **One job after the other.** In every state that a run with `pager-basic` goes through, each
active slot but the first has a job that has not computed and holds no page; every call of the
pager is a `pagein` that is granted; and the jobs beyond the first `procs` go to slot 0, and to no
other. -/
theorem basic_serial (config : Config) (htable : config.table = programs) (s₀ : State)
    (h : config.Starts s₀) :
    (∀ n s, config.Passes basic s₀ n s →
      (∀ first slot k k', first < slot →
        s.processes first = some k → (s.queue k).active = true →
        s.processes slot = some k' → (s.queue k').active = true →
          (s.queue k').pc = 0 ∧ (s.queue k').compute = 0 ∧
            ∀ page : Fin maxProcPages, (s.queue k').pages page < -pageWait) ∧
      ∀ slot (k : Fin queueSize), s.processes slot = some k → config.procs ≤ k.val → slot = 0) ∧
    (∀ n r s, (r, s) ∈ config.calls basic s₀ n →
      (∃ process page, r = .pagein process page) ∧ (r.answer config.procs s).1 = true) ∧
    ∀ k : Fin queueSize, config.procs ≤ k.val →
      ∃ n, (config.run basic s₀ n).2.processes 0 = some k := by
  refine ⟨fun n s hpass => ⟨?_, ?_⟩, fun n r s hcall => ?_, fun k => basic_receives htable h⟩
  · intro first slot k k' hlt hfirst _ hslot _
    obtain ⟨hpc, hcompute, hpages⟩ :=
      (passes_serial htable h hpass).untouched first slot k k' hlt hfirst hslot
    refine ⟨hpc, hcompute, fun page => ?_⟩
    rw [hpages page]
    omega
  · intro slot k hslot hk
    rcases (passes_serial htable h hpass).received slot k hslot with ⟨heq, hlt⟩ | ⟨hzero, -⟩
    · omega
    · exact hzero
  · obtain ⟨-, hgranted, -, hpagein⟩ := calls_serial htable h hcall
    exact ⟨hpagein, hgranted⟩

omit htable in
theorem basic_serial_alternating : ∃ s₀, alternatingConfig.Starts s₀ ∧
    (∀ n s, alternatingConfig.Passes basic s₀ n s →
      (∀ first slot k k', first < slot →
        s.processes first = some k → (s.queue k).active = true →
        s.processes slot = some k' → (s.queue k').active = true →
          (s.queue k').pc = 0 ∧ (s.queue k').compute = 0 ∧
            ∀ page : Fin maxProcPages, (s.queue k').pages page < -pageWait) ∧
      ∀ slot (k : Fin queueSize), s.processes slot = some k → 20 ≤ k.val → slot = 0) ∧
    (∀ n r s, (r, s) ∈ alternatingConfig.calls basic s₀ n →
      (∃ process page, r = .pagein process page) ∧
        (r.answer alternatingConfig.procs s).1 = true) ∧
    ∀ k : Fin queueSize, 20 ≤ k.val →
      ∃ n, (alternatingConfig.run basic s₀ n).2.processes 0 = some k := by
  obtain ⟨s₀, hstart⟩ := alternatingConfig_starts
  exact ⟨s₀, hstart, basic_serial alternatingConfig rfl s₀ hstart⟩

omit htable in
/-- **Termination under `pager-basic`.** Whatever the random stream and the number of processors,
the main loop ends, and then every job has finished. -/
theorem basic_terminates (config : Config) (htable : config.table = programs) (s₀ : State)
    (h : config.Starts s₀) :
    ∃ fuel s, mainLoop basic config.procs fuel (basic.init, s₀) = some s ∧
      ∀ k, (s.queue k).Finished := by
  obtain ⟨n, hdone⟩ := basic_ends htable h
  obtain ⟨fuel, s, hloop⟩ := mainLoop_ends hdone
  obtain ⟨m, rfl, hdone'⟩ := mainLoop_eq_some hloop
  exact ⟨fuel, _, hloop, (run_reaches basic h m).finished_of_alldone htable hdone'⟩

omit htable in
theorem basic_terminates_alternating : ∃ s₀, alternatingConfig.Starts s₀ ∧
    ∃ fuel s, mainLoop basic alternatingConfig.procs fuel (basic.init, s₀) = some s ∧
      ∀ k, (s.queue k).Finished := by
  obtain ⟨s₀, hstart⟩ := alternatingConfig_starts
  exact ⟨s₀, hstart, basic_terminates alternatingConfig rfl s₀ hstart⟩

end OperatingSystems.Simulator
