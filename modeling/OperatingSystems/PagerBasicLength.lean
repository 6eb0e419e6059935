import OperatingSystems.PagerBasicProgress
import OperatingSystems.SimulatorScore
import OperatingSystems.SimulatorSpent

/-!
How long a simulation with `pager-basic` takes. Only the first job makes progress, and every tick
of it is an instruction or a tick of waiting for a page that it comes to for the first time; so the
length of the run is fixed by what the jobs execute, and adding processors does not change it.
-/

namespace OperatingSystems.Simulator

open Loop Runs Frames CallTree

variable {config : Config} {s₀ : State}

/-- The loaded job of the first slot that holds one. -/
def State.First (s : State) (slot : Nat) (k : Fin queueSize) : Prop :=
  s.processes slot = some k ∧ ∀ other, other < slot → s.processes other = none

/-- A call asks for the page that the first job is on, if it is out, and moves nothing else. -/
theorem basic_cells {s : State} (h : s.Serial config.procs) (hreach : config.Reaches s)
    (hpage : ∀ k, (s.queue k).page < maxProcPages) (st : basic.State) {slot : Nat}
    {k : Fin queueSize} (hfirst : s.First slot k) (c : Cell) :
    (callyou basic config.procs (st, s)).2.pool.cell c =
      if c = (k, ⟨_, hpage k⟩) ∧ s.pool.cell c < -pageWait then pageWait else s.pool.cell c := by
  have hwait := pageWait_pos
  rcases h.call hreach hpage st with ⟨-, hcall, hin⟩ | ⟨slot', k', hk', hfirst', -, hcall⟩
  · rw [hcall, if_neg]
    rintro ⟨rfl, hlt⟩
    have hzero : s.pool.cell (k, ⟨_, hpage k⟩) = 0 := hin slot k hfirst.1 hfirst.2
    omega
  · obtain rfl := first_unique hk' hfirst' hfirst.1 hfirst.2
    obtain rfl : k' = k := Option.some.inj (hk'.symm.trans hfirst.1)
    have hcell : s.pool.cell (k', ⟨_, hpage k'⟩) = -pageWait - 1 ∨
        0 ≤ s.pool.cell (k', ⟨_, hpage k'⟩) := h.undisturbed k' ⟨_, hpage k'⟩
    rw [hcall]
    exact (pagein_granted hreach hk' ⟨_, hpage k'⟩ (by omega)
      fun _ => h.avail_ne hreach.framed).2 c

section Run

variable (h : config.Starts s₀) (htable : config.table = programs) {n : Nat} {k : Fin queueSize}

include h htable

/-- The cells after an iteration in which a job is loaded when the pager is called. -/
theorem basic_succ_cell {slot : Nat} {first : Fin queueSize}
    (hfirst : (config.shown basic s₀ n).First slot first) (c : Cell) :
    (config.run basic s₀ (n + 1)).2.pool.cell c =
      if c.1 = first ∧ c.2.val = ((config.shown basic s₀ n).queue first).page ∧
        (config.shown basic s₀ n).pool.cell c < -pageWait then pageWait
      else (config.shown basic s₀ n).pool.cell c := by
  have hreach := shown_reaches basic h n
  rw [run_succ_called, basic_cells (shown_serial htable h n) hreach (hreach.page_lt htable) _ hfirst]
  simp only [Prod.ext_iff, Fin.ext_iff, and_assoc]

/-- The first job is attended. -/
theorem basic_attends {slot : Nat} (hfirst : (config.shown basic s₀ n).First slot k) :
    config.Attends basic s₀ n k := by
  intro _ _ j
  rw [basic_succ_cell h htable hfirst]
  simp only [true_and]

omit htable in
/-- A job that has been touched by nothing yet is blank. -/
theorem blank_of_untouched {slot : Nat} (hslot : (config.run basic s₀ n).2.processes slot = some k)
    (huntouched : ((config.run basic s₀ n).2.queue k).Untouched) :
    ((config.run basic s₀ n).2.queue k).Blank := by
  obtain ⟨fuel, jobs, -, hsched⟩ := run_scheduled basic h
  have hrun := (hsched n).running slot k hslot
  refine ⟨hrun.active, huntouched.2.1, ?_, huntouched.2.2⟩
  rw [hrun.computed, huntouched.2.1]
  rfl

/-- A blank job has spent nothing after the next iteration, and is attended if it is the first. -/
theorem blank_succ (hblank : ((config.run basic s₀ n).2.queue k).Blank) :
    ((config.run basic s₀ (n + 1)).2.queue k).spent = 0 ∧
      ∀ slot, (config.run basic s₀ (n + 1)).2.First slot k →
        ((config.run basic s₀ (n + 1)).2.queue k).Attended := by
  have hwait := pageWait_pos
  obtain ⟨fuel, jobs, -, hsched⟩ := run_scheduled basic h
  have hpaged := run_succ_paged config basic s₀ n
  have hshown := hblank.shown h htable
  by_cases hfirst : ∃ slot, (config.shown basic s₀ n).First slot k
  · obtain ⟨slot, hfirst⟩ := hfirst
    have hk : k.val < (config.run basic s₀ (n + 1)).2.queueend :=
      (hsched (n + 1)).loaded_lt slot k (hpaged.processes ▸ hfirst.1)
    obtain ⟨-, hspent, hattended⟩ :=
      attended_of_blank h htable hblank (basic_attends h htable hfirst) hk
    exact ⟨hspent, fun _ _ => hattended⟩
  · refine ⟨?_, fun slot hslot => absurd ⟨slot, hpaged.processes ▸ hslot.1,
      hpaged.processes ▸ hslot.2⟩ hfirst⟩
    apply spent_eq_zero ((hpaged.compute k).trans hshown.compute)
      ((hpaged.same (·.computed) (fun _ _ => rfl) k).trans hshown.computed)
    have hcell : ∀ j : Fin maxProcPages, ((config.run basic s₀ (n + 1)).2.queue k).pages j =
        ((config.shown basic s₀ n).queue k).pages j := by
      intro j
      by_cases hloaded : ∃ slot k', (config.shown basic s₀ n).processes slot = some k'
      · obtain ⟨slot, first, hslot, hbefore⟩ := first_loaded hloaded
        refine (basic_succ_cell h htable ⟨hslot, hbefore⟩ (k, j)).trans (if_neg ?_)
        rintro ⟨heq, -⟩
        obtain rfl : k = first := heq
        exact hfirst ⟨slot, hslot, hbefore⟩
      · rw [hpaged.idle k fun slot hslot => hloaded ⟨slot, k, hslot⟩]
    have hout : ((config.run basic s₀ (n + 1)).2.queue k).pages
        ((config.run basic s₀ (n + 1)).2.queue k).page = -pageWait - 1 :=
      (hcell ⟨_, (run_reaches basic h (n + 1)).page_lt htable k⟩).trans (hshown.out _)
    omega

/-- An iteration in which a job is loaded spends one tick, on the first job, and the job that is
the first one afterwards is attended. -/
theorem spent_succ {slot : Nat} (hfirst : (config.run basic s₀ n).2.First slot k)
    (hattended : ((config.run basic s₀ n).2.queue k).Attended) :
    ∑ k', ((config.run basic s₀ (n + 1)).2.queue k').spent =
      ∑ k', ((config.run basic s₀ n).2.queue k').spent + 1 ∧
    ∀ slot' k', (config.run basic s₀ (n + 1)).2.First slot' k' →
      ((config.run basic s₀ (n + 1)).2.queue k').Attended := by
  have hwait := pageWait_pos
  have hreach := run_reaches basic h n
  obtain ⟨fuel, jobs, hjobs, hsched⟩ := run_scheduled basic h
  have hlater : Later (config.run basic s₀ n).2 (config.run basic s₀ (n + 1)).2 :=
    run_later basic n 1
  have hpaged := run_succ_paged config basic s₀ n
  have hslot := hfirst.1
  have hk := (hsched n).loaded_lt slot k hslot
  have hactive := ((hsched n).running slot k hslot).active
  have hbefore : ∀ other, other < slot → (config.shown basic s₀ n).processes other = none := by
    intro other hother
    rw [← hpaged.processes]
    have hlt := (hsched n).slot_lt slot k hslot
    exact hlater.empty (hsched n) (hother.trans hlt) (hfirst.2 other hother)
  -- If the job is still loaded when the pager is called, it is still the first one.
  have hattends : config.Attends basic s₀ n k := by
    intro slot' hslot'
    have hsame : slot' = slot := by
      apply run_one_slot basic h hslot (n := n + 1)
      rw [hpaged.processes]
      exact hslot'
    exact basic_attends h htable ⟨hsame ▸ hslot', hbefore⟩ slot' hslot'
  obtain ⟨hspent, hstays⟩ := (attendedTick_of_attends h hslot hattends).spends hactive
    (hreach.page_lt htable k) hattended (hreach.npages k)
    ((run_reaches basic h (n + 1)).page_lt htable k)
  -- The other jobs have ended, or are blank.
  have hblank : ∀ k', k' ≠ k → (k'.val < (config.run basic s₀ n).2.queueend ∧
      ∀ slot, (config.run basic s₀ n).2.processes slot ≠ some k') ∨
      ((config.run basic s₀ n).2.queue k').Blank := by
    intro k' hne
    rcases (hsched n).job_cases k' with ⟨-, hqueue⟩ | ⟨slot', hslot', -⟩ | ⟨hlt, hidle, -⟩
    · right
      rw [hqueue]
      exact (initqueue_fresh hjobs k').blank
    · right
      rcases Nat.lt_trichotomy slot' slot with hlt | rfl | hgt
      · rw [hfirst.2 slot' hlt] at hslot'
        cases hslot'
      · exact absurd (Option.some.inj (hslot'.symm.trans hslot)) hne
      · exact blank_of_untouched h hslot'
          ((run_serial htable h n).untouched slot slot' k k' hgt hslot hslot')
    · exact Or.inl ⟨hlt, hidle⟩
  refine ⟨?_, fun slot' k' hfirst' => ?_⟩
  · have hothers : ∀ k', k' ≠ k → ((config.run basic s₀ (n + 1)).2.queue k').spent =
        ((config.run basic s₀ n).2.queue k').spent := by
      intro k' hne
      rcases hblank k' hne with ⟨hlt, hidle⟩ | hblank'
      · rw [queue_succ_of_idle h hidle hlt]
      · rw [(blank_succ h htable hblank').1, spent_eq_zero hblank'.compute hblank'.computed]
        have hout := hblank'.out ⟨_, hreach.page_lt htable k'⟩
        have hout : ((config.run basic s₀ n).2.queue k').pages
            ((config.run basic s₀ n).2.queue k').page = -pageWait - 1 := hout
        omega
    rw [← Finset.add_sum_erase _ _ (Finset.mem_univ k),
      ← Finset.add_sum_erase (Finset.univ : Finset (Fin queueSize))
        (fun k' => ((config.run basic s₀ n).2.queue k').spent) (Finset.mem_univ k), hspent,
      Finset.sum_congr rfl fun k' hk' => hothers k' (Finset.ne_of_mem_erase hk')]
    omega
  · by_cases hsame : k' = k
    · subst hsame
      exact hstays ((hsched (n + 1)).running slot' k' hfirst'.1).active
    · rcases hblank k' hsame with ⟨hlt, hidle⟩ | hblank'
      · rcases hlater.loaded slot' k' hfirst'.1 with hheld | hqueued
        · exact absurd hheld (hidle slot')
        · omega
      · exact (blank_succ h htable hblank').2 slot' hfirst'

/-- As long as the main loop goes on, all but its first tick are spent. -/
theorem basic_spent (hnot : ∀ m, m ≤ n → alldone config.procs (config.run basic s₀ m).2 = false) :
    ∑ k, ((config.run basic s₀ (n + 1)).2.queue k).spent = n ∧
      ∀ slot k, (config.run basic s₀ (n + 1)).2.First slot k →
        ((config.run basic s₀ (n + 1)).2.queue k).Attended := by
  induction n with
  | zero =>
      obtain ⟨fuel, jobs, hjobs, hqueue, -⟩ := start_boot h
      have hblank : ∀ k, ((config.run basic s₀ 0).2.queue k).Blank := by
        intro k
        show (s₀.queue k).Blank
        rw [hqueue]
        exact (initqueue_fresh hjobs k).blank
      refine ⟨Finset.sum_eq_zero fun k _ => (blank_succ h htable (hblank k)).1, ?_⟩
      intro slot k hfirst
      exact (blank_succ h htable (hblank k)).2 slot hfirst
  | succ n ih =>
      obtain ⟨hsum, hattended⟩ := ih fun m hm => hnot m (Nat.le_succ_of_le hm)
      obtain ⟨slot, k, hslot, hbefore⟩ :=
        first_loaded (loaded_of_not_alldone (hnot (n + 1) le_rfl))
      obtain ⟨hspent, hattended'⟩ := spent_succ h htable ⟨hslot, hbefore⟩
        (hattended slot k ⟨hslot, hbefore⟩)
      exact ⟨by rw [hspent, hsum], hattended'⟩

/-- The number of iterations of the main loop. -/
theorem basic_sysclock {fuel : Nat} {s : State}
    (hloop : mainLoop basic config.procs fuel (basic.init, s₀) = some s) :
    s.sysclock =
      ∑ k, ((s.queue k).compute + pageWait.toNat * (s.queue k).pagesUsed.card) + 1 := by
  obtain ⟨n, rfl, hnot, hidle⟩ := mainLoop_run h hloop
  have hspent : ∀ k, ((config.run basic s₀ (n + 1)).2.queue k).compute +
      pageWait.toNat * ((config.run basic s₀ (n + 1)).2.queue k).pagesUsed.card =
        ((config.run basic s₀ (n + 1)).2.queue k).spent := fun k =>
    (spent_of_idle (run_reaches basic h (n + 1)) htable (hidle k).2).symm
  rw [run_sysclock basic h, Finset.sum_congr rfl fun k _ => hspent k,
    (basic_spent h htable hnot).1]

end Run

/-- What the jobs execute, and on which pages, is the same under all pagers. -/
theorem cost_unique {config config' : Config} {pager pager' : Pager} {s₀ s₀' s s' : State}
    {fuel fuel' : Nat} (htable : config.table = config'.table) (hrand : config'.rand = config.rand)
    (h : config.Starts s₀) (h' : config'.Starts s₀')
    (hloop : mainLoop pager config.procs fuel (pager.init, s₀) = some s)
    (hloop' : mainLoop pager' config'.procs fuel' (pager'.init, s₀') = some s')
    (k : Fin queueSize) :
    (s'.queue k).compute + pageWait.toNat * (s'.queue k).pagesUsed.card =
      (s.queue k).compute + pageWait.toNat * (s.queue k).pagesUsed.card := by
  obtain ⟨_, jobs, hjobs, hended⟩ := mainLoop_ended ⟨s₀, h, .refl⟩ hloop
  obtain ⟨_, jobs', hjobs', hended'⟩ := mainLoop_ended ⟨s₀', h', .refl⟩ hloop'
  rw [htable, ← hrand] at hjobs
  obtain rfl := initqueue_unique hjobs hjobs'
  obtain ⟨hcomputed, hcompute⟩ := (hended k).unique (hended' k)
  rw [Process.pagesUsed, Process.pagesUsed, hcomputed, hcompute]

/-- **The length of a run with `pager-basic`.** When the main loop ends, the clock shows one tick
more than all instructions executed and `PAGEWAIT` ticks for each page of each job on which it has
executed one; and for the same programs and random stream this is the same with any number of
processors. -/
theorem basic_length (config : Config) (htable : config.table = programs) (s₀ : State)
    (h : config.Starts s₀) (fuel : Nat) (s : State)
    (hloop : mainLoop basic config.procs fuel (basic.init, s₀) = some s) :
    s.sysclock =
      ∑ k, ((s.queue k).compute + pageWait.toNat * (s.queue k).pagesUsed.card) + 1 ∧
    ∀ (config' : Config) (s₀' : State) (fuel' : Nat) (s' : State), config'.table = programs →
      config'.rand = config.rand → config'.Starts s₀' →
      mainLoop basic config'.procs fuel' (basic.init, s₀') = some s' →
        s'.sysclock = s.sysclock := by
  refine ⟨basic_sysclock h htable hloop, ?_⟩
  intro config' s₀' fuel' s' htable' hrand hstart' hloop'
  rw [basic_sysclock h htable hloop, basic_sysclock hstart' htable' hloop', Finset.sum_congr rfl
    fun k _ => cost_unique (htable.trans htable'.symm) hrand h hstart' hloop hloop' k]

theorem basic_length_alternating : ∃ s₀ fuel s, alternatingConfig.Starts s₀ ∧
    mainLoop basic alternatingConfig.procs fuel (basic.init, s₀) = some s ∧
    s.sysclock =
      ∑ k, ((s.queue k).compute + pageWait.toNat * (s.queue k).pagesUsed.card) + 1 := by
  obtain ⟨s₀, hstart⟩ := alternatingConfig_starts
  obtain ⟨n, hdone⟩ := basic_ends rfl hstart
  obtain ⟨fuel, s, hloop⟩ := mainLoop_ends hdone
  exact ⟨s₀, fuel, s, hstart, hloop,
    (basic_length alternatingConfig rfl s₀ hstart fuel s hloop).1⟩

end OperatingSystems.Simulator
