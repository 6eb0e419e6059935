import OperatingSystems.SimulatorResidence

/-!
What the ticks of a job are spent on. If the pager brings in the page that a job is on as soon as
it is out, and never gives a page of the job up, then each page costs the job `PAGEWAIT` ticks the
first time it comes to it, and nothing later: a tick of the job is an instruction, or one of the
ticks for which a new page is on its way.
-/

namespace OperatingSystems.Simulator

open Loop Runs Frames CallTree

/-- The page of an address. -/
def pageOf (pc : Int) : Nat := (pc / pageSize).toNat

/-- The pages on which the job has executed an instruction. -/
def Process.pagesUsed (q : Process) : Finset Nat := (q.computed.map pageOf).toFinset

/-- These pages, and the page that the job is on once it is resident. -/
def Process.visited (q : Process) : Finset Nat :=
  if q.pages q.page = 0 then insert q.page q.pagesUsed else q.pagesUsed

/-- The ticks for which the page that the job is on has been on its way. -/
def Process.waited (q : Process) : Nat :=
  if 0 < q.pages q.page then (pageWait - q.pages q.page).toNat else 0

/-- The instructions of the job so far, and the ticks that its pages have been waited for. -/
def Process.spent (q : Process) : Nat :=
  q.compute + pageWait.toNat * q.visited.card + q.waited

/-- The job has every page that it has visited, and the page that it is on is there or on its
way; its other pages are out. -/
structure Process.Attended (q : Process) : Prop where
  lower : 0 ≤ q.pages q.page
  upper : q.pages q.page ≤ pageWait
  resident : ∀ j : Fin maxProcPages, j.val ∈ q.visited → q.pages j = 0
  out : ∀ j : Fin maxProcPages, j.val ∉ q.visited → j.val ≠ q.page → q.pages j = -pageWait - 1

/-- A tick after which the page that the job is on is on its way if it was out, and in which no
other page of the job is asked for or given up. -/
structure Process.AttendedTick (q q' : Process) : Prop where
  paged : ∃ pages, q' = { q.stepped with pages }
  cell : ∀ j : Fin maxProcPages, q'.pages j =
    if q.stepped.active = true ∧ j.val = q.stepped.page ∧
      ageCell pageWait (q.stepped.pages j) < -pageWait then pageWait
    else ageCell pageWait (q.stepped.pages j)

/-! ### Pages used -/

theorem page_eq_pageOf (q : Process) : q.page = pageOf q.pc := rfl

theorem visited_of_resident {q : Process} (hin : q.pages q.page = 0) :
    q.visited = insert q.page q.pagesUsed := if_pos hin

theorem visited_of_absent {q : Process} (hout : q.pages q.page ≠ 0) :
    q.visited = q.pagesUsed := if_neg hout

theorem pagesUsed_subset (q : Process) : q.pagesUsed ⊆ q.visited := by
  unfold Process.visited
  split_ifs
  · exact Finset.subset_insert _ _
  · exact Finset.Subset.refl _

/-- An instruction uses the page that it is on. -/
theorem pagesUsed_append {q q' : Process} (h : q'.computed = q.computed ++ [q.pc]) :
    q'.pagesUsed = insert q.page q.pagesUsed := by
  ext j
  simp only [Process.pagesUsed, h, List.map_append, List.toFinset_append, Finset.mem_union,
    List.mem_toFinset, List.map_cons, List.map_nil, List.mem_singleton, Finset.mem_insert,
    page_eq_pageOf]
  exact or_comm

/-- A job that has not computed, and has no page on its way, has spent nothing. -/
theorem spent_eq_zero {q : Process} (hcompute : q.compute = 0) (hcomputed : q.computed = [])
    (hout : q.pages q.page < 0) : q.spent = 0 := by
  rw [Process.spent, hcompute, visited_of_absent (by omega), Process.pagesUsed, hcomputed,
    Process.waited, if_neg (by omega)]
  rfl

/-! ### One tick -/

section Tick

variable {q q' : Process} (hactive : q.active = true) (hpage : q.page < maxProcPages)

include hpage in
/-- The cell of the page that a job is on. -/
theorem Process.AttendedTick.cell_page (h : q.AttendedTick q') (hstepped : q.stepped.page = q.page) :
    q'.pages q'.page =
      if q.stepped.active = true ∧ ageCell pageWait (q.stepped.pages q.page) < -pageWait then
        pageWait
      else ageCell pageWait (q.stepped.pages q.page) := by
  obtain ⟨pages, hq'⟩ := h.paged
  have hpage' : q'.page = q.page := by
    rw [hq', ← hstepped]
    rfl
  have hcell := h.cell ⟨q.page, hpage⟩
  rw [hpage', hcell, hstepped]
  simp only [true_and]

include hactive hpage

/-- While the page is on its way, the tick is one of waiting. -/
theorem Process.AttendedTick.waiting (h : q.AttendedTick q') (hatt : q.Attended)
    (hout : q.pages q.page ≠ 0) : q'.spent = q.spent + 1 ∧ q'.Attended := by
  have hwait := pageWait_pos
  have hlower := hatt.lower
  have hupper := hatt.upper
  have hstepped := stepped_blocked hactive hout
  have hcell := h.cell_page hpage (by rw [hstepped]; rfl)
  obtain ⟨pages, hq'⟩ := h.paged
  rw [hstepped] at hcell hq'
  have hpage' : q'.page = q.page := by rw [hq']; rfl
  have hused : q'.pagesUsed = q.pagesUsed := by rw [hq']; rfl
  have hcompute : q'.compute = q.compute := by rw [hq']; rfl
  have hnew : q.page ∉ q.visited := fun hmem => hout (hatt.resident ⟨_, hpage⟩ hmem)
  have hnow : q'.pages q'.page = q.pages q.page - 1 := by
    have hsame : q.chargeBlock.pages q.page = q.pages q.page := rfl
    rw [hcell, hsame, ageCell, if_neg (by omega), if_neg (by omega)]
  -- The other pages do not move.
  have hothers : ∀ j : Fin maxProcPages, j.val ≠ q.page →
      q'.pages j = ageCell pageWait (q.pages j) := by
    intro j hj
    rw [h.cell j, hstepped, if_neg fun hask => hj hask.2.1]
    rfl
  have hstays : ∀ j : Fin maxProcPages, j.val ∈ q.visited → q'.pages j = 0 := by
    intro j hj
    rw [hothers j fun heq => hnew (heq ▸ hj), hatt.resident j hj]
    rfl
  have hgone : ∀ j : Fin maxProcPages, j.val ∉ q.visited → j.val ≠ q.page →
      q'.pages j = -pageWait - 1 := by
    intro j hj hne
    rw [hothers j hne, hatt.out j hj hne, ageCell, if_pos (by omega)]
  have hvisited := visited_of_absent hout
  rw [Process.spent, Process.spent, hcompute, Process.waited, Process.waited, hnow]
  by_cases harrived : q.pages q.page = 1
  · have hvisited' : q'.visited = insert q.page q.visited := by
      rw [visited_of_resident (by omega), hpage', hused, hvisited]
    refine ⟨?_, by omega, by omega, ?_, ?_⟩
    · rw [hvisited', Finset.card_insert_of_notMem hnew, Nat.mul_succ, if_neg (by omega),
        if_pos (by omega)]
      omega
    · intro j hj
      rw [hvisited', Finset.mem_insert] at hj
      rcases hj with heq | hmem
      · rw [heq, ← hpage', hnow]
        omega
      · exact hstays j hmem
    · intro j hj hne
      rw [hvisited', Finset.mem_insert, not_or] at hj
      exact hgone j hj.2 hj.1
  · have hvisited' : q'.visited = q.visited := by
      rw [visited_of_absent (by omega), hused, hvisited]
    refine ⟨?_, by omega, by omega, ?_, ?_⟩
    · rw [hvisited', if_pos (by omega), if_pos (by omega)]
      omega
    · rw [hvisited']
      exact hstays
    · rw [hvisited', hpage']
      exact hgone

omit hpage in
/-- On a page that is there, the tick is an instruction; if it leads to a page that is out, this
one is on its way after the tick. -/
theorem Process.AttendedTick.computing (h : q.AttendedTick q') (hatt : q.Attended)
    (hin : q.pages q.page = 0) {c : Control} (hnext : q.toControl.next = some c)
    (hpage' : q'.page < maxProcPages) : q'.spent = q.spent + 1 ∧ q'.Attended := by
  have hwait := pageWait_pos
  have hstepped := stepped_compute hactive hin hnext
  have hstill : q.stepped.active = true := by rw [hstepped]; exact hactive
  obtain ⟨pages, hq'⟩ := h.paged
  rw [hstepped] at hq'
  have hsame : q.stepped.page = q'.page := by rw [hstepped, hq']; rfl
  have hvisited := visited_of_resident hin
  have hused : q'.pagesUsed = q.visited := by
    rw [hvisited]
    apply pagesUsed_append
    rw [hq']
    rfl
  have hcompute : q'.compute = q.compute + 1 := by rw [hq']; rfl
  have hcell : ∀ j : Fin maxProcPages, q'.pages j =
      if j.val = q'.page ∧ ageCell pageWait (q.pages j) < -pageWait then pageWait
      else ageCell pageWait (q.pages j) := by
    intro j
    rw [h.cell j, hsame, stepped_pages hactive hstill]
    simp only [hstill, true_and]
  have hstays : ∀ j : Fin maxProcPages, j.val ∈ q.visited → q'.pages j = 0 := by
    intro j hj
    have hzero := hatt.resident j hj
    rw [hcell, hzero, if_neg (by rw [ageCell, if_pos (Or.inl rfl)]; omega)]
    rfl
  have hout : ∀ j : Fin maxProcPages, j.val ∉ q.visited →
      ageCell pageWait (q.pages j) = -pageWait - 1 := by
    intro j hj
    have hne : j.val ≠ q.page := by
      rintro heq
      rw [hvisited, heq] at hj
      exact hj (Finset.mem_insert_self _ _)
    rw [hatt.out j hj hne, ageCell, if_pos (by omega)]
  have hvisited' : q'.visited = q.visited ∧
      (q'.pages q'.page = 0 ∨ q'.pages q'.page = pageWait) := by
    by_cases hmem : q'.page ∈ q.visited
    · have hthere := hstays ⟨_, hpage'⟩ hmem
      exact ⟨by rw [visited_of_resident hthere, hused, Finset.insert_eq_of_mem hmem],
        Or.inl hthere⟩
    · have hasked : q'.pages q'.page = pageWait := by
        have haged := hout ⟨_, hpage'⟩ hmem
        have hnow := hcell ⟨_, hpage'⟩
        rw [haged, if_pos ⟨rfl, by omega⟩] at hnow
        exact hnow
      exact ⟨by rw [visited_of_absent (by omega), hused], Or.inr hasked⟩
  obtain ⟨hvisited', hpage₀⟩ := hvisited'
  refine ⟨?_, by omega, by omega, ?_, ?_⟩
  · rw [Process.spent, Process.spent, hcompute, hvisited', Process.waited, Process.waited, hin,
      if_neg (lt_irrefl 0)]
    split_ifs <;> omega
  · rw [hvisited']
    exact hstays
  · intro j hj hne
    rw [hvisited'] at hj
    rw [hcell, hout j hj, if_neg fun hask => hne hask.1]

/-- The last instruction is a tick as well, and leaves the job without pages. -/
theorem Process.AttendedTick.exiting (h : q.AttendedTick q')
    (hnpages : q.npages = maxProcPages) (hin : q.pages q.page = 0)
    (hnext : q.toControl.next = none) :
    q'.spent = q.spent + 1 ∧ q'.visited = q'.pagesUsed ∧ q'.waited = 0 := by
  have hwait := pageWait_pos
  have hstepped := stepped_exit hactive hin hnext
  have hcell := h.cell_page hpage (by rw [hstepped]; rfl)
  obtain ⟨pages, hq'⟩ := h.paged
  rw [hstepped] at hcell hq'
  have hgone : q'.pages q'.page = -pageWait - 1 := by
    have hunloaded : q.chargeCompute.unload.pages q.page = -pageWait - 1 := by
      have hpages : q.chargeCompute.unload.pages q.page =
          if q.page < q.npages ∧ q.pages q.page ≥ -pageWait then -pageWait - 1
          else q.pages q.page := rfl
      rw [hpages, if_pos ⟨hnpages ▸ hpage, by omega⟩]
    have hinactive : q.chargeCompute.unload.active = false := rfl
    rw [hcell, hunloaded, hinactive, if_neg (by simp), ageCell, if_pos (by omega)]
  have hused : q'.pagesUsed = q.visited := by
    rw [visited_of_resident hin]
    apply pagesUsed_append
    rw [hq']
    rfl
  have hvisited' := visited_of_absent (q := q') (by omega)
  have hwaited' : q'.waited = 0 := if_neg (by omega)
  refine ⟨?_, hvisited', hwaited'⟩
  rw [Process.spent, Process.spent, hvisited', hwaited', hused, Process.waited, hin,
    if_neg (lt_irrefl 0), hq']
  show q.compute + 1 + _ + 0 = _
  omega

/-- Every tick of an attended job is spent, and it stays attended until its last. -/
theorem Process.AttendedTick.spends (h : q.AttendedTick q') (hatt : q.Attended)
    (hnpages : q.npages = maxProcPages) (hpage' : q'.page < maxProcPages) :
    q'.spent = q.spent + 1 ∧ (q'.active = true → q'.Attended) := by
  by_cases hin : q.pages q.page = 0
  · cases hnext : q.toControl.next with
    | none =>
        refine ⟨(h.exiting hactive hpage hnpages hin hnext).1, fun hstill => ?_⟩
        obtain ⟨pages, hq'⟩ := h.paged
        rw [hq', stepped_exit hactive hin hnext] at hstill
        cases hstill
    | some c =>
        obtain ⟨hspent, hatt'⟩ := h.computing hactive hatt hin hnext hpage'
        exact ⟨hspent, fun _ => hatt'⟩
  · obtain ⟨hspent, hatt'⟩ := h.waiting hactive hpage hatt hin
    exact ⟨hspent, fun _ => hatt'⟩

end Tick

/-- A job that has just been loaded is attended from the moment its first page is asked for. -/
theorem attended_of_asked {q : Process} (hcompute : q.compute = 0) (hcomputed : q.computed = [])
    (hcell : ∀ j : Fin maxProcPages, q.pages j =
      if j.val = q.page then pageWait else -pageWait - 1)
    (hpage : q.page < maxProcPages) : q.spent = 0 ∧ q.Attended := by
  have hwait := pageWait_pos
  have hasked : q.pages q.page = pageWait := by
    have hnow := hcell ⟨_, hpage⟩
    rwa [if_pos rfl] at hnow
  have hused : q.pagesUsed = ∅ := by
    rw [Process.pagesUsed, hcomputed]
    rfl
  have hvisited : q.visited = ∅ := by
    rw [visited_of_absent (by omega), hused]
  refine ⟨?_, by omega, by omega, ?_, ?_⟩
  · rw [Process.spent, hcompute, hvisited, Process.waited, hasked, if_pos hwait]
    simp
  · intro j hj
    rw [hvisited] at hj
    cases hj
  · intro j _ hne
    rw [hcell, if_neg hne]

/-! ### The run -/

/-- In iteration `n` the pager brings in the page that the job is on, if it is loaded and the page
is out, and moves no other page of the job. -/
def Config.Attends (config : Config) (pager : Pager) (s₀ : State) (n : Nat)
    (k : Fin queueSize) : Prop :=
  ∀ slot, (config.shown pager s₀ n).processes slot = some k → ∀ j : Fin maxProcPages,
    (config.run pager s₀ (n + 1)).2.pool.cell (k, j) =
      if j.val = ((config.shown pager s₀ n).queue k).page ∧
        (config.shown pager s₀ n).pool.cell (k, j) < -pageWait then pageWait
      else (config.shown pager s₀ n).pool.cell (k, j)

section Run

variable {config : Config} {pager : Pager} {s₀ : State} {n : Nat} {k : Fin queueSize}

theorem shown_paged (config : Config) (pager : Pager) (s₀ : State) (n : Nat) :
    Paged (allstep config.procs (config.run pager s₀ n).2) (config.shown pager s₀ n) :=
  paged_allage config.procs _

theorem run_succ_paged (config : Config) (pager : Pager) (s₀ : State) (n : Nat) :
    Paged (config.shown pager s₀ n) (config.run pager s₀ (n + 1)).2 :=
  (run_succ_requested pager n).1

/-- After the call only the clock is left to move. -/
theorem run_succ_called (config : Config) (pager : Pager) (s₀ : State) (n : Nat) (c : Cell) :
    (config.run pager s₀ (n + 1)).2.pool.cell c = (callyou pager config.procs
      ((config.run pager s₀ n).1, config.shown pager s₀ n)).2.pool.cell c := by
  have hqueue : (config.run pager s₀ (n + 1)).2.queue = (callyou pager config.procs
      ((config.run pager s₀ n).1, config.shown pager s₀ n)).2.queue := by
    rw [run_succ_callyou]
  exact congrArg (fun queue => (queue c.1).pages c.2) hqueue

/-- A job that has been taken from the queue is in a slot exactly if it is active. -/
theorem loaded_iff_active {jobs : Fin queueSize → Process} {s : State}
    (hsched : Scheduled config.procs jobs s) (hk : k.val < s.queueend) :
    (∃ slot, s.processes slot = some k) ↔ (s.queue k).active = true := by
  rcases hsched.job_cases k with ⟨hwait, -⟩ | ⟨slot, hslot, hrun⟩ | ⟨-, hidle, hended⟩
  · omega
  · exact iff_of_true ⟨slot, hslot⟩ hrun.active
  · refine iff_of_false (not_exists.mpr hidle) ?_
    rw [hended.active]
    simp

theorem attendedTick_of_attends (h : config.Starts s₀) {slot : Nat}
    (hslot : (config.run pager s₀ n).2.processes slot = some k)
    (hatt : config.Attends pager s₀ n k) :
    ((config.run pager s₀ n).2.queue k).AttendedTick
      ((config.run pager s₀ (n + 1)).2.queue k) := by
  obtain ⟨fuel, jobs, -, hsched⟩ := run_scheduled pager h
  obtain ⟨fuel', jobs', -, hshown⟩ := (shown_reaches pager h n).scheduled
  have hstepped := allstep_queue_of_loaded (hsched n).toPlaced hslot
  have hpaged := shown_paged config pager s₀ n
  have hboth := hpaged.trans (run_succ_paged config pager s₀ n)
  have hlater : (config.run pager s₀ n).2.queueend ≤ (config.run pager s₀ (n + 1)).2.queueend :=
    (run_later pager n 1).queueend_le
  have hk : k.val < (config.shown pager s₀ n).queueend := by
    have hlt := (hsched n).loaded_lt slot k hslot
    rw [← (run_succ_paged config pager s₀ n).queueend]
    omega
  have hactive : (∃ slot, (config.shown pager s₀ n).processes slot = some k) ↔
      ((config.run pager s₀ n).2.queue k).stepped.active = true := by
    rw [loaded_iff_active hshown hk, hpaged.active, hstepped]
  have hpage : ((config.shown pager s₀ n).queue k).page =
      ((config.run pager s₀ n).2.queue k).stepped.page := by
    rw [hpaged.still.page, hstepped]
  have hcell : ∀ j : Fin maxProcPages, (config.shown pager s₀ n).pool.cell (k, j) =
      ageCell pageWait (((config.run pager s₀ n).2.queue k).stepped.pages j) := by
    intro j
    rw [← hstepped]
    exact (aged_allage (run_reaches pager h n).allstep).cell (k, j)
  refine ⟨?_, fun j => ?_⟩
  · obtain ⟨pages, hq⟩ := hboth.queue k
    exact ⟨pages, by rw [hq, hstepped]⟩
  · by_cases hgoes : ((config.run pager s₀ n).2.queue k).stepped.active = true
    · obtain ⟨slot', hslot'⟩ := hactive.mpr hgoes
      have hnow := hatt slot' hslot' j
      rw [hpage, hcell] at hnow
      simp only [hgoes, true_and]
      exact hnow
    · have hidle := not_exists.mp fun hloaded => hgoes (hactive.mp hloaded)
      rw [if_neg fun hask => hgoes hask.1, ← hcell, (run_succ_paged config pager s₀ n).idle k hidle]
      rfl

/-- A job that has not executed anything and has no page. -/
structure Process.Blank (q : Process) : Prop where
  active : q.active = true
  compute : q.compute = 0
  computed : q.computed = []
  out : ∀ j : Fin maxProcPages, q.pages j = -pageWait - 1

theorem Process.Fresh.blank {p : Program} {kind : Fin programCount} {q : Process}
    (h : q.Fresh p kind) : q.Blank :=
  ⟨h.active, h.compute, h.computed, fun j => h.pages j⟩

/-- The step of the slots leaves a blank job where it is, whether it is loaded or not. -/
theorem Process.Blank.allstep (h : config.Starts s₀) (htable : config.table = programs)
    (hblank : ((config.run pager s₀ n).2.queue k).Blank) :
    ((allstep config.procs (config.run pager s₀ n).2).queue k).Blank := by
  have hwait := pageWait_pos
  obtain ⟨fuel, jobs, -, hsched⟩ := run_scheduled pager h
  by_cases hloaded : ∃ slot, (config.run pager s₀ n).2.processes slot = some k
  · obtain ⟨slot, hslot⟩ := hloaded
    have hout : ((config.run pager s₀ n).2.queue k).pages
        ((config.run pager s₀ n).2.queue k).page = -pageWait - 1 :=
      hblank.out ⟨_, (run_reaches pager h n).page_lt htable k⟩
    rw [allstep_queue_of_loaded (hsched n).toPlaced hslot,
      stepped_blocked hblank.active (by omega)]
    exact ⟨hblank.active, hblank.compute, hblank.computed, hblank.out⟩
  · rw [allstep_queue_of_idle (hsched n).toPlaced (not_exists.mp hloaded)]
    exact hblank

/-- What the pager is shown of a blank job. -/
theorem Process.Blank.shown (h : config.Starts s₀) (htable : config.table = programs)
    (hblank : ((config.run pager s₀ n).2.queue k).Blank) :
    ((config.shown pager s₀ n).queue k).Blank := by
  have hwait := pageWait_pos
  have hstep := hblank.allstep h htable
  have hpaged := shown_paged config pager s₀ n
  refine ⟨(hpaged.active k).trans hstep.active, (hpaged.compute k).trans hstep.compute,
    (hpaged.same (·.computed) (fun _ _ => rfl) k).trans hstep.computed, fun j => ?_⟩
  have hcell := (aged_allage (run_reaches pager h n).allstep).cell (k, j)
  have hout : (Simulator.allstep config.procs (config.run pager s₀ n).2).pool.cell (k, j) =
      -pageWait - 1 := hstep.out j
  rw [hout, ageCell, if_pos (by omega)] at hcell
  exact hcell

/-- A blank job that is loaded is attended after the pager has been called. -/
theorem attended_of_blank (h : config.Starts s₀) (htable : config.table = programs)
    (hblank : ((config.run pager s₀ n).2.queue k).Blank) (hatt : config.Attends pager s₀ n k)
    (hk : k.val < (config.run pager s₀ (n + 1)).2.queueend) :
    ((config.run pager s₀ (n + 1)).2.queue k).compute = 0 ∧
      ((config.run pager s₀ (n + 1)).2.queue k).spent = 0 ∧
      ((config.run pager s₀ (n + 1)).2.queue k).Attended := by
  have hwait := pageWait_pos
  have hshown := hblank.shown h htable
  have hpaged := run_succ_paged config pager s₀ n
  have hreach := run_reaches pager h (n + 1)
  obtain ⟨fuel, jobs, -, hsched⟩ := hreach.scheduled
  have hcompute := (hpaged.compute k).trans hshown.compute
  obtain ⟨slot, hslot⟩ := (loaded_iff_active hsched hk).mpr
    ((hpaged.active k).trans hshown.active)
  refine ⟨hcompute, attended_of_asked hcompute
    ((hpaged.same (·.computed) (fun _ _ => rfl) k).trans hshown.computed) (fun j => ?_)
    (hreach.page_lt htable k)⟩
  have hcell := hatt slot (hpaged.processes ▸ hslot) j
  have hout : (config.shown pager s₀ n).pool.cell (k, j) = -pageWait - 1 := hshown.out j
  rw [hout, ← hpaged.still.page k] at hcell
  refine hcell.trans ?_
  congr 1
  simp only [eq_iff_iff, and_iff_left_iff_imp]
  omega

/-! ### The charges of a job -/

/-- The tick for which a job of the start is blocked before the pager is called at all. -/
def Config.late (config : Config) (k : Fin queueSize) : Nat := if k.val < config.procs then 1 else 0

/-- The ticks charged to the job are the ticks spent on it. -/
def Config.Paid (config : Config) (s : State) (k : Fin queueSize) : Prop :=
  (s.queue k).charges = (s.queue k).spent + config.late k ∧
    ((s.queue k).active = true → (s.queue k).Attended)

theorem begun_run (pager : Pager) (h : config.Starts s₀) (n : Nat) :
    config.procs ≤ (config.run pager s₀ n).2.queueend := by
  have hlater : Later s₀ (config.run pager s₀ (0 + n)).2 := run_later pager 0 n
  rw [Nat.zero_add] at hlater
  exact (start_slots h).1 ▸ hlater.queueend_le

/-- A job that is in no slot does not change. -/
theorem queue_succ_of_idle (h : config.Starts s₀)
    (hidle : ∀ slot, (config.run pager s₀ n).2.processes slot ≠ some k)
    (hk : k.val < (config.run pager s₀ n).2.queueend) :
    (config.run pager s₀ (n + 1)).2.queue k = (config.run pager s₀ n).2.queue k := by
  obtain ⟨fuel, jobs, -, hsched⟩ := run_scheduled pager h
  have hpaged := (shown_paged config pager s₀ n).trans (run_succ_paged config pager s₀ n)
  rw [hpaged.idle k, allstep_queue_of_idle (hsched n).toPlaced hidle]
  intro slot hslot
  have hloaded : (config.run pager s₀ (n + 1)).2.processes slot = some k :=
    hpaged.processes ▸ hslot
  rcases (run_later pager n 1).loaded slot k hloaded with hbefore | hqueued
  · exact hidle slot hbefore
  · omega

variable (h : config.Starts s₀) (htable : config.table = programs)
  (hatt : config.Attends pager s₀ n k)

include h htable hatt

theorem paid_of_waiting (hwait : (config.run pager s₀ n).2.queueend ≤ k.val)
    (hk : k.val < (config.run pager s₀ (n + 1)).2.queueend) :
    config.Paid (config.run pager s₀ (n + 1)).2 k := by
  obtain ⟨fuel, jobs, hjobs, hsched⟩ := run_scheduled pager h
  have hqueue := (hsched n).waiting k hwait
  have hblank : ((config.run pager s₀ n).2.queue k).Blank := by
    rw [hqueue]
    exact (initqueue_fresh hjobs k).blank
  obtain ⟨hcompute, hspent, hattended⟩ := attended_of_blank h htable hblank hatt hk
  have hidle : ∀ slot, (config.run pager s₀ n).2.processes slot ≠ some k := fun slot hslot =>
    absurd ((hsched n).loaded_lt slot k hslot) (not_lt.mpr hwait)
  have hblock : ((config.run pager s₀ (n + 1)).2.queue k).block = 0 := by
    rw [run_succ, (tick_charges_idle pager (hsched n).toPlaced hidle).1, hqueue,
      (initqueue_start hjobs k).1]
  have hbegun := begun_run pager h n
  refine ⟨?_, fun _ => hattended⟩
  rw [Process.charges, hblock, hcompute, hspent, Config.late, if_neg (by omega)]

omit hatt in
theorem paid_of_start (hatt : config.Attends pager s₀ 0 k) {slot : Nat}
    (hslot : s₀.processes slot = some k) : config.Paid (config.run pager s₀ 1).2 k := by
  obtain ⟨fuel, jobs, hjobs, hsched⟩ := run_scheduled pager h
  obtain ⟨fuel', jobs', hjobs', hqueue, -⟩ := start_boot h
  have hblank : ((config.run pager s₀ 0).2.queue k).Blank := by
    show (s₀.queue k).Blank
    rw [hqueue]
    exact (initqueue_fresh hjobs' k).blank
  have hloaded : (config.run pager s₀ 0).2.processes slot = some k := hslot
  have hk : k.val < (config.run pager s₀ 1).2.queueend :=
    ((hsched 0).loaded_lt slot k hslot).trans_le (run_later pager 0 1).queueend_le
  obtain ⟨hcompute, hspent, hattended⟩ := attended_of_blank h htable hblank hatt hk
  have hcharges := (tick_charges_loaded pager (hsched 0).toPlaced hloaded).charges
  rw [← run_succ] at hcharges
  have hnone : ((config.run pager s₀ 0).2.queue k).charges = 0 := by
    show (s₀.queue k).charges = 0
    rw [hqueue, Process.charges, (initqueue_start hjobs' k).1, (initqueue_fresh hjobs' k).compute]
  have hlt : k.val < config.procs :=
    (start_slots h).2 slot k hslot ▸ (hsched 0).slot_lt slot k hslot
  refine ⟨?_, fun _ => hattended⟩
  rw [hspent, Config.late, if_pos hlt]
  rw [hnone] at hcharges
  exact hcharges

theorem paid_succ (hpaid : config.Paid (config.run pager s₀ n).2 k)
    (hk : k.val < (config.run pager s₀ n).2.queueend) :
    config.Paid (config.run pager s₀ (n + 1)).2 k := by
  obtain ⟨fuel, jobs, hjobs, hsched⟩ := run_scheduled pager h
  obtain ⟨hcharges, hattended⟩ := hpaid
  by_cases hloaded : ∃ slot, (config.run pager s₀ n).2.processes slot = some k
  · obtain ⟨slot, hslot⟩ := hloaded
    have hactive := ((hsched n).running slot k hslot).active
    obtain ⟨hspent, hstays⟩ := (attendedTick_of_attends h hslot hatt).spends hactive
      ((run_reaches pager h n).page_lt htable k) (hattended hactive)
      ((run_reaches pager h n).npages k) ((run_reaches pager h (n + 1)).page_lt htable k)
    have hcharged := (tick_charges_loaded pager (hsched n).toPlaced hslot).charges
    rw [← run_succ] at hcharged
    exact ⟨by omega, hstays⟩
  · rw [Config.Paid, queue_succ_of_idle h (not_exists.mp hloaded) hk]
    exact ⟨hcharges, hattended⟩

end Run

variable {config : Config} {pager : Pager} {s₀ : State}

/-- If every job is attended throughout, the charges of every job that has been loaded are what
was spent on it. -/
theorem paid_run (h : config.Starts s₀) (htable : config.table = programs)
    (hatt : ∀ n k, config.Attends pager s₀ n k) (n : Nat) {k : Fin queueSize}
    (hk : k.val < (config.run pager s₀ (n + 1)).2.queueend) :
    config.Paid (config.run pager s₀ (n + 1)).2 k := by
  obtain ⟨fuel, jobs, hjobs, hsched⟩ := run_scheduled pager h
  induction n with
  | zero =>
      by_cases hwait : (config.run pager s₀ 0).2.queueend ≤ k.val
      · exact paid_of_waiting h htable (hatt 0 k) hwait hk
      · obtain ⟨fuel', jobs', hjobs', hqueue, -⟩ := start_boot h
        have hactive : ((config.run pager s₀ 0).2.queue k).active = true := by
          show (s₀.queue k).active = true
          rw [hqueue, (initqueue_fresh hjobs' k).active]
        obtain ⟨slot, hslot⟩ := (loaded_iff_active (hsched 0) (not_le.mp hwait)).mpr hactive
        exact paid_of_start h htable (hatt 0 k) hslot
  | succ n ih =>
      by_cases hwait : (config.run pager s₀ (n + 1)).2.queueend ≤ k.val
      · exact paid_of_waiting h htable (hatt (n + 1) k) hwait hk
      · exact paid_succ h htable (hatt (n + 1) k) (ih (not_le.mp hwait)) (not_le.mp hwait)

/-- A job that is in no slot any more has spent its instructions and `PAGEWAIT` ticks for every
page that it has used. -/
theorem spent_of_idle {s : State} (hreach : config.Reaches s) (htable : config.table = programs)
    {k : Fin queueSize} (hidle : ∀ slot, s.processes slot ≠ some k) :
    (s.queue k).spent = (s.queue k).compute + pageWait.toNat * (s.queue k).pagesUsed.card := by
  have hwait := pageWait_pos
  have hout : (s.queue k).pages (s.queue k).page = -pageWait - 1 :=
    hreach.framed.idle k hidle ⟨_, hreach.page_lt htable k⟩
  rw [Process.spent, visited_of_absent (by omega), Process.waited, if_neg (by omega),
    Nat.add_zero]

/-- If every job is attended throughout, a job that has ended was blocked for `PAGEWAIT` ticks for
each page that it used, and for one more if it was there from the start. -/
theorem block_of_attends (h : config.Starts s₀) (htable : config.table = programs)
    (hatt : ∀ n k, config.Attends pager s₀ n k) {n : Nat} {k : Fin queueSize}
    (hk : k.val < (config.run pager s₀ (n + 1)).2.queueend)
    (hidle : ∀ slot, (config.run pager s₀ (n + 1)).2.processes slot ≠ some k) :
    ((config.run pager s₀ (n + 1)).2.queue k).block =
      pageWait.toNat * ((config.run pager s₀ (n + 1)).2.queue k).pagesUsed.card +
        config.late k := by
  have hpaid := (paid_run h htable hatt n hk).1
  rw [spent_of_idle (run_reaches pager h (n + 1)) htable hidle, Process.charges] at hpaid
  omega

/-! ### The end of the run -/

/-- The main loop ends in the first state in which all is done. -/
theorem mainLoop_first {procs fuel : Nat} {s : pager.State × State} {s' : State}
    (hloop : mainLoop pager procs fuel s = some s') :
    ∃ n, s' = ((tick pager procs)^[n] s).2 ∧ alldone procs s' = true ∧
      ∀ m, m < n → alldone procs ((tick pager procs)^[m] s).2 = false := by
  induction fuel generalizing s with
  | zero => simp [mainLoop] at hloop
  | succ fuel ih =>
      rw [mainLoop] at hloop
      split at hloop
      · rename_i hdone
        exact ⟨0, (Option.some.inj hloop).symm, Option.some.inj hloop ▸ hdone,
          fun m hm => absurd hm (Nat.not_lt_zero m)⟩
      · rename_i hnot
        obtain ⟨n, hn, hdone, hbefore⟩ := ih hloop
        refine ⟨n + 1, hn, hdone, fun m hm => ?_⟩
        cases m with
        | zero => simpa using hnot
        | succ m => exact hbefore m (Nat.lt_of_succ_lt_succ hm)

/-- It goes through at least one iteration, and when it ends every job has been taken from the
queue and is in no slot. -/
theorem mainLoop_run (h : config.Starts s₀) {fuel : Nat} {s : State}
    (hloop : mainLoop pager config.procs fuel (pager.init, s₀) = some s) :
    ∃ n, s = (config.run pager s₀ (n + 1)).2 ∧
      (∀ m, m ≤ n → alldone config.procs (config.run pager s₀ m).2 = false) ∧
      ∀ k : Fin queueSize, k.val < s.queueend ∧ ∀ slot, s.processes slot ≠ some k := by
  obtain ⟨n, rfl, hdone, hbefore⟩ := mainLoop_first hloop
  obtain ⟨fuel, jobs, -, hsched⟩ := run_scheduled pager h
  have hidle := fun k => (hsched n).idle_of_alldone config.procs_pos hdone k
  cases n with
  | zero =>
      obtain ⟨k, hk⟩ := Option.isSome_iff_exists.mp (start_loaded h config.procs_pos)
      exact absurd hk ((hidle k).2 0)
  | succ n => exact ⟨n, rfl, fun m hm => hbefore m (Nat.lt_succ_of_le hm), hidle⟩

/-! ### Requests that are granted -/

/-- A request for a page that is not on its way out, with a frame for it if it is out. -/
theorem pagein_granted {s : State} (hreach : config.Reaches s) {slot : Nat} {k : Fin queueSize}
    (hslot : s.processes slot = some k) (j : Fin maxProcPages)
    (hcell : s.pool.cell (k, j) < -pageWait ∨ 0 ≤ s.pool.cell (k, j))
    (havail : s.pool.cell (k, j) < -pageWait → s.pool.avail ≠ 0) :
    ((PageCall.pagein slot j).answer config.procs s).1 = true ∧
      ∀ c, ((PageCall.pagein slot j).answer config.procs s).2.pool.cell c =
        if c = (k, j) ∧ s.pool.cell c < -pageWait then pageWait else s.pool.cell c := by
  have hwait := pageWait_pos
  obtain ⟨fuel, jobs, -, hsched⟩ := hreach.scheduled
  have htarget : s.target config.procs slot j = some (k, j.val) := by
    apply target_eq hslot (hsched.slot_lt slot k hslot) (hsched.running slot k hslot).active
    rw [hreach.npages]
    exact j.isLt
  obtain ⟨hanswer, hpool⟩ := answer_perform (r := .pagein slot j) (c := (k, j)) htarget
  have hanswer : ((PageCall.pagein slot j).answer config.procs s).1 =
      (take pageWait (k, j) s.pool).1 := hanswer
  have hcells : ∀ c, ((PageCall.pagein slot j).answer config.procs s).2.pool.cell c =
      (take pageWait (k, j) s.pool).2.cell c := fun c => by rw [hpool]; rfl
  simp only [hanswer, hcells]
  by_cases hout : s.pool.cell (k, j) < -pageWait
  · rw [take, if_neg (by omega), if_neg (havail hout), if_neg (by omega)]
    refine ⟨rfl, fun c => ?_⟩
    simp only [Function.update_apply]
    by_cases hc : c = (k, j)
    · rw [if_pos hc, if_pos ⟨hc, hc ▸ hout⟩]
    · rw [if_neg hc, if_neg fun hask => hc hask.1]
  · rw [take, if_pos (by omega)]
    refine ⟨rfl, fun c => ?_⟩
    rw [if_neg]
    rintro ⟨rfl, hlt⟩
    exact hout hlt

end OperatingSystems.Simulator
