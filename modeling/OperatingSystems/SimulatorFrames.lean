import OperatingSystems.SimulatorSchedule
import OperatingSystems.LibraryPool
import Mathlib.Algebra.BigOperators.Ring.Finset

/-!
The simulator's pages as a pool of frames. Every operation of the simulator is one of the pool's,
so that no frame is lost or made: in particular a page that is unloaded on its way out gives its
frame back then, and not once more when its time would have run out.
-/

namespace OperatingSystems.Simulator

open Loop Runs Frames

/-- A page of a job in the queue. -/
abbrev Cell := Fin queueSize × Fin maxProcPages

def State.pool (s : State) : Pool Cell where
  avail := s.pagesavail
  cell := fun c => (s.queue c.1).pages c.2

theorem pageWait_pos : 0 < pageWait := by decide

section Operations

variable (s : State) (k : Fin queueSize) (j : Fin maxProcPages)

/-! ### The operations -/

/-- A job changes in one page. -/
theorem pool_setJob {q : Process} {v : Int} (hpages : q.pages = Function.update (s.queue k).pages j v)
    (avail : Int) : ({ s with pagesavail := avail }.setJob k q).pool =
      { avail, cell := Function.update s.pool.cell (k, j) v } := by
  simp only [State.pool, Pool.mk.injEq]
  refine ⟨rfl, funext fun c => ?_⟩
  obtain ⟨k', j'⟩ := c
  by_cases hk : k' = k
  · subst hk
    by_cases hj : j' = j
    · subst hj
      simp [State.setJob, hpages]
    · have hval : j'.val ≠ j.val := fun heq => hj (Fin.ext heq)
      simp [State.setJob, hpages, hj, hval]
  · simp [State.setJob, hk]

/-- A job changes in none of its pages. -/
theorem pool_setJob_of_pages {q : Process} (hpages : q.pages = (s.queue k).pages) :
    (s.setJob k q).pool = s.pool := by
  simp only [State.pool, Pool.mk.injEq]
  refine ⟨rfl, funext fun c => ?_⟩
  by_cases hk : c.1 = k
  · simp [State.setJob, hk, hpages]
  · simp [State.setJob, hk]

theorem pool_agePage : (s.agePage k j).pool = age pageWait s.pool (k, j) := by
  have hset : ∀ v avail, ({ s.setPage k j v with pagesavail := avail } : State).pool =
      { avail, cell := Function.update s.pool.cell (k, j) v } :=
    fun v avail => pool_setJob s k j rfl avail
  have hcell : s.pool.cell (k, j) = (s.queue k).pages j := rfl
  have hwait := pageWait_pos
  have hself : s.pool = ⟨s.pagesavail, Function.update s.pool.cell (k, j) (s.pool.cell (k, j))⟩ := by
    rw [Function.update_eq_self]
    rfl
  simp only [State.agePage, age, ageCell, hcell]
  split_ifs <;> try omega
  · exact hself
  · exact hself
  · exact hset _ _
  · exact hset _ _
  · exact hset _ _

theorem pool_unloadPage : (s.unloadPage k j).pool = free pageWait s.pool (k, j) := by
  have hcell : s.pool.cell (k, j) = (s.queue k).pages j := rfl
  simp only [State.unloadPage, free, hcell, ge_iff_le]
  split_ifs
  · exact pool_setJob s k j rfl _
  · rfl

end Operations

variable {procs : Nat} {s s' : State}

/-- What a request asks of the pool. -/
def PageCall.perform (r : PageCall) (c : Cell) : Pool Cell → Bool × Pool Cell :=
  match r with
  | .pagein _ _ => take pageWait c
  | .pageout _ _ => drop c

/-- A request for a page of a running job is answered by the pool. -/
theorem answer_perform {r : PageCall} {c : Cell}
    (htarget : s.target procs r.process r.page = some (c.1, c.2.val)) :
    (r.answer procs s).1 = (r.perform c s.pool).1 ∧
      (r.answer procs s).2.pool = (r.perform c s.pool).2 := by
  obtain ⟨k, j⟩ := c
  have hcell : s.pool.cell (k, j) = (s.queue k).pages j := rfl
  have havail : s.pool.avail = s.pagesavail := rfl
  cases r with
  | pagein process page =>
      have htarget : s.target procs process page = some (k, j.val) := htarget
      simp only [PageCall.answer, PageCall.perform, pagein, htarget, take, hcell, havail, ge_iff_le]
      split_ifs
      · exact ⟨rfl, rfl⟩
      · exact ⟨rfl, rfl⟩
      · exact ⟨rfl, rfl⟩
      · exact ⟨rfl, pool_setJob s k j rfl _⟩
  | pageout process page =>
      have htarget : s.target procs process page = some (k, j.val) := htarget
      simp only [PageCall.answer, PageCall.perform, pageout, htarget, drop, hcell, gt_iff_lt]
      split_ifs
      · exact ⟨rfl, rfl⟩
      · exact ⟨rfl, rfl⟩
      · exact ⟨rfl, pool_setJob s k j rfl _⟩

theorem answer_of_target_none {r : PageCall} (htarget : s.target procs r.process r.page = none) :
    r.answer procs s = (false, s) := by
  cases r with
  | pagein process page =>
      have htarget : s.target procs process page = none := htarget
      simp only [PageCall.answer, pagein, htarget]
  | pageout process page =>
      have htarget : s.target procs process page = none := htarget
      simp only [PageCall.answer, pageout, htarget]

/-- The other requests are refused. -/
theorem answer_cases (procs : Nat) (hnpages : ∀ k, (s.queue k).npages = maxProcPages)
    (r : PageCall) : r.answer procs s = (false, s) ∨
      ∃ c : Cell, s.target procs r.process r.page = some (c.1, c.2.val) := by
  cases htarget : s.target procs r.process r.page with
  | none => exact Or.inl (answer_of_target_none htarget)
  | some c =>
      have hpage := (target_cases htarget).2.2.2.2.2
      rw [hnpages, ← hpage.2] at hpage
      exact Or.inr ⟨(c.1, ⟨c.2, hpage.1⟩), rfl⟩

theorem served_answer (procs : Nat) (hnpages : ∀ k, (s.queue k).npages = maxProcPages)
    (r : PageCall) : Served pageWait s.pool (r.answer procs s).2.pool := by
  rcases answer_cases procs hnpages r with hrefused | ⟨c, htarget⟩
  · rw [hrefused]
    exact .refl pageWait_pos _
  · rw [(answer_perform htarget).2]
    cases r with
    | pagein _ _ => exact served_take pageWait_pos _ _
    | pageout _ _ => exact served_drop pageWait_pos _ _

theorem balanced_answer {capacity : Int} (procs : Nat)
    (hnpages : ∀ k, (s.queue k).npages = maxProcPages)
    (h : Balanced pageWait capacity s.pool) (r : PageCall) :
    Balanced pageWait capacity (r.answer procs s).2.pool := by
  rcases answer_cases procs hnpages r with hrefused | ⟨c, htarget⟩
  · rw [hrefused]
    exact h
  · rw [(answer_perform htarget).2]
    cases r with
    | pagein _ _ => exact h.take pageWait_pos _
    | pageout _ _ => exact h.drop pageWait_pos _

/-! ### The pages of a job -/

/-- The pages of a job, in their order. -/
def jobCells (k : Fin queueSize) : List Cell := (List.finRange maxProcPages).map fun j => (k, j)

theorem mem_jobCells {k : Fin queueSize} {c : Cell} : c ∈ jobCells k ↔ c.1 = k := by
  constructor
  · intro h
    obtain ⟨j, -, rfl⟩ := List.mem_map.mp h
    rfl
  · rintro rfl
    exact List.mem_map.mpr ⟨c.2, List.mem_finRange _, rfl⟩

theorem jobCells_nodup (k : Fin queueSize) : (jobCells k).Nodup :=
  (List.nodup_finRange _).map fun _ _ heq => (Prod.mk.inj heq).2

/-- A loop over the pages of a job that works on the pool page by page. -/
theorem pool_loop {body : State → Nat → State} {work : Pool Cell → Cell → Pool Cell}
    (k : Fin queueSize)
    (hbody : ∀ s (j : Fin maxProcPages), (body s j).pool = work s.pool (k, j)) (s : State) :
    (loop body maxProcPages s).pool = (jobCells k).foldl work s.pool := by
  rw [loop_eq_foldl, jobCells, List.foldl_map]
  generalize List.finRange maxProcPages = pages
  induction pages generalizing s with
  | nil => rfl
  | cons j rest ih => rw [List.foldl_cons, List.foldl_cons, ih, hbody]

/-- The pages that ageing a slot ages. -/
def State.slotCells (s : State) (slot : Nat) : List Cell :=
  match s.processes slot with
  | none => []
  | some k => jobCells k

theorem slotCells_nodup (s : State) (slot : Nat) : (s.slotCells slot).Nodup := by
  unfold State.slotCells
  split
  · exact List.nodup_nil
  · exact jobCells_nodup _

theorem pool_ageSlot (slot : Nat) (hnpages : ∀ k, (s.queue k).npages = maxProcPages)
    (hactive : ∀ k, s.processes slot = some k → (s.queue k).active = true) :
    (s.ageSlot slot).pool = (s.slotCells slot).foldl (age pageWait) s.pool := by
  unfold State.ageSlot State.slotCells
  cases hslot : s.processes slot with
  | none => rfl
  | some k =>
      simp only [hactive k hslot, if_true, hnpages]
      exact pool_loop k (fun s j => pool_agePage s k j) s

theorem pool_processUnload {k : Fin queueSize} (hnpages : (s.queue k).npages = maxProcPages) :
    (s.processUnload k).pool = (jobCells k).foldl (free pageWait) s.pool := by
  have hloop := pool_loop k (fun s j => pool_unloadPage s k j) s
  unfold State.processUnload
  rw [hnpages, ← hloop]
  exact pool_setJob_of_pages _ k rfl

theorem pool_reload (s : State) (slot : Nat) : (s.reload slot).pool = s.pool := by
  unfold State.reload
  split_ifs <;> rfl

/-! ### The invariant -/

/-- The frames are conserved, and the jobs that are in no slot hold none. -/
structure Framed (s : State) : Prop where
  balanced : Balanced pageWait physicalPages s.pool
  avail_nonneg : 0 ≤ s.pool.avail
  idle : ∀ k, (∀ slot, s.processes slot ≠ some k) → ∀ j, s.pool.cell (k, j) = -pageWait - 1

theorem Framed.of_served (h : Framed s) (hpaged : Paged s s')
    (hserved : Served pageWait s.pool s'.pool)
    (hbalanced : Balanced pageWait physicalPages s'.pool) : Framed s' where
  balanced := hbalanced
  avail_nonneg := hserved.avail_nonneg h.avail_nonneg
  idle k hk j := by
    rw [hpaged.processes] at hk
    rw [← h.idle k hk j]
    simp only [State.pool, hpaged.idle k hk]

theorem Framed.ageSlot {jobs : Fin queueSize → Process} (h : Framed s)
    (hplaced : Placed procs jobs s) (hnpages : ∀ k, (s.queue k).npages = maxProcPages)
    (slot : Nat) : Framed (s.ageSlot slot) := by
  have hpaged := paged_ageSlot s slot
  have hpool := pool_ageSlot slot hnpages
    fun k hk => (hplaced.running slot k hk).active
  refine ⟨?_, ?_, ?_⟩
  · rw [hpool]
    exact h.balanced.foldl_age pageWait_pos _
  · rw [hpool]
    exact h.avail_nonneg.trans (foldl_age (slotCells_nodup s slot) s.pool).2.1
  · intro k hk j
    rw [hpaged.processes] at hk
    rw [← h.idle k hk j]
    simp only [State.pool, hpaged.idle k hk]

/-- Emptying a slot whose job holds no frame, and filling it again. -/
theorem Framed.reload {slot : Nat} (hbalanced : Balanced pageWait physicalPages s.pool)
    (havail : 0 ≤ s.pool.avail)
    (hidle : ∀ k, (∀ other, other ≠ slot → s.processes other ≠ some k) →
      ∀ j, s.pool.cell (k, j) = -pageWait - 1) : Framed (s.reload slot) where
  balanced := by rwa [pool_reload]
  avail_nonneg := by rwa [pool_reload]
  idle k hk j := by
    rw [pool_reload]
    refine hidle k (fun other hne hother => hk other ?_) j
    unfold State.reload
    split_ifs <;> simpa only [Function.update_of_ne hne] using hother

theorem Framed.reload_vacant {slot : Nat} (h : Framed s) (hnone : s.processes slot = none) :
    Framed (s.reload slot) := by
  refine .reload h.balanced h.avail_nonneg fun k hk => h.idle k fun other hother => ?_
  by_cases heq : other = slot
  · subst heq
    rw [hnone] at hother
    cases hother
  · exact hk other heq hother

theorem SlotMove.framed {jobs : Fin queueSize → Process} {slot : Nat} (h : SlotMove s slot s')
    (hframed : Framed s) (hplaced : Placed procs jobs s)
    (hnpages : ∀ k, (s.queue k).npages = maxProcPages) : Framed s' := by
  cases h with
  | vacant hnone => exact hframed.reload_vacant hnone
  | blocked k =>
      have hpool := pool_setJob_of_pages s k (q := (s.queue k).chargeBlock) rfl
      exact ⟨hpool ▸ hframed.balanced, hpool ▸ hframed.avail_nonneg, hpool ▸ hframed.idle⟩
  | compute k c =>
      have hpool := pool_setJob_of_pages s k
        (q := { (s.queue k).chargeCompute with toControl := c }) rfl
      exact ⟨hpool ▸ hframed.balanced, hpool ▸ hframed.avail_nonneg, hpool ▸ hframed.idle⟩
  | exit k hslot =>
      set s₁ := s.setJob k (s.queue k).chargeCompute with hs₁
      have hpool₁ : s₁.pool = s.pool := pool_setJob_of_pages s k rfl
      have hpool₂ := pool_processUnload (s := s₁) (k := k) (by
        rw [hs₁, setJob_self]
        exact hnpages k)
      rw [hpool₁] at hpool₂
      obtain ⟨hcell, havail⟩ := foldl_free (jobCells k) hframed.balanced.lower
      have hprocesses : (s₁.processUnload k).processes = s.processes := by
        obtain ⟨avail, pages, blocked, hunload⟩ := processUnload_eq s₁ k
        rw [hunload]
        rfl
      refine .reload ?_ ?_ ?_
      · rw [hpool₂]
        exact hframed.balanced.foldl_free pageWait_pos _
      · rw [hpool₂]
        exact hframed.avail_nonneg.trans havail
      · intro k' hk' j
        rw [hpool₂, hcell]
        split_ifs with hmem
        · rfl
        · refine hframed.idle k' (fun other hother => ?_) j
          by_cases heq : other = slot
          · subst heq
            rw [hslot, Option.some.injEq] at hother
            exact hmem (mem_jobCells.mpr hother.symm)
          · exact hk' other heq (hprocesses ▸ hother)
  | inactive k hslot hactive =>
      simp [(hplaced.running slot k hslot).active] at hactive

theorem boot_framed {jobs : Fin queueSize → Process}
    (hpages : ∀ k j, (jobs k).pages j = -pageWait - 1) : Framed (boot jobs) where
  balanced := by
    have hwait := pageWait_pos
    have hcell : ∀ c, (boot jobs).pool.cell c = -pageWait - 1 := fun c => hpages c.1 c.2
    refine ⟨?_, fun c => (hcell c).ge, fun c => ?_⟩
    · rw [Finset.sum_eq_zero fun c _ => by rw [hcell, held, if_neg (by omega)]]
      rfl
    · rw [hcell]
      omega
  avail_nonneg := show (0 : Int) ≤ physicalPages by decide
  idle k _ j := hpages k j

theorem Config.Reaches.framed {config : Config} (h : config.Reaches s) : Framed s := by
  obtain ⟨s₀, hstart, hreach⟩ := h
  refine hreach.invariant_of config.Reaches Framed (fun s hs => ⟨s₀, hstart, hs⟩) ?_ ?_
  · obtain ⟨fuel, hstart⟩ := hstart
    rw [allinit, Option.map_eq_some_iff] at hstart
    obtain ⟨jobs, hjobs, rfl⟩ := hstart
    have hloop : Framed (loop State.reload config.procs (boot jobs)) ∧
        (loop State.reload config.procs (boot jobs)).EmptyFrom config.procs := by
      refine loop_invariant (fun i s => Framed s ∧ s.EmptyFrom i) ?_ ?_
      · exact ⟨boot_framed fun k => (initqueue_fresh hjobs k).pages, fun _ _ => rfl⟩
      · rintro i s - ⟨hs, hempty⟩
        exact ⟨hs.reload_vacant (hempty i le_rfl), hempty.reload⟩
    exact hloop.1
  · intro s a s' hs hframed _ hphase
    obtain ⟨fuel, jobs, hjobs, hsched⟩ := hs.scheduled
    rcases phase_cases hphase with ⟨slot, -, hmove⟩ | ⟨slot, rfl⟩ | ⟨r, rfl⟩ | rfl
    · exact hmove.framed hframed hsched.toPlaced hs.npages
    · exact hframed.ageSlot hsched.toPlaced hs.npages slot
    · exact hframed.of_served (paged_answer config.procs r s)
        (served_answer config.procs hs.npages r)
        (balanced_answer config.procs hs.npages hframed.balanced r)
    · exact ⟨hframed.balanced, hframed.avail_nonneg, hframed.idle⟩

/-! ### Time -/

/-- The pages of the jobs in the first slots, in the order in which they age. -/
def State.loadedCells (s : State) (n : Nat) : List Cell := (List.range n).flatMap s.slotCells

section Time

variable {jobs : Fin queueSize → Process}

theorem mem_loadedCells (hplaced : Placed procs jobs s) {c : Cell} :
    c ∈ s.loadedCells procs ↔ ∃ slot, s.processes slot = some c.1 := by
  simp only [State.loadedCells, List.mem_flatMap, List.mem_range, State.slotCells]
  constructor
  · rintro ⟨slot, -, hc⟩
    split at hc
    · cases hc
    · rename_i k hk
      exact ⟨slot, by rw [hk, mem_jobCells.mp hc]⟩
  · rintro ⟨slot, hslot⟩
    refine ⟨slot, hplaced.slot_lt slot c.1 hslot, ?_⟩
    rw [hslot]
    exact mem_jobCells.mpr rfl

theorem loadedCells_nodup (hplaced : Placed procs jobs s) (n : Nat) :
    (s.loadedCells n).Nodup := by
  have hslot : ∀ {slot c}, c ∈ s.slotCells slot → s.processes slot = some c.1 := by
    intro slot c hc
    unfold State.slotCells at hc
    split at hc
    · cases hc
    · rename_i k hk
      rw [hk, mem_jobCells.mp hc]
  rw [State.loadedCells, List.nodup_flatMap]
  refine ⟨fun slot _ => slotCells_nodup s slot, List.nodup_range.imp fun hne c hc hc' => hne ?_⟩
  exact hplaced.one_slot _ _ c.1 (hslot hc) (hslot hc')

theorem pool_allage (hplaced : Placed procs jobs s)
    (hnpages : ∀ k, (s.queue k).npages = maxProcPages) :
    (allage procs s).pool = (s.loadedCells procs).foldl (age pageWait) s.pool := by
  have hloop : Paged s (allage procs s) ∧
      (allage procs s).pool = (s.loadedCells procs).foldl (age pageWait) s.pool := by
    refine loop_invariant
      (fun n s' => Paged s s' ∧ s'.pool = (s.loadedCells n).foldl (age pageWait) s.pool) ?_ ?_
    · exact ⟨.refl s, rfl⟩
    · rintro slot s' - ⟨hpaged, hs'⟩
      have hage : (s'.ageSlot slot).pool = (s'.slotCells slot).foldl (age pageWait) s'.pool := by
        refine pool_ageSlot slot (fun k => ?_) fun k hk => ?_
        · rw [hpaged.npages, hnpages]
        · rw [hpaged.active]
          exact (hplaced.running slot k (hpaged.processes ▸ hk)).active
      have hslot : s'.slotCells slot = s.slotCells slot := by
        simp only [State.slotCells, hpaged.processes]
      refine ⟨hpaged.trans (paged_ageSlot s' slot), ?_⟩
      rw [hage, hs', hslot, State.loadedCells, State.loadedCells, List.range_succ,
        List.flatMap_append, List.foldl_append, List.flatMap_singleton]
  exact hloop.2

/-- A tick of `allage` is a unit of time for the pool. -/
theorem aged_allage {config : Config} (h : config.Reaches s) :
    Aged pageWait s.pool (allage config.procs s).pool := by
  obtain ⟨fuel, jobs, hjobs, hsched⟩ := h.scheduled
  rw [pool_allage hsched.toPlaced h.npages]
  refine aged_foldl (loadedCells_nodup hsched.toPlaced _) s.pool fun c hc => ?_
  have hidle := h.framed.idle c.1
    (fun slot hslot => hc ((mem_loadedCells hsched.toPlaced).mpr ⟨slot, hslot⟩)) c.2
  show s.pool.cell (c.1, c.2) < -pageWait
  omega

end Time

/-! ### Conservation -/

/-- The number of pages of jobs in the queue that hold a frame. -/
def State.framesHeld (s : State) : Nat :=
  (Finset.univ.filter fun c : Cell => -pageWait ≤ (s.queue c.1).pages c.2).card

theorem sum_held (s : State) : ∑ c, held pageWait (s.pool.cell c) = s.framesHeld := by
  rw [State.framesHeld, Finset.natCast_card_filter]
  rfl

/-- In every state reached, each of the frames is available or held by exactly one page, the
entries of the pages are in range, and jobs outside the slots hold no frame. -/
theorem frames_conserved (config : Config) (s : State) (h : config.Reaches s) :
    s.pagesavail + s.framesHeld = physicalPages ∧
    (∀ (k : Fin queueSize) (page : Fin maxProcPages),
      -pageWait - 1 ≤ (s.queue k).pages page ∧ (s.queue k).pages page ≤ pageWait) ∧
    (∀ k : Fin queueSize, (∀ slot, slot < config.procs → s.processes slot ≠ some k) →
      ∀ page : Fin maxProcPages, (s.queue k).pages page < -pageWait) ∧
    0 ≤ s.pagesavail ∧ s.pagesavail ≤ physicalPages := by
  have hframed := h.framed
  obtain ⟨fuel, jobs, hjobs, hsched⟩ := h.scheduled
  refine ⟨?_, fun k page => ⟨hframed.balanced.lower (k, page), hframed.balanced.upper (k, page)⟩,
    ?_, hframed.avail_nonneg, hframed.balanced.avail_le⟩
  · rw [← sum_held]
    exact hframed.balanced.total
  · intro k hk page
    have hout : (s.queue k).pages page = -pageWait - 1 :=
      hframed.idle k (fun slot hslot => hk slot (hsched.slot_lt slot k hslot) hslot) page
    omega

theorem frames_conserved_alternating : ∃ s₀, alternatingConfig.Starts s₀ ∧
    let s := ((tick eager alternatingConfig.procs)^[100] (eager.init, s₀)).2
    s.pagesavail + s.framesHeld = physicalPages ∧
      (∀ k : Fin queueSize, (∀ slot, slot < 20 → s.processes slot ≠ some k) →
        ∀ page : Fin maxProcPages, (s.queue k).pages page < -pageWait) ∧
      0 ≤ s.pagesavail ∧ s.pagesavail ≤ physicalPages := by
  obtain ⟨s₀, hstart⟩ := alternatingConfig_starts
  have hreach : alternatingConfig.Reaches s₀ := ⟨s₀, hstart, .refl⟩
  obtain ⟨hsum, -, hidle, havail⟩ := frames_conserved alternatingConfig _
    (hreach.ticks eager (eager.init, s₀) 100)
  exact ⟨s₀, hstart, hsum, hidle, havail⟩

end OperatingSystems.Simulator
