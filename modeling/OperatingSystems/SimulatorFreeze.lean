import OperatingSystems.SimulatorStall

/-!
A stuck run freezes: after some ticks the pool does not change any more, so that the pager is shown
one snapshot for ever, in which no job has the page it needs, yet some job has a page. No request
for a page that is not resident is granted then, and no resident page is given up. A pager that
does not stay in such a system keeps the simulation going.
-/

namespace OperatingSystems.Simulator

open Loop Runs Frames CallTree

variable {config : Config} {pager : Pager} {inv : pager.State → Prop} {s s' : State}

theorem pentry_congr (h : config.Reaches s) (h' : config.Reaches s') (hstill : Still s s')
    (hcells : ∀ c, s'.pool.cell c = s.pool.cell c) : s'.pentry = s.pentry := by
  funext slot
  obtain ⟨fuel, jobs, hjobs, hsched⟩ := h.scheduled
  obtain ⟨fuel', jobs', hjobs', hsched'⟩ := h'.scheduled
  have hpages : (s'.pentry slot).pages = (s.pentry slot).pages := by
    funext page
    rw [Bool.eq_iff_iff, pentry_pages_iff h'.npages, pentry_pages_iff h.npages]
    simp only [hstill.processes, hcells]
  unfold State.pentry at hpages ⊢
  rw [hstill.processes] at hpages ⊢
  cases hslot : s.processes slot with
  | none => rfl
  | some k =>
      simp only [hslot] at hpages ⊢
      have hactive : (s'.queue k).active = (s.queue k).active := by
        rw [(hsched'.running slot k (hstill.processes ▸ hslot)).active,
          (hsched.running slot k hslot).active]
      have hpc : (s'.queue k).pc = (s.queue k).pc := congrArg Control.pc (hstill.control k)
      rw [hpages, hactive, hpc, h.npages, h'.npages]

/-! ### Exchanges with a frozen pool -/

/-- Every cell is settled, and no frame is available. -/
structure Settled (s : State) : Prop where
  avail : s.pool.avail = 0
  cell : ∀ c, s.pool.cell c = 0 ∨ s.pool.cell c = -pageWait - 1

/-- The requests of a call have left the settled pool as it was. -/
structure Unmoved {α : Type} (procs : Nat) (t : CallTree PageCall Bool α) (s : State) : Prop where
  npages : ∀ k, (s.queue k).npages = maxProcPages
  settled : Settled s
  cell : ∀ c, (t.run (PageCall.answer procs) s).2.pool.cell c = s.pool.cell c

theorem Unmoved.exchange {α : Type} {procs : Nat} {t : CallTree PageCall Bool α}
    (h : Unmoved procs t s) {r : PageCall} {given : Bool}
    (hin : (r, given) ∈ t.exchanges (PageCall.answer procs) s) :
    ∃ s', Paged s s' ∧ s'.pool.avail = 0 ∧ (∀ c, s'.pool.cell c = s.pool.cell c) ∧
      given = (r.answer procs s').1 ∧
      ∀ c, (r.answer procs s').2.pool.cell c = s.pool.cell c := by
  obtain ⟨s', hbefore, hgiven, hafter⟩ :=
    CallTree.exchanges_mem .refl Requested.trans requested_answer hin
  have hnpages' : ∀ k, (s'.queue k).npages = maxProcPages := fun k =>
    (hbefore.1.npages k).trans (h.npages k)
  have hserved := hbefore.2 h.npages
  have hrest := hafter.2 fun k => ((paged_answer procs r s').npages k).trans (hnpages' k)
  have hwhole := (served_answer procs hnpages' r).trans pageWait_pos hrest
  have hend : ∀ c, (t.run (PageCall.answer procs) s).2.pool.cell c = 0 ∨
      (t.run (PageCall.answer procs) s).2.pool.cell c = -pageWait - 1 := fun c => by
    rw [h.cell c]
    exact h.settled.cell c
  refine ⟨s', hbefore.1, ?_, fun c => ?_, hgiven, fun c => ?_⟩
  · have hle := hserved.avail_le
    have hnonneg := hserved.avail_nonneg h.settled.avail.ge
    have havail := h.settled.avail
    omega
  · rw [← h.cell c]
    exact (hwhole.cell c).eq_of_settled pageWait_pos (hend c)
  · rw [← h.cell c]
    exact (hrest.cell c).eq_of_settled pageWait_pos (hend c)

/-- A request that is granted in a settled pool is for a resident page. -/
theorem Unmoved.refused {α : Type} {procs : Nat} {t : CallTree PageCall Bool α}
    (h : Unmoved procs t s) {slot page : Nat}
    (hin : (PageCall.pagein slot page, true) ∈ t.exchanges (PageCall.answer procs) s) :
    (s.pentry slot).pages page = true := by
  have hwait := pageWait_pos
  obtain ⟨s', hpaged, havail, hcell, hgiven, -⟩ := h.exchange hin
  have hnpages : ∀ k, (s'.queue k).npages = maxProcPages := fun k =>
    (hpaged.npages k).trans (h.npages k)
  rw [pentry_pages_iff h.npages]
  rcases answer_cases procs hnpages (.pagein slot page) with hrefused | ⟨c, htarget⟩
  · rw [hrefused] at hgiven
    cases hgiven
  · refine ⟨c, hpaged.processes ▸ (target_cases htarget).2.2.1,
      (target_cases htarget).2.2.2.2.2.2, ?_⟩
    by_contra hne
    have hsettled := h.settled.cell c
    have hfalse : (take pageWait c s'.pool).1 = false := by
      rw [take, hcell, if_neg (by omega), if_pos havail]
    rw [(answer_perform htarget).1] at hgiven
    exact absurd (hgiven.trans hfalse) (by decide)

/-- No request in a settled pool is for a resident page to go. -/
theorem Unmoved.kept {α : Type} {t : CallTree PageCall Bool α} (hreach : config.Reaches s)
    (h : Unmoved config.procs t s) {slot page : Nat} {given : Bool}
    (hin : (PageCall.pageout slot page, given) ∈ t.exchanges (PageCall.answer config.procs) s) :
    (s.pentry slot).pages page = false := by
  obtain ⟨fuel, jobs, hjobs, hsched⟩ := hreach.scheduled
  obtain ⟨s', hpaged, -, hcell, -, hafter⟩ := h.exchange hin
  rw [← Bool.not_eq_true, pentry_pages_iff h.npages]
  rintro ⟨c, hslot, rfl, hzero⟩
  have hactive : (s'.queue c.1).active = true :=
    (hpaged.active c.1).trans (hsched.running slot c.1 hslot).active
  have hlt : c.2.val < (s'.queue c.1).npages := by
    rw [hpaged.npages, h.npages]
    exact c.2.isLt
  have htarget := target_eq (hpaged.processes ▸ hslot) (hsched.slot_lt slot c.1 hslot) hactive hlt
  have hgone : (drop c s'.pool).2.cell c = -1 := by
    rw [drop, hcell, hzero, if_neg (by decide), if_neg (by decide)]
    exact Function.update_self ..
  have hsame := hafter c
  rw [(answer_perform (r := .pageout slot c.2) htarget).2, hzero] at hsame
  exact absurd (hgone.symm.trans hsame) (by decide)

/-- When all cells are settled and no frame is available, some job has a page. -/
theorem Settled.exists_resident (hreach : config.Reaches s) (h : Settled s) :
    ∃ slot page, slot < maxProcesses ∧ page < maxProcPages ∧ (s.pentry slot).active = true ∧
      (s.pentry slot).pages page = true := by
  have hwait := pageWait_pos
  obtain ⟨fuel, jobs, hjobs, hsched⟩ := hreach.scheduled
  have havail : s.pool.avail < physicalPages := by
    rw [h.avail]
    decide
  obtain ⟨c, hheld⟩ := hreach.framed.balanced.exists_held havail
  have hzero : s.pool.cell c = 0 := by
    rcases h.cell c with hzero | hout
    · exact hzero
    · omega
  have hloaded : ∃ slot, s.processes slot = some c.1 := by
    by_contra hnone
    have hidle := hreach.framed.idle c.1 (not_exists.mp hnone) c.2
    have hidle : s.pool.cell c = -pageWait - 1 := hidle
    omega
  obtain ⟨slot, hslot⟩ := hloaded
  refine ⟨slot, c.2, (hsched.slot_lt slot c.1 hslot).trans_le config.procs_le, c.2.isLt, ?_, ?_⟩
  · rw [(pentry_of_some hslot).1]
    exact (hsched.running slot c.1 hslot).active
  · exact (pentry_pages_iff hreach.npages).mpr ⟨c, hslot, rfl, hzero⟩

/-! ### The frozen run -/

section Run

variable {run : Nat → pager.State × State}

/-- For some ticks, the pager finds the same settled pool in every tick and leaves it so. -/
structure FrozenUpTo (config : Config) (run : Nat → pager.State × State) (T last : Nat) : Prop where
  settled : ∀ t, t ≤ last → Settled (midTick config.procs (run (T + t)).2)
  before : ∀ t c, t ≤ last → (run (T + t)).2.pool.cell c =
    (midTick config.procs (run T).2).pool.cell c
  mid : ∀ t c, t ≤ last → (midTick config.procs (run (T + t)).2).pool.cell c =
    (midTick config.procs (run T).2).pool.cell c

/-- The ticks after which a system in which no job computes is frozen. -/
def freezeTicks : Nat := 201

/-- The ticks in which a job computes if the pager leaves a frozen system within some calls. -/
def stallTicks (calls : Nat) : Nat := calls + 403

variable {calls T : Nat}

theorem StuckFor.frozenUpTo (live : pager.Live inv)
    (h : StuckFor config pager inv (stallTicks calls) run) :
    FrozenUpTo config run freezeTicks calls := by
  have hfrozen : ∀ t, t ≤ calls → _ := fun t ht =>
    (h.stalled live).frozen (T := freezeTicks) rfl (Nat.le_add_right freezeTicks t) (by
      simp only [freezeTicks, stallTicks, pageWait]
      push_cast
      omega)
  have hstart := fun c => ((hfrozen 0 (Nat.zero_le calls)).2.2 c).2.2
  refine ⟨fun t ht => ?_, fun t c ht => ?_, fun t c ht => ?_⟩
  · obtain ⟨-, havail, hcells⟩ := hfrozen t ht
    exact ⟨havail, fun c => by rw [(hcells c).2.2]; exact (hcells c).1⟩
  · exact ((hfrozen t ht).2.2 c).2.1.trans (hstart c).symm
  · exact ((hfrozen t ht).2.2 c).2.2.trans (hstart c).symm

section Frozen

variable (h : StuckFor config pager inv (stallTicks calls) run)
  (hfrozen : FrozenUpTo config run freezeTicks calls)

include h hfrozen

theorem FrozenUpTo.pentry_eq {t : Nat} (ht : t ≤ calls) :
    (midTick config.procs (run (freezeTicks + t)).2).pentry =
      (midTick config.procs (run freezeTicks).2).pentry := by
  refine pentry_congr (h.reaches_run freezeTicks).midTick (h.reaches_run _).midTick ?_
    fun c => hfrozen.mid t c ht
  have hnow := h.still_mid (t := freezeTicks + t) (by simp only [freezeTicks, stallTicks]; omega)
  have hthen := h.still_mid (t := freezeTicks) (by simp only [freezeTicks, stallTicks]; omega)
  exact ⟨hnow.processes.trans hthen.processes.symm,
    fun k => (hnow.control k).trans (hthen.control k).symm⟩

theorem FrozenUpTo.unmoved {t : Nat} (ht : t < calls) :
    Unmoved config.procs
      (pager.pageit (midTick config.procs (run (freezeTicks + t)).2).pentry
        (run (freezeTicks + t)).1)
      (midTick config.procs (run (freezeTicks + t)).2) where
  npages := (h.reaches_run (freezeTicks + t)).midTick.npages
  settled := hfrozen.settled t ht.le
  cell c := by
    have hnext := hfrozen.before (t + 1) c ht
    rw [← Nat.add_assoc, h.step] at hnext
    exact hnext.trans (hfrozen.mid t c ht.le).symm

/-- In the frozen snapshot no job has the page it needs. -/
theorem FrozenUpTo.blocked {slot : Nat}
    (hactive : ((midTick config.procs (run freezeTicks).2).pentry slot).active = true) :
    ((midTick config.procs (run freezeTicks).2).pentry slot).pages
      ((midTick config.procs (run freezeTicks).2).pentry slot).page = false := by
  have hlate : freezeTicks < stallTicks calls := by
    simp only [freezeTicks, stallTicks]
    omega
  have hreach := (h.reaches_run freezeTicks).midTick
  cases hslot : (midTick config.procs (run freezeTicks).2).processes slot with
  | none => simp [State.pentry, hslot] at hactive
  | some k =>
      have hstill := h.still_mid hlate
      rw [(pentry_of_some hslot).2, hstill.page k]
      refine pentry_pages_eq_false (c := (k, ⟨_, h.page_lt k⟩)) hreach.npages hslot ?_
      have hquiet := h.quiet freezeTicks hlate slot k
        (by rw [(h.still hlate.le).processes, ← hstill.processes, hslot])
      rw [(h.still hlate.le).page k] at hquiet
      have hcell := hfrozen.before 0 (k, ⟨_, h.page_lt k⟩) (Nat.zero_le calls)
      exact fun hzero => hquiet (hcell.trans hzero)

/-- What the pager goes through from then on. -/
theorem FrozenUpTo.frozenFor :
    FrozenFor pager calls (midTick config.procs (run freezeTicks).2).pentry
      (fun t => (run (freezeTicks + t)).1) fun t =>
        (pager.pageit (midTick config.procs (run (freezeTicks + t)).2).pentry
          (run (freezeTicks + t)).1).exchanges
            (PageCall.answer config.procs) (midTick config.procs (run (freezeTicks + t)).2) := by
  refine ⟨fun t ht => ?_, fun slot => hfrozen.blocked h, fun t slot page ht hin => ?_,
    fun t slot page given ht hin => ?_, ?_⟩
  · have htalk := talk_exchanges (PageCall.answer config.procs)
      (pager.pageit (midTick config.procs (run (freezeTicks + t)).2).pentry
        (run (freezeTicks + t)).1)
      (midTick config.procs (run (freezeTicks + t)).2)
    rw [← hfrozen.pentry_eq h ht.le, ← Nat.add_assoc, h.step]
    exact htalk
  · rw [← hfrozen.pentry_eq h ht.le]
    exact (hfrozen.unmoved h ht).refused hin
  · rw [← hfrozen.pentry_eq h ht.le]
    exact (hfrozen.unmoved h ht).kept (h.reaches_run (freezeTicks + t)).midTick hin
  · exact (hfrozen.settled 0 (Nat.zero_le calls)).exists_resident
      (h.reaches_run freezeTicks).midTick

end Frozen

/-- A pager that keeps to the rules is never stuck. -/
theorem Stuck.absurd (live : pager.Live inv) (h : Stuck config pager inv run) : False :=
  live.thaws (fun t => (h.for 0).memory_run live (freezeTicks + t))
    (.of_for fun calls =>
      ((h.for (stallTicks calls)).frozenUpTo live).frozenFor (h.for (stallTicks calls)))

/-- A pager that leaves a frozen system within some calls is not stuck for long. -/
theorem StuckFor.absurd (live : pager.Live inv)
    (thaws : ∀ {q st log}, (∀ t, inv (st t)) → ¬FrozenFor pager calls q st log)
    (h : StuckFor config pager inv (stallTicks calls) run) : False :=
  thaws (fun t => h.memory_run live (freezeTicks + t)) ((h.frozenUpTo live).frozenFor h)

end Run

end OperatingSystems.Simulator
