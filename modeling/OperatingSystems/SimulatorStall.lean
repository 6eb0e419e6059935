import OperatingSystems.SimulatorFrames
import OperatingSystems.LibraryStall

/-!
What happens while no job computes. Nothing moves then but pages, so that a tick is a unit of time
and a batch of requests for the pool of frames; if the pager keeps to a few rules, the pool freezes,
and the pager is shown the same snapshot and gives the same answers for ever.
-/

namespace OperatingSystems.Simulator

open Loop Runs Frames CallTree

/-! ### Pagers that do not starve the system -/

/-- What a pager goes through when the pool of frames is frozen and no job can compute. -/
structure Frozen (pager : Pager) (q : Snapshot) (st : Nat → pager.State)
    (log : Nat → List (PageCall × Bool)) : Prop where
  talk : ∀ t, Talk (pager.pageit q (st t)) (log t) (st (t + 1))
  blocked : ∀ slot, (q slot).active = true → (q slot).pages (q slot).page = false
  refused : ∀ t (slot page : Nat), (PageCall.pagein slot page, true) ∈ log t →
    (q slot).pages page = true
  kept : ∀ t (slot page : Nat) (given : Bool), (PageCall.pageout slot page, given) ∈ log t →
    (q slot).pages page = false
  resident : ∃ slot page, slot < maxProcesses ∧ page < maxProcPages ∧ (q slot).active = true ∧
    (q slot).pages page = true

/-- The same for a number of calls. -/
structure FrozenFor (pager : Pager) (calls : Nat) (q : Snapshot) (st : Nat → pager.State)
    (log : Nat → List (PageCall × Bool)) : Prop where
  talk : ∀ t, t < calls → Talk (pager.pageit q (st t)) (log t) (st (t + 1))
  blocked : ∀ slot, (q slot).active = true → (q slot).pages (q slot).page = false
  refused : ∀ t (slot page : Nat), t < calls → (PageCall.pagein slot page, true) ∈ log t →
    (q slot).pages page = true
  kept : ∀ t (slot page : Nat) (given : Bool), t < calls →
    (PageCall.pageout slot page, given) ∈ log t → (q slot).pages page = false
  resident : ∃ slot page, slot < maxProcesses ∧ page < maxProcPages ∧ (q slot).active = true ∧
    (q slot).pages page = true

theorem Frozen.for {pager : Pager} {q : Snapshot} {st : Nat → pager.State}
    {log : Nat → List (PageCall × Bool)} (h : Frozen pager q st log) (calls : Nat) :
    FrozenFor pager calls q st log :=
  ⟨fun t _ => h.talk t, h.blocked, fun t slot page _ => h.refused t slot page,
    fun t slot page given _ => h.kept t slot page given, h.resident⟩

theorem Frozen.of_for {pager : Pager} {q : Snapshot} {st : Nat → pager.State}
    {log : Nat → List (PageCall × Bool)} (h : ∀ calls, FrozenFor pager calls q st log) :
    Frozen pager q st log :=
  ⟨fun t => (h (t + 1)).talk t t.lt_succ_self, (h 0).blocked,
    fun t slot page => (h (t + 1)).refused t slot page t.lt_succ_self,
    fun t slot page given => (h (t + 1)).kept t slot page given t.lt_succ_self, (h 0).resident⟩

/-- The rules for a pager: it keeps the pages that are in use, asks first for a page that is
needed, and does not stay in a frozen system. -/
structure Pager.Live (pager : Pager) (inv : pager.State → Prop) : Prop where
  init : inv pager.init
  call : ∀ {q st log st'}, inv st → Talk (pager.pageit q st) log st' → inv st'
  keeps : ∀ {q st slot}, (q slot).active = true → (q slot).pages (q slot).page = true →
    Only (fun r => ∀ page, r ≠ .pageout slot page) (pager.pageit q st)
  first : ∀ {q st slot}, slot < maxProcesses → (q slot).active = true →
    (q slot).pages (q slot).page = false →
    (∀ other, other < slot → (q other).active = false) →
    ∃ next, pager.pageit q st = .call (.pagein slot (q slot).page) next
  thaws : ∀ {q st log}, (∀ t, inv (st t)) → Frozen pager q st log → False

/-- The pager never gives up a page that is in use. -/
def Pager.Keeps (pager : Pager) : Prop :=
  ∀ (q : Snapshot) (st : pager.State) (slot : Nat), (q slot).active = true →
    (q slot).pages (q slot).page = true →
      Only (fun r => ∀ page, r ≠ .pageout slot page) (pager.pageit q st)

/-- A service that makes requests for its own process only, and none for one that has its page,
never gives up a page of that one. -/
theorem serve_keeps {σ β : Type} {serve : Nat → σ → CallTree PageCall Bool β} {slot : Nat}
    (honly : ∀ (proc : Nat) st, Only (fun r : PageCall => r.process = proc) (serve proc st))
    (hsilent : ∀ st, ∃ b, serve slot st = ret b) (proc : Nat) (st : σ) :
    Only (fun r => ∀ page, r ≠ .pageout slot page) (serve proc st) := by
  by_cases hproc : proc = slot
  · subst hproc
    obtain ⟨b, hb⟩ := hsilent st
    rw [hb]
    exact .ret b
  · refine (honly proc st).mono fun r hr page heq => hproc ?_
    rw [heq] at hr
    have hr : (slot : Int) = proc := hr
    omega

/-! ### Ticks without computation -/

/-- No job in a slot has the page it needs. -/
def State.Quiet (s : State) : Prop :=
  ∀ slot k, s.processes slot = some k → (s.queue k).pages (s.queue k).page ≠ 0

/-- The first slot that holds a job. -/
theorem first_loaded {s : State} (h : ∃ slot k, s.processes slot = some k) :
    ∃ slot k, s.processes slot = some k ∧ ∀ other, other < slot → s.processes other = none := by
  classical
  have hsome : ∃ slot, (s.processes slot).isSome := by
    obtain ⟨slot, k, hslot⟩ := h
    exact ⟨slot, by rw [hslot]; rfl⟩
  obtain ⟨k, hk⟩ := Option.isSome_iff_exists.mp (Nat.find_spec hsome)
  exact ⟨_, k, hk, fun other hother => by simpa using Nat.find_min hsome hother⟩

theorem first_unique {s : State} {slot slot' : Nat} {k k' : Fin queueSize}
    (hslot : s.processes slot = some k) (hfirst : ∀ other, other < slot → s.processes other = none)
    (hslot' : s.processes slot' = some k')
    (hfirst' : ∀ other, other < slot' → s.processes other = none) : slot = slot' := by
  rcases Nat.lt_trichotomy slot slot' with hlt | heq | hgt
  · rw [hfirst' slot hlt] at hslot
    cases hslot
  · exact heq
  · rw [hfirst slot' hgt] at hslot'
    cases hslot'

/-- Nothing has moved but pages and the bookkeeping of blocked ticks. -/
structure Still (s s' : State) : Prop where
  processes : s'.processes = s.processes
  control : ∀ k, (s'.queue k).toControl = (s.queue k).toControl

theorem Still.trans {s s' s'' : State} (h : Still s s') (h' : Still s' s'') : Still s s'' :=
  ⟨h'.processes.trans h.processes, fun k => (h'.control k).trans (h.control k)⟩

theorem Still.page {s s' : State} (h : Still s s') (k : Fin queueSize) :
    (s'.queue k).page = (s.queue k).page :=
  congrArg (fun c : Control => (c.pc / pageSize).toNat) (h.control k)

theorem Paged.still {s s' : State} (h : Paged s s') : Still s s' := by
  refine ⟨h.processes, fun k => ?_⟩
  obtain ⟨pages, hk⟩ := h.queue k
  rw [hk]

variable {procs : Nat} {jobs : Fin queueSize → Process} {s s' : State}

/-- A step of all slots in which no job computes. -/
structure Blocked (s s' : State) : Prop where
  processes : s'.processes = s.processes
  pagesavail : s'.pagesavail = s.pagesavail
  queueend : s'.queueend = s.queueend
  queue : ∀ k, ∃ blocked block, s'.queue k = { s.queue k with blocked, block }

theorem Blocked.stepSlot (h : Blocked s s') (hsched : Scheduled procs jobs s) (hquiet : s.Quiet)
    {slot : Nat} (hslot : slot < procs) : Blocked s (s'.stepSlot slot) := by
  have hvacant : s'.processes slot = none → s'.reload slot = s' := by
    intro hnone
    have hempty := hsched.filled slot hslot (h.processes ▸ hnone)
    exact reload_of_empty (h.queueend ▸ hempty) hnone
  have hloaded : ∀ k, s'.processes slot = some k →
      (s'.queue k).active = true ∧ (s'.queue k).pages (s'.queue k).page ≠ 0 := by
    intro k hk
    rw [h.processes] at hk
    obtain ⟨blocked, block, hqueue⟩ := h.queue k
    rw [hqueue]
    exact ⟨(hsched.running slot k hk).active, hquiet slot k hk⟩
  have hmove := stepSlot_move s' slot
  generalize s'.stepSlot slot = after at hmove ⊢
  cases hmove with
  | vacant hnone =>
      rw [hvacant hnone]
      exact h
  | blocked k hk hactive hout =>
      refine ⟨h.processes, h.pagesavail, h.queueend, fun k' => ?_⟩
      obtain ⟨blocked, block, hqueue⟩ := h.queue k'
      by_cases heq : k' = k
      · subst heq
        rw [setJob_self, hqueue]
        exact ⟨_, _, rfl⟩
      · rw [setJob_of_ne _ _ heq, hqueue]
        exact ⟨_, _, rfl⟩
  | compute k c hk _ hin => exact absurd hin (hloaded k hk).2
  | exit k hk _ hin => exact absurd hin (hloaded k hk).2
  | inactive k hk hinactive => simp [(hloaded k hk).1] at hinactive

theorem blocked_allstep (hsched : Scheduled procs jobs s) (hquiet : s.Quiet) :
    Blocked s (allstep procs s) :=
  loop_invariant (fun _ s' => Blocked s s')
    ⟨rfl, rfl, rfl, fun k => ⟨(s.queue k).blocked, (s.queue k).block, rfl⟩⟩
    fun _ _ hslot h => h.stepSlot hsched hquiet hslot

theorem Blocked.still (h : Blocked s s') : Still s s' := by
  refine ⟨h.processes, fun k => ?_⟩
  obtain ⟨blocked, block, hk⟩ := h.queue k
  rw [hk]

theorem Blocked.pool_eq (h : Blocked s s') : s'.pool = s.pool := by
  simp only [State.pool, Pool.mk.injEq]
  refine ⟨h.pagesavail, funext fun c => ?_⟩
  obtain ⟨blocked, block, hk⟩ := h.queue c.1
  rw [hk]

/-! ### A batch of requests -/

/-- What requests do to the simulator and to its pool. -/
def Requested (s s' : State) : Prop :=
  Paged s s' ∧ ((∀ k, (s.queue k).npages = maxProcPages) → Served pageWait s.pool s'.pool)

theorem Requested.refl (s : State) : Requested s s := ⟨.refl s, fun _ => .refl pageWait_pos _⟩

theorem Requested.trans (s s' s'' : State) (h : Requested s s') (h' : Requested s' s'') :
    Requested s s'' :=
  ⟨h.1.trans h'.1, fun hnpages =>
    (h.2 hnpages).trans pageWait_pos (h'.2 fun k => (h.1.npages k).trans (hnpages k))⟩

theorem requested_answer (r : PageCall) (s : State) : Requested s (r.answer procs s).2 :=
  ⟨paged_answer procs r s, fun hnpages => served_answer procs hnpages r⟩

theorem requested_run {α : Type} (procs : Nat) (t : CallTree PageCall Bool α) (s : State) :
    Requested s (t.run (PageCall.answer procs) s).2 :=
  CallTree.run_relates .refl Requested.trans requested_answer t s

/-! ### The snapshot -/

theorem pentry_of_some {slot : Nat} {k : Fin queueSize} (hslot : s.processes slot = some k) :
    (s.pentry slot).active = (s.queue k).active ∧ (s.pentry slot).page = (s.queue k).page := by
  simp only [State.pentry, hslot]
  exact ⟨trivial, rfl⟩

/-- The resident pages of the snapshot are those of the pool. -/
theorem pentry_pages_iff (hnpages : ∀ k, (s.queue k).npages = maxProcPages) {slot page : Nat} :
    (s.pentry slot).pages page = true ↔ ∃ c : Cell,
      s.processes slot = some c.1 ∧ c.2.val = page ∧ s.pool.cell c = 0 := by
  unfold State.pentry
  cases hslot : s.processes slot with
  | none => simp
  | some k =>
      simp only [hnpages, Bool.and_eq_true, decide_eq_true_eq, Option.some.injEq]
      constructor
      · rintro ⟨hlt, hin⟩
        exact ⟨(k, ⟨page, hlt⟩), rfl, rfl, hin⟩
      · rintro ⟨c, rfl, rfl, hin⟩
        exact ⟨c.2.isLt, hin⟩

theorem pentry_pages_eq_false (hnpages : ∀ k, (s.queue k).npages = maxProcPages) {slot : Nat}
    {c : Cell} (hslot : s.processes slot = some c.1) (hout : s.pool.cell c ≠ 0) :
    (s.pentry slot).pages c.2 = false := by
  rw [← Bool.not_eq_true, pentry_pages_iff hnpages]
  rintro ⟨c', hslot', hpage, hin⟩
  have heq : c' = c := Prod.ext (Option.some.inj (hslot'.symm.trans hslot)) (Fin.ext hpage)
  exact hout (heq ▸ hin)

/-! ### The pager in a tick -/

/-- A request that is not for this page to go leaves a resident page where it is. -/
theorem answer_keeps (hnpages : ∀ k, (s.queue k).npages = maxProcPages) {slot : Nat}
    {k : Fin queueSize} (hone : ∀ slot', s.processes slot' = some k → slot' = slot)
    {j : Fin maxProcPages} (hin : s.pool.cell (k, j) = 0) {r : PageCall}
    (hr : ∀ page, r ≠ .pageout slot page) : (r.answer procs s).2.pool.cell (k, j) = 0 := by
  rcases answer_cases procs hnpages r with hrefused | ⟨c, htarget⟩
  · rw [hrefused]
    exact hin
  · rw [(answer_perform htarget).2]
    cases r with
    | pagein _ _ => exact take_of_resident hin
    | pageout process page =>
        refine (drop_of_ne fun hc => ?_).trans hin
        obtain ⟨hprocess, -, hslot, -⟩ := target_cases htarget
        subst hc
        have hsame := hone _ hslot
        have hprocess : 0 ≤ process := hprocess
        have hsame : process.toNat = slot := hsame
        exact hr page (by rw [← hsame, Int.toNat_of_nonneg hprocess])

section Pagers

variable {config : Config} {pager : Pager} {inv : pager.State → Prop} {st : pager.State}

/-- The pager keeps a resident page that is needed. -/
theorem callyou_keeps (keeps : pager.Keeps) (h : config.Reaches s) {slot : Nat}
    {k : Fin queueSize} {j : Fin maxProcPages} (hslot : s.processes slot = some k)
    (hj : (s.queue k).page = j) (hin : s.pool.cell (k, j) = 0) :
    (callyou pager config.procs (st, s)).2.pool.cell (k, j) = 0 := by
  obtain ⟨fuel, jobs, hjobs, hsched⟩ := h.scheduled
  obtain ⟨hactive, hpage⟩ := pentry_of_some hslot
  have hresident : (s.pentry slot).pages (s.pentry slot).page = true := by
    rw [hpage, pentry_pages_iff h.npages]
    exact ⟨(k, j), hslot, hj.symm, hin⟩
  have honly := keeps _ st _ (hactive.trans (hsched.running slot k hslot).active) hresident
  have hkeep : ∀ (r : PageCall) (s' : State), (∀ page, r ≠ .pageout slot page) →
      (Paged s s' ∧ s'.pool.cell (k, j) = 0) →
        Paged s (r.answer config.procs s').2 ∧
          (r.answer config.procs s').2.pool.cell (k, j) = 0 := by
    rintro r s' hr ⟨hpaged, hin'⟩
    refine ⟨hpaged.trans (paged_answer _ r s'), ?_⟩
    refine answer_keeps (fun k => (hpaged.npages k).trans (h.npages k)) (fun slot' hs => ?_) hin' hr
    exact hsched.one_slot slot' slot k (hpaged.processes ▸ hs) hslot
  exact (CallTree.run_invariant _ _ hkeep _ ((talk_exchanges _ _ _).only honly) ⟨.refl s, hin⟩).2

/-- The pager asks first for the page that the first of the jobs needs. -/
theorem callyou_first (live : pager.Live inv) (h : config.Reaches s) {slot : Nat}
    {k : Fin queueSize} {j : Fin maxProcPages} (hslot : s.processes slot = some k)
    (hleast : ∀ other, other < slot → s.processes other = none)
    (hj : (s.queue k).page = j) (hout : s.pool.cell (k, j) < -pageWait)
    (havail : s.pool.avail ≠ 0) :
    (callyou pager config.procs (st, s)).2.pool.cell (k, j) = pageWait := by
  have hwait := pageWait_pos
  obtain ⟨fuel, jobs, hjobs, hsched⟩ := h.scheduled
  obtain ⟨hactive, hpage⟩ := pentry_of_some hslot
  have hlt := hsched.slot_lt slot k hslot
  have hnone : (s.pentry slot).pages (s.pentry slot).page = false := by
    rw [hpage, hj]
    apply pentry_pages_eq_false (c := (k, j)) h.npages hslot
    omega
  obtain ⟨next, hnext⟩ := @live.first _ st _ (hlt.trans_le config.procs_le)
    (hactive.trans (hsched.running slot k hslot).active) hnone
    fun other hother => by simp [State.pentry, hleast other hother]
  have htarget : s.target config.procs slot (s.pentry slot).page = some (k, j.val) := by
    rw [hpage, hj]
    apply target_eq hslot hlt (hsched.running slot k hslot).active
    rw [h.npages]
    exact j.isLt
  have hasked := (answer_perform (r := .pagein slot (s.pentry slot).page) (c := (k, j)) htarget).2
  have hcoming : (take pageWait (k, j) s.pool).2.cell (k, j) = pageWait := by
    rw [take, if_neg (by omega), if_neg havail, if_neg (by omega)]
    exact Function.update_self ..
  have hnpages := (paged_answer config.procs (.pagein slot (s.pentry slot).page) s).npages
  have hrest := requested_run config.procs
    (next (PageCall.answer config.procs (.pagein slot (s.pentry slot).page) s).1)
    (PageCall.answer config.procs (.pagein slot (s.pentry slot).page) s).2
  rw [callyou, hnext, run_call]
  refine (hrest.2 fun k => (hnpages k).trans (h.npages k)).coming pageWait_pos ?_
  rw [hasked]
  exact hcoming

/-! ### Ticks -/

/-- The state that the pager finds in a tick. -/
def midTick (procs : Nat) (s : State) : State := allage procs (allstep procs s)

theorem Config.Reaches.phase (h : config.Reaches s) {a : Phase}
    (hphase : phase config.procs s a = some s') : config.Reaches s' := by
  obtain ⟨s₀, hstart, hreach⟩ := h
  exact ⟨s₀, hstart, .tail hreach trivial hphase⟩

theorem Config.Reaches.allstep (h : config.Reaches s) :
    config.Reaches (allstep config.procs s) := by
  obtain ⟨s₀, hstart, hreach⟩ := h
  exact ⟨s₀, hstart, hreach.trans (allstep_reach s)⟩

theorem Config.Reaches.midTick (h : config.Reaches s) :
    config.Reaches (midTick config.procs s) := by
  obtain ⟨s₀, hstart, hreach⟩ := h.allstep
  exact ⟨s₀, hstart, hreach.trans (allage_reach _)⟩

/-- A tick in which no job computes is a unit of time and then a batch of requests. -/
structure QuietTick (s m s' : State) : Prop where
  still_mid : Still s m
  still : Still m s'
  aged : Aged pageWait s.pool m.pool
  served : Served pageWait m.pool s'.pool

theorem quietTick (s : pager.State × State) (h : config.Reaches s.2) (hquiet : s.2.Quiet) :
    QuietTick s.2 (midTick config.procs s.2) (tick pager config.procs s).2 := by
  obtain ⟨fuel, jobs, hjobs, hsched⟩ := h.scheduled
  have hblocked := blocked_allstep hsched hquiet
  have haged := aged_allage h.allstep
  have hcall := requested_run config.procs
    (pager.pageit (midTick config.procs s.2).pentry s.1) (midTick config.procs s.2)
  rw [hblocked.pool_eq] at haged
  exact ⟨hblocked.still.trans (paged_allage config.procs _).still,
    ⟨hcall.1.processes, hcall.1.still.control⟩, haged, hcall.2 h.midTick.npages⟩

/-- A run of the main loop in which no job computes, although some are loaded. -/
structure Stuck (config : Config) (pager : Pager) (inv : pager.State → Prop)
    (run : Nat → pager.State × State) : Prop where
  reaches : config.Reaches (run 0).2
  memory : inv (run 0).1
  step : ∀ t, run (t + 1) = tick pager config.procs (run t)
  quiet : ∀ t, (run t).2.Quiet
  loaded : ∃ slot k, (run 0).2.processes slot = some k
  page_lt : ∀ k, ((run 0).2.queue k).page < maxProcPages

/-- The same up to a horizon. -/
structure StuckFor (config : Config) (pager : Pager) (inv : pager.State → Prop) (horizon : Nat)
    (run : Nat → pager.State × State) : Prop where
  reaches : config.Reaches (run 0).2
  memory : inv (run 0).1
  step : ∀ t, run (t + 1) = tick pager config.procs (run t)
  quiet : ∀ t, t < horizon → (run t).2.Quiet
  loaded : ∃ slot k, (run 0).2.processes slot = some k
  page_lt : ∀ k, ((run 0).2.queue k).page < maxProcPages

theorem Stuck.for {run : Nat → pager.State × State} (h : Stuck config pager inv run)
    (horizon : Nat) : StuckFor config pager inv horizon run :=
  ⟨h.reaches, h.memory, h.step, fun t _ => h.quiet t, h.loaded, h.page_lt⟩

section Stuck

variable {horizon : Nat} {run : Nat → pager.State × State}
  (h : StuckFor config pager inv horizon run)

include h

theorem StuckFor.reaches_run (t : Nat) : config.Reaches (run t).2 := by
  induction t with
  | zero => exact h.reaches
  | succ t ih =>
      rw [h.step]
      exact ih.ticks pager (run t) 1

theorem StuckFor.memory_run (live : pager.Live inv) (t : Nat) : inv (run t).1 := by
  induction t with
  | zero => exact h.memory
  | succ t ih =>
      rw [h.step]
      exact live.call ih (talk_exchanges (PageCall.answer config.procs) _ _)

theorem StuckFor.quietTick {t : Nat} (hend : t < horizon) :
    QuietTick (run t).2 (midTick config.procs (run t).2) (run (t + 1)).2 := by
  rw [h.step]
  exact Simulator.quietTick (run t) (h.reaches_run t) (h.quiet t hend)

theorem StuckFor.still {t : Nat} (hend : t ≤ horizon) : Still (run 0).2 (run t).2 := by
  induction t with
  | zero => exact ⟨rfl, fun _ => rfl⟩
  | succ t ih =>
      have htick := h.quietTick hend
      exact (ih (Nat.le_of_succ_le hend)).trans (htick.still_mid.trans htick.still)

theorem StuckFor.still_mid {t : Nat} (hend : t < horizon) :
    Still (run 0).2 (midTick config.procs (run t).2) :=
  (h.still hend.le).trans (h.quietTick hend).still_mid

end Stuck

/-- The pages that the loaded jobs need. -/
def State.Demand (s : State) (c : Cell) : Prop :=
  (∃ slot, s.processes slot = some c.1) ∧ (s.queue c.1).page = c.2

/-- The pool of a stuck run is stalled. -/
theorem StuckFor.stalled (live : pager.Live inv) {horizon : Nat} {run : Nat → pager.State × State}
    (h : StuckFor config pager inv horizon run) :
    Stalled pageWait horizon (run 0).2.Demand (fun t => (run t).2.pool)
      (fun t => (midTick config.procs (run t).2).pool) where
  wait_pos := pageWait_pos
  lower t := (h.reaches_run t).framed.balanced.lower
  upper t := (h.reaches_run t).framed.balanced.upper
  avail_nonneg t := (h.reaches_run t).framed.avail_nonneg
  aged _ hend := (h.quietTick hend).aged
  served _ hend := (h.quietTick hend).served
  never := by
    rintro t c hend ⟨⟨slot, hslot⟩, hpage⟩
    have hquiet := h.quiet t hend slot c.1 ((h.still hend.le).processes ▸ hslot)
    rwa [(h.still hend.le).page, hpage] at hquiet
  keeps := by
    rintro t c hend ⟨⟨slot, hslot⟩, hpage⟩ hin
    show (run (t + 1)).2.pool.cell c = 0
    rw [h.step]
    exact callyou_keeps (fun _ _ _ => live.keeps) (h.reaches_run t).midTick
      ((h.still_mid hend).processes ▸ hslot) (((h.still_mid hend).page c.1).trans hpage) hin
  first := by
    obtain ⟨first, k, hk, hbefore⟩ := first_loaded h.loaded
    refine ⟨(k, ⟨_, h.page_lt k⟩), ⟨⟨_, hk⟩, rfl⟩, fun t hend hout havail => ?_⟩
    have hleast : ∀ other, other < first →
        (midTick config.procs (run t).2).processes other = none := by
      intro other hother
      rw [(h.still_mid hend).processes]
      exact hbefore other hother
    have hslot := (congrFun (h.still_mid hend).processes _).trans hk
    have hcoming : (run (t + 1)).2.pool.cell (k, ⟨_, h.page_lt k⟩) = pageWait := by
      rw [h.step]
      exact callyou_first live (h.reaches_run t).midTick hslot hleast
        ((h.still_mid hend).page k) hout havail
    have hwait := pageWait_pos
    show (run (t + 1)).2.pool.cell _ ≠ _
    omega

end Pagers

end OperatingSystems.Simulator
