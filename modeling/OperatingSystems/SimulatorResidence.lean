import OperatingSystems.SimulatorCharges

/-!
Pages in use. A pager that makes no call against a page that it is shown in use takes no such page
away, whatever its own calls have changed in the meantime; and a job that has computed on a page
then finds it there as long as it stays on it.
-/

namespace OperatingSystems.Simulator

open Loop Runs Frames CallTree

/-! ### The calls of an iteration -/

/-- The state that the pager is shown in iteration `n`. -/
def Config.shown (config : Config) (pager : Pager) (s₀ : State) (n : Nat) : State :=
  midTick config.procs (config.run pager s₀ n).2

/-- The calls that the pager makes in iteration `n`, with the states in which it makes them. -/
def Config.calls (config : Config) (pager : Pager) (s₀ : State) (n : Nat) :
    List (PageCall × State) :=
  (pager.pageit (config.shown pager s₀ n).pentry (config.run pager s₀ n).1).moments
    (PageCall.answer config.procs) (config.shown pager s₀ n)

variable {config : Config} (pager : Pager) {s₀ : State}

theorem shown_reaches (h : config.Starts s₀) (n : Nat) :
    config.Reaches (config.shown pager s₀ n) :=
  (run_reaches pager h n).midTick

/-- Where an iteration leads from what the pager is shown. -/
theorem run_succ_callyou (n : Nat) : (config.run pager s₀ (n + 1)).2 =
    { (callyou pager config.procs ((config.run pager s₀ n).1, config.shown pager s₀ n)).2 with
      sysclock := (callyou pager config.procs
        ((config.run pager s₀ n).1, config.shown pager s₀ n)).2.sysclock + 1 } := by
  rw [run_succ]
  rfl

/-- The conversation of an iteration, from what the pager remembers to what it then remembers. -/
theorem run_talk (n : Nat) :
    ∃ log, Talk (pager.pageit (config.shown pager s₀ n).pentry (config.run pager s₀ n).1) log
      (config.run pager s₀ (n + 1)).1 := by
  rw [run_succ]
  exact ⟨_, talk_exchanges (PageCall.answer config.procs) _ (config.shown pager s₀ n)⟩

theorem run_succ_requested (n : Nat) :
    Requested (config.shown pager s₀ n) (config.run pager s₀ (n + 1)).2 := by
  obtain ⟨hpaged, hserved⟩ := requested_run config.procs
    (pager.pageit (config.shown pager s₀ n).pentry (config.run pager s₀ n).1)
    (config.shown pager s₀ n)
  rw [run_succ_callyou]
  exact ⟨hpaged.trans (paged_clock _ _), hserved⟩

variable {pager}

section Calls

variable {n : Nat} {x : PageCall × State} (hx : x ∈ config.calls pager s₀ n)

include hx

theorem calls_requested : Requested (config.shown pager s₀ n) x.2 :=
  (moments_relates .refl Requested.trans requested_answer hx).1

theorem calls_reaches (h : config.Starts s₀) : config.Reaches x.2 := by
  obtain ⟨s₁, hstart, hreach⟩ := shown_reaches pager h n
  have hcall : Reachable (phase config.procs) (config.shown pager s₀ n) x.2 :=
    (moments_relates (fun _ => .refl) (fun _ _ _ => Reach.trans)
      (fun r s => reachable_step (show phase config.procs s (.request r) = _ from rfl)) hx).1
  exact ⟨s₁, hstart, hreach.trans hcall⟩

/-- A page that is resident when a call is made was resident in the snapshot. -/
theorem calls_resident (h : config.Starts s₀) {c : Cell} (hin : x.2.pool.cell c = 0) :
    (config.shown pager s₀ n).pool.cell c = 0 := by
  have hwait := pageWait_pos
  have hserved := (calls_requested hx).2 (shown_reaches pager h n).npages
  rcases hserved.cell c with hsame | ⟨hzero, -⟩ | ⟨-, hcoming⟩
  · exact hsame.symm.trans hin
  · exact hzero
  · omega

/-- No call of the pager takes away a page that is in use. -/
theorem calls_keep (keeps : pager.Keeps) (htable : config.table = programs)
    (h : config.Starts s₀) (k : Fin queueSize) (hin : (x.2.queue k).pages (x.2.queue k).page = 0) :
    ((x.1.answer config.procs x.2).2.queue k).pages (x.2.queue k).page = 0 := by
  have hreach := calls_reaches hx h
  have hpaged := (calls_requested hx).1
  by_cases hloaded : ∃ slot, x.2.processes slot = some k
  · obtain ⟨slot, hslot⟩ := hloaded
    obtain ⟨fuel, jobs, -, hsched⟩ := hreach.scheduled
    set j : Fin maxProcPages := ⟨_, hreach.page_lt htable k⟩
    have hbefore : (config.shown pager s₀ n).processes slot = some k := hpaged.processes ▸ hslot
    have hthen : (config.shown pager s₀ n).pool.cell (k, j) = 0 := calls_resident hx h hin
    obtain ⟨hactive, hpage⟩ := pentry_of_some hbefore
    rw [← hpaged.active, (hsched.running slot k hslot).active] at hactive
    rw [← hpaged.still.page] at hpage
    have hshown : ((config.shown pager s₀ n).pentry slot).pages
        ((config.shown pager s₀ n).pentry slot).page = true := by
      rw [hpage, pentry_pages_iff (shown_reaches pager h n).npages]
      exact ⟨(k, j), hbefore, rfl, hthen⟩
    have hcall := (keeps _ _ slot hactive hshown).moments (PageCall.answer config.procs)
      (config.shown pager s₀ n) x hx
    exact answer_keeps hreach.npages (fun slot' hslot' => hsched.one_slot slot' slot k hslot' hslot)
      (j := j) hin hcall
  · rw [(paged_answer config.procs x.1 x.2).idle k (not_exists.mp hloaded)]
    exact hin

end Calls

/-! ### A job on its page -/

variable {n : Nat} {k : Fin queueSize}

/-- A job is loaded in some slot with the page it is on. -/
def State.OnPage (s : State) (k : Fin queueSize) : Prop :=
  (∃ slot, s.processes slot = some k) ∧ (s.queue k).pages (s.queue k).page = 0

/-- A job has been taken from the queue and is in no slot any more. -/
def State.Left (s : State) (k : Fin queueSize) : Prop :=
  k.val < s.queueend ∧ ∀ slot, s.processes slot ≠ some k

theorem left_succ (h : config.Starts s₀) (hleft : (config.run pager s₀ n).2.Left k) :
    (config.run pager s₀ (n + 1)).2.Left k ∧
      ((config.run pager s₀ (n + 1)).2.queue k).block =
        ((config.run pager s₀ n).2.queue k).block := by
  obtain ⟨fuel, jobs, -, hsched⟩ := run_scheduled pager h
  obtain ⟨hlt, hidle⟩ := hleft
  have hlater : Later (config.run pager s₀ n).2 (config.run pager s₀ (n + 1)).2 :=
    run_later pager n 1
  refine ⟨⟨hlt.trans_le hlater.queueend_le, ?_⟩, ?_⟩
  · intro slot hslot
    rcases hlater.loaded slot k hslot with hbefore | hqueued
    · exact hidle slot hbefore
    · exact absurd hlt (not_lt.mpr hqueued)
  · rw [run_succ]
    exact (tick_charges_idle pager (hsched n).toPlaced hidle).1

/-- If the next instruction is on the same page, the job finds the page there. -/
theorem onPage_succ (keeps : pager.Keeps) (htable : config.table = programs)
    (h : config.Starts s₀) (hon : (config.run pager s₀ n).2.OnPage k) :
    ((config.run pager s₀ (n + 1)).2.queue k).block =
      ((config.run pager s₀ n).2.queue k).block ∧
    ((config.run pager s₀ (n + 1)).2.Left k ∨
      (((config.run pager s₀ (n + 1)).2.queue k).page =
        ((config.run pager s₀ n).2.queue k).page → (config.run pager s₀ (n + 1)).2.OnPage k)) := by
  obtain ⟨⟨slot, hslot⟩, hin⟩ := hon
  obtain ⟨fuel, jobs, hjobs, hsched⟩ := run_scheduled pager h
  have hreach := run_reaches pager h n
  have hpaged : Paged (allstep config.procs (config.run pager s₀ n).2)
      (config.run pager s₀ (n + 1)).2 := by
    rw [run_succ]
    exact paged_tick pager config.procs _
  have hstep := allstep_queue_of_loaded (hsched n).toPlaced hslot
  have hactive := ((hsched n).running slot k hslot).active
  have hblock := stepped_block hactive hin
  have hpages := stepped_pages hactive
  rw [← hstep] at hblock hpages
  refine ⟨(hpaged.block k).trans hblock, ?_⟩
  have hlt : k.val < (config.run pager s₀ (n + 1)).2.queueend :=
    ((hsched n).loaded_lt slot k hslot).trans_le (run_later pager n 1).queueend_le
  rcases (hsched (n + 1)).job_cases k with ⟨hwait, -⟩ | ⟨slot', hslot', hrun⟩ | ⟨-, hidle, -⟩
  · exact absurd hlt (not_lt.mpr hwait)
  · right
    intro hpage
    have hrequested : Paged (config.shown pager s₀ n) (config.run pager s₀ (n + 1)).2 :=
      (run_succ_requested pager n).1
    set j : Fin maxProcPages := ⟨_, hreach.page_lt htable k⟩ with hj
    -- The page is there after the step, is not moved by the ageing, and is kept by the pager.
    have hstill : (allstep config.procs (config.run pager s₀ n).2).pool.cell (k, j) = 0 := by
      show ((allstep config.procs (config.run pager s₀ n).2).queue k).pages j = 0
      rw [hpages ((hpaged.active k).symm.trans hrun.active), hj]
      exact hin
    have hshown : (config.shown pager s₀ n).pool.cell (k, j) = 0 := by
      rw [Config.shown, midTick, (aged_allage hreach.allstep).cell, hstill]
      rfl
    have hkept : (callyou pager config.procs
        ((config.run pager s₀ n).1, config.shown pager s₀ n)).2.pool.cell (k, j) = 0 :=
      callyou_keeps keeps (shown_reaches pager h n) (hrequested.processes ▸ hslot')
        ((hrequested.still.page k).symm.trans hpage) hshown
    refine ⟨⟨slot', hslot'⟩, ?_⟩
    rw [hpage, run_succ_callyou]
    exact hkept
  · exact Or.inl ⟨hlt, hidle⟩

/-- As long as a job stays on a page on which it has computed, it is not blocked. -/
theorem onPage_run (keeps : pager.Keeps) (htable : config.table = programs)
    (h : config.Starts s₀) (hon : (config.run pager s₀ n).2.OnPage k) (d : Nat)
    (hpage : ∀ i, i ≤ d → ((config.run pager s₀ (n + i)).2.queue k).page =
      ((config.run pager s₀ n).2.queue k).page) :
    ((config.run pager s₀ (n + d)).2.Left k ∨ (config.run pager s₀ (n + d)).2.OnPage k) ∧
      ((config.run pager s₀ (n + d + 1)).2.queue k).block =
        ((config.run pager s₀ n).2.queue k).block := by
  induction d with
  | zero => exact ⟨Or.inr hon, (onPage_succ keeps htable h hon).1⟩
  | succ d ih =>
      obtain ⟨hwhere, hblock⟩ := ih fun i hi => hpage i (Nat.le_succ_of_le hi)
      have hwhere' : (config.run pager s₀ (n + d + 1)).2.Left k ∨
          (config.run pager s₀ (n + d + 1)).2.OnPage k := by
        rcases hwhere with hleft | hon'
        · exact Or.inl (left_succ h hleft).1
        · refine (onPage_succ keeps htable h hon').2.imp_right fun hnext => hnext ?_
          exact (hpage (d + 1) le_rfl).trans (hpage d (Nat.le_succ d)).symm
      refine ⟨hwhere', ?_⟩
      rw [← hblock]
      rcases hwhere' with hleft | hon'
      · exact (left_succ h hleft).2
      · exact (onPage_succ keeps htable h hon').1

/-- A job computes in an iteration only if it is on its page. -/
theorem onPage_of_compute (h : config.Starts s₀)
    (hcompute : ((config.run pager s₀ (n + 1)).2.queue k).compute =
      ((config.run pager s₀ n).2.queue k).compute + 1) : (config.run pager s₀ n).2.OnPage k := by
  obtain ⟨fuel, jobs, -, hsched⟩ := run_scheduled pager h
  rw [run_succ] at hcompute
  by_cases hloaded : ∃ slot, (config.run pager s₀ n).2.processes slot = some k
  · refine ⟨hloaded, ?_⟩
    obtain ⟨slot, hslot⟩ := hloaded
    by_contra hout
    have hpaged := paged_tick pager config.procs (config.run pager s₀ n)
    rw [hpaged.compute, allstep_queue_of_loaded (hsched n).toPlaced hslot,
      stepped_blocked ((hsched n).running slot k hslot).active hout] at hcompute
    exact absurd hcompute (Nat.ne_of_lt (Nat.lt_succ_self _))
  · have hsame := (tick_charges_idle pager (hsched n).toPlaced (not_exists.mp hloaded)).2
    omega

end OperatingSystems.Simulator
