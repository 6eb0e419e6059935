import OperatingSystems.PagerLruProgress
import OperatingSystems.PagerBasicSerial
import OperatingSystems.SimulatorSpent

/-!
`pager-lru` with room for all. As long as the processors together cannot use more pages than there
are frames, no request is refused and no page is given up, whatever the choice of the victim would
have been; every job then waits exactly once for every page that it uses.
-/

namespace OperatingSystems.Simulator

open Loop Runs Frames CallTree

variable {config : Config} {s : State}

/-! ### Frames enough -/

/-- There is a frame for every page of every processor. -/
def Config.Roomy (config : Config) : Prop := (config.procs * maxProcPages : Int) ≤ physicalPages

/-- While a page of a loaded job is out, not all frames are in use. -/
theorem Config.Roomy.avail_ne (hroomy : config.Roomy) (hreach : config.Reaches s) {slot : Nat}
    {c : Cell} (hslot : s.processes slot = some c.1) (hout : s.pool.cell c < -pageWait) :
    s.pool.avail ≠ 0 := by
  classical
  obtain ⟨fuel, jobs, -, hsched⟩ := hreach.scheduled
  have hframed := hreach.framed
  set busy := Finset.univ.filter fun c : Cell => -pageWait ≤ s.pool.cell c with hbusy
  have hnot : c ∉ busy := by
    rw [hbusy, Finset.mem_filter, not_and]
    omega
  have hsum : ∑ c, held pageWait (s.pool.cell c) = busy.card := by
    rw [hbusy, Finset.natCast_card_filter]
    rfl
  -- Every cell in use is a page of a slot.
  have hcover : insert c busy ⊆ (Finset.range config.procs ×ˢ Finset.univ).image
      fun place : Nat × Fin maxProcPages => ((s.processes place.1).getD c.1, place.2) := by
    intro d hd
    have hloaded : ∃ slot, s.processes slot = some d.1 := by
      rcases Finset.mem_insert.mp hd with rfl | hmem
      · exact ⟨slot, hslot⟩
      · by_contra hidle
        have hgone := hframed.idle d.1 (not_exists.mp hidle) d.2
        have hheld : -pageWait ≤ s.pool.cell (d.1, d.2) := (Finset.mem_filter.mp hmem).2
        omega
    obtain ⟨place, hplace⟩ := hloaded
    refine Finset.mem_image.mpr ⟨(place, d.2), ?_, by simp only [hplace, Option.getD_some]⟩
    exact Finset.mem_product.mpr
      ⟨Finset.mem_range.mpr (hsched.slot_lt place d.1 hplace), Finset.mem_univ _⟩
  have hcard : busy.card + 1 ≤ config.procs * maxProcPages := by
    calc
      busy.card + 1 = (insert c busy).card := (Finset.card_insert_of_notMem hnot).symm
      _ ≤ _ := (Finset.card_le_card hcover).trans Finset.card_image_le
      _ = config.procs * maxProcPages := by
        rw [Finset.card_product, Finset.card_range, Finset.card_univ, Fintype.card_fin]
  have htotal := hframed.balanced.total
  have hroom : (config.procs * maxProcPages : Int) ≤ physicalPages := hroomy
  rw [hsum] at htotal
  push_cast [← Int.ofNat_le] at hcard
  omega

/-! ### One call -/

/-- What a call has done when it has served the first slots: the pages that the jobs in these slots
are on are on their way if they were out, and nothing else has moved. -/
structure ServedTo (config : Config) (s : State) (n : Nat) (s' : State) : Prop where
  reaches : config.Reaches s'
  paged : Paged s s'
  asked : ∀ slot k, slot < n → s.processes slot = some k → ∀ j : Fin maxProcPages,
    s'.pool.cell (k, j) =
      if j.val = (s.queue k).page ∧ s.pool.cell (k, j) < -pageWait then pageWait
      else s.pool.cell (k, j)
  rest : ∀ k, (∀ slot, slot < n → s.processes slot ≠ some k) → ∀ j : Fin maxProcPages,
    s'.pool.cell (k, j) = s.pool.cell (k, j)

variable {n : Nat} {s' : State}

theorem lruServe_absent {q : Snapshot} {proc : Nat} (hactive : (q proc).active = true)
    (hpage : (q proc).pages (q proc).page = false) (st : Lru) :
    ∃ next, lruServe q proc st = call (.pagein proc (q proc).page) next ∧
      next true = ret (st.stamp proc (q proc).page) := by
  rw [lruServe, if_pos hactive]
  simp only [hpage, Bool.false_eq_true, if_false, ask_bind]
  exact ⟨_, rfl, rfl⟩

section Serve

variable (hreach : config.Reaches s)

include hreach

/-- The job in the next slot has not been touched. -/
theorem ServedTo.untouched (h : ServedTo config s n s') {k : Fin queueSize}
    (hslot : s.processes n = some k) (j : Fin maxProcPages) :
    s'.pool.cell (k, j) = s.pool.cell (k, j) := by
  obtain ⟨fuel, jobs, -, hsched⟩ := hreach.scheduled
  refine h.rest k (fun slot hlt hk => ?_) j
  obtain rfl := hsched.one_slot slot n k hk hslot
  exact lt_irrefl _ hlt

variable (hroomy : config.Roomy) (hpage : ∀ k, (s.queue k).page < maxProcPages)
  (hundisturbed : ∀ k, (s.queue k).Undisturbed)

include hroomy hundisturbed

/-- The page that the job in the next slot is on is granted. -/
theorem ServedTo.granted (h : ServedTo config s n s') {k : Fin queueSize}
    (hslot : s.processes n = some k) :
    ((PageCall.pagein n (s.pentry n).page).answer config.procs s').1 = true ∧
      ∀ c, ((PageCall.pagein n (s.pentry n).page).answer config.procs s').2.pool.cell c =
        if c = (k, ⟨(s.queue k).page, hpage k⟩) ∧ s'.pool.cell c < -pageWait then pageWait
        else s'.pool.cell c := by
  have hwait := pageWait_pos
  obtain ⟨-, hpageOf⟩ := pentry_of_some hslot
  set page : Fin maxProcPages := ⟨(s.queue k).page, hpage k⟩
  have hslot' : s'.processes n = some k := h.paged.processes ▸ hslot
  have hcell : s'.pool.cell (k, page) < -pageWait ∨ 0 ≤ s'.pool.cell (k, page) := by
    have hrest : s.pool.cell (k, page) = -pageWait - 1 ∨ 0 ≤ s.pool.cell (k, page) :=
      hundisturbed k page
    rw [h.untouched hreach hslot]
    omega
  rw [hpageOf]
  exact pagein_granted h.reaches hslot' page hcell
    fun hout => hroomy.avail_ne h.reaches (c := (k, page)) hslot' hout

include hpage

/-- The service of one more slot. -/
theorem ServedTo.serve (h : ServedTo config s n s') (st : Lru) :
    ServedTo config s (n + 1)
      (run (PageCall.answer config.procs) (lruServe s.pentry n st) s').2 := by
  have hwait := pageWait_pos
  obtain ⟨fuel, jobs, -, hsched⟩ := hreach.scheduled
  cases hslot : s.processes n with
  | none =>
      have hinactive : (s.pentry n).active = false := by simp [State.pentry, hslot]
      rw [lruServe_inactive hinactive, run_ret]
      refine ⟨h.reaches, h.paged, fun slot k hlt hk => ?_, fun k hidle =>
        h.rest k fun slot hlt => hidle slot (Nat.lt_succ_of_lt hlt)⟩
      rcases Nat.lt_succ_iff_lt_or_eq.mp hlt with hbefore | rfl
      · exact h.asked slot k hbefore hk
      · rw [hslot] at hk
        cases hk
  | some k =>
      obtain ⟨hactive, hpageOf⟩ := pentry_of_some hslot
      rw [(hsched.running n k hslot).active] at hactive
      have hself : ∀ j : Fin maxProcPages, s'.pool.cell (k, j) = s.pool.cell (k, j) :=
        h.untouched hreach hslot
      have hother : ∀ {slot k'}, slot < n → s.processes slot = some k' → k' ≠ k := by
        rintro slot k' hlt hk rfl
        obtain rfl := hsched.one_slot slot n k' hk hslot
        exact lt_irrefl _ hlt
      cases hresident : (s.pentry n).pages (s.pentry n).page with
      | true =>
          rw [lruServe_resident hactive hresident, run_ret]
          obtain ⟨c, hc, hon, hzero⟩ := (pentry_pages_iff hreach.npages).mp hresident
          obtain rfl : c.1 = k := Option.some.inj (hc.symm.trans hslot)
          refine ⟨h.reaches, h.paged, fun slot k' hlt hk' j => ?_, fun k' hidle =>
            h.rest k' fun slot hlt => hidle slot (Nat.lt_succ_of_lt hlt)⟩
          rcases Nat.lt_succ_iff_lt_or_eq.mp hlt with hbefore | rfl
          · exact h.asked slot k' hbefore hk' j
          · obtain rfl : c.1 = k' := Option.some.inj (hslot.symm.trans hk')
            rw [hself, if_neg]
            rintro ⟨hjpage, hlt⟩
            have hsame : j = c.2 := Fin.ext (by rw [hjpage, ← hpageOf, hon])
            have hin : s.pool.cell (c.1, j) = 0 := by rw [hsame]; exact hzero
            omega
      | false =>
          obtain ⟨next, hnext, hgranted⟩ := lruServe_absent hactive hresident st
          obtain ⟨hanswer, hcells⟩ := h.granted hreach hroomy hpage hundisturbed hslot
          rw [hnext, run_call, hanswer, hgranted, run_ret]
          refine ⟨h.reaches.phase (a := .request _) rfl,
            h.paged.trans (paged_answer config.procs _ s'), fun slot k' hlt hk' j => ?_,
            fun k' hidle j => ?_⟩
          · rw [hcells]
            rcases Nat.lt_succ_iff_lt_or_eq.mp hlt with hbefore | rfl
            · rw [if_neg fun hask => hother hbefore hk' (Prod.mk.inj hask.1).1]
              exact h.asked slot k' hbefore hk' j
            · obtain rfl : k = k' := Option.some.inj (hslot.symm.trans hk')
              rw [hself]
              simp only [Prod.mk.injEq, true_and, Fin.ext_iff]
          · have hne : k' ≠ k := fun heq => hidle n (Nat.lt_succ_self n) (heq ▸ hslot)
            rw [hcells, if_neg fun hask => hne (Prod.mk.inj hask.1).1]
            exact h.rest k' (fun slot hlt => hidle slot (Nat.lt_succ_of_lt hlt)) j

theorem lru_sweep_servedTo (n : Nat) (st : Lru) : ServedTo config s n
    (run (PageCall.answer config.procs) (sweep (lruServe s.pentry) n st) s).2 := by
  induction n with
  | zero =>
      exact ⟨hreach, .refl s, fun _ _ hlt => absurd hlt (Nat.not_lt_zero _), fun _ _ _ => rfl⟩
  | succ n ih =>
      rw [sweep, run_bind]
      exact ih.serve hreach hroomy hpage hundisturbed _

/-- A call asks for the page that each job is on. -/
theorem lru_servedTo (st : Lru) :
    ServedTo config s maxProcesses (callyou lru config.procs (st, s)).2 := by
  have hall := lru_sweep_servedTo hreach hroomy hpage hundisturbed maxProcesses st
  rw [callyou, lru_pageit, run_bind]
  generalize run (PageCall.answer config.procs) (sweep (lruServe s.pentry) maxProcesses st) s = r
    at hall ⊢
  exact hall

end Serve

/-! ### The run -/

theorem Process.Undisturbed.stepped {q : Process} (h : q.Undisturbed) (hactive : q.active = true)
    (hnpages : q.npages = maxProcPages) : q.stepped.Undisturbed := by
  by_cases hin : q.pages q.page = 0
  · cases hnext : q.toControl.next with
    | none =>
        intro page
        left
        rw [stepped_exit hactive hin hnext]
        exact Process.Undisturbed.unload (q := q.chargeCompute) h hnpages page
    | some c =>
        rw [stepped_compute hactive hin hnext]
        exact h
  · rw [stepped_blocked hactive hin]
    exact h

/-- A page that is not on its way out before an iteration is not when the pager is called. -/
theorem shown_undisturbed {pager : Pager} {s₀ : State} (h : config.Starts s₀)
    (hundisturbed : ∀ k, ((config.run pager s₀ n).2.queue k).Undisturbed) (k : Fin queueSize) :
    ((config.shown pager s₀ n).queue k).Undisturbed := by
  have hwait := pageWait_pos
  obtain ⟨fuel, jobs, -, hsched⟩ := run_scheduled pager h
  have hstep : ((allstep config.procs (config.run pager s₀ n).2).queue k).Undisturbed := by
    by_cases hloaded : ∃ slot, (config.run pager s₀ n).2.processes slot = some k
    · obtain ⟨slot, hslot⟩ := hloaded
      rw [allstep_queue_of_loaded (hsched n).toPlaced hslot]
      exact (hundisturbed k).stepped ((hsched n).running slot k hslot).active
        ((run_reaches pager h n).npages k)
    · rw [allstep_queue_of_idle (hsched n).toPlaced (not_exists.mp hloaded)]
      exact hundisturbed k
  intro j
  have hcell : ((config.shown pager s₀ n).queue k).pages j =
      ageCell pageWait (((allstep config.procs (config.run pager s₀ n).2).queue k).pages j) :=
    (aged_allage (run_reaches pager h n).allstep).cell (k, j)
  have hbefore := hstep j
  rw [hcell, ageCell]
  split_ifs <;> omega

section Run

variable {s₀ : State} (h : config.Starts s₀) (htable : config.table = programs)
  (hroomy : config.Roomy)

include h htable hroomy

theorem lru_call_servedTo (hundisturbed : ∀ k, ((config.run lru s₀ n).2.queue k).Undisturbed) :
    ServedTo config (config.shown lru s₀ n) maxProcesses
      (callyou lru config.procs ((config.run lru s₀ n).1, config.shown lru s₀ n)).2 :=
  lru_servedTo (shown_reaches lru h n) hroomy ((shown_reaches lru h n).page_lt htable)
    (shown_undisturbed h hundisturbed) _

/-- No page is ever given up. -/
theorem lru_undisturbed (n : Nat) (k : Fin queueSize) :
    ((config.run lru s₀ n).2.queue k).Undisturbed := by
  have hwait := pageWait_pos
  induction n generalizing k with
  | zero =>
      obtain ⟨fuel, jobs, hjobs, hqueue, -⟩ := start_boot h
      intro j
      left
      show (s₀.queue k).pages j = -pageWait - 1
      rw [hqueue, (initqueue_fresh hjobs k).pages]
  | succ n ih =>
      have hserved := lru_call_servedTo h htable hroomy ih
      intro j
      have hshown := shown_undisturbed h ih k j
      have hcell := run_succ_called config lru s₀ n (k, j)
      show (config.run lru s₀ (n + 1)).2.pool.cell (k, j) = -pageWait - 1 ∨
        0 ≤ (config.run lru s₀ (n + 1)).2.pool.cell (k, j)
      rw [hcell]
      by_cases hloaded : ∃ slot, slot < maxProcesses ∧
          (config.shown lru s₀ n).processes slot = some k
      · obtain ⟨slot, hlt, hslot⟩ := hloaded
        rw [hserved.asked slot k hlt hslot]
        split_ifs
        · exact Or.inr hwait.le
        · exact hshown
      · rw [hserved.rest k fun slot hlt hslot => hloaded ⟨slot, hlt, hslot⟩]
        exact hshown

theorem lru_attends (n : Nat) (k : Fin queueSize) : config.Attends lru s₀ n k := by
  intro slot hslot j
  obtain ⟨fuel, jobs, -, hsched⟩ := (shown_reaches lru h n).scheduled
  have hserved := lru_call_servedTo h htable hroomy (lru_undisturbed h htable hroomy n)
  have hlt := (hsched.slot_lt slot k hslot).trans_le config.procs_le
  rw [run_succ_called]
  exact hserved.asked slot k hlt hslot j

end Run

/-- **With room for all, every page is waited for once.** If there is a frame for every page of
every processor, `pager-lru` never gives up a page, and when the main loop ends each job has been
blocked for exactly `PAGEWAIT` ticks for each page on which it has executed an instruction, and for
one tick more if it was loaded at the start. -/
theorem lru_waits_once (config : Config) (htable : config.table = programs)
    (hroomy : config.Roomy) (s₀ : State) (h : config.Starts s₀) :
    (∀ n k (page : Fin maxProcPages), ((config.run lru s₀ n).2.queue k).pages page < -pageWait ∨
      0 ≤ ((config.run lru s₀ n).2.queue k).pages page) ∧
    ∀ fuel s, mainLoop lru config.procs fuel (lru.init, s₀) = some s → ∀ k,
      (s.queue k).block = pageWait.toNat * (s.queue k).pagesUsed.card +
        if k.val < config.procs then 1 else 0 := by
  refine ⟨?_, ?_⟩
  · intro n k page
    have hpage := lru_undisturbed h htable hroomy n k page
    omega
  · intro fuel s hloop k
    obtain ⟨n, rfl, -, hidle⟩ := mainLoop_run h hloop
    exact block_of_attends h htable (lru_attends h htable hroomy) (hidle k).1 (hidle k).2

/-- Five processors. -/
def fiveConfig : Config where
  table := programs
  procs := 5
  rand := alternating
  procs_pos := by decide
  procs_le := by decide

theorem lru_waits_once_five : ∃ s₀ fuel s, fiveConfig.Starts s₀ ∧
    mainLoop lru fiveConfig.procs fuel (lru.init, s₀) = some s ∧
      (s.queue 0).block = pageWait.toNat * (s.queue 0).pagesUsed.card + 1 := by
  have hroomy : fiveConfig.Roomy := by unfold Config.Roomy; decide
  obtain ⟨s₀, hstart⟩ : ∃ s₀, fiveConfig.Starts s₀ := starts_of_alternating rfl rfl
  obtain ⟨fuel, s, hloop⟩ := (live_terminates rfl lru_live hstart).1
  exact ⟨s₀, fuel, s, hstart, hloop,
    (lru_waits_once fiveConfig rfl hroomy s₀ hstart).2 fuel s hloop 0⟩

end OperatingSystems.Simulator
