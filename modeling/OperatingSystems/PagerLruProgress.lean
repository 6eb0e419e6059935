import OperatingSystems.PagerLru
import OperatingSystems.SimulatorProgress

/-!
The simulation terminates under `pager-lru`. Although its victim has nothing to do with the use of
the pages, the victim walks over all pages with the clock, so that a process which cannot get its
page gives up, within `MAXPROCPAGES` ticks, every page it has.
-/

namespace OperatingSystems.Simulator

open CallTree

variable {q : Snapshot} {st : Lru}

theorem lruServe_inactive {proc : Nat} (hactive : (q proc).active = false) (st : Lru) :
    lruServe q proc st = ret st := by
  rw [lruServe, hactive, if_neg (by decide)]
  rfl

theorem lruServe_resident {proc : Nat} (hactive : (q proc).active = true)
    (hpage : (q proc).pages (q proc).page = true) (st : Lru) :
    lruServe q proc st = ret (st.stamp proc (q proc).page) := by
  rw [lruServe, if_pos hactive]
  exact if_pos hpage

theorem lruServe_first {proc : Nat} (hactive : (q proc).active = true)
    (hpage : (q proc).pages (q proc).page = false) (st : Lru) :
    ∃ next, lruServe q proc st = call (.pagein proc (q proc).page) next := by
  rw [lruServe, if_pos hactive]
  simp only [hpage, Bool.false_eq_true, if_false, ask_bind]
  exact ⟨_, rfl⟩

theorem lru_keeps {slot : Nat} (hactive : (q slot).active = true)
    (hpage : (q slot).pages (q slot).page = true) :
    Only (fun r => ∀ page, r ≠ .pageout slot page) (lru.pageit q st) := by
  have hserve := serve_keeps (lruServe_only q)
    fun st => ⟨_, lruServe_resident hactive hpage st⟩
  rw [lru_pageit]
  exact (Only.sweep (fun proc st _ => hserve proc st) st).bind fun _ => .ret _

theorem lru_first {slot : Nat} (hslot : slot < maxProcesses) (hactive : (q slot).active = true)
    (hpage : (q slot).pages (q slot).page = false)
    (hbefore : ∀ other, other < slot → (q other).active = false) :
    ∃ next, lru.pageit q st = call (.pagein slot (q slot).page) next := by
  obtain ⟨next, hnext⟩ := sweep_first hslot
    (fun other st hother => ⟨st, lruServe_inactive (hbefore other hother) st⟩)
    (lruServe_first hactive hpage) st
  exact ⟨_, by rw [lru_pageit, hnext, call_bind]⟩

/-- In a frozen system the clock comes round to a resident page within `MAXPROCPAGES` calls. -/
theorem lru_thaws {st : Nat → Lru} {log : Nat → List (PageCall × Bool)}
    (hpast : ∀ t, (st t).Past) : ¬FrozenFor lru maxProcPages q st log := by
  intro h
  obtain ⟨slot, page, hslot, hpage, hactive, hresident⟩ := h.resident
  have htick : ∀ t, t ≤ maxProcPages → (st t).tick = (st 0).tick + t := by
    intro t
    induction t with
    | zero => exact fun _ => rfl
    | succ t ih =>
        intro ht
        rw [((hpast t).pageit (h.talk t ht)).2, ih (Nat.le_of_succ_le ht)]
        rfl
  obtain ⟨t, hlt, ht⟩ : ∃ t, t < maxProcPages ∧ ((st 0).tick + t) % maxProcPages = page := by
    refine ⟨(page + maxProcPages - (st 0).tick % maxProcPages) % maxProcPages, ?_, ?_⟩
    · exact Nat.mod_lt _ (by decide)
    · simp only [maxProcPages] at hpage ⊢
      omega
  obtain ⟨st₁, mid, st₂, hbefore, hservice, hmem⟩ :=
    service_of_pageit (hpast t) (h.talk t hlt) hslot
  have hblocked := h.blocked slot hactive
  cases hservice with
  | inactive hinactive => simp [hactive] at hinactive
  | resident _ hpage => simp [hblocked] at hpage
  | coming _ _ =>
      have hgranted := h.refused t slot _ hlt ((hmem _ rfl).mpr List.mem_cons_self)
      simp [hblocked] at hgranted
  | swap _ _ going coming =>
      have hgone := h.kept t slot _ going hlt
        ((hmem _ rfl).mpr (List.mem_cons_of_mem _ List.mem_cons_self))
      rw [hbefore.tick, htick t hlt.le, ht] at hgone
      simp [hresident] at hgone

theorem lru_live : lru.Live Lru.Past where
  init := fun _ _ => Nat.zero_le _
  call := fun hpast htalk => (Lru.Past.pageit hpast htalk).1
  keeps := lru_keeps
  first := lru_first
  thaws := fun hpast h => lru_thaws hpast (h.for maxProcPages)

/-- Under `pager-lru`, whatever the random stream, the main loop ends, and from every state of its
run in which a process is active, some process computes later on. -/
theorem lru_terminates (config : Config) (htable : config.table = programs) (s : State)
    (h : config.Starts s) :
    (∃ fuel s', mainLoop lru config.procs fuel (lru.init, s) = some s') ∧
    ∀ n, alldone config.procs ((tick lru config.procs)^[n] (lru.init, s)).2 = false →
      ∃ m, n < m ∧ ((tick lru config.procs)^[n] (lru.init, s)).2.computeTotal <
        ((tick lru config.procs)^[m] (lru.init, s)).2.computeTotal :=
  live_terminates htable lru_live h

theorem lru_terminates_alternating : ∃ s, alternatingConfig.Starts s ∧
    ∃ fuel s', mainLoop lru alternatingConfig.procs fuel (lru.init, s) = some s' := by
  obtain ⟨s, hstart⟩ := alternatingConfig_starts
  exact ⟨s, hstart, (lru_terminates alternatingConfig rfl s hstart).1⟩

end OperatingSystems.Simulator
