import OperatingSystems.SimulatorPageLog
import Mathlib.Algebra.BigOperators.Fin

/-!
What can be read off `pages.csv`. A page writes a record only when it starts to move and when it has
arrived, but its entry moves by one in each tick in between, so the last record for a page of a slot
and the time that has gone by since give the entry itself; and from all entries the number of
available frames follows.
-/

namespace OperatingSystems.Simulator

open Loop Runs Patches Frames

/-! ### The reader of `pages.csv` -/

/-- The entry of the page at a time after the record. -/
def PageRecord.entryAt (r : PageRecord) (now : Int) : Int :=
  match r.comment with
  | .out => -pageWait - 1
  | .going => r.time - now
  | .resident => 0
  | .coming => pageWait + 1 + r.time - now

/-- A record as an update of the records of all pages of all slots. -/
def PageRecord.mark (r : PageRecord) : Patch (Nat × Nat) PageRecord := fun c =>
  if c = (r.process, r.page) then some r else none

/-- The last record for a page of a slot. -/
def lastPageRecord (log : List PageRecord) (slot page : Nat) : Option PageRecord :=
  latest (log.map PageRecord.mark) (slot, page)

/-- What `pages.csv` tells about a page of a slot. -/
def readPages (log : List PageRecord) (now : Int) (slot page : Nat) : Int :=
  ((lastPageRecord log slot page).map fun r => r.entryAt now).getD (-pageWait - 1)

/-- The entry of a page of a slot; a slot without a job has no page in memory. -/
def State.entry (s : State) (slot page : Nat) : Int :=
  match s.processes slot with
  | none => -pageWait - 1
  | some k => (s.queue k).pages page

theorem lastPageRecord_concat (log : List PageRecord) (r : PageRecord) (slot page : Nat) :
    lastPageRecord (log ++ [r]) slot page =
      if slot = r.process ∧ page = r.page then some r else lastPageRecord log slot page := by
  rw [lastPageRecord, List.map_append, List.map_singleton, latest_concat, PageRecord.mark]
  simp only [Prod.mk.injEq]
  split_ifs
  · rfl
  · rfl

/-- The lines that put the pages of a slot out. -/
theorem lastPageRecord_outRecords (log : List PageRecord) (s : State) (slot slot' : Nat)
    (q : Process) {page : Nat} (hpage : page < maxProcPages) :
    lastPageRecord (log ++ s.outRecords slot q) slot' page =
      if slot' = slot then some (s.pageRecord slot q page .out)
      else lastPageRecord log slot' page := by
  have hfirst : ∀ n, lastPageRecord (log ++ (List.range n).map fun page =>
        s.pageRecord slot q page .out) slot' page =
      if slot' = slot ∧ page < n then some (s.pageRecord slot q page .out)
      else lastPageRecord log slot' page := by
    intro n
    induction n with
    | zero => simp
    | succ n ih =>
        rw [List.range_succ, List.map_append, List.map_singleton, ← List.append_assoc,
          lastPageRecord_concat, ih]
        show (if slot' = slot ∧ page = n then _ else _) = _
        by_cases hsame : slot' = slot ∧ page = n
        · obtain ⟨rfl, rfl⟩ := hsame
          rw [if_pos ⟨rfl, rfl⟩, if_pos ⟨rfl, Nat.lt_succ_self _⟩]
        · have hiff : (slot' = slot ∧ page < n + 1) ↔ (slot' = slot ∧ page < n) := by omega
          simp only [if_neg hsame, hiff]
  rw [State.outRecords, hfirst]
  simp only [hpage, and_true]

/-! ### Records that tell -/

/-- The record tells the entry at the time. -/
structure PageRecord.Tells (r : PageRecord) (now v : Int) : Prop where
  comment : r.comment = pageComment v
  entry : r.entryAt now = v

section Tells

variable {r : PageRecord} {s : State} {slot page : Nat} {q : Process} {now v : Int}

theorem tells_out (hcomment : r.comment = .out) : r.Tells now (-pageWait - 1) where
  comment := hcomment
  entry := by rw [PageRecord.entryAt, hcomment]

/-- A record of a page that is out does so at all times. -/
theorem PageRecord.Tells.anytime (h : r.Tells now (-pageWait - 1)) (now' : Int) :
    r.Tells now' (-pageWait - 1) :=
  tells_out h.comment

/-- The passage of a page from one range into another in a tick. -/
theorem ageCell_cases (v : Int) :
    (ageCell pageWait v = v ∧ (v < -pageWait ∨ v = 0)) ∨
    (ageCell pageWait v = v - 1 ∧ pageComment v = .going ∧ pageComment (v - 1) = .going) ∨
    (ageCell pageWait v = v - 1 ∧ pageComment v = .coming ∧ pageComment (v - 1) = .coming) ∨
    (ageCell pageWait v = -pageWait - 1 ∧ pageComment v = .going) ∨
    (ageCell pageWait v = 0 ∧ pageComment v = .coming) := by
  have hwait : pageWait = 100 := rfl
  have hage : ageCell pageWait v = if v = 0 ∨ v < -pageWait then v else v - 1 := rfl
  have hcomment : ∀ v, pageComment v = if v < -pageWait then .out else if v < 0 then .going
      else if v = 0 then .resident else .coming := fun _ => rfl
  rcases lt_or_ge v (-pageWait) with hout | hheld
  · exact Or.inl ⟨hage.trans (if_pos (Or.inr hout)), Or.inl hout⟩
  rcases lt_trichotomy v 0 with hgoing | hzero | hcoming
  · rw [hage, if_neg (by omega), hcomment v, if_neg (by omega), if_pos hgoing]
    by_cases hlast : v = -pageWait
    · exact Or.inr (Or.inr (Or.inr (Or.inl ⟨by omega, rfl⟩)))
    · rw [hcomment, if_neg (by omega), if_pos (by omega)]
      exact Or.inr (Or.inl ⟨rfl, rfl, rfl⟩)
  · exact Or.inl ⟨hage.trans (if_pos (Or.inl hzero)), Or.inr hzero⟩
  · rw [hage, if_neg (by omega), hcomment v, if_neg (by omega), if_neg (by omega),
      if_neg (by omega)]
    by_cases hlast : v = 1
    · exact Or.inr (Or.inr (Or.inr (Or.inr ⟨by omega, rfl⟩)))
    · rw [hcomment, if_neg (by omega), if_neg (by omega), if_neg (by omega)]
      exact Or.inr (Or.inr (Or.inl ⟨rfl, rfl, rfl⟩))

theorem entryAt_of_comment {r' : PageRecord} (hcomment : r.comment = .out ∨ r.comment = .resident)
    (h : r'.comment = r.comment) (now' : Int) : r'.entryAt now' = r.entryAt now := by
  unfold PageRecord.entryAt
  rw [h]
  rcases hcomment with hcomment | hcomment <;> rw [hcomment]

/-- A record goes on telling the entry while it moves within its range. -/
theorem PageRecord.Tells.age (h : r.Tells now v)
    (hsame : pageComment (ageCell pageWait v) = pageComment v) :
    r.Tells (now + 1) (ageCell pageWait v) := by
  refine ⟨h.comment.trans hsame.symm, ?_⟩
  have hentry := h.entry
  have hcomment := h.comment
  rcases ageCell_cases v with ⟨hage, hrest⟩ | ⟨hage, hgoing, -⟩ | ⟨hage, hcoming, -⟩ |
    ⟨hage, hgoing⟩ | ⟨hage, hcoming⟩
  · rw [hage, ← hentry]
    apply entryAt_of_comment _ rfl
    rw [hcomment]
    rcases hrest with hout | rfl
    · exact Or.inl (if_pos hout)
    · exact Or.inr rfl
  · rw [hage]
    unfold PageRecord.entryAt at hentry ⊢
    rw [hcomment, hgoing] at hentry ⊢
    simp only at hentry ⊢
    omega
  · rw [hage]
    unfold PageRecord.entryAt at hentry ⊢
    rw [hcomment, hcoming] at hentry ⊢
    simp only at hentry ⊢
    omega
  · rw [hage, hgoing] at hsame
    cases hsame
  · rw [hage, hcoming] at hsame
    cases hsame

/-- When it passes into another range there is a new record. -/
theorem tells_age (hsame : pageComment (ageCell pageWait v) ≠ pageComment v) :
    (s.pageRecord slot q page (pageComment (ageCell pageWait v))).Tells now
      (ageCell pageWait v) := by
  refine ⟨rfl, ?_⟩
  rcases ageCell_cases v with ⟨hage, -⟩ | ⟨hage, hgoing, hstill⟩ | ⟨hage, hcoming, hstill⟩ |
    ⟨hage, -⟩ | ⟨hage, -⟩
  · exact absurd (congrArg pageComment hage) hsame
  · exact absurd (by rw [hage, hgoing, hstill]) hsame
  · exact absurd (by rw [hage, hcoming, hstill]) hsame
  · rw [hage]
    rfl
  · rw [hage]
    rfl

end Tells

/-! ### The invariant -/

/-- The last records tell the entries of all pages, each at its own time. -/
def Timed (procs : Nat) (clock : Nat → Nat → Int) (l : Logged) : Prop :=
  ∀ slot, slot < procs → ∀ page, page < maxProcPages → ∃ r,
    lastPageRecord l.pages slot page = some r ∧
      r.Tells (clock slot page) (l.state.entry slot page)

variable {procs slot page : Nat} {l l' : Logged} {k : Fin queueSize} {v : Int}
  {clock clock' : Nat → Nat → Int}

theorem entry_of_loaded {s : State} (hslot : s.processes slot = some k) (page : Nat) :
    s.entry slot page = (s.queue k).pages page := by
  rw [State.entry, hslot]

theorem entry_of_vacant {s : State} (hslot : s.processes slot = none) (page : Nat) :
    s.entry slot page = -pageWait - 1 := by
  rw [State.entry, hslot]

theorem Enters.entry_eq (h : Enters l l' slot k page v) (hslot : l.state.processes slot = some k)
    (hone : ∀ slot', l.state.processes slot' = some k → slot' = slot) (slot' page' : Nat) :
    l'.state.entry slot' page' =
      if slot' = slot ∧ page' = page then v else l.state.entry slot' page' := by
  unfold State.entry
  rw [h.processes]
  cases hslot' : l.state.processes slot' with
  | none =>
      rw [if_neg]
      rintro ⟨rfl, -⟩
      exact Option.some_ne_none k (hslot.symm.trans hslot')
  | some k' =>
      simp only [h.entry k' page']
      have hiff : k' = k ↔ slot' = slot := by
        constructor
        · rintro rfl
          exact hone slot' hslot'
        · rintro rfl
          exact Option.some.inj (hslot'.symm.trans hslot)
      simp only [hiff]

/-- One entry changes, and its clock with it. -/
theorem Timed.enters (h : Timed procs clock l) (hslot : l.state.processes slot = some k)
    (hone : ∀ slot', l.state.processes slot' = some k → slot' = slot)
    (henters : Enters l l' slot k page v)
    (hother : ∀ slot' page', ¬(slot' = slot ∧ page' = page) →
      clock' slot' page' = clock slot' page')
    (hkeep : ∀ r : PageRecord, r.Tells (clock slot page) ((l.state.queue k).pages page) →
      pageComment v = pageComment ((l.state.queue k).pages page) → r.Tells (clock' slot page) v)
    (hnew : pageComment v ≠ pageComment ((l.state.queue k).pages page) →
      (l.state.pageRecord slot (l.state.queue k) page (pageComment v)).Tells
        (clock' slot page) v) : Timed procs clock' l' := by
  intro slot' hlt page' hpage'
  obtain ⟨r, hlast, htells⟩ := h slot' hlt page' hpage'
  rw [henters.entry_eq hslot hone, henters.pages]
  by_cases hsame : slot' = slot ∧ page' = page
  · rw [if_pos hsame]
    obtain ⟨rfl, rfl⟩ := hsame
    rw [entry_of_loaded hslot] at htells
    split_ifs with hrange
    · exact ⟨r, by rw [List.append_nil, hlast], hkeep r htells hrange⟩
    · exact ⟨_, (lastPageRecord_concat ..).trans (if_pos ⟨rfl, rfl⟩), hnew hrange⟩
  · rw [if_neg hsame, hother slot' page' hsame]
    refine ⟨r, ?_, htells⟩
    split_ifs with hrange
    · rw [List.append_nil, hlast]
    · exact (lastPageRecord_concat ..).trans ((if_neg hsame).trans hlast)

theorem Timed.congr (h : Timed procs clock l) (hpages : l'.pages = l.pages)
    (hentry : ∀ slot page, l'.state.entry slot page = l.state.entry slot page)
    (hclock : ∀ slot page, slot < procs → page < maxProcPages →
      clock' slot page = clock slot page ∨ l.state.processes slot = none) :
    Timed procs clock' l' := by
  intro slot hslot page hpage
  obtain ⟨r, hlast, htells⟩ := h slot hslot page hpage
  refine ⟨r, hpages ▸ hlast, ?_⟩
  rw [hentry]
  rcases hclock slot page hslot hpage with hsame | hvacant
  · rwa [hsame]
  · rw [entry_of_vacant hvacant] at htells ⊢
    exact htells.anytime _

/-! ### Ageing -/

theorem Timed.agePage (h : Timed procs clock l) (hslot : l.state.processes slot = some k)
    (hone : ∀ slot', l.state.processes slot' = some k → slot' = slot) (page : Nat) :
    Timed procs (Function.update clock slot (Function.update (clock slot) page
      (clock slot page + 1))) (l.agePage slot k page) := by
  obtain ⟨avail, hstate⟩ := agePage_eq l.state k page
  refine h.enters hslot hone (enters_setPage hstate rfl (ageComment_eq _)) ?_ ?_ ?_
  · intro slot' page' hne
    by_cases hsame : slot' = slot
    · subst hsame
      rw [Function.update_self, Function.update_of_ne fun heq => hne ⟨rfl, heq⟩]
    · rw [Function.update_of_ne hsame]
  · intro r htells hrange
    rw [Function.update_self, Function.update_self]
    exact htells.age hrange
  · intro hrange
    rw [Function.update_self, Function.update_self]
    exact tells_age hrange

/-- The clocks of the pages of a slot go on one after the other. -/
theorem Timed.ageSlot {jobs : Fin queueSize → Process} {n : Int} {i : Nat}
    (h : Timed procs (fun slot _ => if slot < i then n + 1 else n) l)
    (hplaced : Placed procs jobs l.state) (hnpages : ∀ k, (l.state.queue k).npages = maxProcPages) :
    Timed procs (fun slot _ => if slot < i + 1 then n + 1 else n) (l.ageSlot i) := by
  unfold Logged.ageSlot
  cases hslot : l.state.processes i with
  | none =>
      refine h.congr rfl (fun _ _ => rfl) fun slot _ _ _ => ?_
      by_cases hsame : slot = i
      · exact Or.inr (hsame ▸ hslot)
      · left
        have hiff : slot < i + 1 ↔ slot < i := by omega
        simp only [hiff]
  | some k =>
      simp only [(hplaced.running i k hslot).active, if_true, hnpages k]
      let clockAt : Nat → Nat → Nat → Int := fun j slot page =>
        if slot < i ∨ (slot = i ∧ page < j) then n + 1 else n
      have hloop : Timed procs (clockAt maxProcPages)
          (loop (fun l page => l.agePage i k page) maxProcPages l) := by
        refine (loop_invariant (fun j (l' : Logged) => Timed procs (clockAt j) l' ∧
          l'.state.processes = l.state.processes) ⟨?_, rfl⟩ ?_).1
        · refine h.congr rfl (fun _ _ => rfl) fun slot page _ _ => Or.inl ?_
          simp only [clockAt, Nat.not_lt_zero, and_false, or_false]
        · rintro page l' - ⟨hl', hsame⟩
          have hslot' := (congrFun hsame i).trans hslot
          have hpage := hl'.agePage hslot' (fun other hother => hplaced.one_slot other i k
            ((congrFun hsame other).symm.trans hother) hslot) page
          refine ⟨hpage.congr rfl (fun _ _ => rfl) fun slot page' _ _ => Or.inl ?_,
            (paged_agePage hslot' page).processes.trans hsame⟩
          simp only [clockAt]
          by_cases hslot : slot = i
          · subst hslot
            by_cases hpage : page' = page
            · simp [hpage]
            · have hiff : page' < page + 1 ↔ page' < page := by omega
              simp only [Function.update_self, Function.update_of_ne hpage, hiff]
          · simp only [Function.update_of_ne hslot, hslot, false_and, or_false]
      refine hloop.congr rfl (fun _ _ => rfl) fun slot page _ hpage => Or.inl ?_
      have hiff : (slot < i ∨ slot = i ∧ page < maxProcPages) ↔ slot < i + 1 := by omega
      simp only [clockAt, hiff]

/-! ### Requests -/

theorem setPage_pages (s : State) (k : Fin queueSize) (j : Nat) (v avail : Int) :
    ({ s.setPage k j v with pagesavail := avail }.queue k).pages j = v := by
  show ((s.setJob k { s.queue k with pages := Function.update (s.queue k).pages j v }).queue
    k).pages j = v
  rw [setJob_self]
  exact Function.update_self ..

/-- A request leaves the entry of its page, or starts it to come in or to go out. -/
theorem answer_entry {r : PageCall} {s : State} {j : Nat}
    (htarget : s.target procs r.process r.page = some (k, j)) :
    ((r.answer procs s).2.queue k).pages j = (s.queue k).pages j ∨
    (((r.answer procs s).2.queue k).pages j = pageWait ∧ (s.queue k).pages j < -pageWait) ∨
    (((r.answer procs s).2.queue k).pages j = -1 ∧ (s.queue k).pages j = 0) := by
  cases r with
  | pagein process page =>
      have htarget : s.target procs process page = some (k, j) := htarget
      simp only [PageCall.answer, pagein, htarget]
      split_ifs with hin havail hleaving
      · exact Or.inl rfl
      · exact Or.inl rfl
      · exact Or.inl rfl
      · exact Or.inr (Or.inl ⟨setPage_pages .., not_le.mp hleaving⟩)
  | pageout process page =>
      have htarget : s.target procs process page = some (k, j) := htarget
      simp only [PageCall.answer, pageout, htarget]
      split_ifs with hout hcoming
      · exact Or.inl rfl
      · exact Or.inl rfl
      · exact Or.inr (Or.inr ⟨setPage_pages s k j (-1) s.pagesavail, by omega⟩)

theorem Timed.logged {n : Int}
    (h : Timed procs (fun _ _ => n + 1) l) (hclock : (l.state.sysclock : Int) = n)
    (hone : ∀ slot slot' k, l.state.processes slot = some k → l.state.processes slot' = some k →
      slot = slot') (r : PageCall) : Timed procs (fun _ _ => n + 1) (r.logged procs l).2 := by
  cases htarget : l.state.target procs r.process r.page with
  | none =>
      have hstate : (r.logged procs l).2.state = l.state :=
        congrArg Prod.snd (answer_of_target_none htarget)
      refine h.congr (by simp [PageCall.logged, htarget]) (fun _ _ => by rw [hstate])
        fun _ _ _ _ => Or.inl rfl
  | some c =>
      obtain ⟨k, j⟩ := c
      obtain ⟨-, -, hslot, -⟩ := target_cases htarget
      obtain ⟨v, avail, hstate, hcomment⟩ := answer_eq htarget
      have hentry := answer_entry htarget
      rw [hstate, setPage_pages] at hentry
      have henters : Enters l (r.logged procs l).2 r.process.toNat k j v := by
        refine enters_setPage hstate ?_ hcomment
        simp only [PageCall.logged, htarget]
      have hwait := pageWait_pos
      refine h.enters hslot (fun slot' hslot' => hone slot' _ k hslot' hslot) henters
        (fun _ _ _ => rfl) (fun r htells hrange => ?_) fun hrange => ⟨rfl, ?_⟩
      · rcases hentry with rfl | ⟨rfl, hout⟩ | ⟨rfl, hin⟩
        · exact htells
        · rw [show pageComment ((l.state.queue k).pages j) = .out from if_pos hout] at hrange
          cases hrange
        · rw [hin] at hrange
          cases hrange
      · rcases hentry with rfl | ⟨rfl, -⟩ | ⟨rfl, -⟩
        · exact absurd rfl hrange
        · show pageWait + 1 + (l.state.sysclock : Int) - (n + 1) = pageWait
          omega
        · show (l.state.sysclock : Int) - (n + 1) = -1
          omega

/-! ### Steps -/

theorem Timed.processStep (h : Timed procs clock l) (slot : Nat) (k : Fin queueSize) :
    Timed procs clock (l.processStep slot k).2 := by
  refine h.congr rfl (fun slot' page => ?_) fun _ _ _ _ => Or.inl rfl
  unfold State.entry
  show (match l.state.processes slot' with
    | none => -pageWait - 1
    | some k' =>
        ((l.state.setJob k (Simulator.processStep (l.state.queue k)).2).queue k').pages page) = _
  cases hslot' : l.state.processes slot' with
  | none => rfl
  | some k' =>
      simp only
      by_cases hk : k' = k
      · subst hk
        rw [setJob_self, (processStep_kept _).1]
      · rw [setJob_of_ne _ _ hk]

/-- A job that is unloaded leaves its slot to one without pages, or empty. -/
theorem Timed.replace (h : Timed procs clock l)
    (hone : ∀ slot', l.state.processes slot' = some k → slot' = slot)
    (hnext : ∀ hleft : l.state.queueend < queueSize, (⟨_, hleft⟩ : Fin queueSize) ≠ k ∧
      ∀ page, (l.state.queue ⟨_, hleft⟩).pages page = -pageWait - 1) :
    Timed procs clock ((l.processUnload slot k).reload slot) := by
  intro slot' hlt page hpage
  have hlog := lastPageRecord_outRecords l.pages l.state slot slot' (l.state.queue k) hpage
  show ∃ r, lastPageRecord (l.pages ++ l.state.outRecords slot (l.state.queue k)) slot' page =
    some r ∧ r.Tells _ (((l.state.processUnload k).reload slot).entry slot' page)
  rw [hlog]
  by_cases hsame : slot' = slot
  · subst hsame
    refine ⟨_, if_pos rfl, ?_⟩
    have hentry : ((l.state.processUnload k).reload slot').entry slot' page = -pageWait - 1 := by
      unfold State.entry
      cases hnow : ((l.state.processUnload k).reload slot').processes slot' with
      | none => rfl
      | some k' =>
          rcases replaced_processes hnow with ⟨-, hval⟩ | ⟨hne, -⟩
          · have hleft : l.state.queueend < queueSize := hval ▸ k'.isLt
            obtain rfl : k' = ⟨_, hleft⟩ := Fin.ext hval
            obtain ⟨hne, hfresh⟩ := hnext hleft
            simp only [replaced_queue_of_ne hne, hfresh]
          · exact absurd rfl hne
    rw [hentry]
    exact tells_out rfl
  · rw [if_neg hsame]
    obtain ⟨r, hlast, htells⟩ := h slot' hlt page hpage
    refine ⟨r, hlast, ?_⟩
    have hentry : ((l.state.processUnload k).reload slot).entry slot' page =
        l.state.entry slot' page := by
      unfold State.entry
      rw [reload_processes_of_ne _ hsame, processUnload_processes]
      cases hslot' : l.state.processes slot' with
      | none => rfl
      | some k' =>
          have hk : k' ≠ k := by
            rintro rfl
            exact hsame (hone slot' hslot')
          simp only [replaced_queue_of_ne hk]
    rwa [hentry]

theorem Timed.stepSlot {jobs : Fin queueSize → Process} (h : Timed procs clock l)
    (hsched : Scheduled procs jobs l.state)
    (hfresh : ∀ k page, (jobs k).pages page = -pageWait - 1) (hslot : slot < procs) :
    Timed procs clock (l.stepSlot slot) := by
  unfold Logged.stepSlot
  cases hk : l.state.processes slot with
  | none =>
      have hstate : (l.reload slot).state = l.state :=
        reload_of_empty (hsched.filled slot hslot hk) hk
      exact h.congr rfl (fun _ _ => by rw [hstate]) fun _ _ _ _ => Or.inl rfl
  | some k =>
      have hactive := (hsched.running slot k hk).active
      have hstill : ((l.processStep slot k).2.state.queue k).active = true := by
        show ((l.state.setJob k (Simulator.processStep (l.state.queue k)).2).queue k).active = true
        rw [setJob_self, (processStep_kept _).2.1, hactive]
      simp only [hstill, if_true]
      split_ifs
      · exact h.processStep slot k
      · refine (h.processStep slot k).replace (fun slot' hslot' => ?_) fun hleft => ?_
        · exact hsched.one_slot slot' slot k hslot' hk
        · have hne : (⟨_, hleft⟩ : Fin queueSize) ≠ k := by
            intro heq
            have hval : l.state.queueend = k.val := congrArg Fin.val heq
            exact absurd (hsched.loaded_lt slot k hk) (not_lt.mpr hval.le)
          refine ⟨hne, fun page => ?_⟩
          show ((l.state.setJob k _).queue _).pages page = _
          rw [setJob_of_ne _ _ hne, hsched.waiting _ le_rfl, hfresh]

/-! ### The run -/

/-- The slots that have been loaded by `allinit`. -/
structure TimedLoading (jobs : Fin queueSize → Process) (i : Nat) (l : Logged) : Prop where
  timed : Timed i (fun _ _ => 0) l
  queue : l.state.queue = jobs
  queueend : l.state.queueend = i

theorem TimedLoading.initSlot {jobs : Fin queueSize → Process}
    (hfresh : ∀ k page, (jobs k).pages page = -pageWait - 1) {i : Nat} (hi : i < queueSize)
    (h : TimedLoading jobs i l) : TimedLoading jobs (i + 1) (l.initSlot i) := by
  have hleft : l.state.queueend < queueSize := h.queueend ▸ hi
  have hstate : (l.initSlot i).state = l.state.reload i := rfl
  have hpages : (l.initSlot i).pages =
      l.pages ++ l.state.outRecords i (l.state.queue ⟨l.state.queueend, hleft⟩) := by
    simp only [Logged.initSlot, hleft, dif_pos]
  refine ⟨?_, (reload_queue l.state i).trans h.queue, ?_⟩
  · intro slot hlt page hpage
    rw [hpages, hstate, lastPageRecord_outRecords _ _ _ _ _ hpage]
    by_cases hsame : slot = i
    · subst hsame
      refine ⟨_, if_pos rfl, ?_⟩
      have hentry : (l.state.reload slot).entry slot page = -pageWait - 1 := by
        unfold State.entry
        cases hslot : (l.state.reload slot).processes slot with
        | none => rfl
        | some k => simp only [reload_queue, h.queue, hfresh]
      rw [hentry]
      exact tells_out rfl
    · obtain ⟨r, hlast, htells⟩ := h.timed slot (by omega) page hpage
      refine ⟨r, (if_neg hsame).trans hlast, ?_⟩
      have hentry : (l.state.reload i).entry slot page = l.state.entry slot page := by
        unfold State.entry
        rw [reload_processes_of_ne _ hsame, reload_queue]
      rwa [hentry]
  · rw [hstate, State.reload, dif_pos hleft]
    exact congrArg Nat.succ h.queueend

variable {config : Config}

theorem startsLogged_timed (h : config.StartsLogged l) :
    Timed config.procs (fun _ _ => 0) l := by
  obtain ⟨fuel, hstart⟩ := h
  rw [Logged.allinit, Option.map_eq_some_iff] at hstart
  obtain ⟨jobs, hjobs, rfl⟩ := hstart
  have hprocs : config.procs < queueSize := config.procs_le.trans_lt (by decide)
  have hloop : TimedLoading jobs config.procs (loop Logged.initSlot config.procs (.boot jobs)) :=
    loop_invariant (TimedLoading jobs)
      ⟨fun _ hslot => absurd hslot (Nat.not_lt_zero _), rfl, rfl⟩
      fun i _ hi hl => hl.initSlot (fun k => (initqueue_fresh hjobs k).pages) (hi.trans hprocs)
  exact hloop.timed

theorem Config.ReachesLogged.phase (h : config.ReachesLogged l) {a : Phase}
    (hphase : loggedPhase config.procs l a = some l') : config.ReachesLogged l' := by
  obtain ⟨l₀, hstart, hreach⟩ := h
  exact ⟨l₀, hstart, hreach.trans (reachable_step hphase)⟩

/-- A tick: first the slots step, then all entries age, and then the pager is called, which writes
with the time of the tick what has aged already. -/
theorem Timed.tick {pager : Pager} {m : pager.State × Logged} {n : Nat}
    (h : Timed config.procs (fun _ _ => n) m.2) (hreach : config.ReachesLogged m.2)
    (hclock : m.2.state.sysclock = n) :
    Timed config.procs (fun _ _ => n + 1) (Logged.tick pager config.procs m).2 := by
  have hstep : config.ReachesLogged (m.2.allstep config.procs) ∧
      Timed config.procs (fun _ _ => n) (m.2.allstep config.procs) := by
    refine loop_invariant (fun _ l => config.ReachesLogged l ∧ Timed config.procs (fun _ _ => n) l)
      ⟨hreach, h⟩ ?_
    rintro i l hi ⟨hl, htimed⟩
    obtain ⟨fuel, jobs, hjobs, hsched⟩ := hl.reaches.scheduled
    have hphase : loggedPhase config.procs l (.step i) = some (l.stepSlot i) := if_pos hi
    exact ⟨hl.phase hphase,
      htimed.stepSlot hsched (fun k => (initqueue_fresh hjobs k).pages) hi⟩
  have hage : config.ReachesLogged ((m.2.allstep config.procs).allage config.procs) ∧
      Timed config.procs (fun slot _ => if slot < config.procs then n + 1 else n)
        ((m.2.allstep config.procs).allage config.procs) := by
    refine loop_invariant (fun i l => config.ReachesLogged l ∧
      Timed config.procs (fun slot _ => if slot < i then n + 1 else n) l) ⟨hstep.1, ?_⟩ ?_
    · simpa only [Nat.not_lt_zero, if_false] using hstep.2
    · rintro i l hi ⟨hl, htimed⟩
      obtain ⟨fuel, jobs, hjobs, hsched⟩ := hl.reaches.scheduled
      have hphase : loggedPhase config.procs l (.age i) = some (l.ageSlot i) := if_pos hi
      exact ⟨hl.phase hphase, htimed.ageSlot hsched.toPlaced hl.reaches.npages⟩
  have hcall : config.ReachesLogged
        (Logged.callyou pager config.procs (m.1, (m.2.allstep config.procs).allage config.procs)).2 ∧
      Timed config.procs (fun _ _ => (n : Int) + 1)
        (Logged.callyou pager config.procs (m.1, (m.2.allstep config.procs).allage config.procs)).2 ∧
      (Logged.callyou pager config.procs
        (m.1, (m.2.allstep config.procs).allage config.procs)).2.state.sysclock = n := by
    refine CallTree.run_invariant (fun _ => True) (fun l => config.ReachesLogged l ∧
      Timed config.procs (fun _ _ => (n : Int) + 1) l ∧ l.state.sysclock = n) ?_ _
      (fun _ _ => trivial) ⟨hage.1, ?_, ?_⟩
    · rintro r l - ⟨hl, htimed, hclock⟩
      obtain ⟨fuel, jobs, hjobs, hsched⟩ := hl.reaches.scheduled
      have hphase : loggedPhase config.procs l (.request r) = some (r.logged config.procs l).2 := rfl
      refine ⟨hl.phase hphase, htimed.logged (by rw [hclock]) hsched.one_slot r, ?_⟩
      exact (answer_sysclock config.procs r l.state).trans hclock
    · exact hage.2.congr rfl (fun _ _ => rfl) fun slot _ hslot _ => Or.inl (if_pos hslot).symm
    · rw [allage_state, allstep_state, allage_sysclock, allstep_sysclock, hclock]
  exact hcall.2.1

theorem loggedRun_timed (pager : Pager) {l₀ : Logged} (h : config.StartsLogged l₀) (n : Nat) :
    Timed config.procs (fun _ _ => n) (config.loggedRun pager l₀ n).2 := by
  induction n with
  | zero => exact startsLogged_timed h
  | succ n ih =>
      have hrun : (config.loggedRun pager l₀ n).2.state = (config.run pager l₀.state n).2 :=
        congrArg Prod.snd (loggedRun_state pager l₀ n)
      rw [Config.loggedRun, Function.iterate_succ_apply', Nat.cast_succ]
      refine Timed.tick ih ⟨l₀, h, loggedRun_reach pager l₀ n⟩ ?_
      exact (congrArg State.sysclock hrun).trans (run_sysclock pager (startsLogged_state h) n)

/-- The frames held are those of the entries of the slots. -/
theorem sum_held_entries {jobs : Fin queueSize → Process} {s : State}
    (hplaced : Placed procs jobs s)
    (hidle : ∀ k, (∀ slot, s.processes slot ≠ some k) →
      ∀ page : Fin maxProcPages, (s.queue k).pages page = -pageWait - 1) :
    ∑ c, held pageWait (s.pool.cell c) = ∑ slot ∈ Finset.range procs,
      ∑ page ∈ Finset.range maxProcPages, held pageWait (s.entry slot page) := by
  have hout : held pageWait (-pageWait - 1) = 0 := if_neg (by omega)
  let frames : Fin queueSize → Int := fun k =>
    ∑ page ∈ Finset.range maxProcPages, held pageWait ((s.queue k).pages page)
  have hslot : ∀ slot, ∑ page ∈ Finset.range maxProcPages, held pageWait (s.entry slot page) =
      ∑ k, if s.processes slot = some k then frames k else 0 := by
    intro slot
    cases hslot : s.processes slot with
    | none => simp [entry_of_vacant hslot, hout]
    | some j => simp [entry_of_loaded hslot, frames]
  have hjob : ∀ k, ∑ slot ∈ Finset.range procs,
      (if s.processes slot = some k then frames k else 0) = frames k := by
    intro k
    by_cases hloaded : ∃ slot, s.processes slot = some k
    · obtain ⟨slot, hk⟩ := hloaded
      have hmem := Finset.mem_range.mpr (hplaced.slot_lt slot k hk)
      rw [Finset.sum_eq_single_of_mem slot hmem, if_pos hk]
      exact fun other _ hne => if_neg fun hother => hne (hplaced.one_slot other slot k hother hk)
    · have hnone := not_exists.mp hloaded
      have hzero : frames k = 0 := by
        refine Finset.sum_eq_zero fun page hpage => ?_
        rw [hidle k hnone ⟨page, Finset.mem_range.mp hpage⟩, hout]
      simp [hnone, hzero]
  calc ∑ c, held pageWait (s.pool.cell c)
      = ∑ k, ∑ page : Fin maxProcPages, held pageWait ((s.queue k).pages page) :=
        Fintype.sum_prod_type _
    _ = ∑ k, frames k := Finset.sum_congr rfl fun k _ =>
        (Finset.sum_range fun page => held pageWait ((s.queue k).pages page)).symm
    _ = ∑ k, ∑ slot ∈ Finset.range procs, (if s.processes slot = some k then frames k else 0) :=
        Finset.sum_congr rfl fun k _ => (hjob k).symm
    _ = ∑ slot ∈ Finset.range procs, ∑ k, (if s.processes slot = some k then frames k else 0) :=
        Finset.sum_comm
    _ = ∑ slot ∈ Finset.range procs, ∑ page ∈ Finset.range maxProcPages,
          held pageWait (s.entry slot page) :=
        Finset.sum_congr rfl fun slot _ => (hslot slot).symm

/-- **The log of the pages tells all entries.** In every run with any pager, `pages.csv` and the
number of iterations alone give the entry of every page in every slot, also while the page is on
its way, and with them the number of available frames. -/
theorem pages_tell (config : Config) (pager : Pager) (l₀ : Logged) (h : config.StartsLogged l₀)
    (n : Nat) :
    let l := (config.loggedRun pager l₀ n).2
    (∀ slot, slot < config.procs → ∀ page, page < maxProcPages →
      readPages l.pages n slot page = l.state.entry slot page) ∧
    l.state.pagesavail = physicalPages - ∑ slot ∈ Finset.range config.procs,
      ∑ page ∈ Finset.range maxProcPages,
        if -pageWait ≤ readPages l.pages n slot page then 1 else 0 := by
  intro l
  have htimed : Timed config.procs (fun _ _ => n) l := loggedRun_timed pager h n
  have hread : ∀ slot, slot < config.procs → ∀ page, page < maxProcPages →
      readPages l.pages n slot page = l.state.entry slot page := by
    intro slot hslot page hpage
    obtain ⟨r, hlast, htells⟩ := htimed slot hslot page hpage
    rw [readPages, hlast, Option.map_some, Option.getD_some, htells.entry]
  refine ⟨hread, ?_⟩
  have hreach : config.Reaches l.state :=
    Config.ReachesLogged.reaches ⟨l₀, h, loggedRun_reach pager l₀ n⟩
  obtain ⟨fuel, jobs, hjobs, hsched⟩ := hreach.scheduled
  have htotal := hreach.framed.balanced.total
  rw [sum_held_entries hsched.toPlaced hreach.framed.idle] at htotal
  have hsum : ∑ slot ∈ Finset.range config.procs, ∑ page ∈ Finset.range maxProcPages,
      (if -pageWait ≤ readPages l.pages n slot page then (1 : Int) else 0) =
        ∑ slot ∈ Finset.range config.procs, ∑ page ∈ Finset.range maxProcPages,
          held pageWait (l.state.entry slot page) := by
    refine Finset.sum_congr rfl fun slot hslot => Finset.sum_congr rfl fun page hpage => ?_
    rw [hread slot (Finset.mem_range.mp hslot) page (Finset.mem_range.mp hpage)]
    rfl
  rw [hsum, ← htotal]
  exact (add_sub_cancel_right _ _).symm

theorem pages_tell_alternating : ∃ l₀, alternatingConfig.StartsLogged l₀ ∧
    readPages (alternatingConfig.loggedRun eager l₀ 100).2.pages 100 0 19 =
      (alternatingConfig.loggedRun eager l₀ 100).2.state.entry 0 19 := by
  obtain ⟨s₀, hstart⟩ := alternatingConfig_starts
  obtain ⟨l₀, hlogged, -⟩ := startsLogged_of_starts hstart
  exact ⟨l₀, hlogged, (pages_tell alternatingConfig eager l₀ hlogged 100).1 0 (by decide) 19
    (by decide)⟩

end OperatingSystems.Simulator
