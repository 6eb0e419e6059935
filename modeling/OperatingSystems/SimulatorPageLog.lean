import OperatingSystems.SimulatorLog
import OperatingSystems.SimulatorCharges
import OperatingSystems.LibraryPatches

/-!
The log of the pages as a history. The entry of a page changes often and its line in the log only
when the entry passes from one of four ranges into another; a job that is unloaded leaves its slot
with all pages out, as the next job finds them. So the last line for a page says where its entry
is.
-/

namespace OperatingSystems.Simulator

open Loop Runs Patches

/-! ### The last record -/

/-- The comment that fits the entry of a page. -/
def pageComment (v : Int) : PageComment :=
  if v < -pageWait then .out
  else if v < 0 then .going
  else if v = 0 then .resident
  else .coming

/-- A record as an update of the comments of all pages of all slots. -/
def PageRecord.patch (r : PageRecord) : Patch (Nat × Nat) PageComment := fun c =>
  if c = (r.process, r.page) then some r.comment else none

/-- The comment of the last record for a page of a slot. -/
def lastComment (log : List PageRecord) (slot page : Nat) : Option PageComment :=
  latest (log.map PageRecord.patch) (slot, page)

/-- The array `coms` of `lines.procPages` after the records of the processor. -/
def replay (log : List PageRecord) (slot : Nat) : Nat → PageComment :=
  (log.filter fun r => r.process = slot).foldl
    (fun coms r => Function.update coms r.page r.comment) fun _ => .out

theorem lastComment_concat (log : List PageRecord) (r : PageRecord) (slot page : Nat) :
    lastComment (log ++ [r]) slot page =
      if slot = r.process ∧ page = r.page then some r.comment else lastComment log slot page := by
  rw [lastComment, List.map_append, List.map_singleton, latest_concat, PageRecord.patch]
  simp only [Prod.mk.injEq]
  split_ifs
  · rfl
  · rfl

theorem lastComment_pageRecord (log : List PageRecord) (s : State) (slot slot' : Nat) (q : Process)
    (page page' : Nat) (comment : PageComment) :
    lastComment (log ++ [s.pageRecord slot q page comment]) slot' page' =
      if slot' = slot ∧ page' = page then some comment else lastComment log slot' page' :=
  lastComment_concat log _ slot' page'

/-- Replaying the log gives every page the comment of its last record. -/
theorem replay_eq (log : List PageRecord) (slot page : Nat) :
    replay log slot page = (lastComment log slot page).getD .out := by
  induction log using List.reverseRecOn with
  | nil => rfl
  | append_singleton log r ih =>
      rw [lastComment_concat, replay, List.filter_append, List.foldl_append]
      by_cases hslot : r.process = slot
      · rw [List.filter_cons, if_pos (decide_eq_true hslot), List.filter_nil, List.foldl_cons,
          List.foldl_nil]
        by_cases hpage : page = r.page
        · rw [if_pos ⟨hslot.symm, hpage⟩, hpage, Function.update_self, Option.getD_some]
        · rw [if_neg fun heq => hpage heq.2, Function.update_of_ne hpage]
          exact ih
      · rw [List.filter_cons, if_neg (by simpa using hslot), List.filter_nil, List.foldl_nil,
          if_neg fun hsame : slot = r.process ∧ page = r.page => hslot hsame.1.symm]
        exact ih

/-- The lines that put the pages of a slot out. -/
theorem lastComment_outRecords (log : List PageRecord) (s : State) (slot slot' : Nat) (q : Process)
    {page : Nat} (hpage : page < maxProcPages) :
    lastComment (log ++ s.outRecords slot q) slot' page =
      if slot' = slot then some .out else lastComment log slot' page := by
  have hfirst : ∀ n,
      lastComment (log ++ (List.range n).map fun page => s.pageRecord slot q page .out) slot' page =
        if slot' = slot ∧ page < n then some .out else lastComment log slot' page := by
    intro n
    induction n with
    | zero => simp
    | succ n ih =>
        rw [List.range_succ, List.map_append, List.map_singleton, ← List.append_assoc,
          lastComment_pageRecord, ih]
        split_ifs <;> first | rfl | omega
  rw [State.outRecords, hfirst]
  simp only [hpage, and_true]

/-! ### The invariant -/

/-- The last record for each page of a job in a slot fits the entry of the page. -/
def PageLogged (l : Logged) : Prop :=
  ∀ slot k, l.state.processes slot = some k → ∀ page, page < maxProcPages →
    lastComment l.pages slot page = some (pageComment ((l.state.queue k).pages page))

/-- The entry of one page of the job in the slot becomes `v`, and a line is written exactly if it
passes into another range. -/
structure Enters (l l' : Logged) (slot : Nat) (k : Fin queueSize) (page : Nat) (v : Int) : Prop where
  processes : l'.state.processes = l.state.processes
  entry : ∀ k' page', (l'.state.queue k').pages page' =
    if k' = k ∧ page' = page then v else (l.state.queue k').pages page'
  pages : l'.pages = l.pages ++
    if pageComment v = pageComment ((l.state.queue k).pages page) then []
    else [l.state.pageRecord slot (l.state.queue k) page (pageComment v)]

variable {procs slot page : Nat} {l l' : Logged} {k : Fin queueSize} {v : Int}

theorem PageLogged.enters (h : PageLogged l)
    (hone : ∀ slot', l.state.processes slot' = some k → slot' = slot)
    (henters : Enters l l' slot k page v) (hslot : l.state.processes slot = some k) :
    PageLogged l' := by
  intro slot' k' hslot' page' hpage'
  rw [henters.processes] at hslot'
  have hbefore := h slot' k' hslot' page' hpage'
  have hentry := henters.entry k' page'
  by_cases hsame : k' = k ∧ page' = page
  · rw [if_pos hsame] at hentry
    obtain ⟨rfl, rfl⟩ := hsame
    obtain rfl := hone slot' hslot'
    rw [hentry, henters.pages]
    split_ifs with hrange
    · rw [List.append_nil, hrange]
      exact hbefore
    · rw [lastComment_pageRecord, if_pos ⟨rfl, rfl⟩]
  · rw [if_neg hsame] at hentry
    rw [hentry, henters.pages]
    split_ifs with hrange
    · rw [List.append_nil]
      exact hbefore
    · have hother : ¬ (slot' = slot ∧ page' = page) := by
        rintro ⟨rfl, rfl⟩
        exact hsame ⟨Option.some.inj (hslot'.symm.trans hslot), rfl⟩
      rw [lastComment_pageRecord, if_neg hother]
      exact hbefore

theorem PageLogged.congr (h : PageLogged l) (hstate : l'.state = l.state)
    (hpages : l'.pages = l.pages) : PageLogged l' := by
  rw [PageLogged, hstate, hpages]
  exact h

/-- An operation that sets one entry and writes the line that fits it. -/
theorem enters_setPage {avail : Int} {comment : Option PageComment}
    (hstate : l'.state = { l.state.setPage k page v with pagesavail := avail })
    (hpages : l'.pages = l.pages ++ comment.toList.map
      (l.state.pageRecord slot (l.state.queue k) page))
    (hcomment : comment = if pageComment v = pageComment ((l.state.queue k).pages page) then none
      else some (pageComment v)) : Enters l l' slot k page v where
  processes := by rw [hstate]; rfl
  entry k' page' := by
    rw [hstate]
    show ((l.state.setJob k _).queue k').pages page' = _
    by_cases hk : k' = k
    · subst hk
      rw [setJob_self]
      by_cases hpage : page' = page
      · subst hpage
        simp
      · simp [hpage]
    · rw [setJob_of_ne _ _ hk, if_neg fun hsame => hk hsame.1]
  pages := by
    rw [hpages, hcomment]
    split_ifs
    · rfl
    · rfl

/-! ### Single pages -/

theorem ageComment_eq (v : Int) :
    ageComment v = if pageComment (Frames.ageCell pageWait v) = pageComment v then none
      else some (pageComment (Frames.ageCell pageWait v)) := by
  have hwait : pageWait = 100 := rfl
  unfold ageComment pageComment Frames.ageCell
  split_ifs <;> first | rfl | omega | contradiction

theorem setPage_self (s : State) (k : Fin queueSize) (page : Nat) :
    s.setPage k page ((s.queue k).pages page) = s := by
  rw [State.setPage, Function.update_eq_self]
  exact setJob_queue_self s k

theorem agePage_eq (s : State) (k : Fin queueSize) (page : Nat) :
    ∃ avail, s.agePage k page =
      { s.setPage k page (Frames.ageCell pageWait ((s.queue k).pages page)) with
        pagesavail := avail } := by
  have hwait := pageWait_pos
  have hsame : s = { s.setPage k page ((s.queue k).pages page) with
      pagesavail := s.pagesavail } := (setPage_self s k page).symm
  simp only [State.agePage, Frames.ageCell]
  split_ifs <;> try omega
  · exact ⟨_, hsame⟩
  · exact ⟨_, hsame⟩
  · exact ⟨_, rfl⟩
  · exact ⟨_, rfl⟩
  · exact ⟨_, rfl⟩

theorem PageLogged.agePage (h : PageLogged l)
    (hone : ∀ slot', l.state.processes slot' = some k → slot' = slot)
    (hslot : l.state.processes slot = some k) (page : Nat) :
    PageLogged (l.agePage slot k page) := by
  obtain ⟨avail, hstate⟩ := agePage_eq l.state k page
  exact h.enters hone (enters_setPage hstate rfl (ageComment_eq _)) hslot

/-- A request sets the entry of its page and writes what fits. -/
theorem answer_eq {r : PageCall} {s : State} {j : Nat}
    (htarget : s.target procs r.process r.page = some (k, j)) :
    ∃ v avail, (r.answer procs s).2 = { s.setPage k j v with pagesavail := avail } ∧
      r.comment s k j = if pageComment v = pageComment ((s.queue k).pages j) then none
        else some (pageComment v) := by
  have hwait : pageWait = 100 := rfl
  have hsame : s = { s.setPage k j ((s.queue k).pages j) with pagesavail := s.pagesavail } :=
    (setPage_self s k j).symm
  cases r with
  | pagein process page =>
      have htarget : s.target procs process page = some (k, j) := htarget
      simp only [PageCall.answer, pagein, htarget, PageCall.comment, pageinComment]
      split_ifs with hin havail hleaving
      · exact ⟨_, _, hsame, by simp⟩
      · exact ⟨_, _, hsame, by simp⟩
      · exact ⟨_, _, hsame, by simp⟩
      · refine ⟨pageWait, _, rfl, ?_⟩
        have hout : pageComment ((s.queue k).pages j) = .out := if_pos (by omega)
        rw [hout]
        rfl
  | pageout process page =>
      have htarget : s.target procs process page = some (k, j) := htarget
      simp only [PageCall.answer, pageout, htarget, PageCall.comment, pageoutComment]
      split_ifs with hout hcoming
      · exact ⟨_, _, hsame, by simp⟩
      · exact ⟨_, _, hsame, by simp⟩
      · refine ⟨-1, s.pagesavail, rfl, ?_⟩
        have hzero : (s.queue k).pages j = 0 := by omega
        rw [hzero]
        rfl

theorem PageLogged.logged (h : PageLogged l)
    (hone : ∀ slot slot' k, l.state.processes slot = some k → l.state.processes slot' = some k →
      slot = slot') (r : PageCall) : PageLogged (r.logged procs l).2 := by
  cases htarget : l.state.target procs r.process r.page with
  | none =>
      refine h.congr ?_ (by simp [PageCall.logged, htarget])
      exact congrArg Prod.snd (answer_of_target_none htarget)
  | some c =>
      obtain ⟨-, -, hslot, -⟩ := target_cases htarget
      obtain ⟨v, avail, hstate, hcomment⟩ := answer_eq htarget
      refine h.enters (fun slot' hslot' => hone slot' _ c.1 hslot' hslot)
        (enters_setPage hstate ?_ hcomment) hslot
      simp only [PageCall.logged, htarget]

/-! ### Phases -/

theorem PageLogged.ageSlot (h : PageLogged l)
    (hone : ∀ slot slot' k, l.state.processes slot = some k → l.state.processes slot' = some k →
      slot = slot') (slot : Nat) : PageLogged (l.ageSlot slot) := by
  unfold Logged.ageSlot
  cases hslot : l.state.processes slot with
  | none => exact h
  | some k =>
      simp only
      split_ifs
      · refine (loop_invariant (fun _ (l' : Logged) => PageLogged l' ∧
          l'.state.processes = l.state.processes) ⟨h, rfl⟩ ?_).1
        rintro page l' - ⟨hl', hsame⟩
        have hslot' := (congrFun hsame slot).trans hslot
        refine ⟨hl'.agePage (fun other hother => ?_) hslot' page, ?_⟩
        · exact hone other slot k ((congrFun hsame other).symm.trans hother) hslot
        · exact (paged_agePage hslot' page).processes.trans hsame
      · exact h

theorem PageLogged.processStep (h : PageLogged l) (slot : Nat) (k : Fin queueSize) :
    PageLogged (l.processStep slot k).2 := by
  intro slot' k' hslot' page hpage
  have hpages : ((l.processStep slot k).2.state.queue k').pages = (l.state.queue k').pages := by
    show ((l.state.setJob k (Simulator.processStep (l.state.queue k)).2).queue k').pages = _
    by_cases hk : k' = k
    · subst hk
      rw [setJob_self, (processStep_kept _).1]
    · rw [setJob_of_ne _ _ hk]
  rw [hpages]
  exact h slot' k' hslot' page hpage

/-- A job that is unloaded leaves its slot to one without pages. -/
theorem PageLogged.replace (h : PageLogged l)
    (hone : ∀ slot', l.state.processes slot' = some k → slot' = slot)
    (hnext : ∀ hleft : l.state.queueend < queueSize, (⟨_, hleft⟩ : Fin queueSize) ≠ k ∧
      ∀ page, (l.state.queue ⟨_, hleft⟩).pages page = -pageWait - 1) :
    PageLogged ((l.processUnload slot k).reload slot) := by
  intro slot' k' hslot' page hpage
  have hlog := lastComment_outRecords l.pages l.state slot slot' (l.state.queue k) hpage
  show lastComment (l.pages ++ l.state.outRecords slot (l.state.queue k)) slot' page =
    some (pageComment ((((l.state.processUnload k).reload slot).queue k').pages page))
  rw [hlog]
  rcases replaced_processes hslot' with ⟨rfl, hval⟩ | ⟨hsame, hbefore⟩
  · have hleft : l.state.queueend < queueSize := hval ▸ k'.isLt
    obtain rfl : k' = ⟨_, hleft⟩ := Fin.ext hval
    obtain ⟨hne, hfresh⟩ := hnext hleft
    rw [if_pos rfl, replaced_queue_of_ne hne, hfresh]
    rfl
  · have hk : k' ≠ k := by
      rintro rfl
      exact hsame (hone slot' hbefore)
    rw [if_neg hsame, replaced_queue_of_ne hk]
    exact h slot' k' hbefore page hpage

theorem PageLogged.stepSlot {jobs : Fin queueSize → Process} (h : PageLogged l)
    (hsched : Scheduled procs jobs l.state)
    (hfresh : ∀ k page, (jobs k).pages page = -pageWait - 1) (hslot : slot < procs) :
    PageLogged (l.stepSlot slot) := by
  unfold Logged.stepSlot
  cases hk : l.state.processes slot with
  | none =>
      have hempty := hsched.filled slot hslot hk
      refine h.congr ?_ rfl
      show l.state.reload slot = l.state
      rw [State.reload, dif_neg (not_lt.mpr hempty)]
      exact vacate_of_none hk
  | some k =>
      have hactive := (hsched.running slot k hk).active
      have hstill : ((l.processStep slot k).2.state.queue k).active = true := by
        show ((l.state.setJob k (Simulator.processStep (l.state.queue k)).2).queue k).active = true
        rw [setJob_self, (processStep_kept _).2.1, hactive]
      simp only [hstill, if_true]
      split_ifs
      · exact h.processStep slot k
      · refine (h.processStep slot k).replace (fun slot' hslot' => ?_) fun hleft => ?_
        · exact hsched.one_slot slot' slot k hslot' hk
        · have hne : (⟨_, hleft⟩ : Fin queueSize) ≠ k := by
            intro heq
            have hval : l.state.queueend = k.val := congrArg Fin.val heq
            exact absurd (hsched.loaded_lt slot k hk) (not_lt.mpr hval.le)
          refine ⟨hne, fun page => ?_⟩
          show ((l.state.setJob k _).queue _).pages page = _
          rw [setJob_of_ne _ _ hne, hsched.waiting _ le_rfl, hfresh]

/-! ### The start -/

/-- The files and the slots after some slots have been loaded. -/
structure LogLoading (jobs : Fin queueSize → Process) (i : Nat) (l : Logged) : Prop where
  logged : PageLogged l
  queue : l.state.queue = jobs
  empty : l.state.EmptyFrom i

theorem LogLoading.initSlot {jobs : Fin queueSize → Process}
    (hfresh : ∀ k page, (jobs k).pages page = -pageWait - 1) {i : Nat}
    (h : LogLoading jobs i l) : LogLoading jobs (i + 1) (l.initSlot i) where
  queue := (reload_queue l.state i).trans h.queue
  empty := h.empty.reload
  logged := by
    intro slot k hslot page hpage
    have hqueue : ((l.initSlot i).state.queue k).pages page = (l.state.queue k).pages page := by
      show ((l.state.reload i).queue k).pages page = (l.state.queue k).pages page
      rw [reload_queue]
    rw [hqueue]
    by_cases hsame : slot = i
    · subst hsame
      obtain ⟨hleft, rfl⟩ := reload_processes_self hslot
      have hpages : (l.initSlot slot).pages = l.pages ++ l.state.outRecords slot
          (l.state.queue ⟨l.state.queueend, hleft⟩) := by
        simp only [Logged.initSlot, hleft, dif_pos]
      rw [hpages, lastComment_outRecords _ _ _ _ _ hpage, if_pos rfl, h.queue, hfresh]
      rfl
    · have hbefore : l.state.processes slot = some k := by
        rw [← reload_processes_of_ne l.state hsame]
        exact hslot
      rw [← h.logged slot k hbefore page hpage]
      simp only [Logged.initSlot]
      split_ifs
      · rw [lastComment_outRecords _ _ _ _ _ hpage, if_neg hsame]
      · rw [List.append_nil]

variable {config : Config}

theorem startsLogged_pageLogged (h : config.StartsLogged l) : PageLogged l := by
  obtain ⟨fuel, hstart⟩ := h
  rw [Logged.allinit, Option.map_eq_some_iff] at hstart
  obtain ⟨jobs, hjobs, rfl⟩ := hstart
  have hloop : LogLoading jobs config.procs (loop Logged.initSlot config.procs (.boot jobs)) :=
    loop_invariant (LogLoading jobs) ⟨fun _ _ hslot => (by cases hslot), rfl, fun _ _ => rfl⟩
      fun _ _ _ hl => hl.initSlot fun k => (initqueue_fresh hjobs k).pages
  exact hloop.logged

/-- In every state reached, the last record for each page of a loaded job fits its entry. -/
theorem Config.ReachesLogged.pageLogged (h : config.ReachesLogged l) : PageLogged l := by
  obtain ⟨l₀, hstart, hreach⟩ := h
  refine hreach.invariant_of config.ReachesLogged PageLogged (fun l hl => ⟨l₀, hstart, hl⟩)
    (startsLogged_pageLogged hstart) ?_
  intro l a l' hl hlogged _ hphase
  obtain ⟨fuel, jobs, hjobs, hsched⟩ := hl.reaches.scheduled
  cases a with
  | step slot =>
      rw [loggedPhase, Option.ite_none_right_eq_some] at hphase
      rw [← Option.some.inj hphase.2]
      exact hlogged.stepSlot hsched (fun k => (initqueue_fresh hjobs k).pages) hphase.1
  | age slot =>
      rw [loggedPhase, Option.ite_none_right_eq_some] at hphase
      rw [← Option.some.inj hphase.2]
      exact hlogged.ageSlot hsched.one_slot slot
  | request r =>
      rw [← Option.some.inj hphase]
      exact hlogged.logged hsched.one_slot r
  | clock =>
      rw [← Option.some.inj hphase]
      exact hlogged

theorem pageComment_text (v : Int) :
    ((pageComment v).text = "out" ↔ v < -pageWait) ∧
    ((pageComment v).text = "going" ↔ -pageWait ≤ v ∧ v < 0) ∧
    ((pageComment v).text = "in" ↔ v = 0) ∧ ((pageComment v).text = "coming" ↔ 0 < v) := by
  have hwait := pageWait_pos
  unfold pageComment
  split_ifs <;> simp [PageComment.text] <;> omega

/-- **The log of the pages is a faithful history.** In every state that phases lead to, such as
those of every run of the main loop with any pager, the comment of the last record for a page of a
slot with a job says in which range the entry of the page is; and replaying the log gives these
comments for all pages at once. -/
theorem page_log_faithful (config : Config) (l₀ : Logged) (h : config.StartsLogged l₀) :
    (∀ pager n, Reachable (loggedPhase config.procs) l₀ (config.loggedRun pager l₀ n).2) ∧
    ∀ l, Reachable (loggedPhase config.procs) l₀ l →
      ∀ slot k, l.state.processes slot = some k → ∀ page, page < maxProcPages →
        let v := (l.state.queue k).pages page
        (∃ comment, lastComment l.pages slot page = some comment ∧
          (comment.text = "out" ↔ v < -pageWait) ∧
          (comment.text = "going" ↔ -pageWait ≤ v ∧ v < 0) ∧
          (comment.text = "in" ↔ v = 0) ∧ (comment.text = "coming" ↔ 0 < v)) ∧
        replay l.pages slot page = pageComment v := by
  refine ⟨fun pager n => loggedRun_reach pager l₀ n, ?_⟩
  intro l hreach slot k hslot page hpage v
  have hreached : config.ReachesLogged l := ⟨l₀, h, hreach⟩
  have hlast := hreached.pageLogged slot k hslot page hpage
  refine ⟨⟨_, hlast, pageComment_text v⟩, ?_⟩
  rw [replay_eq, hlast]
  rfl

theorem page_log_faithful_alternating : ∃ l₀, alternatingConfig.StartsLogged l₀ ∧
    let l := (alternatingConfig.loggedRun eager l₀ 100).2
    ∃ k, l.state.processes 0 = some k ∧
      (∃ comment, lastComment l.pages 0 0 = some comment ∧
        (comment.text = "in" ↔ (l.state.queue k).pages 0 = 0) ∧
        (comment.text = "coming" ↔ 0 < (l.state.queue k).pages 0)) ∧
      replay l.pages 0 0 = pageComment ((l.state.queue k).pages 0) := by
  obtain ⟨s₀, hstart⟩ := alternatingConfig_starts
  obtain ⟨l₀, hlogged, rfl⟩ := startsLogged_of_starts hstart
  obtain ⟨k, hslot⟩ := Option.isSome_iff_exists.mp
    (start_loaded hstart (show 0 < alternatingConfig.procs by decide))
  have hstill : Still l₀.state (alternatingConfig.run eager l₀.state 100).2 :=
    still_start eager hstart rfl (by decide)
  have hnow : (alternatingConfig.loggedRun eager l₀ 100).2.state.processes 0 = some k := by
    have hstate : (alternatingConfig.loggedRun eager l₀ 100).2.state =
        (alternatingConfig.run eager l₀.state 100).2 :=
      congrArg Prod.snd (loggedRun_state eager l₀ 100)
    rw [← hstate] at hstill
    rw [hstill.processes, hslot]
  obtain ⟨hruns, hfaithful⟩ := page_log_faithful alternatingConfig l₀ hlogged
  obtain ⟨⟨comment, hlast, -, -, hin, hcoming⟩, hreplay⟩ :=
    hfaithful _ (hruns eager 100) 0 k hnow 0 (by decide)
  exact ⟨l₀, hlogged, k, hnow, ⟨comment, hlast, hin, hcoming⟩, hreplay⟩

end OperatingSystems.Simulator
