import OperatingSystems.SimulatorResidence
import OperatingSystems.PagerLruProgress

/-!
The transfers of pages. A page on its way is moved by the ageing alone: the calls for it are
answered without effect, so that a transfer, once started, goes on for `PAGEWAIT` ticks, and the
frame of a page that goes comes back in the last of them.
-/

namespace OperatingSystems.Simulator

open Loop Runs Frames CallTree

/-! ### Calls for a page on its way -/

section Answers

variable {procs slot page : Nat} {s : State} {k : Fin queueSize}

theorem pageout_of_coming (htarget : s.target procs slot page = some (k, page))
    (hcoming : 0 < (s.queue k).pages page) : pageout procs slot page s = (false, s) := by
  simp only [pageout, htarget]
  rw [if_neg (by omega), if_pos hcoming]

theorem pagein_of_coming (htarget : s.target procs slot page = some (k, page))
    (hcoming : 0 < (s.queue k).pages page) : pagein procs slot page s = (true, s) := by
  simp only [pagein, htarget]
  rw [if_pos (by omega)]

theorem pageout_of_going (htarget : s.target procs slot page = some (k, page))
    (hgoing : (s.queue k).pages page < 0) : pageout procs slot page s = (true, s) := by
  simp only [pageout, htarget]
  rw [if_pos hgoing]

theorem pagein_of_going (htarget : s.target procs slot page = some (k, page))
    (hgoing : (s.queue k).pages page < 0) (hheld : -pageWait ≤ (s.queue k).pages page) :
    pagein procs slot page s = (false, s) := by
  simp only [pagein, htarget]
  rw [if_neg (by omega)]
  split_ifs
  · rfl
  · rfl

/-- A call that changes a page of the job in the slot is for one of the job's pages. -/
theorem target_of_changed (hnpages : ∀ k, (s.queue k).npages = maxProcPages) {r : PageCall}
    (hslot : s.processes slot = some k) (hprocess : r.process = slot) (hpage : r.page = page)
    (hchanged : ((r.answer procs s).2.queue k).pages page ≠ (s.queue k).pages page) :
    s.target procs slot page = some (k, page) := by
  rcases answer_cases procs hnpages r with hrefused | ⟨c, htarget⟩
  · exact absurd (by rw [hrefused]) hchanged
  · rw [hprocess, hpage] at htarget
    obtain ⟨-, -, hsome, -, -, -, hj⟩ := target_cases htarget
    rw [Int.toNat_natCast] at hsome hj
    rw [hslot, Option.some.injEq] at hsome
    rw [htarget, ← hsome, hj]

end Answers

/-! ### Frames that come back -/

/-- The next ageing gives back the frame of the page. -/
def State.Due (s : State) (k : Fin queueSize) (page : Nat) : Prop :=
  (s.queue k).pages page = -pageWait

instance (s : State) (k : Fin queueSize) (page : Nat) : Decidable (s.Due k page) :=
  inferInstanceAs (Decidable (_ = _))

/-- The number of pages whose frames the next ageing gives back. -/
def State.dueCount (s : State) : Nat :=
  (Finset.univ.filter fun c : Cell => s.Due c.1 c.2).card

/-- The ageing gives back the frames of the pages whose time has run out, and no other. -/
theorem allage_pagesavail {config : Config} {s : State} (h : config.Reaches s) :
    (allage config.procs s).pagesavail = s.pagesavail + s.dueCount := by
  obtain ⟨s₀, hstart, hreach⟩ := h
  have hafter : config.Reaches (allage config.procs s) :=
    ⟨s₀, hstart, hreach.trans (allage_reach s)⟩
  have h : config.Reaches s := ⟨s₀, hstart, hreach⟩
  have hcount : (s.dueCount : Int) = ∑ c, if s.pool.cell c = -pageWait then 1 else 0 := by
    rw [State.dueCount, Finset.natCast_card_filter]
    rfl
  have hsum : ∑ c, held pageWait (s.pool.cell c) =
      ∑ c, held pageWait ((allage config.procs s).pool.cell c) + s.dueCount := by
    rw [hcount, ← Finset.sum_add_distrib]
    apply Finset.sum_congr rfl
    intro c _
    rw [(aged_allage h).cell]
    exact held_ageCell pageWait_pos _
  have hnow : s.pagesavail + ∑ c, held pageWait (s.pool.cell c) = physicalPages :=
    h.framed.balanced.total
  have hthen : (allage config.procs s).pagesavail +
      ∑ c, held pageWait ((allage config.procs s).pool.cell c) = physicalPages :=
    hafter.framed.balanced.total
  omega

/-! ### Runs -/

/-- In iteration `t` the pager makes the call `r`, in state `s`, and then the calls `after`. -/
def Config.Makes (config : Config) (pager : Pager) (s₀ : State) (t : Nat) (r : PageCall)
    (s : State) (after : List (PageCall × State)) : Prop :=
  ∃ before, config.calls pager s₀ t = before ++ (r, s) :: after

/-- The calls of iteration `t + d`; in iteration `t` only the given last ones. -/
def Config.followers (config : Config) (pager : Pager) (s₀ : State) (t : Nat)
    (after : List (PageCall × State)) : Nat → List (PageCall × State)
  | 0 => after
  | d + 1 => config.calls pager s₀ (t + (d + 1))

/-- The job is in the slot from iteration `t` to iteration `t + d`. -/
def Config.Stays (config : Config) (pager : Pager) (s₀ : State) (slot : Nat) (k : Fin queueSize)
    (t d : Nat) : Prop :=
  ∀ i, i ≤ d → (config.shown pager s₀ (t + i)).processes slot = some k

variable {config : Config} {pager : Pager} {s₀ : State}

theorem Config.Stays.mono {slot t d d' : Nat} {k : Fin queueSize}
    (h : config.Stays pager s₀ slot k t d) (hle : d' ≤ d) : config.Stays pager s₀ slot k t d' :=
  fun i hi => h i (hi.trans hle)

/-- The step of the slots leaves the pages of a job alone that is in a slot after it. -/
theorem allstep_cell (h : config.Starts s₀) {n slot : Nat} {k : Fin queueSize}
    (hslot : (config.shown pager s₀ n).processes slot = some k) (j : Fin maxProcPages) :
    (allstep config.procs (config.run pager s₀ n).2).pool.cell (k, j) =
      (config.run pager s₀ n).2.pool.cell (k, j) := by
  obtain ⟨fuel, jobs, -, hsched⟩ := run_scheduled pager h
  show ((allstep config.procs (config.run pager s₀ n).2).queue k).pages j =
    ((config.run pager s₀ n).2.queue k).pages j
  by_cases hloaded : ∃ slot', (config.run pager s₀ n).2.processes slot' = some k
  · obtain ⟨slot', hslot'⟩ := hloaded
    have hactive := ((hsched n).running slot' k hslot').active
    have hstill : ((allstep config.procs (config.run pager s₀ n).2).queue k).active = true := by
      rw [← (paged_allage config.procs _).active]
      obtain ⟨fuel', jobs', -, hshown⟩ := (shown_reaches pager h n).scheduled
      exact (hshown.running slot k hslot).active
    rw [allstep_queue_of_loaded (hsched n).toPlaced hslot'] at hstill ⊢
    rw [stepped_pages hactive hstill]
  · rw [allstep_queue_of_idle (hsched n).toPlaced (not_exists.mp hloaded)]

/-- In the first part of an iteration the pages of a job in a slot only age. -/
theorem shown_cell (h : config.Starts s₀) {n slot : Nat} {k : Fin queueSize}
    (hslot : (config.shown pager s₀ n).processes slot = some k) (j : Fin maxProcPages) :
    (config.shown pager s₀ n).pool.cell (k, j) =
      ageCell pageWait ((config.run pager s₀ n).2.pool.cell (k, j)) := by
  rw [Config.shown, midTick, (aged_allage (run_reaches pager h n).allstep).cell,
    allstep_cell h hslot]

/-- The calls of an iteration leave a page on its way alone. -/
theorem run_succ_cell (h : config.Starts s₀) {n : Nat} {c : Cell}
    (htransit : Transit pageWait ((config.shown pager s₀ n).pool.cell c)) :
    (config.run pager s₀ (n + 1)).2.pool.cell c = (config.shown pager s₀ n).pool.cell c := by
  have hserved := (run_succ_requested pager n).2 (shown_reaches pager h n).npages
  exact (hserved.cell c).eq_of_transit htransit

theorem calls_cell (h : config.Starts s₀) {n : Nat} {c : Cell}
    (htransit : Transit pageWait ((config.shown pager s₀ n).pool.cell c))
    {x : PageCall × State} (hx : x ∈ config.calls pager s₀ n) :
    x.2.pool.cell c = (config.shown pager s₀ n).pool.cell c := by
  have hserved := (calls_requested hx).2 (shown_reaches pager h n).npages
  exact (hserved.cell c).eq_of_transit htransit

section Transfer

variable {t slot d : Nat} {k : Fin queueSize} {j : Fin maxProcPages} {r : PageCall} {s : State}
  {after : List (PageCall × State)} {v : Int}

theorem Config.Makes.mem (h : config.Makes pager s₀ t r s after) :
    (r, s) ∈ config.calls pager s₀ t := by
  obtain ⟨before, hcalls⟩ := h
  rw [hcalls]
  simp

theorem mem_calls_of_followers (h : config.Makes pager s₀ t r s after) {x : PageCall × State}
    (hx : x ∈ config.followers pager s₀ t after d) : x ∈ config.calls pager s₀ (t + d) := by
  cases d with
  | zero =>
      obtain ⟨before, hcalls⟩ := h
      rw [Nat.add_zero, hcalls]
      exact List.mem_append_right _ (List.mem_cons_of_mem _ hx)
  | succ d => exact hx

/-- After the call that starts a transfer, the rest of the iteration leaves the page alone. -/
theorem Config.Makes.cell (hmakes : config.Makes pager s₀ t r s after) (h : config.Starts s₀)
    (hstarted : (r.answer config.procs s).2.pool.cell (k, j) = v) (hv : Transit pageWait v) :
    (config.run pager s₀ (t + 1)).2.pool.cell (k, j) = v ∧
      ∀ x ∈ after, x.2.pool.cell (k, j) = v := by
  have hnpages : ∀ k, ((r.answer config.procs s).2.queue k).npages = maxProcPages := fun k =>
    ((paged_answer config.procs r s).npages k).trans ((calls_reaches hmakes.mem h).npages k)
  have hrest := (moments_relates .refl Requested.trans requested_answer hmakes.mem).2.2 hnpages
  obtain ⟨before, hcalls⟩ := hmakes
  rw [run_succ_callyou]
  refine ⟨?_, ?_⟩
  · rw [← hstarted] at hv ⊢
    exact (hrest.cell (k, j)).eq_of_transit hv
  · intro x hx
    have hserved := (moments_after .refl Requested.trans requested_answer hcalls x hx).2 hnpages
    rw [← hstarted] at hv ⊢
    exact (hserved.cell (k, j)).eq_of_transit hv

/-- A page that has started on its way ages by one in every iteration. -/
theorem run_cell_of_transit (h : config.Starts s₀)
    (hstart : (config.run pager s₀ (t + 1)).2.pool.cell (k, j) = v)
    (hstays : config.Stays pager s₀ slot k t d)
    (htransit : ∀ i, i ≤ d → Transit pageWait ((ageCell pageWait)^[i] v)) :
    (config.run pager s₀ (t + d + 1)).2.pool.cell (k, j) = (ageCell pageWait)^[d] v := by
  induction d with
  | zero => exact hstart
  | succ d ih =>
      have hbefore := ih (hstays.mono (Nat.le_succ d)) fun i hi => htransit i (Nat.le_succ_of_le hi)
      have hshown := shown_cell h (hstays (d + 1) le_rfl) j
      rw [← Nat.add_assoc, hbefore, ← Function.iterate_succ_apply' (ageCell pageWait)] at hshown
      rw [← Nat.add_assoc, run_succ_cell h (by rw [hshown]; exact htransit (d + 1) le_rfl), hshown]

theorem shown_cell_of_transit (h : config.Starts s₀)
    (hstart : (config.run pager s₀ (t + 1)).2.pool.cell (k, j) = v)
    (hstays : config.Stays pager s₀ slot k t (d + 1))
    (htransit : ∀ i, i ≤ d → Transit pageWait ((ageCell pageWait)^[i] v)) :
    (config.run pager s₀ (t + (d + 1))).2.pool.cell (k, j) = (ageCell pageWait)^[d] v ∧
    (config.shown pager s₀ (t + (d + 1))).pool.cell (k, j) = (ageCell pageWait)^[d + 1] v := by
  have hrun := run_cell_of_transit h hstart (hstays.mono (Nat.le_succ d)) htransit
  refine ⟨hrun, ?_⟩
  rw [shown_cell h (hstays (d + 1) le_rfl), Function.iterate_succ_apply', ← Nat.add_assoc, hrun]

/-- What the calls find that follow the one that starts a transfer. -/
theorem followers_cell (hmakes : config.Makes pager s₀ t r s after) (h : config.Starts s₀)
    (hstarted : (r.answer config.procs s).2.pool.cell (k, j) = v)
    (hstays : config.Stays pager s₀ slot k t d)
    (htransit : ∀ i, i ≤ d → Transit pageWait ((ageCell pageWait)^[i] v))
    {x : PageCall × State} (hx : x ∈ config.followers pager s₀ t after d) :
    x.2.target config.procs slot j = some (k, j.val) ∧
      x.2.pool.cell (k, j) = (ageCell pageWait)^[d] v := by
  obtain ⟨hstart, hrest⟩ := hmakes.cell h hstarted (htransit 0 (Nat.zero_le d))
  have hmem := mem_calls_of_followers hmakes hx
  have hreach := calls_reaches hmem h
  refine ⟨?_, ?_⟩
  · obtain ⟨fuel, jobs, -, hsched⟩ := hreach.scheduled
    have hslot := hstays d le_rfl
    rw [← (calls_requested hmem).1.processes] at hslot
    apply target_eq hslot (hsched.slot_lt slot k hslot) (hsched.running slot k hslot).active
    rw [hreach.npages]
    exact j.isLt
  · cases d with
    | zero => exact hrest x hx
    | succ d =>
        have hshown := (shown_cell_of_transit h hstart hstays
          fun i hi => htransit i (Nat.le_succ_of_le hi)).2
        rw [calls_cell h (by rw [hshown]; exact htransit (d + 1) le_rfl) hmem, hshown]

/-- The slot and the page that a call names which starts a transfer. -/
theorem started_cell {page : Nat} (hmakes : config.Makes pager s₀ t r s after)
    (h : config.Starts s₀) (hstays : config.Stays pager s₀ slot k t d) (hprocess : r.process = slot)
    (hpage : r.page = page)
    (hchanged : ((r.answer config.procs s).2.queue k).pages page ≠ (s.queue k).pages page) :
    page < maxProcPages := by
  have hslot := hstays 0 (Nat.zero_le d)
  rw [Nat.add_zero, ← (calls_requested hmakes.mem).1.processes] at hslot
  have hnpages := (calls_reaches hmakes.mem h).npages
  have htarget := target_of_changed hnpages hslot hprocess hpage hchanged
  obtain ⟨-, -, -, -, -, hlt, -⟩ := target_cases htarget
  rwa [Int.toNat_natCast, hnpages] at hlt

/-- A page that starts to come in is resident `PAGEWAIT` iterations later and not before, and until
then no call for it has an effect. -/
theorem arrival {page : Nat} (h : config.Starts s₀)
    (hmakes : config.Makes pager s₀ t (.pagein slot page) s after)
    (hout : (s.queue k).pages page < -pageWait)
    (hstarts : ((pagein config.procs slot page s).2.queue k).pages page = pageWait)
    (hd : (d : Int) ≤ pageWait) (hstays : config.Stays pager s₀ slot k t d) :
    (0 < d →
      (((config.shown pager s₀ (t + d)).pentry slot).pages page = true ↔ (d : Int) = pageWait)) ∧
    ((d : Int) < pageWait → ∀ x ∈ config.followers pager s₀ t after d,
      pageout config.procs slot page x.2 = (false, x.2) ∧
        pagein config.procs slot page x.2 = (true, x.2)) := by
  have hwait := pageWait_pos
  have hlt : page < maxProcPages := by
    apply started_cell hmakes h hstays rfl rfl
    simp only [PageCall.answer, hstarts]
    omega
  obtain ⟨j, rfl⟩ : ∃ j : Fin maxProcPages, j.val = page := ⟨⟨page, hlt⟩, rfl⟩
  have hstarted : (PageCall.answer config.procs (.pagein slot j) s).2.pool.cell (k, j) = pageWait :=
    hstarts
  have htransit : ∀ i : Nat, (i : Int) < pageWait →
      Transit pageWait ((ageCell pageWait)^[i] pageWait) := by
    intro i hi
    rw [ageCell_coming hi.le]
    exact ⟨by omega, by omega⟩
  refine ⟨?_, ?_⟩
  · intro hpos
    obtain ⟨d, rfl⟩ : ∃ e, d = e + 1 := ⟨d - 1, by omega⟩
    have hstart := (hmakes.cell h hstarted (htransit 0 hwait)).1
    have hshown := (shown_cell_of_transit h hstart hstays fun i hi => htransit i (by omega)).2
    rw [ageCell_coming hd] at hshown
    rw [pentry_pages_iff (shown_reaches pager h _).npages]
    constructor
    · rintro ⟨c, hslot, hpage, hin⟩
      have hc : c = (k, j) := Prod.ext
        (Option.some.inj (hslot.symm.trans (hstays (d + 1) le_rfl))) (Fin.ext hpage)
      rw [hc, hshown] at hin
      omega
    · intro heq
      refine ⟨(k, j), hstays (d + 1) le_rfl, rfl, ?_⟩
      rw [hshown]
      omega
  · intro hless x hx
    obtain ⟨htarget, hcell⟩ := followers_cell hmakes h hstarted hstays
      (fun i hi => htransit i (by omega)) hx
    rw [ageCell_coming hd] at hcell
    have hcoming : 0 < (x.2.queue k).pages j := by
      have hcell : (x.2.queue k).pages j = pageWait - d := hcell
      omega
    exact ⟨pageout_of_coming htarget hcoming, pagein_of_coming htarget hcoming⟩

/-- A page that starts to go holds its frame until the ageing `PAGEWAIT` iterations later, which
gives it back, and until then no call for it has an effect. -/
theorem departure {page : Nat} (h : config.Starts s₀)
    (hmakes : config.Makes pager s₀ t (.pageout slot page) s after)
    (hin : (s.queue k).pages page = 0)
    (hstarts : ((pageout config.procs slot page s).2.queue k).pages page = -1)
    (hd : (d : Int) ≤ pageWait) (hstays : config.Stays pager s₀ slot k t d) :
    ((d : Int) < pageWait → ∀ x ∈ config.followers pager s₀ t after d,
      pagein config.procs slot page x.2 = (false, x.2) ∧
        pageout config.procs slot page x.2 = (true, x.2)) ∧
    (0 < d → let m := allstep config.procs (config.run pager s₀ (t + d)).2
      (config.shown pager s₀ (t + d)).pagesavail = m.pagesavail + m.dueCount ∧
        (m.Due k page ↔ (d : Int) = pageWait) ∧ -pageWait ≤ (m.queue k).pages page) := by
  have hwait := pageWait_pos
  have hlt : page < maxProcPages := by
    apply started_cell hmakes h hstays rfl rfl
    simp only [PageCall.answer, hstarts]
    omega
  obtain ⟨j, rfl⟩ : ∃ j : Fin maxProcPages, j.val = page := ⟨⟨page, hlt⟩, rfl⟩
  have hstarted : (PageCall.answer config.procs (.pageout slot j) s).2.pool.cell (k, j) = -1 :=
    hstarts
  have htransit : ∀ i : Nat, (i : Int) < pageWait →
      Transit pageWait ((ageCell pageWait)^[i] (-1)) := by
    intro i hi
    rw [ageCell_going hi.le]
    exact ⟨by omega, by omega⟩
  refine ⟨?_, ?_⟩
  · intro hless x hx
    obtain ⟨htarget, hcell⟩ := followers_cell hmakes h hstarted hstays
      (fun i hi => htransit i (by omega)) hx
    rw [ageCell_going hd] at hcell
    have hcell : (x.2.queue k).pages j = -1 - d := hcell
    exact ⟨pagein_of_going htarget (by omega) (by omega), pageout_of_going htarget (by omega)⟩
  · intro hpos m
    obtain ⟨d, rfl⟩ : ∃ e, d = e + 1 := ⟨d - 1, by omega⟩
    have hstart := (hmakes.cell h hstarted (htransit 0 hwait)).1
    have hrun := (shown_cell_of_transit h hstart hstays fun i hi => htransit i (by omega)).1
    rw [ageCell_going (by omega), ← allstep_cell h (hstays (d + 1) le_rfl)] at hrun
    have hcell : (m.queue k).pages j = -1 - d := hrun
    refine ⟨allage_pagesavail (run_reaches pager h _).allstep, ?_, by omega⟩
    rw [State.Due, hcell]
    omega

end Transfer

/-- **Transfers take `PAGEWAIT` iterations and cannot be cancelled.** For every pager: if a call of
`pagein` in iteration `t` starts to bring a page in and the job stays in its slot, the snapshot of
iteration `t + PAGEWAIT` is the first that shows the page resident, and all calls for it until then
are answered without effect; if a call of `pageout` starts to move it out, the calls for it until
the ageing of iteration `t + PAGEWAIT` are answered without effect, and that ageing is the one that
gives back its frame. -/
theorem transfers_take_pageWait (config : Config) (pager : Pager) (s₀ : State)
    (h : config.Starts s₀) (t slot page : Nat) (k : Fin queueSize) (s : State)
    (after : List (PageCall × State)) (d : Nat) (hd : (d : Int) ≤ pageWait)
    (hstays : config.Stays pager s₀ slot k t d) :
    (config.Makes pager s₀ t (.pagein slot page) s after → (s.queue k).pages page < -pageWait →
      ((pagein config.procs slot page s).2.queue k).pages page = pageWait →
        (0 < d → (((config.shown pager s₀ (t + d)).pentry slot).pages page = true ↔
          (d : Int) = pageWait)) ∧
        ((d : Int) < pageWait → ∀ x ∈ config.followers pager s₀ t after d,
          pageout config.procs slot page x.2 = (false, x.2) ∧
            pagein config.procs slot page x.2 = (true, x.2))) ∧
    (config.Makes pager s₀ t (.pageout slot page) s after → (s.queue k).pages page = 0 →
      ((pageout config.procs slot page s).2.queue k).pages page = -1 →
        ((d : Int) < pageWait → ∀ x ∈ config.followers pager s₀ t after d,
          pagein config.procs slot page x.2 = (false, x.2) ∧
            pageout config.procs slot page x.2 = (true, x.2)) ∧
        (0 < d → let m := allstep config.procs (config.run pager s₀ (t + d)).2
          (config.shown pager s₀ (t + d)).pagesavail = m.pagesavail + m.dueCount ∧
            (m.Due k page ↔ (d : Int) = pageWait) ∧ -pageWait ≤ (m.queue k).pages page)) := by
  refine ⟨?_, ?_⟩
  · intro hmakes hout hstarts
    exact arrival h hmakes hout hstarts hd hstays
  · intro hmakes hin hstarts
    exact departure h hmakes hin hstarts hd hstays

/-! ### The first transfer of a run -/

/-- A job without its page stays where it is. -/
theorem shown_blocked (h : config.Starts s₀) {n slot : Nat} {k : Fin queueSize}
    (hslot : (config.run pager s₀ n).2.processes slot = some k)
    (hout : ((config.run pager s₀ n).2.queue k).pages
      ((config.run pager s₀ n).2.queue k).page ≠ 0) :
    (config.shown pager s₀ n).processes slot = some k ∧
      ((config.shown pager s₀ n).queue k).page = ((config.run pager s₀ n).2.queue k).page := by
  obtain ⟨fuel, jobs, -, hsched⟩ := run_scheduled pager h
  have hactive := ((hsched n).running slot k hslot).active
  have hpaged := paged_allage config.procs (allstep config.procs (config.run pager s₀ n).2)
  refine ⟨?_, ?_⟩
  · rw [Config.shown, midTick, hpaged.processes]
    apply allstep_processes_of_goesOn (hsched n).toPlaced hslot
    rw [processStep_blocked hactive hout]
  · rw [Config.shown, midTick, hpaged.still.page,
      allstep_queue_of_loaded (hsched n).toPlaced hslot, stepped_blocked hactive hout]
    rfl

/-- What a pager is shown of a job in the first iteration. -/
theorem shown_first (pager : Pager) (h : config.Starts s₀) {slot : Nat} {k : Fin queueSize}
    (hslot : s₀.processes slot = some k) :
    (config.shown pager s₀ 0).processes slot = some k ∧
      ((config.shown pager s₀ 0).queue k).page = 0 ∧
      (∀ j, (config.shown pager s₀ 0).pool.cell (k, j) = -pageWait - 1) ∧
      (config.shown pager s₀ 0).pagesavail ≠ 0 := by
  have hwait := pageWait_pos
  obtain ⟨-, -, -, -, havail, -⟩ := start_boot h
  have hpages := fun k => (start_unpaged h k).2
  have hpage := (start_unpaged h k).1
  have hquiet : s₀.Quiet := by
    intro slot k _
    rw [hpages]
    omega
  have hstart : config.Reaches s₀ := ⟨s₀, h, .refl⟩
  obtain ⟨fuel', jobs', -, hsched⟩ := hstart.scheduled
  obtain ⟨hloaded, hsame⟩ : (config.shown pager s₀ 0).processes slot = some k ∧
      ((config.shown pager s₀ 0).queue k).page = (s₀.queue k).page :=
    shown_blocked h hslot (hquiet slot k hslot)
  refine ⟨hloaded, hsame.trans hpage, ?_, ?_⟩
  · intro j
    have hcell : (config.run pager s₀ 0).2.pool.cell (k, j) = -pageWait - 1 := hpages k j
    rw [shown_cell h hloaded, hcell, ageCell, if_pos (by omega)]
  · have hsame : (allstep config.procs s₀).pagesavail = physicalPages :=
      (blocked_allstep hsched hquiet).pagesavail.trans havail
    have hle : (allstep config.procs s₀).pagesavail ≤ (config.shown pager s₀ 0).pagesavail :=
      (aged_allage hstart.allstep).avail_le
    rw [hsame, physicalPages] at hle
    omega

instance : NeZero maxProcPages := ⟨Nat.succ_ne_zero 19⟩

variable {inv : pager.State → Prop}

/-- A pager that keeps to the rules starts with the first page of the job in the first slot. -/
theorem first_makes (live : pager.Live inv) (h : config.Starts s₀) {k : Fin queueSize}
    (hslot : s₀.processes 0 = some k) :
    ∃ after, config.Makes pager s₀ 0 (.pagein (0 : Nat) (0 : Nat)) (config.shown pager s₀ 0)
      after := by
  have hwait := pageWait_pos
  obtain ⟨hloaded, hpage, hcell, -⟩ := shown_first pager h hslot
  obtain ⟨fuel, jobs, -, hsched⟩ := (shown_reaches pager h 0).scheduled
  obtain ⟨hactive, hsame⟩ := pentry_of_some hloaded
  have hzero : ((config.shown pager s₀ 0).pentry 0).page = (0 : Fin maxProcPages).val := by
    rw [hsame, hpage]
    rfl
  have hnone : ((config.shown pager s₀ 0).pentry 0).pages
      ((config.shown pager s₀ 0).pentry 0).page = false := by
    rw [hzero]
    apply pentry_pages_eq_false (c := (k, 0)) (shown_reaches pager h 0).npages hloaded
    rw [hcell]
    omega
  obtain ⟨next, hnext⟩ := @Pager.Live.first _ _ live _ (config.run pager s₀ 0).1 0 (by decide)
    (hactive.trans (hsched.running 0 k hloaded).active) hnone
    fun other hother => absurd hother (Nat.not_lt_zero other)
  rw [hzero] at hnext
  exact ⟨_, [], by rw [Config.calls, hnext]; rfl⟩

theorem first_starts (pager : Pager) (h : config.Starts s₀) {k : Fin queueSize}
    (hslot : s₀.processes 0 = some k) :
    ((config.shown pager s₀ 0).queue k).pages 0 < -pageWait ∧
    ((pagein config.procs (0 : Nat) (0 : Nat) (config.shown pager s₀ 0)).2.queue k).pages 0 =
      pageWait := by
  have hwait := pageWait_pos
  obtain ⟨hloaded, -, hcell, havail⟩ := shown_first pager h hslot
  have hreach := shown_reaches pager h 0
  obtain ⟨fuel, jobs, -, hsched⟩ := hreach.scheduled
  have hout : ((config.shown pager s₀ 0).queue k).pages 0 = -pageWait - 1 := hcell 0
  have htarget : (config.shown pager s₀ 0).target config.procs (0 : Nat) (0 : Nat) =
      some (k, 0) := by
    apply target_eq hloaded (hsched.slot_lt 0 k hloaded) (hsched.running 0 k hloaded).active
    rw [hreach.npages]
    decide
  refine ⟨by omega, ?_⟩
  simp only [pagein, htarget, State.setPage]
  rw [if_neg (by omega), if_neg havail, if_neg (by omega)]
  simp [State.setJob]

/-- The first job stays for the whole of its first transfer. -/
theorem first_stays (live : pager.Live inv) (h : config.Starts s₀) {k : Fin queueSize}
    (hslot : s₀.processes 0 = some k) (d : Nat) (hd : (d : Int) ≤ pageWait) :
    config.Stays pager s₀ 0 k 0 d ∧ ((config.shown pager s₀ d).queue k).page = 0 := by
  induction d with
  | zero =>
      obtain ⟨hloaded, hpage, -⟩ := shown_first pager h hslot
      refine ⟨?_, hpage⟩
      intro i hi
      obtain rfl := Nat.le_zero.mp hi
      exact hloaded
  | succ d ih =>
      obtain ⟨hstays, hpage⟩ := ih (by omega)
      obtain ⟨after, hmakes⟩ := first_makes live h hslot
      have hstarted : (PageCall.answer config.procs (.pagein (0 : Nat) (0 : Nat))
          (config.shown pager s₀ 0)).2.pool.cell (k, 0) = pageWait := (first_starts pager h hslot).2
      have htransit : ∀ i : Nat, i ≤ d → Transit pageWait ((ageCell pageWait)^[i] pageWait) := by
        intro i hi
        rw [ageCell_coming (by omega)]
        exact ⟨by omega, by omega⟩
      have hcell := run_cell_of_transit h (hmakes.cell h hstarted (htransit 0 (Nat.zero_le d))).1
        hstays htransit
      rw [ageCell_coming (by omega), Nat.zero_add] at hcell
      have hrequested : Paged (config.shown pager s₀ d) (config.run pager s₀ (d + 1)).2 :=
        (run_succ_requested pager d).1
      have hnow := hstays d le_rfl
      rw [Nat.zero_add, ← hrequested.processes] at hnow
      rw [← hrequested.still.page] at hpage
      have hout : ((config.run pager s₀ (d + 1)).2.queue k).pages
          ((config.run pager s₀ (d + 1)).2.queue k).page ≠ 0 := by
        have hcell : ((config.run pager s₀ (d + 1)).2.queue k).pages 0 = pageWait - d := hcell
        rw [hpage]
        omega
      obtain ⟨hloaded, hsame⟩ := shown_blocked h hnow hout
      refine ⟨?_, hsame.trans hpage⟩
      intro i hi
      rcases Nat.le_succ_iff.mp hi with hle | rfl
      · exact hstays i hle
      · rw [Nat.zero_add]
        exact hloaded

/-- The first page is resident in iteration `PAGEWAIT`. -/
theorem transfers_take_pageWait_alternating : ∃ s₀, alternatingConfig.Starts s₀ ∧
    ((alternatingConfig.shown lru s₀ 100).pentry 0).pages 0 = true := by
  obtain ⟨s₀, hstart⟩ := alternatingConfig_starts
  obtain ⟨k, hslot⟩ := Option.isSome_iff_exists.mp
    (start_loaded hstart (show 0 < alternatingConfig.procs by decide))
  obtain ⟨after, hmakes⟩ := first_makes lru_live hstart hslot
  obtain ⟨hout, hstarts⟩ := first_starts lru hstart hslot
  have hstays := (first_stays lru_live hstart hslot 100 (by decide)).1
  have htransfer := (transfers_take_pageWait alternatingConfig lru s₀ hstart 0 0 0 k _ after 100
    (by decide) hstays).1 hmakes hout hstarts
  rw [Nat.zero_add] at htransfer
  exact ⟨s₀, hstart, (htransfer.1 (by decide)).mpr rfl⟩

end OperatingSystems.Simulator
