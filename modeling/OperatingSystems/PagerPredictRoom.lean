import OperatingSystems.PagerLruRoom
import OperatingSystems.PagerPredict
import OperatingSystems.SimulatorIdle
import OperatingSystems.SimulatorLog

/-!
`pager-predict` with room for all. It looks for a prediction only when a page is refused, and with
room no page is: it then makes the same requests as `pager-lru`, and what `allinit` and the main
loop do from there on, the log files included, cannot be told apart.
-/

namespace OperatingSystems.Simulator

open Loop Runs Frames CallTree

variable {config : Config} {s s' : State} {n : Nat}

/-! ### One call -/

theorem predictServe_absent {q : Snapshot} {proc : Nat} (hactive : (q proc).active = true)
    (hpage : (q proc).pages (q proc).page = false) (st : Nat → Nat) :
    ∃ next, predictServe q proc st = call (.pagein proc (q proc).page) next ∧
      next true = ret (true, st) := by
  rw [predictServe, if_pos hactive]
  simp only [hpage, Bool.false_eq_true, if_false, ask_bind]
  exact ⟨_, rfl, rfl⟩

/-- A slot is served alike. -/
theorem ServedTo.same_conversation (h : ServedTo config s n s') (hreach : config.Reaches s)
    (hroomy : config.Roomy) (hpage : ∀ k, (s.queue k).page < maxProcPages)
    (hundisturbed : ∀ k, (s.queue k).Undisturbed) (st : Lru) (previousAccess : Nat → Nat) :
    exchanges (PageCall.answer config.procs) (predictServe s.pentry n previousAccess) s' =
        exchanges (PageCall.answer config.procs) (lruServe s.pentry n st) s' ∧
      (run (PageCall.answer config.procs) (predictServe s.pentry n previousAccess) s').1 =
        (true, previousAccess) := by
  cases hactive : (s.pentry n).active with
  | false =>
      rw [predictServe_inactive hactive, lruServe_inactive hactive]
      exact ⟨rfl, rfl⟩
  | true =>
      cases hresident : (s.pentry n).pages (s.pentry n).page with
      | true =>
          rw [predictServe_resident hactive hresident, lruServe_resident hactive hresident]
          exact ⟨rfl, rfl⟩
      | false =>
          obtain ⟨fuel, jobs, -, hsched⟩ := hreach.scheduled
          obtain ⟨k, hslot⟩ := (pentry_active_iff hsched n).mp hactive
          obtain ⟨hgranted, -⟩ := h.granted hreach hroomy hpage hundisturbed hslot
          obtain ⟨next, hpredict, hcoming⟩ :=
            predictServe_absent hactive hresident previousAccess
          obtain ⟨next', hlru, hcoming'⟩ := lruServe_absent hactive hresident st
          rw [hpredict, hlru, exchanges, exchanges, run_call, hgranted, hcoming, hcoming']
          exact ⟨rfl, rfl⟩

/-- A call makes the same requests. -/
theorem predict_same_conversation (hreach : config.Reaches s) (hroomy : config.Roomy)
    (hpage : ∀ k, (s.queue k).page < maxProcPages) (hundisturbed : ∀ k, (s.queue k).Undisturbed)
    (st : lru.State) (previousAccess : predict.State) :
    exchanges (PageCall.answer config.procs) (predict.pageit s.pentry previousAccess) s =
        exchanges (PageCall.answer config.procs) (lru.pageit s.pentry st) s ∧
      (run (PageCall.answer config.procs) (predict.pageit s.pentry previousAccess) s).1 =
        previousAccess := by
  obtain ⟨hsame, hvalue⟩ :
      exchanges (PageCall.answer config.procs)
          (sweepUntil (predictServe s.pentry) maxProcesses previousAccess) s =
        exchanges (PageCall.answer config.procs) (sweep (lruServe s.pentry) maxProcesses st) s ∧
      (run (PageCall.answer config.procs)
        (sweepUntil (predictServe s.pentry) maxProcesses previousAccess) s).1 =
          (true, previousAccess) :=
    sweepUntil_converses fun i _ => (lru_sweep_servedTo hreach hroomy hpage hundisturbed i st)
      |>.same_conversation hreach hroomy hpage hundisturbed _ _
  have hpredict : exchanges (PageCall.answer config.procs)
      (sweepUntil (predictServe s.pentry) maxProcesses previousAccess >>= fun r => ret r.2) s =
        _ := exchanges_bind_ret _ Prod.snd s
  have hlru : exchanges (PageCall.answer config.procs)
      (sweep (lruServe s.pentry) maxProcesses st >>= fun st =>
        ret { st with tick := st.tick + 1 }) s = _ := exchanges_bind_ret _ _ s
  have hreturn : (run (PageCall.answer config.procs)
      (sweepUntil (predictServe s.pentry) maxProcesses previousAccess >>= fun r => ret r.2) s).1 =
        previousAccess := by
    rw [run_bind, hvalue, run_ret]
  exact ⟨hpredict.trans (hsame.trans hlru.symm), hreturn⟩

/-! ### The run -/

theorem loggedCallyou_fst (pager : Pager) (procs : Nat) (st : pager.State) (l : Logged) :
    (Logged.callyou pager procs (st, l)).1 =
      (run (PageCall.answer procs) (pager.pageit l.state.pentry st) l.state).1 :=
  (congrArg Prod.fst (callyou_state pager procs (st, l))).symm

/-- Calls with the same requests do the same, also to the files. -/
theorem loggedCallyou_congr {pager pager' : Pager} {procs : Nat} {st : pager.State}
    {st' : pager'.State} {l : Logged}
    (hsame : exchanges (PageCall.answer procs) (pager'.pageit l.state.pentry st') l.state =
      exchanges (PageCall.answer procs) (pager.pageit l.state.pentry st) l.state) :
    (Logged.callyou pager' procs (st', l)).2 = (Logged.callyou pager procs (st, l)).2 := by
  have herase : ∀ {α : Type} (t : CallTree PageCall Bool α),
      exchanges (PageCall.answer procs) t l.state = exchanges (PageCall.logged procs) t l :=
    fun t => exchanges_erase Logged.state (fun _ _ => rfl) t l
  rw [herase, herase] at hsame
  rw [Logged.callyou, Logged.callyou, run_eq_foldl, run_eq_foldl, hsame]

/-- What the pager is shown, with the files. -/
theorem loggedRun_shown (config : Config) (pager : Pager) (l₀ : Logged) (n : Nat) :
    (((config.loggedRun pager l₀ n).2.allstep config.procs).allage config.procs).state =
      config.shown pager l₀.state n := by
  rw [allage_state, allstep_state, Config.shown, midTick, ← loggedRun_state]

theorem loggedRun_succ (config : Config) (pager : Pager) (l₀ : Logged) (n : Nat) :
    config.loggedRun pager l₀ (n + 1) =
      Logged.tick pager config.procs (config.loggedRun pager l₀ n) :=
  Function.iterate_succ_apply' _ _ _

section Run

variable {l₀ : Logged} (h : config.StartsLogged l₀) (htable : config.table = programs)
  (hroomy : config.Roomy)

include h htable hroomy

/-- The calls of an iteration make the same requests as under `pager-lru`. -/
theorem shown_same_conversation (n : Nat) (st : lru.State) (previousAccess : predict.State) :
    exchanges (PageCall.answer config.procs)
        (predict.pageit (config.shown lru l₀.state n).pentry previousAccess)
        (config.shown lru l₀.state n) =
      exchanges (PageCall.answer config.procs)
        (lru.pageit (config.shown lru l₀.state n).pentry st) (config.shown lru l₀.state n) ∧
    (run (PageCall.answer config.procs)
        (predict.pageit (config.shown lru l₀.state n).pentry previousAccess)
        (config.shown lru l₀.state n)).1 = previousAccess := by
  have hstart := startsLogged_state h
  have hreach := shown_reaches lru hstart n
  exact predict_same_conversation hreach hroomy (hreach.page_lt htable)
    (shown_undisturbed hstart (lru_undisturbed hstart htable hroomy n)) st previousAccess

theorem predict_loggedRun (n : Nat) :
    config.loggedRun predict l₀ n = (predict.init, (config.loggedRun lru l₀ n).2) := by
  induction n with
  | zero => rfl
  | succ n ih =>
      obtain ⟨hsame, hvalue⟩ := shown_same_conversation h htable hroomy n
        (config.loggedRun lru l₀ n).1 predict.init
      rw [← loggedRun_shown] at hsame hvalue
      rw [loggedRun_succ, loggedRun_succ, ih, Logged.tick, Logged.tick]
      generalize ((config.loggedRun lru l₀ n).2.allstep config.procs).allage config.procs = l
        at hsame hvalue ⊢
      have hmemory : (Logged.callyou predict config.procs (predict.init, l)).1 = predict.init := by
        rw [loggedCallyou_fst]
        exact hvalue
      have hcalled : (Logged.callyou predict config.procs (predict.init, l)).2 =
          (Logged.callyou lru config.procs ((config.loggedRun lru l₀ n).1, l)).2 :=
        loggedCallyou_congr hsame
      dsimp only
      rw [hmemory, hcalled]

end Run

/-- Runs through the same states end alike. -/
theorem mainLoop_congr {pager pager' : Pager} {procs : Nat} {m : pager.State × State}
    {m' : pager'.State × State}
    (hsame : ∀ n, ((tick pager' procs)^[n] m').2 = ((tick pager procs)^[n] m).2) (fuel : Nat) :
    mainLoop pager' procs fuel m' = mainLoop pager procs fuel m := by
  induction fuel generalizing m m' with
  | zero => rfl
  | succ fuel ih =>
      have hnow : m'.2 = m.2 := hsame 0
      rw [mainLoop, mainLoop, hnow, ih fun n => hsame (n + 1)]

theorem mainLoop_predict {l₀ : Logged} (h : config.StartsLogged l₀)
    (htable : config.table = programs) (hroomy : config.Roomy) (fuel : Nat) :
    mainLoop predict config.procs fuel (predict.init, l₀.state) =
      mainLoop lru config.procs fuel (lru.init, l₀.state) := by
  refine mainLoop_congr (fun n => ?_) fuel
  calc (config.run predict l₀.state n).2
      = (config.loggedRun predict l₀ n).2.state :=
        (congrArg Prod.snd (loggedRun_state predict l₀ n)).symm
    _ = (config.loggedRun lru l₀ n).2.state :=
        congrArg (fun m : predict.State × Logged => m.2.state) (predict_loggedRun h htable hroomy n)
    _ = (config.run lru l₀.state n).2 := congrArg Prod.snd (loggedRun_state lru l₀ n)

/-- **With room for all, prediction is never tried.** If there is a frame for every page of every
processor, `pager-predict` cannot be told from `pager-lru`: after every iteration the state and the
records of both log files are the same, the last accesses that the prediction goes by are still
those of the start, and the main loop ends with the same state. -/
theorem predict_is_lru (config : Config) (htable : config.table = programs)
    (hroomy : config.Roomy) (l₀ : Logged) (h : config.StartsLogged l₀) :
    (∀ n, (config.loggedRun predict l₀ n).2 = (config.loggedRun lru l₀ n).2 ∧
      (config.loggedRun predict l₀ n).1 = predict.init) ∧
    ∀ fuel, mainLoop predict config.procs fuel (predict.init, l₀.state) =
      mainLoop lru config.procs fuel (lru.init, l₀.state) := by
  have hrun := predict_loggedRun h htable hroomy
  exact ⟨fun n => ⟨congrArg Prod.snd (hrun n), congrArg Prod.fst (hrun n)⟩,
    mainLoop_predict h htable hroomy⟩

theorem predict_is_lru_five : ∃ l₀, fiveConfig.StartsLogged l₀ ∧
    ∀ n, (fiveConfig.loggedRun predict l₀ n).2 = (fiveConfig.loggedRun lru l₀ n).2 := by
  have hroomy : fiveConfig.Roomy := by unfold Config.Roomy; decide
  obtain ⟨s₀, hstart⟩ : ∃ s₀, fiveConfig.Starts s₀ := starts_of_alternating rfl rfl
  obtain ⟨l₀, hlogged, -⟩ := startsLogged_of_starts hstart
  exact ⟨l₀, hlogged, fun n => ((predict_is_lru fiveConfig rfl hroomy l₀ hlogged).1 n).1⟩

end OperatingSystems.Simulator
