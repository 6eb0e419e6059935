import OperatingSystems.SimulatorSlots
import Mathlib.Data.Fintype.Card
import Mathlib.Data.Fintype.Perm

/-!
Every job runs exactly once. The queue is handed out in order and every slot is refilled in the
step in which it becomes empty, so that the slots alone tell whether all jobs have been run; and
the shuffle of the queue is a permutation of it.
-/

namespace OperatingSystems.Simulator

open Loop Runs

/-! ### The jobs that are run -/

/-- The queue before it is shuffled. -/
def unshuffled (i : Fin queueSize) : Fin programCount := Fin.ofNat programCount i

theorem swapTypes_eq (queuetype : Fin queueSize → Fin programCount) (i j : Fin queueSize) :
    swapTypes queuetype i j = queuetype ∘ Equiv.swap i j := by
  funext k
  rw [swapTypes, Function.comp_apply]
  by_cases hj : k = j
  · rw [hj, Function.update_self, Equiv.swap_apply_right]
  · rw [Function.update_of_ne hj]
    by_cases hi : k = i
    · rw [hi, Function.update_self, Equiv.swap_apply_left]
    · rw [Function.update_of_ne hi, Equiv.swap_apply_of_ne_of_ne hi hj]

/-- The shuffle permutes the queue that it starts from. -/
theorem shuffle_perm (rand : Stream) :
    ∃ σ : Equiv.Perm (Fin queueSize), shuffle rand = unshuffled ∘ σ := by
  refine loop_invariant
    (fun _ queuetype => ∃ σ : Equiv.Perm (Fin queueSize), queuetype = unshuffled ∘ σ) ?_ ?_
  · exact ⟨1, rfl⟩
  · intro r queuetype _ hperm
    refine loop_invariant
      (fun _ queuetype => ∃ σ : Equiv.Perm (Fin queueSize), queuetype = unshuffled ∘ σ) hperm ?_
    rintro i _ - ⟨σ, rfl⟩
    refine ⟨σ * Equiv.swap (Fin.ofNat queueSize i)
      (Fin.ofNat queueSize (lrand48 (rand (r * queueSize + i))).toNat), ?_⟩
    rw [swapTypes_eq, Equiv.Perm.coe_mul, Function.comp_assoc]

/-- The number of jobs in the queue that run the program. -/
def kindCount (kinds : Fin queueSize → Fin programCount) (kind : Fin programCount) : Nat :=
  (Finset.univ.filter fun k => kinds k = kind).card

/-- Whatever is drawn, every program is in the queue as often as before the shuffle. -/
theorem kindCount_shuffle (rand : Stream) (kind : Fin programCount) :
    kindCount (shuffle rand) kind = 8 := by
  have hbefore : ∀ kind, kindCount unshuffled kind = 8 := by decide +kernel
  obtain ⟨σ, hσ⟩ := shuffle_perm rand
  rw [← hbefore kind, kindCount, kindCount, hσ]
  refine Finset.card_bij (fun k _ => σ k) ?_ ?_ ?_
  · intro k hk
    simpa using hk
  · intro k _ k' _ heq
    exact σ.injective heq
  · intro k hk
    exact ⟨σ.symm k, by simpa using hk, σ.apply_symm_apply k⟩

/-! ### The invariant -/

/-- The jobs are placed, and no slot is empty before the queue is. -/
structure Scheduled (procs : Nat) (jobs : Fin queueSize → Process) (s : State) : Prop extends
    Placed procs jobs s where
  filled : ∀ slot, slot < procs → s.processes slot = none → queueSize ≤ s.queueend

variable {procs : Nat} {jobs : Fin queueSize → Process} {s s' s'' : State}

theorem reload_filled {slot : Nat}
    (h : ∀ other, other < procs → other ≠ slot → s.processes other = none →
      queueSize ≤ s.queueend) :
    ∀ other, other < procs → (s.reload slot).processes other = none →
      queueSize ≤ (s.reload slot).queueend := by
  intro other hother hnone
  unfold State.reload at hnone ⊢
  split_ifs at hnone ⊢ with hleft
  · by_cases heq : other = slot
    · subst heq
      simp at hnone
    · simp only [Function.update_of_ne heq] at hnone
      exact absurd (h other hother heq hnone) (not_le.mpr hleft)
  · exact not_lt.mp hleft

theorem SlotMove.filled {slot : Nat} (h : SlotMove s slot s')
    (hfilled : ∀ slot, slot < procs → s.processes slot = none → queueSize ≤ s.queueend) :
    ∀ slot, slot < procs → s'.processes slot = none → queueSize ≤ s'.queueend := by
  cases h with
  | vacant _ => exact reload_filled fun other hother _ => hfilled other hother
  | blocked _ => exact hfilled
  | compute _ _ => exact hfilled
  | exit k =>
      obtain ⟨avail, pages, blocked, hunload⟩ :=
        processUnload_eq (s.setJob k (s.queue k).chargeCompute) k
      rw [hunload]
      exact reload_filled fun other hother _ => hfilled other hother
  | inactive _ => exact reload_filled fun other hother _ => hfilled other hother

theorem phase_scheduled (hfresh : ∀ k, (jobs k).Running (jobs k)) {a : Phase}
    (h : Scheduled procs jobs s) (hphase : phase procs s a = some s') :
    Scheduled procs jobs s' := by
  rcases phase_move_or_paged hphase with ⟨slot, hslot, hmove⟩ | hpaged
  · exact ⟨hmove.placed h.toPlaced hfresh hslot, hmove.filled h.filled⟩
  · refine ⟨h.toPlaced.of_paged hpaged, ?_⟩
    rw [hpaged.processes, hpaged.queueend]
    exact h.filled

theorem boot_placed (jobs : Fin queueSize → Process) : Placed procs jobs (boot jobs) where
  slot_lt slot k hslot := by cases hslot
  loaded_lt slot k hslot := by cases hslot
  one_slot slot slot' k hslot := by cases hslot
  running slot k hslot := by cases hslot
  waiting k _ := rfl
  ended k hk := absurd hk (Nat.not_lt_zero _)
  queueend_le := Nat.zero_le _

/-- The slots from some number on are empty. -/
def State.EmptyFrom (s : State) (i : Nat) : Prop := ∀ slot, i ≤ slot → s.processes slot = none

theorem State.EmptyFrom.reload {i : Nat} (h : s.EmptyFrom i) : (s.reload i).EmptyFrom (i + 1) := by
  intro slot hslot
  have hne : slot ≠ i := by omega
  unfold State.reload
  split_ifs <;>
  · simp only [Function.update_of_ne hne]
    exact h slot (by omega)

/-- The first slots have been loaded. -/
structure Loading (procs : Nat) (jobs : Fin queueSize → Process) (i : Nat) (s : State) : Prop where
  placed : Placed procs jobs s
  filled : ∀ slot, slot < i → s.processes slot = none → queueSize ≤ s.queueend
  empty : s.EmptyFrom i

/-- Loading the slots one after the other fills them. -/
theorem scheduled_start (hfresh : ∀ k, (jobs k).Running (jobs k)) :
    Scheduled procs jobs (loop State.reload procs (boot jobs)) := by
  have hloop : Loading procs jobs procs (loop State.reload procs (boot jobs)) := by
    apply loop_invariant (Loading procs jobs)
    · exact ⟨boot_placed jobs, fun slot hslot => absurd hslot (Nat.not_lt_zero _), fun _ _ => rfl⟩
    · rintro i s hi ⟨hplaced, hfilled, hempty⟩
      have hnone := hempty i le_rfl
      refine ⟨?_, ?_, hempty.reload⟩
      · rw [reload_eq, vacate_of_none hnone]
        exact hplaced.loadNext hfresh hi hnone
      · refine reload_filled fun other hother hne => hfilled other ?_
        omega
  exact ⟨hloop.placed, hloop.filled⟩

theorem Config.Reaches.scheduled {config : Config} (h : config.Reaches s) :
    ∃ fuel jobs, initqueue config.table config.rand fuel = some jobs ∧
      Scheduled config.procs jobs s := by
  obtain ⟨s₀, ⟨fuel, hstart⟩, hreach⟩ := h
  rw [allinit, Option.map_eq_some_iff] at hstart
  obtain ⟨jobs, hjobs, rfl⟩ := hstart
  have hfresh : ∀ k, (jobs k).Running (jobs k) := fun k => (initqueue_fresh hjobs k).running
  refine ⟨fuel, jobs, hjobs, hreach.invariant (Scheduled config.procs jobs)
    (scheduled_start hfresh) ?_⟩
  intro s a s' hs _ hphase
  exact phase_scheduled hfresh hs hphase

/-- Slot `i` gets job `i`. -/
theorem start_slots {config : Config} {s₀ : State} (h : config.Starts s₀) :
    s₀.queueend = config.procs ∧ ∀ slot k, s₀.processes slot = some k → k.val = slot := by
  obtain ⟨fuel, hstart⟩ := h
  rw [allinit, Option.map_eq_some_iff] at hstart
  obtain ⟨jobs, -, rfl⟩ := hstart
  have hprocs := config.procs_le
  refine loop_invariant (fun i (s : State) => s.queueend = i ∧
    ∀ slot k, s.processes slot = some k → k.val = slot) ⟨rfl, fun _ _ hslot => by cases hslot⟩ ?_
  rintro i s hi ⟨hqueueend, hslots⟩
  have hleft : s.queueend < queueSize := by
    have hsize : maxProcesses < queueSize := by decide
    omega
  rw [State.reload, dif_pos hleft]
  refine ⟨congrArg Nat.succ hqueueend, fun slot k hslot => ?_⟩
  rcases loaded_cases hslot with ⟨rfl, rfl⟩ | hold
  · exact hqueueend
  · exact hslots slot k hold

/-- There are jobs enough for all slots. -/
theorem start_loaded {config : Config} {s₀ : State} (h : config.Starts s₀) {slot : Nat}
    (hslot : slot < config.procs) : (s₀.processes slot).isSome := by
  have hreach : config.Reaches s₀ := ⟨s₀, h, .refl⟩
  obtain ⟨fuel, jobs, -, hsched⟩ := hreach.scheduled
  have hqueueend := (start_slots h).1
  have hprocs := config.procs_le
  cases hnone : s₀.processes slot with
  | none =>
      have hempty : queueSize ≤ s₀.queueend := hsched.filled slot hslot hnone
      simp only [queueSize, programCount, maxProcesses] at hempty hprocs
      omega
  | some k => rfl

/-! ### The past of a slot -/

/-- The jobs in the slots of the later state were there before, or were still in the queue. -/
structure Later (s s' : State) : Prop where
  queueend_le : s.queueend ≤ s'.queueend
  loaded : ∀ slot k, s'.processes slot = some k →
    s.processes slot = some k ∨ s.queueend ≤ k.val

/-- A slot that is empty when the queue is stays empty. -/
theorem Later.empty (h : Later s s') (hsched : Scheduled procs jobs s) {slot : Nat}
    (hslot : slot < procs) (hnone : s.processes slot = none) : s'.processes slot = none := by
  have hempty := hsched.filled slot hslot hnone
  rw [Option.eq_none_iff_forall_ne_some]
  intro k hk
  rcases h.loaded slot k hk with hbefore | hqueued
  · rw [hnone] at hbefore
    cases hbefore
  · exact absurd (k.isLt.trans_le hempty) (not_lt.mpr hqueued)

theorem Later.refl (s : State) : Later s s := ⟨le_rfl, fun _ _ => Or.inl⟩

theorem Later.trans (h : Later s s') (h' : Later s' s'') : Later s s'' where
  queueend_le := h.queueend_le.trans h'.queueend_le
  loaded _ _ hslot := by
    rcases h'.loaded _ _ hslot with hbefore | hqueued
    · exact h.loaded _ _ hbefore
    · exact Or.inr (h.queueend_le.trans hqueued)

theorem Paged.later (h : Paged s s') : Later s s' :=
  ⟨h.queueend.ge, fun _ _ hslot => Or.inl (h.processes ▸ hslot)⟩

theorem later_reload (s : State) (slot : Nat) : Later s (s.reload slot) := by
  unfold State.reload
  split_ifs with hleft
  · refine ⟨Nat.le_succ _, fun other k hother => ?_⟩
    by_cases heq : other = slot
    · subst heq
      simp only [Function.update_self, Option.some.injEq] at hother
      exact Or.inr (by rw [← hother])
    · simp only [Function.update_of_ne heq] at hother
      exact Or.inl hother
  · refine ⟨le_rfl, fun other k hother => ?_⟩
    by_cases heq : other = slot
    · subst heq
      simp at hother
    · simp only [Function.update_of_ne heq] at hother
      exact Or.inl hother

theorem SlotMove.later {slot : Nat} (h : SlotMove s slot s') : Later s s' := by
  cases h with
  | vacant _ => exact later_reload s slot
  | blocked _ => exact ⟨le_rfl, fun _ _ => Or.inl⟩
  | compute _ _ => exact ⟨le_rfl, fun _ _ => Or.inl⟩
  | exit k =>
      obtain ⟨avail, pages, blocked, hunload⟩ :=
        processUnload_eq (s.setJob k (s.queue k).chargeCompute) k
      rw [hunload]
      have hkept : Later s (({ s.setJob k (s.queue k).chargeCompute with
          pagesavail := avail }).setJob k { (s.setJob k (s.queue k).chargeCompute).queue k with
            pages, blocked, active := false }) := ⟨le_rfl, fun _ _ => Or.inl⟩
      exact hkept.trans (later_reload _ slot)
  | inactive _ => exact later_reload s slot

theorem phase_later {a : Phase} (hphase : phase procs s a = some s') : Later s s' := by
  rcases phase_move_or_paged hphase with ⟨slot, -, hmove⟩ | hpaged
  · exact hmove.later
  · exact hpaged.later

theorem reachable_later (h : Reachable (phase procs) s s') : Later s s' :=
  h.invariant (Later s) (.refl s) fun _ _ _ hlater _ hphase => hlater.trans (phase_later hphase)

/-! ### Every job exactly once -/

/-- Whether the job has executed an exit of its program, as its last instruction, and has been
unloaded. -/
def Process.Finished (q : Process) : Prop :=
  q.active = false ∧ q.program = programs q.kind ∧ q.pc ∈ q.program.exits ∧
    q.computed.getLast? = some q.pc

/-- Where a job can be. -/
inductive JobStatus where
  | waiting
  | loaded (slot : Nat)
  | finished

def State.HasStatus (procs : Nat) (s : State) (k : Fin queueSize) : JobStatus → Prop
  | .waiting => s.queueend ≤ k.val
  | .loaded slot => slot < procs ∧ s.processes slot = some k
  | .finished => (s.queue k).Finished

theorem exits_ne_nil : ∀ kind, (programs kind).exits ≠ [] := by
  decide

theorem Process.Ended.finished {start q : Process} {kind : Fin programCount}
    (h : start.Ended q) (hstart : start.Fresh (programs kind) kind) : q.Finished := by
  obtain ⟨n, ⟨-, hnext⟩, hcontrol, -, hcomputed⟩ := h.ended
  have hprogram : q.program = programs kind := by
    rw [show q.program = q.toControl.program from rfl, hcontrol, Control.course_program]
    exact hstart.program
  refine ⟨h.active, ?_, ?_, ?_⟩
  · rw [hprogram, h.kind_eq, hstart.kind_eq]
  · refine Control.mem_exits_of_next ?_ (hcontrol ▸ hnext)
    rw [hprogram]
    exact exits_ne_nil kind
  · rw [hcomputed, Control.pcs_succ, List.getLast?_concat, ← hcontrol]

variable {config : Config}

/-- The jobs of the five programs that are neither in the queue nor in a slot have finished. -/
theorem Config.Reaches.finished (h : config.Reaches s) (htable : config.table = programs)
    {k : Fin queueSize} (hk : k.val < s.queueend) (hidle : ∀ slot, s.processes slot ≠ some k) :
    (s.queue k).Finished := by
  obtain ⟨fuel, jobs, hjobs, hsched⟩ := h.scheduled
  exact (hsched.ended k hk hidle).finished (htable ▸ initqueue_fresh hjobs k)

/-- The jobs that have not finished are active. -/
theorem Config.Reaches.active (h : config.Reaches s) {k : Fin queueSize}
    (hk : s.queueend ≤ k.val ∨ ∃ slot, s.processes slot = some k) : (s.queue k).active = true := by
  obtain ⟨fuel, jobs, hjobs, hsched⟩ := h.scheduled
  rcases hk with hwait | ⟨slot, hslot⟩
  · rw [hsched.waiting k hwait]
    exact (initqueue_fresh hjobs k).active
  · exact (hsched.running slot k hslot).active

theorem Config.Reaches.kind_eq (h : config.Reaches s) (k : Fin queueSize) :
    (s.queue k).kind = shuffle config.rand k := by
  obtain ⟨fuel, jobs, hjobs, hsched⟩ := h.scheduled
  rw [hsched.kind_eq k, (initqueue_fresh hjobs k).kind_eq]

/-- In every state reached, every job has all its pages. -/
theorem Config.Reaches.npages (h : config.Reaches s) (k : Fin queueSize) :
    (s.queue k).npages = maxProcPages := by
  obtain ⟨fuel, jobs, hjobs, hsched⟩ := h.scheduled
  rw [hsched.npages k, (initqueue_fresh hjobs k).npages]

theorem Config.Reaches.hasStatus_unique (h : config.Reaches s) (htable : config.table = programs)
    (k : Fin queueSize) : ∃! status, s.HasStatus config.procs k status := by
  obtain ⟨fuel, jobs, hjobs, hsched⟩ := h.scheduled
  have hbusy : (s.queueend ≤ k.val ∨ ∃ slot, s.processes slot = some k) →
      ¬ (s.queue k).Finished := by
    intro hk hfinished
    have hinactive := hfinished.1
    simp [h.active hk] at hinactive
  rcases hsched.job_cases k with ⟨hwait, -⟩ | ⟨slot, hslot, -⟩ | ⟨hk, hidle, -⟩
  · refine ⟨.waiting, hwait, fun status hstatus => ?_⟩
    cases status with
    | waiting => rfl
    | loaded slot => exact absurd (hsched.loaded_lt slot k hstatus.2) (not_lt.mpr hwait)
    | finished => exact absurd hstatus (hbusy (Or.inl hwait))
  · refine ⟨.loaded slot, ⟨hsched.slot_lt slot k hslot, hslot⟩, fun status hstatus => ?_⟩
    cases status with
    | waiting => exact absurd (hsched.loaded_lt slot k hslot) (not_lt.mpr hstatus)
    | loaded slot' => rw [hsched.one_slot slot' slot k hstatus.2 hslot]
    | finished => exact absurd hstatus (hbusy (Or.inr ⟨slot, hslot⟩))
  · refine ⟨.finished, h.finished htable hk hidle, fun status hstatus => ?_⟩
    cases status with
    | waiting => exact absurd hk (not_lt.mpr hstatus)
    | loaded slot => exact absurd hstatus.2 (hidle slot)
    | finished => rfl

/-- If no slot has an active job, every job has been taken from the queue and is in no slot. -/
theorem Scheduled.idle_of_alldone (h : Scheduled procs jobs s) (hprocs : 1 ≤ procs)
    (hdone : alldone procs s = true) (k : Fin queueSize) :
    k.val < s.queueend ∧ ∀ slot, s.processes slot ≠ some k := by
  have hnone : ∀ slot, slot < procs → s.processes slot = none := by
    intro slot hslot
    have hall := List.all_eq_true.mp hdone slot (List.mem_range.mpr hslot)
    cases hprocess : s.processes slot with
    | none => rfl
    | some k' => simp [hprocess, (h.running slot k' hprocess).active] at hall
  refine ⟨k.isLt.trans_le (h.filled 0 hprocs (hnone 0 hprocs)), fun slot hslot => ?_⟩
  rw [hnone slot (h.slot_lt slot k hslot)] at hslot
  cases hslot

theorem Config.Reaches.finished_of_alldone (h : config.Reaches s)
    (htable : config.table = programs) (hdone : alldone config.procs s = true)
    (k : Fin queueSize) : (s.queue k).Finished := by
  obtain ⟨fuel, jobs, hjobs, hsched⟩ := h.scheduled
  obtain ⟨hk, hidle⟩ := hsched.idle_of_alldone config.procs_pos hdone k
  exact h.finished htable hk hidle

/-- In every state reached, each job waits, is loaded in one slot, or has finished; only a job
that still waits is loaded later on; and when the main loop ends, each of the five programs has
been run to its exit by exactly eight jobs. -/
theorem runs_once (config : Config) (htable : config.table = programs) (s : State)
    (h : config.Reaches s) :
    (∀ k, ∃! status, s.HasStatus config.procs k status) ∧
    (∀ s' k slot, Reachable (phase config.procs) s s' →
      s'.HasStatus config.procs k (.loaded slot) →
        s.HasStatus config.procs k (.loaded slot) ∨ s.HasStatus config.procs k .waiting) ∧
    ∀ (pager : Pager) (memory : pager.State) (fuel : Nat) (s' : State),
      mainLoop pager config.procs fuel (memory, s) = some s' →
        (∀ k, s'.HasStatus config.procs k .finished) ∧
          ∀ kind, kindCount (fun k => (s'.queue k).kind) kind = 8 := by
  refine ⟨h.hasStatus_unique htable, ?_, ?_⟩
  · rintro s' k slot hreach ⟨hslot, hloaded⟩
    rcases (reachable_later hreach).loaded slot k hloaded with hbefore | hqueued
    · exact Or.inl ⟨hslot, hbefore⟩
    · exact Or.inr hqueued
  · intro pager memory fuel s' hloop
    obtain ⟨n, rfl, hdone⟩ := mainLoop_eq_some hloop
    have hs' := Config.Reaches.ticks pager (memory, s) h n
    refine ⟨fun k => hs'.finished_of_alldone htable hdone k, fun kind => ?_⟩
    rw [← kindCount_shuffle config.rand kind]
    exact congrArg (fun kinds => kindCount kinds kind) (funext hs'.kind_eq)

/-- The five programs in twenty slots, on a stream on which the loading of the queue ends. -/
def alternatingConfig : Config where
  table := programs
  procs := maxProcesses
  rand := alternating
  procs_pos := by decide
  procs_le := le_rfl

theorem starts_of_alternating (htable : config.table = programs)
    (hrand : config.rand = alternating) : ∃ s, config.Starts s := by
  obtain ⟨fuel, jobs, hjobs⟩ := initqueue_ends alternates_programs
  exact ⟨_, fuel, by rw [allinit, htable, hrand, hjobs, Option.map_some]⟩

theorem alternatingConfig_starts : ∃ s, alternatingConfig.Starts s :=
  starts_of_alternating rfl rfl

/-- A pager that asks for the page of every active process. -/
def eager : Pager where
  State := Unit
  init := ()
  pageit q := CallTree.sweep (fun proc st =>
    if (q proc).active then CallTree.ask (.pagein proc (q proc).page) >>= fun _ => .ret st
    else .ret st) maxProcesses

theorem runs_once_alternating : ∃ s₀, alternatingConfig.Starts s₀ ∧
    let s := ((tick eager alternatingConfig.procs)^[100] (eager.init, s₀)).2
    (∀ k, ∃! status, s.HasStatus alternatingConfig.procs k status) ∧
      ∀ s' k slot, Reachable (phase alternatingConfig.procs) s s' →
        s'.HasStatus alternatingConfig.procs k (.loaded slot) →
          s.HasStatus alternatingConfig.procs k (.loaded slot) ∨
            s.HasStatus alternatingConfig.procs k .waiting := by
  obtain ⟨s₀, hstart⟩ := alternatingConfig_starts
  have hreach : alternatingConfig.Reaches s₀ := ⟨s₀, hstart, .refl⟩
  obtain ⟨hstatus, hloaded, -⟩ := runs_once alternatingConfig rfl _
    (hreach.ticks eager (eager.init, s₀) 100)
  exact ⟨s₀, hstart, hstatus, hloaded⟩

end OperatingSystems.Simulator
