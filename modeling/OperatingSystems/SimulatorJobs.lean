import OperatingSystems.SimulatorModel
import OperatingSystems.ProgramCourse
import OperatingSystems.ProgramDecisions

/-!
Jobs by themselves. Loading gives every job its whole future: from then on its program, its branch
contexts and its counter determine the instructions it executes, one for each compute tick, until
an exit. When a job is blocked or where it is loaded plays no part.
-/

namespace OperatingSystems.Simulator

/-! ### Loading -/

/-- A job as it is put into the queue. -/
structure Process.Fresh (p : Program) (kind : Fin programCount) (q : Process) : Prop where
  program : q.program = p
  kind_eq : q.kind = kind
  pc : q.pc = 0
  npages : q.npages = maxProcPages
  pages : ∀ j, q.pages j = -pageWait - 1
  active : q.active = true
  compute : q.compute = 0
  computed : q.computed = []

variable {rand : Stream} {fuel : Nat}

theorem processLoad_fresh {drawn pid drawn' : Nat} {p : Program} {kind : Fin programCount}
    {q : Process} (h : processLoad rand fuel drawn p pid kind = some (q, drawn')) :
    q.Fresh p kind := by
  rw [processLoad, Option.ite_none_right_eq_some, Option.map_eq_some_iff] at h
  obtain ⟨-, s, -, hload⟩ := h
  obtain rfl := (Prod.mk.inj hload).1
  exact ⟨rfl, rfl, rfl, rfl, fun _ => rfl, rfl, rfl, rfl⟩

/-- What else a loaded job starts with. -/
theorem processLoad_start {drawn pid drawn' : Nat} {p : Program} {kind : Fin programCount}
    {q : Process} (h : processLoad rand fuel drawn p pid kind = some (q, drawn')) :
    q.block = 0 ∧ (∀ j, q.blocked j = false) ∧ q.pid = pid := by
  rw [processLoad, Option.ite_none_right_eq_some, Option.map_eq_some_iff] at h
  obtain ⟨-, s, -, hload⟩ := h
  obtain rfl := (Prod.mk.inj hload).1
  exact ⟨rfl, fun _ => rfl, rfl⟩

/-- A job in the queue has been loaded under its number. -/
theorem loadQueue_loaded {table : Fin programCount → Program}
    {queuetype : Fin queueSize → Fin programCount} {n : Nat}
    {s : (Fin queueSize → Option Process) × Nat}
    (h : loadQueue table rand fuel queuetype n = some s) {k : Fin queueSize} {q : Process}
    (hq : s.1 k = some q) :
    ∃ drawn pid drawn', pid < n ∧ k = Fin.ofNat queueSize pid ∧
      processLoad rand fuel drawn (table (queuetype k)) pid (queuetype k) = some (q, drawn') := by
  induction n generalizing s with
  | zero =>
      rw [loadQueue, Option.some.injEq] at h
      simp [← h] at hq
  | succ n ih =>
      simp only [loadQueue, Option.bind_eq_some_iff, Option.map_eq_some_iff] at h
      obtain ⟨s', hs', r, hload, rfl⟩ := h
      by_cases hk : k = Fin.ofNat queueSize n
      · subst hk
        simp only [Function.update_self, Option.some.injEq] at hq
        exact ⟨s'.2, n, r.2, Nat.lt_succ_self n, rfl, hq ▸ hload⟩
      · simp only [Function.update_of_ne hk] at hq
        obtain ⟨drawn, pid, drawn', hlt, hpid, hload⟩ := ih hs' hq
        exact ⟨drawn, pid, drawn', Nat.lt_succ_of_lt hlt, hpid, hload⟩

theorem initqueue_loaded {table : Fin programCount → Program} {jobs : Fin queueSize → Process}
    (h : initqueue table rand fuel = some jobs) (k : Fin queueSize) :
    ∃ drawn drawn', processLoad rand fuel drawn (table (shuffle rand k)) k (shuffle rand k) =
      some (jobs k, drawn') := by
  rw [initqueue, Option.bind_eq_some_iff] at h
  obtain ⟨s, hs, hget⟩ := h
  split at hget
  · rename_i hall
    have hq : s.1 k = some (jobs k) := by
      rw [← Option.some.inj hget, Option.some_get]
    obtain ⟨drawn, pid, drawn', hlt, hpid, hload⟩ := loadQueue_loaded hs hq
    have hval : k.val = pid := by
      rw [hpid]
      exact Nat.mod_eq_of_lt hlt
    exact ⟨drawn, drawn', hval ▸ hload⟩
  · cases hget

theorem initqueue_fresh {table : Fin programCount → Program} {jobs : Fin queueSize → Process}
    (h : initqueue table rand fuel = some jobs) (k : Fin queueSize) :
    (jobs k).Fresh (table (shuffle rand k)) (shuffle rand k) := by
  obtain ⟨drawn, drawn', hload⟩ := initqueue_loaded h k
  exact processLoad_fresh hload

theorem initqueue_start {table : Fin programCount → Program} {jobs : Fin queueSize → Process}
    (h : initqueue table rand fuel = some jobs) (k : Fin queueSize) :
    (jobs k).block = 0 ∧ (∀ j, (jobs k).blocked j = false) ∧ (jobs k).pid = k := by
  obtain ⟨drawn, drawn', hload⟩ := initqueue_loaded h k
  exact processLoad_start hload

/-! ### More fuel -/

theorem recordDecisions_mono {prob : ℚ} {drawn : Nat} {cvalue : Bool} {c : Bcontext}
    {r : Bcontext × Nat} (h : recordDecisions rand prob fuel drawn cvalue c = some r) :
    recordDecisions rand prob (fuel + 1) drawn cvalue c = some r := by
  induction fuel generalizing drawn cvalue c with
  | zero => cases h
  | succ fuel ih =>
      rw [recordDecisions] at h ⊢
      split_ifs at h ⊢
      · exact ih h
      · exact ih h
      · exact h

theorem bcontextInit_mono {drawn : Nat} {c : Bcontext} {b : Branch} {r : Bcontext × Nat}
    (h : bcontextInit rand fuel drawn c b = some r) :
    bcontextInit rand (fuel + 1) drawn c b = some r := by
  unfold bcontextInit at h ⊢
  cases hb : b.btype with
  | IF =>
      rw [hb] at h
      exact recordDecisions_mono h
  | _ =>
      rw [hb] at h
      exact h

theorem initContexts_mono {p : Program} {n drawn : Nat} {contexts : Nat → Bcontext}
    {r : (Nat → Bcontext) × Nat} (h : initContexts rand fuel p n drawn contexts = some r) :
    initContexts rand (fuel + 1) p n drawn contexts = some r := by
  induction n generalizing r with
  | zero => exact h
  | succ n ih =>
      simp only [initContexts, Option.bind_eq_some_iff, Option.map_eq_some_iff] at h ⊢
      obtain ⟨s, hs, r', hr', heq⟩ := h
      exact ⟨s, ih hs, r', bcontextInit_mono hr', heq⟩

theorem processLoad_mono {drawn pid : Nat} {p : Program} {kind : Fin programCount}
    {r : Process × Nat} (h : processLoad rand fuel drawn p pid kind = some r) :
    processLoad rand (fuel + 1) drawn p pid kind = some r := by
  rw [processLoad, Option.ite_none_right_eq_some, Option.map_eq_some_iff] at h ⊢
  obtain ⟨hn, s, hs, heq⟩ := h
  exact ⟨hn, s, initContexts_mono hs, heq⟩

theorem loadQueue_mono {table : Fin programCount → Program}
    {queuetype : Fin queueSize → Fin programCount} {n : Nat}
    {r : (Fin queueSize → Option Process) × Nat}
    (h : loadQueue table rand fuel queuetype n = some r) :
    loadQueue table rand (fuel + 1) queuetype n = some r := by
  induction n generalizing r with
  | zero => exact h
  | succ n ih =>
      simp only [loadQueue, Option.bind_eq_some_iff, Option.map_eq_some_iff] at h ⊢
      obtain ⟨s, hs, r', hr', heq⟩ := h
      exact ⟨s, ih hs, r', processLoad_mono hr', heq⟩

theorem initqueue_mono {table : Fin programCount → Program} {jobs : Fin queueSize → Process}
    (h : initqueue table rand fuel = some jobs) (more : Nat) :
    initqueue table rand (fuel + more) = some jobs := by
  induction more with
  | zero => exact h
  | succ more ih =>
      rw [initqueue, Option.bind_eq_some_iff] at ih ⊢
      obtain ⟨s, hs, hget⟩ := ih
      exact ⟨s, loadQueue_mono hs, hget⟩

/-- The queue that a random stream gives does not depend on the fuel. -/
theorem initqueue_unique {table : Fin programCount → Program} {fuel' : Nat}
    {jobs jobs' : Fin queueSize → Process} (h : initqueue table rand fuel = some jobs)
    (h' : initqueue table rand fuel' = some jobs') : jobs = jobs' := by
  have hmore := initqueue_mono h fuel'
  rw [Nat.add_comm, initqueue_mono h' fuel] at hmore
  exact (Option.some.inj hmore).symm

/-! ### Loading ends -/

theorem initContexts_ends {p : Program}
    (hchange : ∀ b ∈ p.branches, b.btype = .IF →
      ∀ i, binary b.prob (rand (i + 1)) = !binary b.prob (rand i))
    {fuel : Nat} (hfuel : 2 * maxBrings + 1 < fuel) {n : Nat} (hn : n ≤ p.branches.length)
    (drawn : Nat) (contexts : Nat → Bcontext) :
    (initContexts rand fuel p n drawn contexts).isSome := by
  induction n with
  | zero => rfl
  | succ n ih =>
      obtain ⟨s, hs⟩ := Option.isSome_iff_exists.mp (ih (Nat.le_of_succ_le hn))
      have hmem : p.branch n ∈ p.branches :=
        Program.branch_mem_of_lt (Int.natCast_nonneg n) (by omega)
      simpa [initContexts, hs] using bcontextInit_ends (hchange _ hmem) hfuel s.2 (s.1 n)

/-- Whether the outcomes of every `IF` of the table alternate on the stream. -/
def Alternates (table : Fin programCount → Program) (rand : Stream) : Prop :=
  ∀ t, (table t).branches.length < maxBranches ∧ ∀ b ∈ (table t).branches, b.btype = .IF →
    ∀ i, binary b.prob (rand (i + 1)) = !binary b.prob (rand i)

theorem processLoad_ends {table : Fin programCount → Program} (h : Alternates table rand)
    {fuel : Nat} (hfuel : 2 * maxBrings + 1 < fuel) (t : Fin programCount) (drawn pid : Nat)
    (kind : Fin programCount) :
    ∃ r, processLoad rand fuel drawn (table t) pid kind = some r := by
  apply Option.isSome_iff_exists.mp
  rw [processLoad, if_pos (h t).1, Option.isSome_map]
  exact initContexts_ends (h t).2 hfuel le_rfl ..

theorem loadQueue_ends {table : Fin programCount → Program} (h : Alternates table rand)
    {fuel : Nat} (hfuel : 2 * maxBrings + 1 < fuel)
    (queuetype : Fin queueSize → Fin programCount) {n : Nat} (hn : n ≤ queueSize) :
    ∃ s, loadQueue table rand fuel queuetype n = some s ∧
      ∀ k : Fin queueSize, k.val < n → (s.1 k).isSome := by
  induction n with
  | zero => exact ⟨_, rfl, fun k hk => absurd hk (Nat.not_lt_zero _)⟩
  | succ n ih =>
      obtain ⟨s, hs, hall⟩ := ih (Nat.le_of_succ_le hn)
      set k := Fin.ofNat queueSize n with hk
      obtain ⟨r, hr⟩ := processLoad_ends h hfuel (queuetype k) s.2 n (queuetype k)
      refine ⟨(Function.update s.1 k (some r.1), r.2), ?_, ?_⟩
      · simp only [loadQueue, hs, Option.bind_some, ← hk, hr, Option.map_some]
      intro k' hk'
      by_cases heq : k' = k
      · simp [heq]
      · simp only [Function.update_of_ne heq]
        refine hall k' (lt_of_le_of_ne (Nat.le_of_lt_succ hk') fun hval => heq ?_)
        rw [hk, ← hval, Fin.ofNat_val_eq_self]

theorem initqueue_ends {table : Fin programCount → Program} (h : Alternates table rand) :
    ∃ fuel jobs, initqueue table rand fuel = some jobs := by
  obtain ⟨s, hs, hall⟩ := loadQueue_ends h (Nat.lt_succ_self (2 * maxBrings + 1))
    (shuffle rand) le_rfl
  exact ⟨_, fun k => (s.1 k).get (hall k k.isLt), by
    rw [initqueue, hs, Option.bind_some, dif_pos fun k => hall k k.isLt]⟩

theorem alternates_programs : Alternates programs alternating := by
  have hprob : ∀ t, (programs t).branches.length < maxBranches ∧
      ∀ b ∈ (programs t).branches, b.btype = .IF → 0 < b.prob ∧ b.prob ≤ 3 / 5 := by
    decide +kernel
  intro t
  refine ⟨(hprob t).1, fun b hb hbtype => ?_⟩
  obtain ⟨hpos, hle⟩ := (hprob t).2 b hb hbtype
  exact alternating_changes hpos hle

/-! ### The way of a job -/

/-- A job that has computed for some ticks and not reached an exit. -/
structure Process.Running (start q : Process) : Prop where
  active : q.active = true
  npages : q.npages = start.npages
  kind_eq : q.kind = start.kind
  lasts : start.toControl.Lasts q.compute
  control : q.toControl = start.toControl.course q.compute
  computed : q.computed = start.toControl.pcs q.compute

/-- A job that has reached its exit and been unloaded. -/
structure Process.Ended (start q : Process) : Prop where
  active : q.active = false
  npages : q.npages = start.npages
  kind_eq : q.kind = start.kind
  ended : ∃ n, start.toControl.EndsAt n ∧ q.toControl = start.toControl.course n ∧
    q.compute = n + 1 ∧ q.computed = start.toControl.pcs (n + 1)

theorem Process.Fresh.running {p : Program} {kind : Fin programCount} {q : Process}
    (h : q.Fresh p kind) : q.Running q where
  active := h.active
  npages := rfl
  kind_eq := rfl
  lasts m hm := by
    rw [h.compute] at hm
    exact absurd hm (Nat.not_lt_zero m)
  control := by
    rw [h.compute]
    rfl
  computed := by
    rw [h.computed, h.compute]
    rfl

variable {start q : Process}

/-- A job that runs keeps running when its pages or its bookkeeping of blocked ticks change. -/
theorem Process.Running.congr {q' : Process} (h : start.Running q)
    (hcontrol : q'.toControl = q.toControl) (hactive : q'.active = q.active)
    (hnpages : q'.npages = q.npages) (hkind : q'.kind = q.kind)
    (hcompute : q'.compute = q.compute) (hcomputed : q'.computed = q.computed) :
    start.Running q' where
  active := hactive.trans h.active
  npages := hnpages.trans h.npages
  kind_eq := hkind.trans h.kind_eq
  lasts := hcompute ▸ h.lasts
  control := by rw [hcontrol, h.control, hcompute]
  computed := by rw [hcomputed, h.computed, hcompute]

/-- A compute tick takes a running job one instruction further. -/
theorem Process.Running.compute {c : Control} (h : start.Running q)
    (hnext : q.toControl.next = some c) :
    start.Running { q.chargeCompute with toControl := c } where
  active := h.active
  npages := h.npages
  kind_eq := h.kind_eq
  lasts := h.lasts.succ (by rw [← h.control, hnext]; rfl)
  control := (Control.course_succ (h.control ▸ hnext)).symm
  computed := by
    show q.computed ++ [q.pc] = start.toControl.pcs (q.compute + 1)
    rw [Control.pcs_succ, h.computed, ← h.control]

/-- A compute tick at an exit, and the unloading after it, end a running job. -/
theorem Process.Running.ended (h : start.Running q) (hnext : q.toControl.next = none)
    {pages : Nat → Int} {blocked : Nat → Bool} :
    start.Ended { q.chargeCompute with pages, blocked, active := false } where
  active := rfl
  npages := h.npages
  kind_eq := h.kind_eq
  ended := by
    refine ⟨q.compute, ⟨h.lasts, by rw [← h.control, hnext]⟩, h.control, rfl, ?_⟩
    show q.computed ++ [q.pc] = start.toControl.pcs (q.compute + 1)
    rw [Control.pcs_succ, h.computed, ← h.control]

theorem Process.Ended.congr {pages : Nat → Int} (h : start.Ended q) :
    start.Ended { q with pages } :=
  ⟨h.active, h.npages, h.kind_eq, h.ended⟩

end OperatingSystems.Simulator
