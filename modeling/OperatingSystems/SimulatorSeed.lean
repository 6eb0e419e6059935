import OperatingSystems.LibraryCongruential
import OperatingSystems.SimulatorSchedule

/-!
The random numbers of the simulator. `bcontext_init` draws decisions until they have changed a
hundred times, and nothing in it bounds the number of draws; but the generator behind `drand48`
has full period, so that every decision comes up again and the loading of the queue ends for every
seed.
-/

namespace OperatingSystems.Simulator

open Congruential

/-! ### The generator -/

/-- The state that `srand48` sets: the low 32 bits of the seed, and `0x330E` below them. -/
def srand48 (seed : Int) : Nat := (seed % 2 ^ 32).toNat * 2 ^ 16 + 0x330E

/-- The step of the generator. -/
def next48 : Nat → Nat := next 0x5DEECE66D 0xB (2 ^ 48)

/-- The states that the successive calls return after `srand48`. -/
def seeded (seed : Int) : Stream := fun i =>
  ⟨next48^[i + 1] (srand48 seed), by
    rw [Function.iterate_succ_apply']
    exact Nat.mod_lt _ (Nat.two_pow_pos 48)⟩

/-- Every number comes up again and again. -/
def Recurs (rand : Stream) : Prop := ∀ y n, ∃ m, n ≤ m ∧ rand m = y

theorem seeded_recurs (seed : Int) : Recurs (seeded seed) := by
  intro y n
  obtain ⟨m, -, hm⟩ := exists_iterate_eq (a := 0x5DEECE66D) (c := 0xB) (k := 48) (by decide)
    (by decide) (seeded seed n).isLt y.isLt
  refine ⟨m + n, Nat.le_add_left n m, Fin.ext ?_⟩
  rw [← hm]
  show next48^[m + n + 1] (srand48 seed) = next48^[m] (next48^[n + 1] (srand48 seed))
  rw [← Function.iterate_add_apply, Nat.add_assoc]

/-! ### Loading ends -/

/-- With more fuel the answer is the same. -/
theorem more_fuel {α : Type} (f : Nat → Option α)
    (hmono : ∀ fuel r, f fuel = some r → f (fuel + 1) = some r) {fuel : Nat} {r : α}
    (h : f fuel = some r) (more : Nat) : f (fuel + more) = some r := by
  induction more with
  | zero => exact h
  | succ more ih => exact hmono _ _ ih

variable {rand : Stream}

/-- Both decisions come up again and again. -/
def Undecided (rand : Stream) (prob : ℚ) : Prop :=
  ∀ decision n, ∃ m, n ≤ m ∧ binary prob (rand m) = decision

theorem Recurs.undecided (h : Recurs rand) {prob : ℚ} (hpos : 0 < prob) (hle : prob ≤ 3 / 5) :
    Undecided rand prob := by
  have hchange := alternating_changes hpos hle 0
  intro decision n
  obtain ⟨i, hi⟩ : ∃ i, binary prob (alternating i) = decision := by
    by_cases hzero : binary prob (alternating 0) = decision
    · exact ⟨0, hzero⟩
    · exact ⟨1, hchange.trans (Bool.not_eq_eq_eq_not.mpr (Bool.eq_not.mpr hzero))⟩
  obtain ⟨m, hle, hm⟩ := h (alternating i) n
  exact ⟨m, hle, by rw [hm, hi]⟩

/-- The run of equal decisions ends: the induction is on the draws until the decision changes. -/
theorem recordDecisions_run {prob : ℚ} {bsize : Nat} {cvalue : Bool} (hfull : bsize < maxBrings)
    (hnext : ∀ drawn c, c.bsize = bsize + 1 →
      ∃ fuel r, recordDecisions rand prob fuel drawn (!cvalue) c = some r)
    (draws drawn : Nat) (hchange : binary prob (rand (drawn + draws)) ≠ cvalue)
    (c : Bcontext) (hc : c.bsize = bsize) :
    ∃ fuel r, recordDecisions rand prob fuel drawn cvalue c = some r := by
  induction draws generalizing drawn c with
  | zero =>
      rw [Nat.add_zero] at hchange
      obtain ⟨fuel, r, hr⟩ := hnext (drawn + 1) { c with
        bsize := c.bsize + 1
        brings := Function.update c.brings (c.bsize + 1) 1 } (congrArg Nat.succ hc)
      refine ⟨fuel + 1, r, ?_⟩
      rw [recordDecisions, if_pos (hc ▸ hfull), if_neg hchange, hr]
  | succ draws ih =>
      by_cases hnow : binary prob (rand drawn) = cvalue
      · rw [← Nat.add_assoc, Nat.add_right_comm] at hchange
        obtain ⟨fuel, r, hr⟩ := ih (drawn + 1) hchange { c with
          brings := Function.update c.brings c.bsize (c.brings c.bsize + 1) } hc
        refine ⟨fuel + 1, r, ?_⟩
        rw [recordDecisions, if_pos (hc ▸ hfull), if_pos hnow, hr]
      · obtain ⟨fuel, r, hr⟩ := hnext (drawn + 1) { c with
          bsize := c.bsize + 1
          brings := Function.update c.brings (c.bsize + 1) 1 } (congrArg Nat.succ hc)
        refine ⟨fuel + 1, r, ?_⟩
        rw [recordDecisions, if_pos (hc ▸ hfull), if_neg hnow, hr]

/-- The loop of the `IF` case ends. -/
theorem recordDecisions_recurs {prob : ℚ} (h : Undecided rand prob) (left : Nat) (drawn : Nat)
    (cvalue : Bool) (c : Bcontext) (hleft : maxBrings ≤ c.bsize + left) :
    ∃ fuel r, recordDecisions rand prob fuel drawn cvalue c = some r := by
  induction left generalizing drawn cvalue c with
  | zero => exact ⟨1, (c, drawn), by rw [recordDecisions, if_neg (by omega)]⟩
  | succ left ih =>
      by_cases hfull : c.bsize < maxBrings
      · obtain ⟨m, hle, hm⟩ := h (!cvalue) drawn
        obtain ⟨draws, rfl⟩ := Nat.exists_eq_add_of_le hle
        refine recordDecisions_run hfull (fun drawn' c' hc' => ih drawn' _ c' ?_) draws drawn ?_ c
          rfl
        · omega
        · rw [hm]
          exact Bool.not_ne_self cvalue
      · exact ⟨1, (c, drawn), by rw [recordDecisions, if_neg hfull]⟩

/-- A program whose branch contexts can be initialised. -/
def Program.Loads (rand : Stream) (p : Program) : Prop :=
  p.branches.length < maxBranches ∧
    ∀ b ∈ p.branches, b.btype = .IF → Undecided rand b.prob

theorem bcontextInit_recurs {b : Branch} (h : b.btype = .IF → Undecided rand b.prob)
    (drawn : Nat) (c : Bcontext) : ∃ fuel r, bcontextInit rand fuel drawn c b = some r := by
  unfold bcontextInit
  cases hb : b.btype with
  | IF => exact recordDecisions_recurs (h hb) maxBrings _ _ _ (Nat.le_add_left _ _)
  | GOTO | FOR | NFOR => exact ⟨0, _, rfl⟩

theorem initContexts_recurs {p : Program} (h : p.Loads rand) {n : Nat}
    (hn : n ≤ p.branches.length) (drawn : Nat) (contexts : Nat → Bcontext) :
    ∃ fuel r, initContexts rand fuel p n drawn contexts = some r := by
  induction n with
  | zero => exact ⟨0, _, rfl⟩
  | succ n ih =>
      obtain ⟨fuel, s, hs⟩ := ih (Nat.le_of_succ_le hn)
      have hmem : p.branch n ∈ p.branches :=
        Program.branch_mem_of_lt (Int.natCast_nonneg n) (by omega)
      obtain ⟨fuel', r, hr⟩ := bcontextInit_recurs (h.2 _ hmem) s.2 (s.1 n)
      refine ⟨fuel + fuel', (Function.update s.1 n r.1, r.2), ?_⟩
      have hs' := more_fuel (initContexts rand · p n drawn contexts)
        (fun _ _ => initContexts_mono) hs fuel'
      have hr' := more_fuel (bcontextInit rand · s.2 (s.1 n) (p.branch n))
        (fun _ _ => bcontextInit_mono) hr fuel
      rw [Nat.add_comm] at hr'
      rw [initContexts, hs', Option.bind_some, hr', Option.map_some]

theorem processLoad_recurs {p : Program} (h : p.Loads rand) (drawn pid : Nat)
    (kind : Fin programCount) : ∃ fuel r, processLoad rand fuel drawn p pid kind = some r := by
  obtain ⟨fuel, s, hs⟩ := initContexts_recurs h le_rfl drawn fun _ => bcontextClear
  refine ⟨fuel, Option.isSome_iff_exists.mp ?_⟩
  rw [processLoad, if_pos h.1, hs, Option.map_some, Option.isSome_some]

theorem loadQueue_recurs {table : Fin programCount → Program}
    (h : ∀ kind, (table kind).Loads rand) (queuetype : Fin queueSize → Fin programCount) {n : Nat}
    (hn : n ≤ queueSize) :
    ∃ fuel s, loadQueue table rand fuel queuetype n = some s ∧
      ∀ k : Fin queueSize, k.val < n → (s.1 k).isSome := by
  induction n with
  | zero => exact ⟨0, _, rfl, fun k hk => absurd hk (Nat.not_lt_zero _)⟩
  | succ n ih =>
      obtain ⟨fuel, s, hs, hall⟩ := ih (Nat.le_of_succ_le hn)
      set k := Fin.ofNat queueSize n with hk
      obtain ⟨fuel', r, hr⟩ := processLoad_recurs (h (queuetype k)) s.2 n (queuetype k)
      have hs' := more_fuel (loadQueue table rand · queuetype n)
        (fun _ _ => loadQueue_mono) hs fuel'
      have hr' := more_fuel (processLoad rand · s.2 (table (queuetype k)) n (queuetype k))
        (fun _ _ => processLoad_mono) hr fuel
      rw [Nat.add_comm] at hr'
      refine ⟨fuel + fuel', (Function.update s.1 k (some r.1), r.2), ?_, ?_⟩
      · simp only [loadQueue, hs', Option.bind_some, ← hk, hr', Option.map_some]
      intro k' hk'
      by_cases heq : k' = k
      · simp [heq]
      · simp only [Function.update_of_ne heq]
        refine hall k' (lt_of_le_of_ne (Nat.le_of_lt_succ hk') fun hval => heq ?_)
        rw [hk, ← hval, Fin.ofNat_val_eq_self]

theorem initqueue_recurs {table : Fin programCount → Program}
    (h : ∀ kind, (table kind).Loads rand) :
    ∃ fuel jobs, initqueue table rand fuel = some jobs := by
  obtain ⟨fuel, s, hs, hall⟩ := loadQueue_recurs h (shuffle rand) le_rfl
  exact ⟨fuel, fun k => (s.1 k).get (hall k k.isLt), by
    rw [initqueue, hs, Option.bind_some, dif_pos fun k => hall k k.isLt]⟩

theorem programs_loads (h : Recurs rand) (kind : Fin programCount) :
    (programs kind).Loads rand := by
  have hprob : ∀ t, (programs t).branches.length < maxBranches ∧
      ∀ b ∈ (programs t).branches, b.btype = .IF → 0 < b.prob ∧ b.prob ≤ 3 / 5 := by
    decide +kernel
  refine ⟨(hprob kind).1, fun b hb hbtype => ?_⟩
  obtain ⟨hpos, hle⟩ := (hprob kind).2 b hb hbtype
  exact h.undecided hpos hle

theorem starts_of_recurs {config : Config} (htable : config.table = programs)
    (h : Recurs config.rand) : ∃ s, config.Starts s := by
  obtain ⟨fuel, jobs, hjobs⟩ := initqueue_recurs (programs_loads h)
  exact ⟨_, fuel, by rw [allinit, htable, hjobs, Option.map_some]⟩

/-- **The simulator starts for every seed.** With the generator that `srand48` sets, the loading of
the queue ends, although nothing bounds how often an `IF` draws, and `allinit` fills the slots, each
with the job of its number. -/
theorem seeded_starts (config : Config) (htable : config.table = programs) (seed : Int)
    (hrand : config.rand = seeded seed) :
    ∃ s, config.Starts s ∧
      ∀ slot, slot < config.procs → ∃ k, s.processes slot = some k ∧ k.val = slot := by
  obtain ⟨s, hstart⟩ := starts_of_recurs htable (hrand ▸ seeded_recurs seed)
  refine ⟨s, hstart, fun slot hslot => ?_⟩
  obtain ⟨k, hk⟩ := Option.isSome_iff_exists.mp (start_loaded hstart hslot)
  exact ⟨k, hk, (start_slots hstart).2 slot k hk⟩

/-- The five programs in four slots, with the seed of the usage text. -/
def usageConfig : Config where
  table := programs
  procs := 4
  rand := seeded 512
  procs_pos := by decide
  procs_le := by decide

theorem seeded_starts_usage : ∃ s, usageConfig.Starts s ∧
    ∀ slot, slot < 4 → ∃ k, s.processes slot = some k ∧ k.val = slot :=
  seeded_starts usageConfig rfl 512 rfl

end OperatingSystems.Simulator
