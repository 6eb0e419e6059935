import OperatingSystems.SimulatorSolo
import OperatingSystems.ProgramRefines

/-!
The jobs and the pseudo-code. Loading fills the branch contexts of a job with tables, and under any
paging the job then computes along the trace that the pseudo-code of its program has with them.
-/

namespace OperatingSystems.Simulator

open Traces

/-! ### Loading -/

theorem initContexts_spec {rand : Stream} {fuel : Nat} {p : Program} {n drawn : Nat}
    {contexts : Nat → Bcontext} {r : (Nat → Bcontext) × Nat}
    (h : initContexts rand fuel p n drawn contexts = some r) :
    (∀ k, k < n → ∃ d d', bcontextInit rand fuel d (contexts k) (p.branch k) = some (r.1 k, d')) ∧
      ∀ k, n ≤ k → r.1 k = contexts k := by
  induction n generalizing r with
  | zero =>
      obtain rfl := Option.some.inj h
      exact ⟨fun k hk => absurd hk (Nat.not_lt_zero k), fun k _ => rfl⟩
  | succ n ih =>
      simp only [initContexts, Option.bind_eq_some_iff, Option.map_eq_some_iff] at h
      obtain ⟨s, hs, r', hr', rfl⟩ := h
      obtain ⟨hinit, hkept⟩ := ih hs
      refine ⟨fun k hk => ?_, fun k hk => ?_⟩
      · rcases Nat.lt_succ_iff_lt_or_eq.mp hk with hlt | rfl
        · simp only [Function.update_of_ne hlt.ne]
          exact hinit k hlt
        · rw [hkept k le_rfl] at hr'
          simp only [Function.update_self]
          exact ⟨s.2, r'.2, hr'⟩
      · simp only [Function.update_of_ne (Nat.lt_of_succ_le hk).ne']
        exact hkept k (Nat.le_of_succ_le hk)

theorem processLoad_suits {rand : Stream} {fuel drawn pid drawn' : Nat} {p : Program}
    {kind : Fin programCount} {q : Process} (hp : ∀ b ∈ p.branches, b.Bounded)
    (h : processLoad rand fuel drawn p pid kind = some (q, drawn')) (k : Nat)
    (hk : k < p.branches.length) : (q.bcontexts k).Suits (p.branch k) := by
  rw [processLoad, Option.ite_none_right_eq_some, Option.map_eq_some_iff] at h
  obtain ⟨-, s, hs, hload⟩ := h
  obtain rfl := (Prod.mk.inj hload).1
  obtain ⟨d, d', hinit⟩ := (initContexts_spec hs).1 k hk
  have hmem : p.branch k ∈ p.branches :=
    Program.branch_mem_of_lt (Int.natCast_nonneg k) (by omega)
  exact bcontextInit_suits (hp _ hmem) le_rfl hinit

/-! ### Traces -/

variable {t : Fin programCount} {q : Process}

theorem programs_bounded (t : Fin programCount) : ∀ b ∈ (programs t).branches, b.Bounded := by
  have hall : ∀ t, ∀ b ∈ (programs t).branches,
      b.btype = .FOR ∨ b.btype = .NFOR → 1 ≤ b.min ∧ b.min < b.max := by
    decide
  exact hall t

theorem processLoad_equipped {rand : Stream} {fuel drawn pid drawn' : Nat}
    {kind : Fin programCount}
    (h : processLoad rand fuel drawn (programs t) pid kind = some (q, drawn')) :
    (programs t).Equipped q.bcontexts :=
  ⟨programs_ordered t, branchAt_programs t, processLoad_suits (programs_bounded t) h⟩

/-- The pseudo-code has a trace with full tables. -/
theorem pseudo_trace (ht : t ≠ 3) {tables : Nat → Bcontext} (h : (programs t).Equipped tables) :
    ∃ trace, (pseudo t).Trace tables trace := by
  obtain ⟨l, counts, hl⟩ :=
    (pseudo_ends t).finishes h (pseudo_laidOut t ht) (pseudo_slots t).le fun _ => 0
  exact ⟨_, l, counts, hl, rfl⟩

/-- A trace in which no `GOTO` is executed too often is the course of the program. -/
theorem trace_course (ht : t ≠ 3) {tables : Nat → Bcontext} (h : (programs t).Equipped tables)
    {trace : List Int} (htrace : (pseudo t).Trace tables trace)
    (hjumps : ∀ b ∈ (programs t).branches, b.btype = .GOTO →
      trace.count b.wherefrom < Bcontext.jumps) :
    ∃ n, (⟨programs t, tables, 0⟩ : Control).EndsAt n ∧
      (⟨programs t, tables, 0⟩ : Control).pcs (n + 1) = trace := by
  obtain ⟨l, counts, hl, rfl⟩ := htrace
  let rel : Nat → Nat → Bcontext → Prop := fun k =>
    if k < (programs t).branches.length then (programs t).Tracks tables k else fun _ _ => True
  have hlinked : Linked (programs t) rel 0 (fun _ => 0) ⟨programs t, tables, 0⟩ := by
    refine ⟨tables, rfl, fun k => ?_⟩
    by_cases hk : k < (programs t).branches.length
    · have hstands := (h.suits k hk).filled.stands
      simp only [rel, if_pos hk]
      rwa [Program.Tracks, Program.decided, Nat.mul_zero, Bcontext.begins, ite_self]
    · simp only [rel, if_neg hk]
  have hallows : (jumpBudget (programs t)).allows (fun _ => 0) l := by
    intro k hk hgoto
    have hmem : (programs t).branch k ∈ (programs t).branches :=
      Program.branch_mem_of_lt (Int.natCast_nonneg k) (by omega)
    have hcount := hjumps _ hmem hgoto
    rw [List.count_append] at hcount
    show 0 + l.count ((programs t).branch k).wherefrom < Bcontext.jumps
    omega
  obtain ⟨c, hemits, contexts, rfl, -⟩ := Code.follows h (pseudo_laidOut t ht) (pseudo_slots t).le
    (fun k _ hk => if_pos (hk.trans_eq (pseudo_slots t))) rfl hlinked hl hallows
  obtain ⟨hlasts, hpcs, hcourse⟩ := emits_course hemits
  have hexit : (0 + ((pseudo t).size : Int)) ∈ (programs t).exits := by
    rw [pseudo_size, Int.zero_add]
    exact List.mem_singleton.mpr rfl
  refine ⟨l.length, ⟨hlasts, ?_⟩, ?_⟩
  · rw [hcourse]
    exact next_exit h.ordered.exits_le hexit
  · rw [Control.pcs_succ, hpcs, hcourse, Int.zero_add]

/-- Under any paging a job computes along the trace. -/
theorem after_trace (ht : t ≠ 3) {rand : Stream} {fuel drawn pid drawn' : Nat}
    {kind : Fin programCount}
    (h : processLoad rand fuel drawn (programs t) pid kind = some (q, drawn')) {trace : List Int}
    (htrace : (pseudo t).Trace q.bcontexts trace)
    (hjumps : ∀ b ∈ (programs t).branches, b.btype = .GOTO →
      trace.count b.wherefrom < Bcontext.jumps) (schedule : Nat → Nat → Int) (n : Nat) :
    (q.after schedule n).computed <+: trace ∧
      ((q.after schedule n).active = false → (q.after schedule n).computed = trace) := by
  have hfresh := processLoad_fresh h
  obtain ⟨m, hend, hpcs⟩ := trace_course ht (processLoad_equipped h) htrace hjumps
  rw [← hfresh.toControl_eq] at hend hpcs
  obtain ⟨hpre, hdone⟩ := after_computed hfresh.running hend schedule n
  rw [hpcs] at hpre hdone
  exact ⟨hpre, fun hinactive => (hdone hinactive).1⟩

/-- Without labels a trace is too short for a `GOTO` to change its mind. -/
theorem count_lt_jumps (hlabel : t ≠ 4) {tables : Nat → Bcontext} {trace : List Int}
    (htrace : (pseudo t).Trace tables trace) (addr : Int) : trace.count addr < Bcontext.jumps := by
  have hlongest : ∀ t, (pseudo t).longest + 1 < Bcontext.jumps := by decide
  calc trace.count addr ≤ trace.length := List.count_le_length
    _ ≤ (pseudo t).longest + 1 := (pseudo_unlabelled t hlabel).length_le htrace
    _ < Bcontext.jumps := hlongest t

/-- The programs without labels compute along their traces whatever the tables hold. -/
theorem after_trace_unlabelled (ht : t ≠ 3) (hlabel : t ≠ 4) {rand : Stream}
    {fuel drawn pid drawn' : Nat} {kind : Fin programCount}
    (h : processLoad rand fuel drawn (programs t) pid kind = some (q, drawn')) :
    ∃ trace, (pseudo t).Trace q.bcontexts trace ∧ ∀ (schedule : Nat → Nat → Int) (n : Nat),
      (q.after schedule n).computed <+: trace ∧
        ((q.after schedule n).active = false → (q.after schedule n).computed = trace) := by
  obtain ⟨trace, htrace⟩ := pseudo_trace ht (processLoad_equipped h)
  exact ⟨trace, htrace, after_trace ht h htrace fun b _ _ => count_lt_jumps hlabel htrace _⟩

/-- In every iteration of the main loop, under every pager, a job has computed along the trace of
its pseudo-code. -/
theorem run_trace {config : Config} (htable : config.table = programs) (pager : Pager) {s₀ : State}
    (h : config.Starts s₀) {k : Fin queueSize} (hkind : (s₀.queue k).kind ≠ 3) {trace : List Int}
    (htrace : (pseudo (s₀.queue k).kind).Trace (s₀.queue k).bcontexts trace)
    (hjumps : ∀ b ∈ (programs (s₀.queue k).kind).branches, b.btype = .GOTO →
      trace.count b.wherefrom < Bcontext.jumps) (n : Nat) :
    ((config.run pager s₀ n).2.queue k).computed <+: trace ∧
      (((config.run pager s₀ n).2.queue k).active = false →
        ((config.run pager s₀ n).2.queue k).computed = trace) := by
  obtain ⟨fuel, jobs, hjobs, hqueue, -⟩ := start_boot h
  obtain ⟨drawn, drawn', hload⟩ := initqueue_loaded hjobs k
  rw [htable, ← (processLoad_fresh hload).kind_eq, ← hqueue] at hload
  obtain ⟨schedule, m, pages, hk⟩ := run_after pager h n k
  rw [hk]
  exact after_trace hkind hload htrace hjumps schedule m

/-- **The tables refine the pseudo-code.** For the four programs with branches, whatever their
branch contexts are loaded with: the pseudo-code has a trace, and if no `GOTO` occurs in it
`2 ^ 31 - 1` times, then the job computes along it under any paging, and has computed all of it
when it has come to its exit. -/
theorem tables_refine (ht : t ≠ 3) {rand : Stream} {fuel drawn pid drawn' : Nat}
    {kind : Fin programCount}
    (h : processLoad rand fuel drawn (programs t) pid kind = some (q, drawn')) :
    (∃ trace, (pseudo t).Trace q.bcontexts trace) ∧
      ∀ trace, (pseudo t).Trace q.bcontexts trace →
        (∀ b ∈ (programs t).branches, b.btype = .GOTO →
          trace.count b.wherefrom < 2 ^ 31 - 1) →
        ∀ (schedule : Nat → Nat → Int) (n : Nat),
          (q.after schedule n).computed <+: trace ∧
            ((q.after schedule n).active = false → (q.after schedule n).computed = trace) := by
  refine ⟨pseudo_trace ht (processLoad_equipped h), fun trace htrace hjumps => ?_⟩
  exact after_trace ht h htrace hjumps

theorem tables_refine_alternating : ∃ fuel q drawn' trace,
    processLoad alternating fuel 0 (programs 0) 0 0 = some (q, drawn') ∧
      (∃ b ∈ (programs 0).branches, b.btype = .GOTO) ∧ (pseudo 0).Trace q.bcontexts trace ∧
      ∀ (schedule : Nat → Nat → Int) (n : Nat), (q.after schedule n).computed <+: trace ∧
        ((q.after schedule n).active = false → (q.after schedule n).computed = trace) := by
  obtain ⟨⟨q, drawn'⟩, hload⟩ :=
    processLoad_ends alternates_programs (Nat.lt_succ_self (2 * maxBrings + 1)) 0 0 0 0
  obtain ⟨⟨trace, htrace⟩, hcomputed⟩ := tables_refine (by decide) hload
  refine ⟨_, q, drawn', trace, hload, by decide, htrace, hcomputed trace htrace fun b _ _ => ?_⟩
  exact count_lt_jumps (by decide) htrace b.wherefrom

end OperatingSystems.Simulator
