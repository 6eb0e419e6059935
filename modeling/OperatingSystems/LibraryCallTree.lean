import Mathlib.Data.List.Basic

/-!
Programs that call an environment and continue with its answer. A program is the finite tree of
all its possible conversations, so that one definition is run against a real environment state
and is also studied under arbitrary answers.
-/

/-- A computation that makes calls, receives an answer to each, and returns a value. -/
inductive CallTree (Call Answer α : Type) where
  | ret (value : α)
  | call (request : Call) (next : Answer → CallTree Call Answer α)

namespace CallTree

variable {Call Answer α β γ σ : Type}

def bind : CallTree Call Answer α → (α → CallTree Call Answer β) → CallTree Call Answer β
  | ret value, f => f value
  | call request next, f => call request fun answer => bind (next answer) f

instance : Monad (CallTree Call Answer) where
  pure := ret
  bind := bind

/-- A single call, returning its answer. -/
def ask (request : Call) : CallTree Call Answer Answer := call request ret

@[simp] theorem pure_eq (value : α) : (pure value : CallTree Call Answer α) = ret value := rfl

@[simp] theorem ret_bind (value : α) (f : α → CallTree Call Answer β) :
    (ret value >>= f) = f value := rfl

@[simp] theorem call_bind (request : Call) (next : Answer → CallTree Call Answer α)
    (f : α → CallTree Call Answer β) :
    (call request next >>= f) = call request fun answer => next answer >>= f := rfl

@[simp] theorem ask_bind (request : Call) (f : Answer → CallTree Call Answer β) :
    (ask request >>= f) = call request f := rfl

theorem bind_ret (t : CallTree Call Answer α) : (t >>= ret) = t := by
  induction t with
  | ret value => rfl
  | call request next ih =>
      rw [call_bind]
      exact congrArg _ (funext ih)

theorem bind_bind (t : CallTree Call Answer α) (f : α → CallTree Call Answer β)
    (g : β → CallTree Call Answer γ) : (t >>= f) >>= g = t >>= fun value => f value >>= g := by
  induction t with
  | ret value => rfl
  | call request next ih =>
      rw [call_bind, call_bind, call_bind]
      exact congrArg _ (funext ih)

/-! ### Loops -/

/-- `for (i = 0; i < n; i++)` with calls in its body. -/
def sweep (body : Nat → σ → CallTree Call Answer σ) : Nat → σ → CallTree Call Answer σ
  | 0, s => ret s
  | n + 1, s => sweep body n s >>= body n

/-- The same loop with `break`: the body says whether to go on. -/
def sweepUntil (body : Nat → σ → CallTree Call Answer (Bool × σ)) :
    Nat → σ → CallTree Call Answer (Bool × σ)
  | 0, s => ret (true, s)
  | n + 1, s => sweepUntil body n s >>= fun r => if r.1 then body n r.2 else ret r

/-! ### Running against an environment -/

variable (answer : Call → σ → Answer × σ)

/-- Runs the computation, each call being answered from, and changing, the environment state. -/
def run : CallTree Call Answer α → σ → α × σ
  | ret value, s => (value, s)
  | call request next, s => run (next (answer request s).1) (answer request s).2

/-- The calls of a run with the answers they get. -/
def exchanges : CallTree Call Answer α → σ → List (Call × Answer)
  | ret _, _ => []
  | call request next, s =>
      (request, (answer request s).1) ::
        exchanges (next (answer request s).1) (answer request s).2

@[simp] theorem run_ret (value : α) (s : σ) :
    run answer (ret value : CallTree Call Answer α) s = (value, s) := rfl

@[simp] theorem run_call (request : Call) (next : Answer → CallTree Call Answer α) (s : σ) :
    run answer (call request next) s =
      run answer (next (answer request s).1) (answer request s).2 :=
  rfl

theorem run_bind (t : CallTree Call Answer α) (f : α → CallTree Call Answer β) (s : σ) :
    run answer (t >>= f) s = run answer (f (run answer t s).1) (run answer t s).2 := by
  induction t generalizing s with
  | ret value => rfl
  | call request next ih => rw [call_bind, run_call, run_call, ih]

variable {answer}

/-- What the calls of a run keep, the run keeps. -/
theorem run_invariant (ok : Call → Prop) (inv : σ → Prop)
    (hkeep : ∀ request s, ok request → inv s → inv (answer request s).2)
    (t : CallTree Call Answer α) {s : σ} (hok : ∀ x ∈ exchanges answer t s, ok x.1)
    (hs : inv s) : inv (run answer t s).2 := by
  induction t generalizing s with
  | ret value => exact hs
  | call request next ih =>
      rw [exchanges, List.forall_mem_cons] at hok
      exact ih _ hok.2 (hkeep request s hok.1 hs)

/-- What every call relates, a run relates, if the relation is a preorder. -/
theorem run_relates {rel : σ → σ → Prop} (hrefl : ∀ s, rel s s)
    (htrans : ∀ s s' s'', rel s s' → rel s' s'' → rel s s'')
    (hcall : ∀ request s, rel s (answer request s).2) (t : CallTree Call Answer α) (s : σ) :
    rel s (run answer t s).2 := by
  induction t generalizing s with
  | ret value => exact hrefl s
  | call request next ih => exact htrans _ _ _ (hcall request s) (ih _ _)

/-- What no call changes, a run does not change. -/
theorem run_keeps {β : Type*} (f : σ → β) (hcall : ∀ request s, f (answer request s).2 = f s)
    (t : CallTree Call Answer α) (s : σ) : f (run answer t s).2 = f s := by
  induction t generalizing s with
  | ret value => rfl
  | call request next ih => rw [run_call, ih, hcall]

/-- An environment that keeps more than another leads to the same value, and to the same state as
far as the other keeps it. -/
theorem run_erase {τ : Type} {answer' : Call → τ → Answer × τ} (erase : τ → σ)
    (herase : ∀ request s, answer request (erase s) =
      ((answer' request s).1, erase (answer' request s).2)) (t : CallTree Call Answer α) (s : τ) :
    run answer t (erase s) = ((run answer' t s).1, erase (run answer' t s).2) := by
  induction t generalizing s with
  | ret value => rfl
  | call request next ih => rw [run_call, run_call, herase, ih]

/-! ### Computations with the same conversation -/

theorem exchanges_bind (t : CallTree Call Answer α) (f : α → CallTree Call Answer β) (s : σ) :
    exchanges answer (t >>= f) s =
      exchanges answer t s ++ exchanges answer (f (run answer t s).1) (run answer t s).2 := by
  induction t generalizing s with
  | ret value => rfl
  | call request next ih =>
      rw [call_bind, exchanges, exchanges, ih, List.cons_append]
      rfl

/-- A last step without a call leaves the conversation as it is. -/
theorem exchanges_bind_ret (t : CallTree Call Answer α) (f : α → β) (s : σ) :
    exchanges answer (t >>= fun value => ret (f value)) s = exchanges answer t s := by
  rw [exchanges_bind, exchanges, List.append_nil]

/-- What a computation does to the environment is in its conversation. -/
theorem run_eq_foldl (t : CallTree Call Answer α) (s : σ) :
    (run answer t s).2 = (exchanges answer t s).foldl (fun s x => (answer x.1 s).2) s := by
  induction t generalizing s with
  | ret value => rfl
  | call request next ih => rw [run_call, ih, exchanges, List.foldl_cons]

/-- The conversation with an environment that keeps more than another is that with the other. -/
theorem exchanges_erase {τ : Type} {answer' : Call → τ → Answer × τ} (erase : τ → σ)
    (herase : ∀ request s, answer request (erase s) =
      ((answer' request s).1, erase (answer' request s).2)) (t : CallTree Call Answer α) (s : τ) :
    exchanges answer t (erase s) = exchanges answer' t s := by
  induction t generalizing s with
  | ret value => rfl
  | call request next ih =>
      rw [exchanges, exchanges, herase]
      exact congrArg _ (ih _ _)

/-- A loop with `break` converses like one without, as far as it does so round by round, neither
breaking nor changing what it remembers. -/
theorem sweepUntil_converses {τ : Type} {body : Nat → α → CallTree Call Answer α}
    {body' : Nat → τ → CallTree Call Answer (Bool × τ)} {a : α} {b : τ} {s : σ} {n : Nat}
    (hround : ∀ i, i < n →
      exchanges answer (body' i b) (run answer (sweep body i a) s).2 =
        exchanges answer (body i (run answer (sweep body i a) s).1)
          (run answer (sweep body i a) s).2 ∧
      (run answer (body' i b) (run answer (sweep body i a) s).2).1 = (true, b)) :
    exchanges answer (sweepUntil body' n b) s = exchanges answer (sweep body n a) s ∧
      (run answer (sweepUntil body' n b) s).1 = (true, b) := by
  induction n with
  | zero => exact ⟨rfl, rfl⟩
  | succ n ih =>
      obtain ⟨hbefore, hvalue⟩ := ih fun i hi => hround i (Nat.lt_succ_of_lt hi)
      have hstate : (run answer (sweepUntil body' n b) s).2 =
          (run answer (sweep body n a) s).2 := by
        rw [run_eq_foldl, run_eq_foldl, hbefore]
      obtain ⟨hnow, hkept⟩ := hround n (Nat.lt_succ_self n)
      refine ⟨?_, ?_⟩
      · rw [sweepUntil, sweep, exchanges_bind, exchanges_bind, hbefore, hvalue, hstate, if_pos rfl,
          hnow]
      · rw [sweepUntil, run_bind, hvalue, hstate, if_pos rfl, hkept]

/-- The calls of a run with the states in which they are made. -/
def moments (answer : Call → σ → Answer × σ) : CallTree Call Answer α → σ → List (Call × σ)
  | ret _, _ => []
  | call request next, s =>
      (request, s) :: moments answer (next (answer request s).1) (answer request s).2

theorem exchanges_eq_map (t : CallTree Call Answer α) (s : σ) :
    exchanges answer t s = (moments answer t s).map fun x => (x.1, (answer x.1 x.2).1) := by
  induction t generalizing s with
  | ret value => rfl
  | call request next ih => rw [exchanges, moments, List.map_cons, ih]

/-- A call of a run is made at a state on the way. -/
theorem moments_relates {rel : σ → σ → Prop} (hrefl : ∀ s, rel s s)
    (htrans : ∀ s s' s'', rel s s' → rel s' s'' → rel s s'')
    (hcall : ∀ request s, rel s (answer request s).2) {t : CallTree Call Answer α} {s : σ}
    {x : Call × σ} (h : x ∈ moments answer t s) :
    rel s x.2 ∧ rel (answer x.1 x.2).2 (run answer t s).2 := by
  induction t generalizing s with
  | ret value => cases h
  | call first next ih =>
      rw [moments, List.mem_cons] at h
      rcases h with rfl | hrest
      · exact ⟨hrefl s, run_relates hrefl htrans hcall _ _⟩
      · obtain ⟨hbefore, hafter⟩ := ih _ hrest
        exact ⟨htrans _ _ _ (hcall first s) hbefore, hafter⟩

/-- The states after a call of a run come from the one that the call leads to. -/
theorem moments_after {rel : σ → σ → Prop} (hrefl : ∀ s, rel s s)
    (htrans : ∀ s s' s'', rel s s' → rel s' s'' → rel s s'')
    (hcall : ∀ request s, rel s (answer request s).2) {t : CallTree Call Answer α} {s : σ}
    {before after : List (Call × σ)} {x : Call × σ}
    (h : moments answer t s = before ++ x :: after) :
    ∀ y ∈ after, rel (answer x.1 x.2).2 y.2 := by
  induction t generalizing s before with
  | ret value => simp [moments] at h
  | call first next ih =>
      cases before with
      | nil =>
          obtain ⟨rfl, rfl⟩ := List.cons.inj h
          exact fun y hy => (moments_relates hrefl htrans hcall hy).1
      | cons z rest => exact ih _ (List.cons.inj h).2

/-- An exchange of a run takes place at some state on the way. -/
theorem exchanges_mem {rel : σ → σ → Prop} (hrefl : ∀ s, rel s s)
    (htrans : ∀ s s' s'', rel s s' → rel s' s'' → rel s s'')
    (hcall : ∀ request s, rel s (answer request s).2) {t : CallTree Call Answer α} {s : σ}
    {request : Call} {given : Answer} (h : (request, given) ∈ exchanges answer t s) :
    ∃ s', rel s s' ∧ given = (answer request s').1 ∧
      rel (answer request s').2 (run answer t s).2 := by
  rw [exchanges_eq_map, List.mem_map] at h
  obtain ⟨⟨first, s'⟩, hmem, heq⟩ := h
  obtain ⟨rfl, rfl⟩ := Prod.mk.inj heq
  obtain ⟨hbefore, hafter⟩ := moments_relates hrefl htrans hcall hmem
  exact ⟨s', hbefore, rfl, hafter⟩

/-! ### Arbitrary answers -/

/-- The conversations a computation can have: the calls with the answers given, and its value. -/
inductive Talk : CallTree Call Answer α → List (Call × Answer) → α → Prop where
  | ret (value : α) : Talk (ret value) [] value
  | call {request : Call} {next : Answer → CallTree Call Answer α} {log : List (Call × Answer)}
      {value : α} (given : Answer) (h : Talk (next given) log value) :
      Talk (call request next) ((request, given) :: log) value

@[simp] theorem talk_ret_iff {value result : α} {log : List (Call × Answer)} :
    Talk (ret value : CallTree Call Answer α) log result ↔ log = [] ∧ result = value := by
  constructor
  · rintro ⟨⟩
    exact ⟨rfl, rfl⟩
  · rintro ⟨rfl, rfl⟩
    exact .ret _

theorem talk_call_iff {request : Call} {next : Answer → CallTree Call Answer α}
    {log : List (Call × Answer)} {result : α} :
    Talk (call request next) log result ↔
      ∃ given rest, log = (request, given) :: rest ∧ Talk (next given) rest result := by
  constructor
  · rintro ⟨⟩
    exact ⟨_, _, rfl, ‹_›⟩
  · rintro ⟨given, rest, rfl, h⟩
    exact .call given h

theorem talk_bind_iff {t : CallTree Call Answer α} {f : α → CallTree Call Answer β}
    {log : List (Call × Answer)} {result : β} :
    Talk (t >>= f) log result ↔
      ∃ first value rest, log = first ++ rest ∧ Talk t first value ∧
        Talk (f value) rest result := by
  induction t generalizing log with
  | ret value =>
      simp only [ret_bind, talk_ret_iff]
      constructor
      · intro h
        exact ⟨[], value, log, rfl, ⟨rfl, rfl⟩, h⟩
      · rintro ⟨first, _, rest, rfl, ⟨rfl, rfl⟩, h⟩
        exact h
  | call request next ih =>
      simp only [call_bind, talk_call_iff, ih]
      constructor
      · rintro ⟨given, _, rfl, first, value, rest, rfl, hfirst, hrest⟩
        exact ⟨(request, given) :: first, value, rest, rfl, ⟨given, first, rfl, hfirst⟩, hrest⟩
      · rintro ⟨_, value, rest, rfl, ⟨given, first, rfl, hfirst⟩, hrest⟩
        exact ⟨given, first ++ rest, rfl, first, value, rest, rfl, hfirst, hrest⟩

/-- A run is one of the conversations. -/
theorem talk_exchanges (answer : Call → σ → Answer × σ) (t : CallTree Call Answer α) (s : σ) :
    Talk t (exchanges answer t s) (run answer t s).1 := by
  induction t generalizing s with
  | ret value => exact .ret value
  | call request next ih => exact .call _ (ih _ _)

/-! ### The calls that can be made -/

/-- Every call of the computation has the property, whatever the answers. -/
inductive Only (P : Call → Prop) : CallTree Call Answer α → Prop where
  | ret (value : α) : Only P (ret value)
  | call {request : Call} {next : Answer → CallTree Call Answer α} (h : P request)
      (hnext : ∀ given, Only P (next given)) : Only P (call request next)

variable {P : Call → Prop}

theorem Only.mono {R : Call → Prop} {t : CallTree Call Answer α} (h : Only P t)
    (himp : ∀ request, P request → R request) : Only R t := by
  induction h with
  | ret value => exact .ret value
  | call h _ ih => exact .call (himp _ h) ih

theorem Only.bind {t : CallTree Call Answer α} {f : α → CallTree Call Answer β} (h : Only P t)
    (hf : ∀ value, Only P (f value)) : Only P (t >>= f) := by
  induction h with
  | ret value => exact hf value
  | call h _ ih => exact .call h ih

theorem Only.sweep {body : Nat → σ → CallTree Call Answer σ} {n : Nat}
    (hbody : ∀ i s, i < n → Only P (body i s)) (s : σ) : Only P (sweep body n s) := by
  induction n with
  | zero => exact .ret s
  | succ n ih =>
      exact (ih fun i s hi => hbody i s (Nat.lt_succ_of_lt hi)).bind
        fun s => hbody n s (Nat.lt_succ_self n)

theorem Only.sweepUntil {body : Nat → σ → CallTree Call Answer (Bool × σ)} {n : Nat}
    (hbody : ∀ i s, i < n → Only P (body i s)) (s : σ) : Only P (sweepUntil body n s) := by
  induction n with
  | zero => exact .ret _
  | succ n ih =>
      refine (ih fun i s hi => hbody i s (Nat.lt_succ_of_lt hi)).bind fun r => ?_
      split
      · exact hbody n r.2 (Nat.lt_succ_self n)
      · exact .ret r

theorem Talk.only {t : CallTree Call Answer α} {log : List (Call × Answer)} {value : α}
    (h : Talk t log value) (honly : Only P t) : ∀ x ∈ log, P x.1 := by
  induction h with
  | ret value => simp
  | call given _ ih =>
      cases honly with
      | call hrequest hnext =>
          rw [List.forall_mem_cons]
          exact ⟨hrequest, ih (hnext given)⟩

theorem Only.moments {t : CallTree Call Answer α} (h : Only P t)
    (answer : Call → σ → Answer × σ) (s : σ) : ∀ x ∈ CallTree.moments answer t s, P x.1 := by
  induction h generalizing s with
  | ret value => simp [CallTree.moments]
  | call hrequest _ ih =>
      rw [CallTree.moments, List.forall_mem_cons]
      exact ⟨hrequest, ih _ _⟩

/-- What the calls that can be made keep holds whenever a call is made, and after the run. -/
theorem Only.invariant {answer : Call → σ → Answer × σ} {inv : σ → Prop}
    (hkeep : ∀ request s, P request → inv s → inv (answer request s).2)
    {t : CallTree Call Answer α} (h : Only P t) {s : σ} (hs : inv s) :
    (∀ x ∈ CallTree.moments answer t s, inv x.2 ∧ inv (answer x.1 x.2).2) ∧
      inv (run answer t s).2 := by
  induction h generalizing s with
  | ret value => exact ⟨fun x hx => absurd hx List.not_mem_nil, hs⟩
  | @call request _ hrequest _ ih =>
      have hnext := hkeep request s hrequest hs
      obtain ⟨hmoments, hrun⟩ := ih _ hnext
      exact ⟨List.forall_mem_cons.mpr ⟨⟨hs, hnext⟩, hmoments⟩, hrun⟩

/-! ### Conversations of loops -/

section Sweeps

variable {body : Nat → σ → CallTree Call Answer σ} {log : List (Call × Answer)} {s s' : σ}

/-- The invariant rule for conversations of a loop; the invariant may speak of the exchanges so
far. -/
theorem Talk.sweep_invariant (inv : Nat → σ → List (Call × Answer) → Prop) {n : Nat}
    (hstart : inv 0 s [])
    (hbody : ∀ i s before log s', i < n → inv i s before → Talk (body i s) log s' →
      inv (i + 1) s' (before ++ log))
    (h : Talk (sweep body n s) log s') : inv n s' log := by
  induction n generalizing log s' with
  | zero =>
      obtain ⟨rfl, rfl⟩ := talk_ret_iff.mp h
      exact hstart
  | succ n ih =>
      obtain ⟨first, s₁, rest, rfl, hfirst, hrest⟩ := talk_bind_iff.mp h
      refine hbody n s₁ first rest s' (Nat.lt_succ_self n) (ih (fun i s before log s' hi => ?_)
        hfirst) hrest
      exact hbody i s before log s' (Nat.lt_succ_of_lt hi)

/-- The part of a conversation of a loop that one iteration has. -/
theorem Talk.sweep_split {n i : Nat} (hi : i < n)
    (hother : ∀ j s, j ≠ i → Only P (body j s)) (h : Talk (sweep body n s) log s') :
    ∃ before mid after s₁ s₂, log = before ++ mid ++ after ∧ (∀ x ∈ before, P x.1) ∧
      (∀ x ∈ after, P x.1) ∧ Talk (sweep body i s) before s₁ ∧ Talk (body i s₁) mid s₂ := by
  induction n generalizing log s' with
  | zero => exact absurd hi (Nat.not_lt_zero i)
  | succ n ih =>
      obtain ⟨first, s₁, rest, rfl, hfirst, hrest⟩ := talk_bind_iff.mp h
      rcases Nat.lt_succ_iff_lt_or_eq.mp hi with hlt | rfl
      · obtain ⟨before, mid, after, s₂, s₃, rfl, hbefore, hafter, htalk, hmid⟩ := ih hlt hfirst
        refine ⟨before, mid, after ++ rest, s₂, s₃, by simp, hbefore, ?_, htalk, hmid⟩
        rw [List.forall_mem_append]
        exact ⟨hafter, hrest.only (hother n s₁ (Nat.ne_of_gt hlt))⟩
      · refine ⟨first, rest, [], s₁, s', by simp, ?_, by simp, hfirst, hrest⟩
        exact hfirst.only (.sweep (fun j s hj => hother j s (Nat.ne_of_lt hj)) s)

/-- If the iterations before it make no calls, the first call of a loop is that of an iteration
that begins with a call. -/
theorem sweep_first {n i : Nat} (hi : i < n) {request : Call}
    (hbefore : ∀ j s, j < i → ∃ s', body j s = ret s')
    (hcall : ∀ s, ∃ next, body i s = call request next) (s : σ) :
    ∃ next, sweep body n s = call request next := by
  have hprefix : ∀ j, j ≤ i → ∃ s', sweep body j s = ret s' := by
    intro j hj
    induction j with
    | zero => exact ⟨s, rfl⟩
    | succ j ih =>
        obtain ⟨s₁, hs₁⟩ := ih (Nat.le_of_succ_le hj)
        obtain ⟨s₂, hs₂⟩ := hbefore j s₁ hj
        exact ⟨s₂, by rw [sweep, hs₁, ret_bind, hs₂]⟩
  induction n with
  | zero => exact absurd hi (Nat.not_lt_zero i)
  | succ n ih =>
      rcases Nat.lt_succ_iff_lt_or_eq.mp hi with hlt | rfl
      · obtain ⟨next, hnext⟩ := ih hlt
        exact ⟨_, by rw [sweep, hnext, call_bind]⟩
      · obtain ⟨s₁, hs₁⟩ := hprefix i (Nat.le_refl i)
        obtain ⟨next, hnext⟩ := hcall s₁
        exact ⟨next, by rw [sweep, hs₁, ret_bind, hnext]⟩

end Sweeps

section SweepsUntil

variable {body : Nat → σ → CallTree Call Answer (Bool × σ)}

/-- The iterations of a loop with `break`: some number of them take place, one after the other, and
one that breaks is the last. The state is looked at through a family of components, of which an
iteration changes its own only. -/
theorem Talk.sweepUntil_split (view : σ → Nat → β)
    (hframe : ∀ i s log r, Talk (body i s) log r → ∀ j, j ≠ i → view r.2 j = view s j)
    {n : Nat} {s : σ} {log : List (Call × Answer)} {r : Bool × σ}
    (h : Talk (sweepUntil body n s) log r) :
    ∃ m part, log = (List.range m).flatMap part ∧ m ≤ n ∧
      (r.1 = true ∧ m = n ∨ r.1 = false ∧ 0 < m) ∧
      (∀ i, m ≤ i → view r.2 i = view s i) ∧
      ∀ i, i < m → ∃ s₁ r₁, Talk (body i s₁) (part i) r₁ ∧
        view s₁ i = view s i ∧ view r.2 i = view r₁.2 i ∧
        (r₁.1 = false ↔ r.1 = false ∧ m = i + 1) := by
  induction n generalizing log r with
  | zero =>
      obtain ⟨rfl, rfl⟩ := talk_ret_iff.mp h
      exact ⟨0, fun _ => [], rfl, Nat.le_refl 0, Or.inl ⟨rfl, rfl⟩, fun _ _ => rfl,
        fun i hi => absurd hi (Nat.not_lt_zero i)⟩
  | succ n ih =>
      obtain ⟨first, r', rest, rfl, hfirst, hrest⟩ := talk_bind_iff.mp h
      obtain ⟨m, part, rfl, hm, hend, hafter, hbody⟩ := ih hfirst
      cases hgo : r'.1 with
      | false =>
          rw [hgo, if_neg (by decide)] at hrest
          obtain ⟨rfl, rfl⟩ := talk_ret_iff.mp hrest
          rw [List.append_nil]
          refine ⟨m, part, rfl, Nat.le_succ_of_le hm, ?_, hafter, hbody⟩
          rcases hend with ⟨htrue, -⟩ | hfalse
          · rw [htrue] at hgo
            cases hgo
          · exact Or.inr hfalse
      | true =>
          rw [hgo, if_pos rfl] at hrest
          have hmn : m = n := by
            rcases hend with ⟨-, hmn⟩ | ⟨hfalse, -⟩
            · exact hmn
            · rw [hfalse] at hgo
              cases hgo
          subst hmn
          have hearlier : ∀ i, i < m → (if i = m then rest else part i) = part i := fun i hi =>
            if_neg (Nat.ne_of_lt hi)
          refine ⟨m + 1, fun i => if i = m then rest else part i, ?_, Nat.le_refl _, ?_,
            fun i hi => ?_, fun i hi => ?_⟩
          · rw [List.range_succ, List.flatMap_append, List.flatMap_singleton, if_pos rfl]
            congr 1
            exact (List.flatMap_congr fun i hi => hearlier i (List.mem_range.mp hi)).symm
          · cases hr : r.1 with
            | true => exact Or.inl ⟨rfl, rfl⟩
            | false => exact Or.inr ⟨rfl, Nat.succ_pos m⟩
          · rw [hframe m _ _ _ hrest i (Nat.ne_of_gt hi), hafter i (Nat.le_of_succ_le hi)]
          · rcases Nat.lt_succ_iff_lt_or_eq.mp hi with hlt | rfl
            · obtain ⟨s₁, r₁, htalk, hbefore, hview, hstop⟩ := hbody i hlt
              refine ⟨s₁, r₁, ?_, hbefore, ?_, ?_⟩
              · show Talk (body i s₁) (if i = m then rest else part i) r₁
                rwa [hearlier i hlt]
              · rw [hframe m _ _ _ hrest i (Nat.ne_of_lt hlt), hview]
              · rw [hstop, hgo]
                constructor
                · rintro ⟨hfalse, -⟩
                  cases hfalse
                · rintro ⟨-, heq⟩
                  omega
            · refine ⟨r'.2, r, ?_, hafter i (Nat.le_refl i), rfl, by simp⟩
              simpa only [if_pos] using hrest

/-- The calls of one iteration, picked out of the conversation of the loop. -/
theorem filter_parts {part : Nat → List α} (tag : α → Nat → Prop) [∀ x i, Decidable (tag x i)]
    (hunique : ∀ x i j, tag x i → tag x j → i = j) {m : Nat}
    (hpart : ∀ i, i < m → ∀ x ∈ part i, tag x i) (i : Nat) :
    ((List.range m).flatMap part).filter (fun x => tag x i) = if i < m then part i else [] := by
  induction m with
  | zero => rfl
  | succ m ih =>
      rw [List.range_succ, List.flatMap_append, List.flatMap_singleton, List.filter_append,
        ih fun j hj => hpart j (Nat.lt_succ_of_lt hj)]
      by_cases hi : i = m
      · subst hi
        rw [if_neg (Nat.lt_irrefl i), if_pos (Nat.lt_succ_self i), List.nil_append,
          List.filter_eq_self]
        exact fun x hx => decide_eq_true (hpart i (Nat.lt_succ_self i) x hx)
      · have hnone : (part m).filter (fun x => tag x i) = [] := by
          rw [List.filter_eq_nil_iff]
          intro x hx htag
          exact hi (hunique x i m (of_decide_eq_true htag) (hpart m (Nat.lt_succ_self m) x hx))
        rw [hnone, List.append_nil]
        split_ifs <;> first | rfl | omega

/-- If the iterations before it make no calls and go on, the loop comes to an iteration, and ends
with it if it breaks. -/
theorem sweepUntil_reach {n i : Nat} (hi : i < n)
    (hbefore : ∀ j s, j < i → ∃ s', body j s = ret (true, s')) (s : σ) :
    ∃ s₁ next, sweepUntil body n s = (body i s₁ >>= next) ∧
      ∀ r : Bool × σ, r.1 = false → next r = ret r := by
  have hprefix : ∀ j, j ≤ i → ∃ s', sweepUntil body j s = ret (true, s') := by
    intro j hj
    induction j with
    | zero => exact ⟨s, rfl⟩
    | succ j ih =>
        obtain ⟨s₁, hs₁⟩ := ih (Nat.le_of_succ_le hj)
        obtain ⟨s₂, hs₂⟩ := hbefore j s₁ hj
        exact ⟨s₂, by rw [sweepUntil, hs₁, ret_bind, if_pos rfl, hs₂]⟩
  induction n with
  | zero => exact absurd hi (Nat.not_lt_zero i)
  | succ n ih =>
      rcases Nat.lt_succ_iff_lt_or_eq.mp hi with hlt | rfl
      · obtain ⟨s₁, next, hnext, hbreak⟩ := ih hlt
        refine ⟨s₁, fun r => next r >>= fun r => if r.1 then body n r.2 else ret r, ?_, ?_⟩
        · rw [sweepUntil, hnext, bind_bind]
        · intro r hr
          show (next r >>= fun r => if r.1 then body n r.2 else ret r) = ret r
          rw [hbreak r hr, ret_bind, hr, if_neg (by decide)]
      · obtain ⟨s₁, hs₁⟩ := hprefix i (Nat.le_refl i)
        refine ⟨s₁, ret, ?_, fun r _ => rfl⟩
        rw [sweepUntil, hs₁, ret_bind, if_pos rfl, bind_ret]

/-- As `sweep_first`, for a loop with `break`. -/
theorem sweepUntil_first {n i : Nat} (hi : i < n) {request : Call}
    (hbefore : ∀ j s, j < i → ∃ s', body j s = ret (true, s'))
    (hcall : ∀ s, ∃ next, body i s = call request next) (s : σ) :
    ∃ next, sweepUntil body n s = call request next := by
  obtain ⟨s₁, rest, hreach, -⟩ := sweepUntil_reach hi hbefore s
  obtain ⟨next, hnext⟩ := hcall s₁
  exact ⟨_, by rw [hreach, hnext, call_bind]⟩

end SweepsUntil

end CallTree
