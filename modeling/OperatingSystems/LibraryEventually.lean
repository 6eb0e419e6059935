import Mathlib.Order.WellFounded

/-!
Total correctness of a machine that steps until it stops: from a state it comes, after finitely
many steps, to a state with some property. Judgments compose, and a loop is left if a variant
decreases from one visit of its head to the next.
-/

namespace Runs

variable {σ α : Type*}

/-- After finitely many steps the machine is in a state with the property. -/
inductive Eventually (next : σ → Option σ) (Q : σ → Prop) : σ → Prop where
  | done {s : σ} (h : Q s) : Eventually next Q s
  | step {s s' : σ} (hnext : next s = some s') (h : Eventually next Q s') : Eventually next Q s

variable {next : σ → Option σ} {Q R : σ → Prop} {s : σ}

/-- Sequencing. -/
theorem Eventually.bind (h : Eventually next Q s) (hrest : ∀ s, Q s → Eventually next R s) :
    Eventually next R s := by
  induction h with
  | done h => exact hrest _ h
  | step hnext _ ih => exact .step hnext ih

theorem Eventually.mono (h : Eventually next Q s) (himp : ∀ s, Q s → R s) :
    Eventually next R s :=
  h.bind fun s hs => .done (himp s hs)

/-- The loop rule: from the head, the property is reached or the head again with a smaller
variant. -/
theorem Eventually.loop {lt : α → α → Prop} (hwf : WellFounded lt) (variant : σ → α)
    (head : σ → Prop)
    (hbody : ∀ s, head s →
      Eventually next (fun s' => R s' ∨ (head s' ∧ lt (variant s') (variant s))) s)
    (hs : head s) : Eventually next R s := by
  induction hv : variant s using hwf.induction generalizing s with
  | _ v ih =>
      refine (hbody s hs).bind fun s' hs' => ?_
      rcases hs' with hdone | ⟨hhead, hlt⟩
      · exact .done hdone
      · exact ih _ (hv ▸ hlt) hhead rfl

end Runs
