import OperatingSystems.LibraryPool

/-!
What becomes of a pool whose demanded cells are not resident up to some horizon. Time passes and
batches of requests are served in turn; if arriving demanded cells are kept, and one demanded cell
is asked for first in every batch, then after a while no frame is available, nothing is in transfer
any more, and the pool does not change until shortly before the horizon.
-/

namespace Frames

variable {ι : Type*} {wait : Int}

/-- A run of a pool that does not satisfy its demand before the horizon: `p t` before the `t`-th
unit of time, `a t` after it and before the `t`-th batch of requests. -/
structure Stalled (wait : Int) (horizon : Nat) (demand : ι → Prop) (p a : Nat → Pool ι) :
    Prop where
  wait_pos : 0 < wait
  lower : ∀ t c, -wait - 1 ≤ (p t).cell c
  upper : ∀ t c, (p t).cell c ≤ wait
  avail_nonneg : ∀ t, 0 ≤ (p t).avail
  aged : ∀ t, t < horizon → Aged wait (p t) (a t)
  served : ∀ t, t < horizon → Served wait (a t) (p (t + 1))
  never : ∀ t c, t < horizon → demand c → (p t).cell c ≠ 0
  keeps : ∀ t c, t < horizon → demand c → (a t).cell c = 0 → (p (t + 1)).cell c = 0
  first : ∃ c, demand c ∧ ∀ t, t < horizon → (a t).cell c < -wait → (a t).avail ≠ 0 →
    (p (t + 1)).cell c ≠ (a t).cell c

variable {demand : ι → Prop} {p a : Nat → Pool ι}

namespace Stalled

variable {horizon : Nat} (h : Stalled wait horizon demand p a)

include h

/-- What a unit of time and the requests after it do to a cell. -/
theorem cell_succ {t : Nat} (hend : t < horizon) (c : ι) :
    ((p t).cell c < -wait ∨ (p t).cell c = 0) ∧ (a t).cell c = (p t).cell c ∧
        Shifted wait ((p t).cell c) ((p (t + 1)).cell c) ∨
      (-wait ≤ (p t).cell c ∧ (p t).cell c ≠ 0) ∧ (a t).cell c = (p t).cell c - 1 ∧
        Shifted wait ((p t).cell c - 1) ((p (t + 1)).cell c) := by
  have hserved := (h.served t hend).cell c
  rw [(h.aged t hend).cell c, ageCell] at hserved
  rw [(h.aged t hend).cell c, ageCell]
  split_ifs at hserved ⊢ with hstill
  · exact Or.inl ⟨by omega, rfl, hserved⟩
  · exact Or.inr ⟨by omega, rfl, hserved⟩

/-- A demanded cell is never on its way in: it would arrive and be kept. -/
theorem demand_neg {c : ι} (hc : demand c) {t : Nat} (hend : t + wait < horizon) :
    (p t).cell c < 0 := by
  have hwait := h.wait_pos
  suffices hpos : ∀ k : Nat, ∀ t : Nat, t + k + 1 < horizon → (p t).cell c ≠ k + 1 by
    have hnever := h.never t c (by omega) hc
    have hupper := h.upper t c
    by_contra hnot
    exact hpos ((p t).cell c - 1).toNat t (by omega) (by omega)
  intro k
  induction k with
  | zero =>
      intro t hlate hone
      have hkept : (a t).cell c = 0 → (p (t + 1)).cell c = 0 := h.keeps t c (by omega) hc
      have hnever := h.never (t + 1) c (by omega) hc
      rcases h.cell_succ (t := t) (by omega) c with ⟨hstill, -⟩ | ⟨-, haged, -⟩ <;> omega
  | succ k ih =>
      intro t hlate hcell
      have hnext := ih (t + 1) (by omega)
      rcases h.cell_succ (t := t) (by omega) c with ⟨hstill, -⟩ | ⟨-, haged, hshift⟩
      · omega
      · unfold Shifted at hshift
        omega

/-- After `wait` units of time the demanded cells are out. -/
theorem demand_out {c : ι} (hc : demand c) {t : Nat} (ht : wait ≤ t) (hend : t + wait < horizon) :
    (p t).cell c = -wait - 1 := by
  have hwait := h.wait_pos
  have hsettle : ∀ t : Nat, t + wait < horizon →
      (p t).cell c ≤ max (-1 - (t : Int)) (-wait - 1) := by
    intro t
    induction t with
    | zero =>
        intro hlate
        have := h.demand_neg hc hlate
        simp
        omega
    | succ t ih =>
        intro hlate
        push_cast at hlate
        have hbefore := ih (by omega)
        have hneg := h.demand_neg hc (t := t + 1) (by push_cast; omega)
        have hneg' := h.demand_neg hc (t := t) (by omega)
        have hlower := h.lower t c
        push_cast
        rcases h.cell_succ (t := t) (by omega) c with
          ⟨hstill, -, hshift⟩ | ⟨hmoving, -, hshift⟩ <;>
          · unfold Shifted at hshift
            omega
  have := hsettle t hend
  have := h.lower t c
  omega

/-- From then on nothing is available when requests are served. -/
theorem avail_aged {t : Nat} (ht : wait ≤ t) (hend : t + 1 + wait < horizon) :
    (a t).avail = 0 := by
  have hwait := h.wait_pos
  obtain ⟨c, hc, hfirst⟩ := h.first
  by_contra havail
  have hout := h.demand_out hc ht (by omega)
  have hnext := h.demand_out hc (t := t + 1) (by push_cast; omega) (by push_cast; omega)
  rcases h.cell_succ (t := t) (by omega) c with ⟨-, haged, -⟩ | ⟨hmoving, -⟩
  · exact hfirst t (by omega) (by omega) havail (by omega)
  · omega

theorem avail_zero {t : Nat} (ht : wait < t) (hend : t + wait < horizon) : (p t).avail = 0 := by
  obtain ⟨t, rfl⟩ : ∃ u, t = u + 1 := ⟨t - 1, by have := h.wait_pos; omega⟩
  have hwait := h.wait_pos
  push_cast at ht hend
  have hzero := h.avail_aged (t := t) (by omega) (by omega)
  have hserved := h.served t (by omega)
  have hle := hserved.avail_le
  have hnonneg := hserved.avail_nonneg (by omega)
  omega

/-- Nothing starts to come in any more. -/
theorem no_take {t : Nat} (ht : wait ≤ t) (hend : t + 1 + wait < horizon) {c : ι}
    (hout : (a t).cell c < -wait) : (p (t + 1)).cell c ≠ wait := by
  intro hin
  have hwait := h.wait_pos
  have hzero := h.avail_aged ht hend
  have hlt := (h.served t (by omega)).avail_lt ⟨c, hout, hin⟩
  have hnonneg := h.avail_nonneg (t + 1)
  omega

/-- Nothing is on its way out any more: its frame would come back. -/
theorem not_leaving {t : Nat} (ht : wait < t) (hend : t + 2 * wait < horizon) (c : ι) :
    (p t).cell c < -wait ∨ 0 ≤ (p t).cell c := by
  have hwait := h.wait_pos
  suffices hleaving : ∀ k : Nat, ∀ t : Nat, wait < t → k < wait → t + k + 1 + wait < horizon →
      (p t).cell c ≠ -wait + k by
    by_contra hnot
    exact hleaving ((p t).cell c + wait).toNat t ht (by omega) (by omega) (by omega)
  intro k
  induction k with
  | zero =>
      intro t ht _ hlate hcell
      have hlt := (h.aged t (by omega)).avail_lt ⟨c, by omega⟩
      have hzero := h.avail_zero ht (by omega)
      have haged := h.avail_aged (t := t) (by omega) (by omega)
      omega
  | succ k ih =>
      intro t ht hk hlate hcell
      push_cast at hk hlate hcell
      have hnext := ih (t + 1) (by push_cast; omega) (by omega) (by push_cast; omega)
      rcases h.cell_succ (t := t) (by omega) c with ⟨hstill, -⟩ | ⟨-, -, hshift⟩
      · omega
      · unfold Shifted at hshift
        omega

/-- What is on its way in arrives and stays; the rest does not change. -/
theorem cell_settles {t : Nat} (ht : wait < t) (hend : t + 1 + 2 * wait < horizon) (c : ι) :
    (p (t + 1)).cell c = if 0 < (p t).cell c then (p t).cell c - 1 else (p t).cell c := by
  have hwait := h.wait_pos
  have hleaving := h.not_leaving ht (by omega) c
  have hnext := h.not_leaving (t := t + 1) (by push_cast; omega) (by push_cast; omega) c
  rcases h.cell_succ (t := t) (by omega) c with ⟨hstill, haged, hshift⟩ | ⟨hmoving, haged, hshift⟩
  · have htake := h.no_take (t := t) (by omega) (by omega) (c := c)
    rw [if_neg (by omega)]
    unfold Shifted at hshift
    omega
  · rw [if_pos (by omega)]
    unfold Shifted at hshift
    omega

/-- After `2 * wait + 1` units of time the pool is frozen, up to as many before the horizon. -/
theorem frozen {T : Nat} (hT : T = 2 * wait + 1) {t : Nat} (ht : T ≤ t)
    (hend : t + 1 + 2 * wait < horizon) :
    (p t).avail = 0 ∧ (a t).avail = 0 ∧
      ∀ c, ((p T).cell c = 0 ∨ (p T).cell c = -wait - 1) ∧
        (p t).cell c = (p T).cell c ∧ (a t).cell c = (p T).cell c := by
  have hwait := h.wait_pos
  have hsettled : ∀ n t : Nat, t = wait + 1 + n → t + 2 * wait < horizon →
      ∀ c, (p t).cell c ≤ max 0 (wait - n) := by
    intro n
    induction n with
    | zero =>
        intro t _ _ c
        have := h.upper t c
        omega
    | succ n ih =>
        intro t ht hlate c
        obtain ⟨t, rfl⟩ : ∃ u, t = u + 1 := ⟨t - 1, by omega⟩
        push_cast at ht hlate
        have hbefore := ih t (by omega) (by omega) c
        rw [h.cell_settles (by omega) (by omega)]
        push_cast
        split_ifs <;> omega
  have hrest : ∀ t : Nat, T ≤ t → t + 2 * wait < horizon →
      ∀ c, (p t).cell c = 0 ∨ (p t).cell c = -wait - 1 := by
    intro t ht hlate c
    have hupper := hsettled (t - wait.toNat - 1) t (by omega) hlate c
    have hlower := h.lower t c
    have := h.not_leaving (t := t) (by omega) hlate c
    omega
  have hsame : ∀ n t : Nat, t = T + n → t + 2 * wait < horizon →
      ∀ c, (p t).cell c = (p T).cell c := by
    intro n
    induction n with
    | zero =>
        rintro t rfl _ c
        rfl
    | succ n ih =>
        intro t ht hlate c
        obtain ⟨t, rfl⟩ : ∃ u, t = u + 1 := ⟨t - 1, by omega⟩
        push_cast at hlate
        have hbefore := hrest t (by omega) (by omega) c
        rw [h.cell_settles (by omega) (by omega), ← ih t (by omega) (by omega), if_neg (by omega)]
  refine ⟨h.avail_zero (by omega) (by omega), h.avail_aged (by omega) (by omega), fun c => ?_⟩
  have hcell := hsame (t - T) t (by omega) (by omega) c
  have hnow := hrest t ht (by omega) c
  refine ⟨hrest T le_rfl (by omega) c, hcell, ?_⟩
  rcases h.cell_succ (t := t) (by omega) c with ⟨-, haged, -⟩ | ⟨hmoving, -⟩ <;> omega

end Stalled

/-- A settled cell was not shifted. -/
theorem Shifted.eq_of_settled (hwait : 0 < wait) {v v' : Int} (h : Shifted wait v v')
    (hsettled : v' = 0 ∨ v' = -wait - 1) : v = v' := by
  unfold Shifted at h
  omega

end Frames
