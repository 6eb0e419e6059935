import OperatingSystems.LibraryThreads
import Mathlib.Logic.Function.Basic
import Mathlib.Tactic.Linarith

/-!
A pool of frames with slow transfers. A cell is resident (`0`), on its way in (positive, the time
left), on its way out (from `-wait` to `-1`), or out (`-wait - 1`). A cell that is not out holds a
frame; it takes the frame when it starts to come in and gives it back when it is out.
-/

namespace Frames

open Threads

structure Pool (ι : Type*) where
  avail : Int
  cell : ι → Int

variable {ι : Type*} [DecidableEq ι] (wait : Int)

/-! ### Operations -/

/-- The frames that a cell holds. -/
def held (v : Int) : Int := if -wait ≤ v then 1 else 0

/-- Starts to bring a cell in; says whether it is in or on its way. -/
def take (c : ι) (p : Pool ι) : Bool × Pool ι :=
  if 0 ≤ p.cell c then (true, p)
  else if p.avail = 0 then (false, p)
  else if -wait ≤ p.cell c then (false, p)
  else (true, { avail := p.avail - 1, cell := Function.update p.cell c wait })

/-- Starts to move a cell out; says whether it is out or on its way. -/
def drop (c : ι) (p : Pool ι) : Bool × Pool ι :=
  if p.cell c < 0 then (true, p)
  else if 0 < p.cell c then (false, p)
  else (true, { p with cell := Function.update p.cell c (-1) })

/-- One unit of time for the value of a cell. -/
def ageCell (v : Int) : Int := if v = 0 ∨ v < -wait then v else v - 1

/-- One unit of time for a cell; its frame comes back when it is out. -/
def age (p : Pool ι) (c : ι) : Pool ι where
  avail := if p.cell c = -wait then p.avail + 1 else p.avail
  cell := Function.update p.cell c (ageCell wait (p.cell c))

/-- Puts a cell out at once. -/
def free (p : Pool ι) (c : ι) : Pool ι :=
  if -wait ≤ p.cell c then
    { avail := p.avail + 1, cell := Function.update p.cell c (-wait - 1) }
  else p

/-! ### Conservation -/

section Conservation

variable [Fintype ι]

/-- No frame is lost or made, and every cell is in range. -/
structure Balanced (capacity : Int) (p : Pool ι) : Prop where
  total : p.avail + ∑ c, held wait (p.cell c) = capacity
  lower : ∀ c, -wait - 1 ≤ p.cell c
  upper : ∀ c, p.cell c ≤ wait

variable {wait} {capacity : Int} {p : Pool ι}

theorem held_nonneg (v : Int) : 0 ≤ held wait v := by
  unfold held
  split <;> omega

/-- Changing one cell keeps the balance if the frames it holds change against those available. -/
theorem Balanced.update (h : Balanced wait capacity p) {c : ι} {v avail : Int}
    (hlower : -wait - 1 ≤ v) (hupper : v ≤ wait)
    (htrade : avail + held wait v = p.avail + held wait (p.cell c)) :
    Balanced wait capacity { avail := avail, cell := Function.update p.cell c v } where
  total := by
    have hmove := sum_move (f := fun d => held wait (p.cell d))
      (g := fun d => held wait (Function.update p.cell c v d)) c
      fun d hd => by rw [Function.update_of_ne hd]
    have htotal := h.total
    simp only [Function.update_self] at hmove
    show avail + ∑ d, held wait (Function.update p.cell c v d) = capacity
    linarith
  lower d := by
    by_cases hd : d = c
    · simpa [hd] using hlower
    · simpa [hd] using h.lower d
  upper d := by
    by_cases hd : d = c
    · simpa [hd] using hupper
    · simpa [hd] using h.upper d

theorem Balanced.take (h : Balanced wait capacity p) (hwait : 0 < wait) (c : ι) :
    Balanced wait capacity (take wait c p).2 := by
  unfold Frames.take
  split_ifs with hin havail hleaving
  · exact h
  · exact h
  · exact h
  · apply h.update (by omega) le_rfl
    rw [held, held, if_pos (by omega), if_neg hleaving]
    omega

theorem Balanced.drop (h : Balanced wait capacity p) (hwait : 0 < wait) (c : ι) :
    Balanced wait capacity (drop c p).2 := by
  unfold Frames.drop
  split_ifs with hout hcoming
  · exact h
  · exact h
  · apply h.update (by omega) (by omega)
    rw [held, held, if_pos (by omega), if_pos (by omega)]

theorem Balanced.age (h : Balanced wait capacity p) (hwait : 0 < wait) (c : ι) :
    Balanced wait capacity (age wait p c) := by
  have hlower := h.lower c
  have hupper := h.upper c
  refine h.update ?_ ?_ ?_
  · unfold ageCell
    split <;> omega
  · unfold ageCell
    split <;> omega
  · unfold ageCell held
    split_ifs <;> omega

theorem Balanced.free (h : Balanced wait capacity p) (hwait : 0 < wait) (c : ι) :
    Balanced wait capacity (free wait p c) := by
  unfold Frames.free
  split_ifs with hheld
  · apply h.update le_rfl (by omega)
    rw [held, held, if_neg (by omega), if_pos hheld]
    omega
  · exact h

theorem Balanced.foldl_age (h : Balanced wait capacity p) (hwait : 0 < wait) (cells : List ι) :
    Balanced wait capacity (cells.foldl (Frames.age wait) p) := by
  induction cells generalizing p with
  | nil => exact h
  | cons c rest ih => exact ih (h.age hwait c)

theorem Balanced.foldl_free (h : Balanced wait capacity p) (hwait : 0 < wait) (cells : List ι) :
    Balanced wait capacity (cells.foldl (Frames.free wait) p) := by
  induction cells generalizing p with
  | nil => exact h
  | cons c rest ih => exact ih (h.free hwait c)

omit [DecidableEq ι] in
theorem Balanced.avail_le (h : Balanced wait capacity p) : p.avail ≤ capacity := by
  have hnonneg : 0 ≤ ∑ c, held wait (p.cell c) := Finset.sum_nonneg fun c _ => held_nonneg _
  linarith [h.total]

omit [DecidableEq ι] in
/-- If not all frames are available, some cell holds one. -/
theorem Balanced.exists_held (h : Balanced wait capacity p) (havail : p.avail < capacity) :
    ∃ c, -wait ≤ p.cell c := by
  by_contra hnone
  have hzero : ∑ c, held wait (p.cell c) = 0 :=
    Finset.sum_eq_zero fun c _ => by
      rw [held, if_neg fun hc => hnone ⟨c, hc⟩]
  linarith [h.total]

end Conservation

/-! ### Batches of requests -/

/-- What requests can do to a cell: a resident one may start to go, one that is out may start to
come. -/
def Shifted (v v' : Int) : Prop := v' = v ∨ (v = 0 ∧ v' = -1) ∨ (v < -wait ∧ v' = wait)

/-- The effect of a batch of requests. -/
structure Served (p p' : Pool ι) : Prop where
  cell : ∀ c, Shifted wait (p.cell c) (p'.cell c)
  avail_nonneg : 0 ≤ p.avail → 0 ≤ p'.avail
  avail_le : p'.avail ≤ p.avail
  avail_lt : (∃ c, p.cell c < -wait ∧ p'.cell c = wait) → p'.avail < p.avail

variable {wait} {p p' p'' : Pool ι}

omit [DecidableEq ι] in
theorem Served.refl (hwait : 0 < wait) (p : Pool ι) : Served wait p p where
  cell _ := Or.inl rfl
  avail_nonneg := id
  avail_le := le_rfl
  avail_lt := by
    rintro ⟨c, hout, hin⟩
    omega

theorem Shifted.trans (hwait : 0 < wait) {v v' v'' : Int} (h : Shifted wait v v')
    (h' : Shifted wait v' v'') : Shifted wait v v'' := by
  unfold Shifted at *
  omega

omit [DecidableEq ι] in
theorem Served.trans (hwait : 0 < wait) (h : Served wait p p') (h' : Served wait p' p'') :
    Served wait p p'' where
  cell c := (h.cell c).trans hwait (h'.cell c)
  avail_nonneg hp := h'.avail_nonneg (h.avail_nonneg hp)
  avail_le := h'.avail_le.trans h.avail_le
  avail_lt := by
    rintro ⟨c, hout, hin⟩
    rcases h.cell c with hsame | ⟨hres, -⟩ | ⟨-, hcoming⟩
    · exact (h'.avail_lt ⟨c, by omega, hin⟩).trans_le h.avail_le
    · omega
    · exact h'.avail_le.trans_lt (h.avail_lt ⟨c, hout, hcoming⟩)

theorem served_take (hwait : 0 < wait) (c : ι) (p : Pool ι) : Served wait p (take wait c p).2 := by
  unfold take
  split_ifs with hin havail hleaving
  · exact .refl hwait p
  · exact .refl hwait p
  · exact .refl hwait p
  · refine ⟨fun d => ?_, fun _ => by simp only; omega, by simp only; omega, fun _ => by
      simp only; omega⟩
    by_cases hd : d = c
    · subst hd
      exact Or.inr (Or.inr ⟨by omega, by simp⟩)
    · exact Or.inl (Function.update_of_ne hd _ _)

theorem served_drop (hwait : 0 < wait) (c : ι) (p : Pool ι) : Served wait p (drop c p).2 := by
  unfold drop
  split_ifs with hout hcoming
  · exact .refl hwait p
  · exact .refl hwait p
  · refine ⟨fun d => ?_, id, le_rfl, ?_⟩
    · by_cases hd : d = c
      · subst hd
        exact Or.inr (Or.inl ⟨by omega, by simp⟩)
      · exact Or.inl (Function.update_of_ne hd _ _)
    · rintro ⟨d, hd, hd'⟩
      by_cases hdc : d = c
      · subst hdc
        omega
      · simp only [Function.update_of_ne hdc] at hd'
        omega

/-- Freeing some cells puts them out and does not lose frames. -/
theorem foldl_free (cells : List ι) (hlower : ∀ c, -wait - 1 ≤ p.cell c) :
    (∀ c, (cells.foldl (free wait) p).cell c = if c ∈ cells then -wait - 1 else p.cell c) ∧
      p.avail ≤ (cells.foldl (free wait) p).avail := by
  induction cells generalizing p with
  | nil => simp
  | cons d rest ih =>
      have hcell : ∀ c, (free wait p d).cell c = if c = d then -wait - 1 else p.cell c := by
        intro c
        have hd := hlower d
        unfold free
        split_ifs with hheld heq heq
        · simp [heq]
        · simp [heq]
        · rw [heq]
          omega
        · rfl
      have havail : p.avail ≤ (free wait p d).avail := by
        unfold free
        split_ifs
        · simp only
          omega
        · exact le_rfl
      obtain ⟨hrest, hle⟩ := ih fun c => by
        have hc := hlower c
        rw [hcell c]
        split_ifs <;> omega
      refine ⟨fun c => ?_, havail.trans hle⟩
      rw [List.foldl_cons, hrest c, hcell c]
      by_cases hc : c = d <;> simp [hc]

/-- With a frame available, a cell that is not on its way out is granted: nothing changes, or it
starts to come in. -/
theorem take_of_avail {c : ι} (havail : p.avail ≠ 0) (hcell : p.cell c < -wait ∨ 0 ≤ p.cell c) :
    (take wait c p).1 = true ∧
      ((take wait c p).2.cell = p.cell ∧ 0 ≤ p.cell c ∨
        (take wait c p).2.cell = Function.update p.cell c wait) := by
  unfold take
  split_ifs with hin hleaving
  · exact ⟨rfl, Or.inl ⟨rfl, hin⟩⟩
  · omega
  · exact ⟨rfl, Or.inr rfl⟩

/-- Requests to come in do not move a resident cell. -/
theorem take_of_resident {c d : ι} (h : p.cell d = 0) : (take wait c p).2.cell d = 0 := by
  unfold take
  split_ifs with hin
  · exact h
  · exact h
  · exact h
  · have hne : d ≠ c := by
      rintro rfl
      omega
    simpa only [Function.update_of_ne hne] using h

omit [DecidableEq ι] in
/-- A cell that a request has started to bring in stays on its way under further requests. -/
theorem Served.coming (hwait : 0 < wait) (h : Served wait p p') {c : ι} (hc : p.cell c = wait) :
    p'.cell c = wait := by
  rcases h.cell c with hsame | ⟨hzero, -⟩ | ⟨hout, -⟩
  · exact hsame.trans hc
  · omega
  · omega

theorem drop_of_ne {c d : ι} (hne : d ≠ c) : (drop c p).2.cell d = p.cell d := by
  unfold drop
  split_ifs
  · rfl
  · rfl
  · exact Function.update_of_ne hne _ _

/-! ### The passing of time -/

/-- The effect of one unit of time on all cells. -/
structure Aged (wait : Int) (p p' : Pool ι) : Prop where
  cell : ∀ c, p'.cell c = ageCell wait (p.cell c)
  avail_le : p.avail ≤ p'.avail
  avail_lt : (∃ c, p.cell c = -wait) → p.avail < p'.avail

/-- Ageing distinct cells one after the other. -/
theorem foldl_age {cells : List ι} (hnodup : cells.Nodup) (p : Pool ι) :
    (∀ c, (cells.foldl (age wait) p).cell c =
        if c ∈ cells then ageCell wait (p.cell c) else p.cell c) ∧
      p.avail ≤ (cells.foldl (age wait) p).avail ∧
      ((∃ c ∈ cells, p.cell c = -wait) → p.avail < (cells.foldl (age wait) p).avail) := by
  induction cells generalizing p with
  | nil => simp
  | cons d rest ih =>
      obtain ⟨hd, hrest⟩ := List.nodup_cons.mp hnodup
      obtain ⟨hcell, hle, hlt⟩ := ih hrest (age wait p d)
      have havail : p.avail ≤ (age wait p d).avail := by
        simp only [age]
        split <;> omega
      refine ⟨fun c => ?_, havail.trans hle, ?_⟩
      · rw [List.foldl_cons, hcell c]
        by_cases hc : c = d
        · simp [hc, hd, age]
        · simp [hc, age]
      · rintro ⟨c, hmem, hc⟩
        rcases List.mem_cons.mp hmem with rfl | hmem
        · refine lt_of_lt_of_le ?_ hle
          simp [age, hc]
        · refine havail.trans_lt (hlt ⟨c, hmem, ?_⟩)
          have hne : c ≠ d := fun heq => hd (heq ▸ hmem)
          simpa [age, hne] using hc

/-- Ageing every cell that is not out, once, is the passing of time. -/
theorem aged_foldl {cells : List ι} (hnodup : cells.Nodup) (p : Pool ι)
    (hrest : ∀ c, c ∉ cells → p.cell c < -wait) : Aged wait p (cells.foldl (age wait) p) := by
  obtain ⟨hcell, hle, hlt⟩ := @foldl_age _ _ wait _ hnodup p
  refine ⟨fun c => ?_, hle, ?_⟩
  · rw [hcell c]
    split_ifs with hmem
    · rfl
    · rw [ageCell, if_pos (Or.inr (hrest c hmem))]
  · rintro ⟨c, hc⟩
    refine hlt ⟨c, ?_, hc⟩
    by_contra hmem
    have := hrest c hmem
    omega

/-! ### Transfers -/

/-- The value of a cell that is on its way in or out. -/
def Transit (wait v : Int) : Prop := v ≠ 0 ∧ -wait ≤ v

/-- Requests leave a cell on its way alone. -/
theorem Shifted.eq_of_transit {v v' : Int} (h : Shifted wait v v') (htransit : Transit wait v) :
    v' = v := by
  unfold Shifted Transit at *
  omega

/-- A cell that starts to come in counts down to its arrival. -/
theorem ageCell_coming {d : Nat} (hd : (d : Int) ≤ wait) :
    (ageCell wait)^[d] wait = wait - d := by
  induction d with
  | zero => simp
  | succ d ih =>
      rw [Function.iterate_succ_apply', ih (by omega), ageCell, if_neg (by omega)]
      omega

/-- A cell that starts to go counts down to the value that is out. -/
theorem ageCell_going {d : Nat} (hd : (d : Int) ≤ wait) :
    (ageCell wait)^[d] (-1) = -1 - d := by
  induction d with
  | zero => simp
  | succ d ih =>
      rw [Function.iterate_succ_apply', ih (by omega), ageCell, if_neg (by omega)]
      omega

/-- `d` units of time after it was out, a cell is out, or was brought in too late to be there. -/
def Fetching (wait : Int) (d : Nat) (v : Int) : Prop := v < -wait ∨ wait < v + d

theorem Fetching.succ {d : Nat} {v v' : Int} (h : Fetching wait d v) (hd : d < wait)
    (hshift : Shifted wait (ageCell wait v) v') : Fetching wait (d + 1) v' := by
  unfold Fetching Shifted ageCell at *
  split_ifs at hshift <;> omega

theorem Fetching.ne_zero {d : Nat} {v : Int} (h : Fetching wait d v) (hd : d ≤ wait) :
    v ≠ 0 := by
  unfold Fetching at h
  omega

/-- `d` units of time after the last request, what is left of a transfer. -/
def Fading (wait : Int) (d : Nat) (v : Int) : Prop :=
  v = 0 ∨ v = -wait - 1 ∨ (0 < v ∧ v + d ≤ wait) ∨ (v + d < 0 ∧ -wait ≤ v)

theorem fading_zero {v : Int} (hlower : -wait - 1 ≤ v) (hupper : v ≤ wait) :
    Fading wait 0 v := by
  unfold Fading
  omega

theorem Fading.succ {d : Nat} {v : Int} (h : Fading wait d v) :
    Fading wait (d + 1) (ageCell wait v) := by
  unfold Fading ageCell at *
  split_ifs <;> omega

theorem Fading.settled {d : Nat} {v : Int} (h : Fading wait d v) (hd : wait ≤ d) :
    v = 0 ∨ v = -wait - 1 := by
  unfold Fading at h
  omega

/-- Time takes the frame from the cells whose last unit of time it is. -/
theorem held_ageCell (hwait : 0 < wait) (v : Int) :
    held wait v = held wait (ageCell wait v) + if v = -wait then 1 else 0 := by
  unfold held ageCell
  split_ifs <;> omega

end Frames
