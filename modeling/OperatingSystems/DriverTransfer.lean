import OperatingSystems.DriverDevice

/-!
What a caller learns from the returned counts. A sequence of reads delivers the buffer piece by
piece as long as every read fits; a read that would be cut short at the end of the buffer is neither
carried out nor answered. And since the results of the copies are ignored, a count is right only if
the copy missed nothing.
-/

namespace OperatingSystems.Driver

/-! ### Sequential reading -/

/-- The effects of reads made one after the other on one handle, with copies that miss nothing. -/
def sequentialReads (memory : Memory) : BitVec 64 → List (BitVec 64) → List Effect
  | _, [] => []
  | position, length :: rest =>
      let e := pa2CharDriverRead memory length position 0
      e :: sequentialReads memory e.offset rest

/-- The total that the reads ask for. -/
def requested (lengths : List (BitVec 64)) : Nat := (lengths.map BitVec.toNat).sum

/-- A read that has delivered what was asked for, or what was left of the buffer. -/
structure Effect.Delivers (e : Effect) (memory : Memory) (position length : BitVec 64) : Prop where
  returned : ∃ count, e.returned = some count ∧
    count.toNat = min length.toNat (bufferSize - position.toNat)
  delivered : e.delivered =
    (span position.toNat (min length.toNat (bufferSize - position.toNat))).map memory
  offset : e.offset.toNat = position.toNat + min length.toNat (bufferSize - position.toNat)

/-- Each read delivers from where the one before it has stopped. -/
def DeliversInTurn (memory : Memory) : BitVec 64 → List (BitVec 64) → List Effect → Prop
  | _, [], effects => effects = []
  | position, length :: rest, effects =>
      ∃ e later, effects = e :: later ∧ e.Delivers memory position length ∧
        DeliversInTurn memory e.offset rest later

/-- What sequential reading is to do: every read delivers, and together they deliver the buffer
from the first position on, up to what was asked for or to its end. -/
structure ReadsThrough (memory : Memory) (position : BitVec 64) (lengths : List (BitVec 64)) :
    Prop where
  each : DeliversInTurn memory position lengths (sequentialReads memory position lengths)
  all : (sequentialReads memory position lengths).flatMap Effect.delivered =
    (span position.toNat (min (requested lengths) (bufferSize - position.toNat))).map memory

theorem span_append (start : Int) (m n : Nat) :
    span start (m + n) = span start m ++ span (start + m) n := by
  simp only [span, List.range_add, List.map_append, List.map_map]
  congr 1
  apply List.map_congr_left
  intro i _
  simp only [Function.comp_apply, Nat.cast_add, Int.add_assoc]

variable {memory : Memory} {position length : BitVec 64}

theorem requested_cons (length : BitVec 64) (rest : List (BitVec 64)) :
    requested (length :: rest) = length.toNat + requested rest := by
  simp [requested]

/-- A read delivers exactly if it fits. -/
theorem read_delivers_iff (h : position.toNat ≤ bufferSize) :
    (pa2CharDriverRead memory length position 0).Delivers memory position length ↔
      position.toNat + length.toNat ≤ bufferSize := by
  rw [read_of_le h]
  constructor
  · rintro ⟨⟨count, hreturned, -⟩, -, -⟩
    by_contra hfits
    rw [if_neg hfits] at hreturned
    cases hreturned
  · intro hfits
    have hmin : min length.toNat (bufferSize - position.toNat) = length.toNat := by omega
    rw [if_pos hfits]
    refine ⟨⟨length, rfl, hmin.symm⟩, ?_, ?_⟩
    · rw [hmin, Nat.sub_zero]
    · simp only [bufferSize] at hfits
      rw [hmin, BitVec.toNat_add, Nat.mod_eq_of_lt (by omega)]

theorem offset_of_delivers {e : Effect} (hfits : position.toNat + length.toNat ≤ bufferSize)
    (he : e.Delivers memory position length) : e.offset.toNat = position.toNat + length.toNat := by
  have hoffset := he.offset
  omega

/-- The reads deliver in turn exactly if all of them fit into the rest of the buffer. -/
theorem deliversInTurn_iff (lengths : List (BitVec 64)) (h : position.toNat ≤ bufferSize) :
    DeliversInTurn memory position lengths (sequentialReads memory position lengths) ↔
      position.toNat + requested lengths ≤ bufferSize := by
  induction lengths generalizing position with
  | nil => simpa [DeliversInTurn, sequentialReads, requested] using h
  | cons length rest ih =>
      have hfirst : (pa2CharDriverRead memory length position 0).Delivers memory position length ↔
          position.toNat + length.toNat ≤ bufferSize := read_delivers_iff h
      rw [requested_cons]
      constructor
      · rintro ⟨e, later, heq, he, hlater⟩
        obtain ⟨rfl, rfl⟩ := List.cons.inj heq
        have hfits := hfirst.mp he
        have hoffset := offset_of_delivers hfits he
        have htotal := (ih (hoffset ▸ hfits)).mp hlater
        omega
      · intro hfits
        have he := hfirst.mpr (by omega)
        have hoffset := offset_of_delivers (by omega) he
        exact ⟨_, _, rfl, he, (ih (by omega)).mpr (by omega)⟩

/-- Reads that all fit deliver the buffer without gaps and without repetitions. -/
theorem sequentialReads_delivered (lengths : List (BitVec 64))
    (hfits : position.toNat + requested lengths ≤ bufferSize) :
    (sequentialReads memory position lengths).flatMap Effect.delivered =
      (span position.toNat (requested lengths)).map memory := by
  induction lengths generalizing position with
  | nil => rfl
  | cons length rest ih =>
      rw [requested_cons] at hfits ⊢
      have hoffset : (position + length).toNat = position.toNat + length.toNat := by
        simp only [bufferSize] at hfits
        rw [BitVec.toNat_add, Nat.mod_eq_of_lt (by omega)]
      rw [sequentialReads, read_of_le (by omega), if_pos (by omega), List.flatMap_cons,
        ih (by rw [hoffset]; omega), span_append, List.map_append, hoffset, Nat.sub_zero]
      push_cast
      rfl

/-- **Sequential reading.** For every content of the buffer, every position in it and all sequences
of lengths: the reads deliver the buffer piece by piece, each what it asks for or what is left,
exactly if all of them fit into the rest of the buffer. -/
theorem reads_through_iff (memory : Memory) (position : BitVec 64) (lengths : List (BitVec 64))
    (h : position.toNat ≤ bufferSize) :
    ReadsThrough memory position lengths ↔ position.toNat + requested lengths ≤ bufferSize := by
  constructor
  · exact fun hreads => (deliversInTurn_iff lengths h).mp hreads.each
  · intro hfits
    have hmin : min (requested lengths) (bufferSize - position.toNat) = requested lengths := by
      omega
    refine ⟨(deliversInTurn_iff lengths h).mpr hfits, ?_⟩
    rw [sequentialReads_delivered lengths hfits, hmin]

theorem reads_through_end : ReadsThrough (fun _ => 0) 1000 [20, 4] :=
  (reads_through_iff (fun _ => 0) 1000 [20, 4] (by decide)).mpr (by decide)

/-- With 24 bytes left, a read of 100 returns nothing and delivers nothing; at the end, a read of
one byte does not return either. -/
theorem reads_cut_short : ¬ ReadsThrough (fun _ => 0) 1000 [100] ∧
    ¬ ReadsThrough (fun _ => 0) 0 [1024, 1] ∧
    (pa2CharDriverRead (fun _ => 0) 100 1000 0).returned = none ∧
    (pa2CharDriverRead (fun _ => 0) 100 1000 0).delivered = [] := by
  have hnone : ∀ {position : BitVec 64} {lengths}, position.toNat ≤ bufferSize →
      bufferSize < position.toNat + requested lengths →
      ¬ ReadsThrough (fun _ => 0) position lengths := by
    intro position lengths h hover hreads
    have hfits := (deliversInTurn_iff lengths h).mp hreads.each
    omega
  refine ⟨hnone (by decide) (by decide), hnone (by decide) (by decide), ?_, ?_⟩ <;>
  · rw [read_of_le (by decide), if_neg (by decide)]

/-! ### Copies that miss bytes -/

/-- The call reports no more than the number of bytes that were copied, in the count it returns and
in the position it leaves, or it returns an error and leaves the position. -/
def Effect.Reports (e : Effect) (position : BitVec 64) (copied : Nat) : Prop :=
  (∃ count, e.returned = some count ∧ 0 ≤ count.toInt ∧ count.toNat ≤ copied ∧
    position.toNat ≤ e.offset.toNat ∧ e.offset.toNat ≤ position.toNat + copied) ∨
  ∃ error, e.returned = some error ∧ error.toInt < 0 ∧ e.offset = position

/-- A count for a request that has been carried out. -/
theorem reports_whole_iff {e : Effect} {fault : Nat}
    (hfits : position.toNat + length.toNat ≤ bufferSize) (hfault : fault ≤ length.toNat)
    (hreturned : e.returned = some length) (hoffset : e.offset = position + length) :
    e.Reports position (length.toNat - fault) ↔ fault = 0 := by
  simp only [bufferSize] at hfits
  have hlength : length.toInt = length.toNat := by
    rw [BitVec.toInt_eq_toNat_cond, if_pos (by omega)]
  have hsum : e.offset.toNat = position.toNat + length.toNat := by
    rw [hoffset, BitVec.toNat_add, Nat.mod_eq_of_lt (by omega)]
  rw [Effect.Reports, hsum]
  constructor
  · rintro (⟨count, hcount, -, hle, -⟩ | ⟨error, herror, hneg, -⟩)
    · obtain rfl := Option.some.inj (hreturned.symm.trans hcount)
      omega
    · obtain rfl := Option.some.inj (hreturned.symm.trans herror)
      omega
  · rintro rfl
    exact Or.inl ⟨length, hreturned, by omega, by omega, by omega, by omega⟩

theorem read_reports_iff (h : position.toNat ≤ bufferSize) {fault : Nat}
    (hfault : fault ≤ length.toNat) :
    (pa2CharDriverRead memory length position fault).Reports position (length.toNat - fault) ↔
      position.toNat + length.toNat ≤ bufferSize ∧ fault = 0 := by
  rw [read_of_le h]
  by_cases hfits : position.toNat + length.toNat ≤ bufferSize
  · rw [if_pos hfits, reports_whole_iff hfits hfault rfl rfl, and_iff_right hfits]
  · rw [if_neg hfits]
    refine iff_of_false ?_ fun hboth => hfits hboth.1
    rintro (⟨_, hnone, -⟩ | ⟨_, hnone, -⟩) <;> cases hnone

theorem write_reports_iff (h : position.toNat ≤ bufferSize) (data : List UInt8) {fault : Nat}
    (hfault : fault ≤ length.toNat) :
    (pa2CharDriverWrite memory data length position fault).Reports position
      (length.toNat - fault) ↔ position.toNat + length.toNat ≤ bufferSize → fault = 0 := by
  rw [write_of_le h]
  by_cases hfits : position.toNat + length.toNat ≤ bufferSize
  · rw [if_pos hfits, reports_whole_iff hfits hfault rfl rfl]
    exact ⟨fun heq _ => heq, fun himp => himp hfits⟩
  · rw [if_neg hfits]
    refine iff_of_true (Or.inr ⟨-1, rfl, ?_, rfl⟩) fun hboth => absurd hboth hfits
    decide

/-- **Reported counts.** From every position in the buffer, for every length and every number of
bytes that the copy misses: a read reports no more than was copied exactly if it fits and its copy
misses nothing, a write exactly if it is refused or its copy misses nothing. -/
theorem counts_reported_iff (memory : Memory) (data : List UInt8) (position length : BitVec 64)
    (fault : Nat) (h : position.toNat ≤ bufferSize) (hfault : fault ≤ length.toNat) :
    ((pa2CharDriverRead memory length position fault).Reports position (length.toNat - fault) ↔
      position.toNat + length.toNat ≤ bufferSize ∧ fault = 0) ∧
    ((pa2CharDriverWrite memory data length position fault).Reports position
      (length.toNat - fault) ↔ bufferSize < position.toNat + length.toNat ∨ fault = 0) := by
  refine ⟨read_reports_iff h hfault, (write_reports_iff h data hfault).trans ?_⟩
  rw [← not_le]
  exact imp_iff_not_or

theorem counts_reported_whole : (pa2CharDriverRead (fun _ => 0) 10 4 0).Reports 4 10 ∧
    (pa2CharDriverWrite (fun _ => 0) (List.replicate 10 1) 10 4 0).Reports 4 10 :=
  have hcounts := counts_reported_iff (fun _ => 0) (List.replicate 10 1) 4 10 0 (by decide)
    (by decide)
  ⟨hcounts.1.mpr (by decide), hcounts.2.mpr (by decide)⟩

/-- Nothing of ten bytes is copied, and ten are reported. -/
theorem counts_of_nothing :
    ¬ (pa2CharDriverRead (fun _ => 0) 10 4 10).Reports 4 0 ∧
    ¬ (pa2CharDriverWrite (fun _ => 0) (List.replicate 10 1) 10 4 10).Reports 4 0 ∧
    (pa2CharDriverRead (fun _ => 0) 10 4 10).delivered = [] ∧
    (pa2CharDriverRead (fun _ => 0) 10 4 10).returned = some 10 ∧
    (pa2CharDriverWrite (fun _ => 0) (List.replicate 10 1) 10 4 10).returned = some 10 := by
  have hread := @read_reports_iff (fun _ => 0) 4 10 (by decide) 10 (le_refl 10)
  have hwrite := @write_reports_iff (fun _ => 0) 4 10 (by decide) (List.replicate 10 1) 10
    (le_refl 10)
  refine ⟨fun h => ?_, fun h => ?_, ?_, ?_, ?_⟩
  · exact absurd (hread.mp h).2 (by decide)
  · exact absurd (hwrite.mp h (by decide)) (by decide)
  · rw [read_of_le (by decide), if_pos (by decide)]
    decide
  · rw [read_of_le (by decide), if_pos (by decide)]
  · rw [write_of_le (by decide), if_pos (by decide)]

end OperatingSystems.Driver
