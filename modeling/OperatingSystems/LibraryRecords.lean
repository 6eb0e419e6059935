import Mathlib.Data.List.Basic
import Mathlib.Data.List.TakeWhile

/-!
Sequences that are cut at a mark: the records of a file, each of which ends with a mark except
perhaps the last one, and the text of a buffer, which ends before the first mark.
-/

namespace Records

variable {α : Type} [DecidableEq α] {mark : α}

/-! ### Texts -/

/-- What stands before the first mark. -/
def upTo (mark : α) (l : List α) : List α := l.takeWhile fun x => x ≠ mark

theorem upTo_cons_self (l : List α) : upTo mark (mark :: l) = [] := by
  simp [upTo]

theorem upTo_cons_of_ne {x : α} (hne : x ≠ mark) (l : List α) :
    upTo mark (x :: l) = x :: upTo mark l := by
  simp [upTo, hne]

theorem upTo_isPrefix (l : List α) : upTo mark l <+: l := List.takeWhile_prefix _

theorem upTo_of_notMem {l : List α} (h : mark ∉ l) : upTo mark l = l :=
  List.takeWhile_eq_self_iff.mpr fun _ hx => decide_eq_true fun heq => h (heq ▸ hx)

/-- The text is cut at the first mark, whatever stands behind it. -/
theorem upTo_joined {text : List α} (h : mark ∉ text) (rest : List α) :
    upTo mark (text ++ mark :: rest) = text := by
  have hall : ∀ x ∈ text, decide (x ≠ mark) = true :=
    fun x hx => decide_eq_true fun heq => h (heq ▸ hx)
  rw [upTo, List.takeWhile_append_of_pos hall]
  exact (congrArg (text ++ ·) (upTo_cons_self rest)).trans (List.append_nil text)

/-- A mark behind the end does not add to the text. -/
theorem upTo_concat (l : List α) : upTo mark (l ++ [mark]) = upTo mark l := by
  induction l with
  | nil => exact upTo_cons_self []
  | cons x l ih =>
      by_cases hx : x = mark
      · rw [hx, List.cons_append, upTo_cons_self, upTo_cons_self]
      · rw [List.cons_append, upTo_cons_of_ne hx, upTo_cons_of_ne hx, ih]

/-- A mark that is put into the text cuts it there. -/
theorem upTo_set {l : List α} {k : Nat} (hk : k < (upTo mark l).length) :
    upTo mark (l.set k mark) = (upTo mark l).take k := by
  induction l generalizing k with
  | nil => exact absurd hk (Nat.not_lt_zero k)
  | cons x l ih =>
      by_cases hx : x = mark
      · rw [hx, upTo_cons_self] at hk
        exact absurd hk (Nat.not_lt_zero k)
      · rw [upTo_cons_of_ne hx] at hk ⊢
        cases k with
        | zero => exact upTo_cons_self l
        | succ k =>
            rw [List.set_cons_succ, upTo_cons_of_ne hx, ih (Nat.lt_of_succ_lt_succ hk),
              List.take_succ_cons]

/-! ### Records -/

/-- The first record, with its mark, and what is left; nothing if there is nothing left. -/
def cut (mark : α) : List α → Option (List α × List α)
  | [] => none
  | x :: l =>
      if x = mark then some ([x], l)
      else
        match cut mark l with
        | none => some ([x], [])
        | some (record, rest) => some (x :: record, rest)

theorem cut_eq_none {l : List α} (h : cut mark l = none) : l = [] := by
  cases l with
  | nil => rfl
  | cons x l =>
      rw [cut] at h
      split_ifs at h
      split at h <;> cases h

/-- A record is not empty, has a mark at its end at most, and has one if something is left. -/
theorem cut_spec {l record rest : List α} (h : cut mark l = some (record, rest)) :
    l = record ++ rest ∧ record ≠ [] ∧ mark ∉ record.dropLast ∧
      (rest ≠ [] → record.getLast? = some mark) := by
  induction l generalizing record with
  | nil => cases h
  | cons x l ih =>
      rw [cut] at h
      split_ifs at h with hx
      · obtain ⟨rfl, rfl⟩ := Prod.mk.inj (Option.some.inj h)
        exact ⟨rfl, List.cons_ne_nil x [], List.not_mem_nil, fun _ => by rw [hx]; rfl⟩
      · cases hcut : cut mark l with
        | none =>
            rw [hcut] at h
            obtain ⟨rfl, rfl⟩ := Prod.mk.inj (Option.some.inj h)
            rw [cut_eq_none hcut]
            exact ⟨rfl, List.cons_ne_nil x [], List.not_mem_nil, fun hrest => absurd rfl hrest⟩
        | some r =>
            obtain ⟨tail, left⟩ := r
            rw [hcut] at h
            obtain ⟨rfl, rfl⟩ := Prod.mk.inj (Option.some.inj h)
            obtain ⟨happend, hne, hmark, hlast⟩ := ih hcut
            refine ⟨congrArg (x :: ·) happend, List.cons_ne_nil x tail, ?_, ?_⟩
            · rw [List.dropLast_cons_of_ne_nil hne, List.mem_cons, not_or]
              exact ⟨Ne.symm hx, hmark⟩
            · intro hrest
              rw [List.getLast?_cons, hlast hrest]
              rfl

theorem cut_length {l record rest : List α} (h : cut mark l = some (record, rest)) :
    rest.length < l.length := by
  obtain ⟨happend, hne, -⟩ := cut_spec h
  have hpos := List.length_pos_of_ne_nil hne
  rw [happend, List.length_append]
  omega

/-- All records, in order. -/
def records (mark : α) (l : List α) : List (List α) :=
  match _hcut : cut mark l with
  | none => []
  | some (record, rest) => record :: records mark rest
termination_by l.length
decreasing_by exact cut_length _hcut

theorem records_of_none {l : List α} (h : cut mark l = none) : records mark l = [] := by
  rw [records]
  split
  · rfl
  · rename_i hcut
    rw [h] at hcut
    cases hcut

theorem records_of_some {l record rest : List α} (h : cut mark l = some (record, rest)) :
    records mark l = record :: records mark rest := by
  rw [records]
  split
  · rename_i hcut
    rw [h] at hcut
    cases hcut
  · rename_i hcut
    rw [h] at hcut
    obtain ⟨rfl, rfl⟩ := Prod.mk.inj (Option.some.inj hcut)
    rfl

/-- The records together are the whole sequence. -/
theorem records_flatten (l : List α) : (records mark l).flatten = l := by
  induction l using records.induct mark with
  | case1 l hcut => rw [records_of_none hcut, cut_eq_none hcut, List.flatten_nil]
  | case2 l first rest hcut ih =>
      rw [records_of_some hcut, List.flatten_cons, ih]
      exact (cut_spec hcut).1.symm

/-- A record is not empty and has a mark at its end at most. -/
theorem of_mem_records {l record : List α} (h : record ∈ records mark l) :
    record ≠ [] ∧ mark ∉ record.dropLast := by
  induction l using records.induct mark with
  | case1 l hcut =>
      rw [records_of_none hcut] at h
      cases h
  | case2 l first rest hcut ih =>
      rw [records_of_some hcut, List.mem_cons] at h
      rcases h with rfl | hlater
      · exact ⟨(cut_spec hcut).2.1, (cut_spec hcut).2.2.1⟩
      · exact ih hlater

/-- All records but the last end with a mark. -/
theorem ended_of_mem_dropLast {l record : List α} (h : record ∈ (records mark l).dropLast) :
    record.getLast? = some mark := by
  induction l using records.induct mark with
  | case1 l hcut =>
      rw [records_of_none hcut] at h
      cases h
  | case2 l first rest hcut ih =>
      rw [records_of_some hcut] at h
      by_cases hrest : records mark rest = []
      · rw [hrest] at h
        cases h
      · rw [List.dropLast_cons_of_ne_nil hrest, List.mem_cons] at h
        rcases h with rfl | hlater
        · apply (cut_spec hcut).2.2.2
          rintro rfl
          exact hrest (records_of_none rfl)
        · exact ih hlater

/-! ### Records from texts -/

theorem cut_joined {text : List α} (h : mark ∉ text) (rest : List α) :
    cut mark (text ++ mark :: rest) = some (text ++ [mark], rest) := by
  induction text with
  | nil => exact if_pos rfl
  | cons x text ih =>
      rw [List.mem_cons, not_or] at h
      rw [List.cons_append, cut, if_neg (Ne.symm h.1), ih h.2]
      rfl

theorem cut_unended {text : List α} (h : mark ∉ text) (hne : text ≠ []) :
    cut mark text = some (text, []) := by
  induction text with
  | nil => exact absurd rfl hne
  | cons x text ih =>
      rw [List.mem_cons, not_or] at h
      rw [cut, if_neg (Ne.symm h.1)]
      by_cases htext : text = []
      · rw [htext]
        rfl
      · rw [ih h.2 htext]

/-- Texts that are each followed by a mark, and a last one that is not, are the records, unless
the last one is empty. -/
theorem records_joined {texts : List (List α)} {last : List α} (h : ∀ text ∈ texts, mark ∉ text)
    (hlast : mark ∉ last) :
    records mark ((texts.flatMap fun text => text ++ [mark]) ++ last) =
      (texts.map fun text => text ++ [mark]) ++ if last = [] then [] else [last] := by
  induction texts with
  | nil =>
      by_cases hempty : last = []
      · rw [hempty]
        exact records_of_none rfl
      · rw [if_neg hempty]
        show records mark last = [last]
        rw [records_of_some (cut_unended hlast hempty), records_of_none rfl]
  | cons text texts ih =>
      rw [List.forall_mem_cons] at h
      rw [List.flatMap_cons, List.append_assoc, List.append_assoc, List.singleton_append,
        records_of_some (cut_joined h.1 _), ih h.2]
      rfl

end Records
