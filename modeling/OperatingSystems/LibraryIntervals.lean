import Mathlib.Data.List.Chain
import Mathlib.Algebra.BigOperators.Group.List.Basic
import Mathlib.Algebra.Ring.Int.Defs

/-!
Logs that mark intervals of time. Some records open an interval and some close one. A log is
well-formed if each record that opens an interval is followed at once by the one that closes it,
except that the last interval may still be open, and if no record closes an interval otherwise.
-/

namespace Intervals

variable {ρ : Type*}

/-- What the records of a log mean; `fits` says which records can be the ends of one interval. -/
structure Marks (ρ : Type*) where
  opens : ρ → Bool
  closes : ρ → Bool
  time : ρ → Int
  fits : ρ → ρ → Prop

variable (marks : Marks ρ)

/-- Two records in succession: the first opens an interval exactly if the second closes one. -/
def Marks.Follow (a b : ρ) : Prop :=
  marks.opens a = marks.closes b ∧ (marks.opens a = true → marks.fits a b)

structure WellFormed (log : List ρ) : Prop where
  follow : log.IsChain marks.Follow
  first : ∀ a ∈ log.head?, marks.closes a = false

/-- The last record of the log opens an interval. -/
def isOpen (log : List ρ) : Bool := log.getLast?.any marks.opens

/-- The length of the intervals that have been closed. -/
def closedTime (log : List ρ) : Int :=
  ((log.zip log.tail).map fun p =>
    if marks.opens p.1 && marks.closes p.2 then marks.time p.2 - marks.time p.1 else 0).sum

/-- The length of the open interval, if there is one. -/
def openTime (log : List ρ) (now : Int) : Int :=
  match log.getLast? with
  | some a => if marks.opens a then now - marks.time a else 0
  | none => 0

variable {marks} {log : List ρ} {r : ρ}

/-! ### One more record -/

/-- The pairs of successive records. -/
theorem zip_tail_concat (log : List ρ) (r : ρ) :
    (log ++ [r]).zip (log ++ [r]).tail =
      log.zip log.tail ++ log.getLast?.toList.map fun a => (a, r) := by
  induction log with
  | nil => rfl
  | cons a rest ih =>
      cases rest with
      | nil => rfl
      | cons b rest => simpa using ih

theorem closedTime_concat (log : List ρ) (r : ρ) :
    closedTime marks (log ++ [r]) =
      closedTime marks log + if marks.closes r then openTime marks log (marks.time r) else 0 := by
  rw [closedTime, zip_tail_concat, List.map_append, List.sum_append, closedTime, openTime]
  cases log.getLast? with
  | none => simp
  | some a => by_cases hcloses : marks.closes r = true <;> simp [hcloses]

theorem openTime_concat (log : List ρ) (r : ρ) (now : Int) :
    openTime marks (log ++ [r]) now = if marks.opens r then now - marks.time r else 0 := by
  rw [openTime, List.getLast?_concat]

theorem isOpen_concat (log : List ρ) (r : ρ) : isOpen marks (log ++ [r]) = marks.opens r := by
  rw [isOpen, List.getLast?_concat]
  rfl

theorem openTime_of_not_open (h : isOpen marks log = false) (now : Int) :
    openTime marks log now = 0 := by
  unfold isOpen at h
  unfold openTime
  cases hlast : log.getLast? with
  | none => rfl
  | some a =>
      simp only [hlast, Option.any_some] at h
      simp [h]

/-- A record that opens an interval is not the last one of a log without an open interval. -/
theorem opens_of_not_open (h : isOpen marks log = false) {a : ρ} (ha : a ∈ log.getLast?) :
    marks.opens a = false := by
  rwa [isOpen, Option.mem_def.mp ha, Option.any_some] at h

/-- The last record opens the open interval. -/
theorem exists_of_open (h : isOpen marks log = true) :
    ∃ a ∈ log.getLast?, marks.opens a = true ∧
      ∀ now, openTime marks log now = now - marks.time a := by
  unfold isOpen at h
  cases hlast : log.getLast? with
  | none => simp [hlast] at h
  | some a =>
      rw [hlast, Option.any_some] at h
      refine ⟨a, rfl, h, ?_⟩
      intro now
      rw [openTime, hlast]
      exact if_pos h

/-- An interval that is open grows with the time. -/
theorem openTime_of_open (h : isOpen marks log = true) (now d : Int) :
    openTime marks log (now + d) = openTime marks log now + d := by
  obtain ⟨a, -, -, htime⟩ := exists_of_open h
  rw [htime, htime]
  omega

theorem wellFormed_nil : WellFormed marks [] where
  follow := .nil
  first := by simp

/-- A record may follow that closes the open interval, or none if there is none. -/
theorem WellFormed.concat (h : WellFormed marks log) (hcloses : isOpen marks log = marks.closes r)
    (hfits : ∀ a ∈ log.getLast?, marks.opens a = true → marks.fits a r) :
    WellFormed marks (log ++ [r]) where
  follow := by
    apply h.follow.append (.singleton r)
    intro a ha b hb
    obtain rfl : r = b := by simpa using hb
    refine ⟨?_, hfits a ha⟩
    rw [← hcloses, isOpen, Option.mem_def.mp ha]
    rfl
  first := by
    cases log with
    | nil =>
        intro a ha
        obtain rfl : r = a := by simpa using ha
        exact hcloses.symm
    | cons a rest => exact h.first

/-- If no interval is open, a record may follow that closes none. -/
theorem WellFormed.concat_of_not_open (h : WellFormed marks log)
    (hclosed : isOpen marks log = false) (hcloses : marks.closes r = false) :
    WellFormed marks (log ++ [r]) := by
  apply h.concat (hclosed.trans hcloses.symm)
  intro a ha hopens
  rw [opens_of_not_open hclosed ha] at hopens
  cases hopens

/-! ### Records of other things -/

/-- A record that neither opens nor closes an interval. -/
def Marks.Plain (marks : Marks ρ) (r : ρ) : Prop := marks.opens r = false ∧ marks.closes r = false

/-- Other records may follow a log without an open interval, and change nothing. -/
theorem append_plain {more : List ρ} (hplain : ∀ r ∈ more, marks.Plain r)
    (h : WellFormed marks log) (hclosed : isOpen marks log = false) :
    WellFormed marks (log ++ more) ∧ isOpen marks (log ++ more) = false ∧
      closedTime marks (log ++ more) = closedTime marks log := by
  induction more using List.reverseRecOn with
  | nil =>
      rw [List.append_nil]
      exact ⟨h, hclosed, rfl⟩
  | append_singleton more r ih =>
      obtain ⟨hwell, hstill, htime⟩ := ih fun r hr => hplain r (List.mem_append_left _ hr)
      obtain ⟨hopens, hcloses⟩ := hplain r (by simp)
      rw [← List.append_assoc]
      refine ⟨hwell.concat_of_not_open hstill hcloses, ?_, ?_⟩
      · rw [isOpen_concat, hopens]
      · rw [closedTime_concat, hcloses, htime]
        simp

end Intervals
