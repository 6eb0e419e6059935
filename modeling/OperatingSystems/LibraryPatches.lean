import Mathlib.Data.List.Basic
import Mathlib.Logic.Function.Basic

/-!
A store as its initial contents and the history of its partial updates. A cell holds what the
latest update that sets it has set it to, and its initial contents if there is none.
-/

namespace Patches

variable {ι β : Type*}

/-- A partial update: what it sets each cell to. -/
abbrev Patch (ι β : Type*) := ι → Option β

/-- The store after an update. -/
def apply (patch : Patch ι β) (cells : ι → β) : ι → β := fun i => (patch i).getD (cells i)

/-- What the latest update that sets the cell sets it to. -/
def latest (history : List (Patch ι β)) (i : ι) : Option β :=
  history.reverse.findSome? fun patch => patch i

/-- The store after a history of updates. -/
def overlay (cells : ι → β) (history : List (Patch ι β)) : ι → β := fun i =>
  (latest history i).getD (cells i)

theorem latest_concat (history : List (Patch ι β)) (patch : Patch ι β) (i : ι) :
    latest (history ++ [patch]) i = (patch i).or (latest history i) := by
  rw [latest, latest, List.reverse_concat, List.findSome?_cons]
  cases patch i <;> rfl

theorem overlay_concat (cells : ι → β) (history : List (Patch ι β)) (patch : Patch ι β) :
    overlay cells (history ++ [patch]) = apply patch (overlay cells history) := by
  funext i
  rw [overlay, apply, overlay, latest_concat]
  cases patch i <;> rfl

/-- Two stores with the same history agree on a cell exactly if the history sets it or they agreed
on it before. -/
theorem overlay_eq_iff {cells cells' : ι → β} {history : List (Patch ι β)} {i : ι} :
    overlay cells history i = overlay cells' history i ↔
      (latest history i).isSome ∨ cells i = cells' i := by
  rw [overlay, overlay]
  cases latest history i <;> simp

end Patches
