import Mathlib.Order.Basic
import Mathlib.Order.Lattice

/-!
# Range bounds

`std::ops::Bound` and the key ranges a pair of bounds describes, as
`BTreeMap::range` reads them: a key is in the range when it lies above the
lower bound and below the upper one.  Nothing here depends on the store that
uses the range.
-/

namespace IcyDb

/-- `std::ops::Bound`. -/
inductive Bound (α : Type)
  | included (value : α)
  | excluded (value : α)
  | unbounded

namespace Bound

variable {κ : Type} [LinearOrder κ]

/-- A key lies above a lower bound. -/
def admitsAbove : Bound κ → κ → Bool
  | included a, k => decide (a ≤ k)
  | excluded a, k => decide (a < k)
  | unbounded, _ => true

/-- A key lies below an upper bound. -/
def admitsBelow : Bound κ → κ → Bool
  | included a, k => decide (k ≤ a)
  | excluded a, k => decide (k < a)
  | unbounded, _ => true

/-- `matches!(bound, Bound::Excluded(_))`. -/
def isExcluded {α : Type} : Bound α → Bool
  | excluded _ => true
  | _ => false

section Comparator

variable {α : Type} (cmp : α → α → Ordering)

/-- A value lies above a lower bound, in the order of a comparator. -/
def admitsAboveBy : Bound α → α → Bool
  | included a, k => decide (cmp a k ≠ .gt)
  | excluded a, k => decide (cmp a k = .lt)
  | unbounded, _ => true

/-- A value lies below an upper bound, in the order of a comparator. -/
def admitsBelowBy : Bound α → α → Bool
  | included a, k => decide (cmp k a ≠ .gt)
  | excluded a, k => decide (cmp k a = .lt)
  | unbounded, _ => true

/-- A value a lower bound on `x` admits is no less than `x`. -/
theorem admitsAboveBy_ne_gt {b : Bound α} {x k : α} (hb : b = included x ∨ b = excluded x)
    (h : b.admitsAboveBy cmp k = true) : cmp x k ≠ .gt := by
  rcases hb with rfl | rfl
  · simpa [admitsAboveBy] using h
  · have hlt : cmp x k = .lt := by simpa [admitsAboveBy] using h
    rw [hlt]
    decide

/-- A value an upper bound on `x` admits is no greater than `x`. -/
theorem admitsBelowBy_ne_gt {b : Bound α} {x k : α} (hb : b = included x ∨ b = excluded x)
    (h : b.admitsBelowBy cmp k = true) : cmp k x ≠ .gt := by
  rcases hb with rfl | rfl
  · simpa [admitsBelowBy] using h
  · have hlt : cmp k x = .lt := by simpa [admitsBelowBy] using h
    rw [hlt]
    decide

end Comparator

end Bound

/-- `RangeBounds::contains` for a pair of bounds. -/
def rangeContains {κ : Type} [LinearOrder κ] (bounds : Bound κ × Bound κ) (k : κ) : Bool :=
  bounds.1.admitsAbove k && bounds.2.admitsBelow k

/-- The bound pairs `BTreeMap::range` accepts: it panics when the start is
above the end, and when both bounds exclude the same key. -/
def rangeBoundsValid {κ : Type} [LinearOrder κ] : Bound κ × Bound κ → Bool
  | (.excluded a, .excluded b) => decide (a < b)
  | (.included a, .included b) | (.included a, .excluded b) | (.excluded a, .included b) =>
    decide (a ≤ b)
  | _ => true

/-- `RangeBounds::contains` for a pair of bounds, in the order of a
comparator: the ranges `BTreeMap::range` reads under a key type's `Ord`. -/
def rangeContainsBy {α : Type} (cmp : α → α → Ordering) (bounds : Bound α × Bound α) (k : α) :
    Bool :=
  bounds.1.admitsAboveBy cmp k && bounds.2.admitsBelowBy cmp k

end IcyDb
