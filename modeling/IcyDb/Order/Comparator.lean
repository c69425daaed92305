import Mathlib.Order.Compare
import Mathlib.Order.Lattice

/-!
# Comparators that are total orders on a subset

A program's comparator need only be a total order on the values it is ever
given.  `TotalOrderOn cmp S` states the laws a sorted container relies on,
restricted to the values satisfying `S`.  The usual way to obtain one is to
compare through a map into a lawfully ordered type that is injective on `S`.
A comparator that identifies distinct values (two representations of one
number) is at best a total preorder, `TotalPreorderOn`, and is obtained the
same way without injectivity.
-/

namespace Comparator

variable {α β : Type}

/-- `cmp` is a total order on the values satisfying `S`: reflexive,
antisymmetric, oriented and transitive there. -/
structure TotalOrderOn (cmp : α → α → Ordering) (S : α → Prop) : Prop where
  refl : ∀ a, S a → cmp a a = .eq
  eq_of_cmp_eq : ∀ a b, S a → S b → cmp a b = .eq → a = b
  swap : ∀ a b, S a → S b → cmp a b = (cmp b a).swap
  le_trans : ∀ a b c, S a → S b → S c → cmp a b ≠ .gt → cmp b c ≠ .gt → cmp a c ≠ .gt

/-- A comparator that agrees on `S` with a lawful order pulled back along a
map injective on `S` is a total order on `S`. -/
theorem TotalOrderOn.of_compare_map [Ord β] [Std.TransOrd β] [Std.LawfulEqOrd β]
    {cmp : α → α → Ordering} {S : α → Prop} (f : α → β)
    (hcmp : ∀ a b, S a → S b → cmp a b = compare (f a) (f b))
    (hinj : ∀ a b, S a → S b → f a = f b → a = b) : TotalOrderOn cmp S where
  refl a ha := by rw [hcmp a a ha ha, Std.compare_self]
  eq_of_cmp_eq a b ha hb h := by
    rw [hcmp a b ha hb, Std.compare_eq_iff_eq] at h
    exact hinj a b ha hb h
  swap a b ha hb := by
    rw [hcmp a b ha hb, hcmp b a hb ha]
    exact Std.OrientedCmp.eq_swap
  le_trans a b c ha hb hc hab hbc := by
    rw [hcmp a b ha hb] at hab
    rw [hcmp b c hb hc] at hbc
    rw [hcmp a c ha hc]
    exact Std.TransCmp.le_trans hab hbc

/-- The same order read the other way round. -/
theorem TotalOrderOn.flip {cmp : α → α → Ordering} {S : α → Prop} (h : TotalOrderOn cmp S) :
    TotalOrderOn (fun a b => cmp b a) S where
  refl a ha := h.refl a ha
  eq_of_cmp_eq a b ha hb hab := (h.eq_of_cmp_eq b a hb ha hab).symm
  swap a b ha hb := h.swap b a hb ha
  le_trans a b c ha hb hc hab hbc := h.le_trans c b a hc hb ha hbc hab

/-- A comparator that agrees with a total order on `S` is one there. -/
theorem TotalOrderOn.congr {cmp cmp' : α → α → Ordering} {S : α → Prop} (h : TotalOrderOn cmp S)
    (heq : ∀ a b, S a → S b → cmp' a b = cmp a b) : TotalOrderOn cmp' S where
  refl a ha := (heq a a ha ha).trans (h.refl a ha)
  eq_of_cmp_eq a b ha hb hab := h.eq_of_cmp_eq a b ha hb ((heq a b ha hb).symm.trans hab)
  swap a b ha hb := by rw [heq a b ha hb, heq b a hb ha]; exact h.swap a b ha hb
  le_trans a b c ha hb hc hab hbc := by
    rw [heq a b ha hb] at hab
    rw [heq b c hb hc] at hbc
    rw [heq a c ha hc]
    exact h.le_trans a b c ha hb hc hab hbc

/-- `cmp` is a total preorder on the values satisfying `S`: oriented and
transitive there. -/
structure TotalPreorderOn (cmp : α → α → Ordering) (S : α → Prop) : Prop where
  swap : ∀ a b, S a → S b → cmp a b = (cmp b a).swap
  le_trans : ∀ a b c, S a → S b → S c → cmp a b ≠ .gt → cmp b c ≠ .gt → cmp a c ≠ .gt

/-- A comparator that agrees on `S` with a lawful order pulled back along any
map is a total preorder on `S`. -/
theorem TotalPreorderOn.of_compare_map [Ord β] [Std.TransOrd β]
    {cmp : α → α → Ordering} {S : α → Prop} (f : α → β)
    (hcmp : ∀ a b, S a → S b → cmp a b = compare (f a) (f b)) : TotalPreorderOn cmp S where
  swap a b ha hb := by
    rw [hcmp a b ha hb, hcmp b a hb ha]
    exact Std.OrientedCmp.eq_swap
  le_trans a b c ha hb hc hab hbc := by
    rw [hcmp a b ha hb] at hab
    rw [hcmp b c hb hc] at hbc
    rw [hcmp a c ha hc]
    exact Std.TransCmp.le_trans hab hbc

/-- Comparisons in two linear orders agree when their strict orders do. -/
theorem compare_eq_compare_of_lt_iff [LinearOrder α] [LinearOrder β] {a b : α} {c d : β}
    (hlt : a < b ↔ c < d) (hgt : b < a ↔ d < c) : compare a b = compare c d := by
  rcases lt_trichotomy a b with hab | rfl | hab
  · rw [compare_lt_iff_lt.mpr hab, compare_lt_iff_lt.mpr (hlt.mp hab)]
  · have hcd : c = d := le_antisymm (not_lt.mp fun h => (lt_irrefl a) (hgt.mpr h))
      (not_lt.mp fun h => (lt_irrefl a) (hlt.mpr h))
    rw [compare_eq_iff_eq.mpr rfl, hcd, compare_eq_iff_eq.mpr rfl]
  · rw [compare_gt_iff_gt.mpr hab, compare_gt_iff_gt.mpr (hgt.mp hab)]

end Comparator
