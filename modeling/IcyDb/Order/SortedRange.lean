import IcyDb.Order.Bound
import Mathlib.Data.List.Basic

/-!
# The keys of a sorted list within a pair of bounds

A range scan over an ordered map reads the keys within a pair of bounds, in
ascending or in descending order.  A scan that reads in chunks moves the bound
on its side of the traversal past the last key of each chunk, and a seek moves
that bound to a target.  This file states what those moves leave in range, for
a strictly sorted list of keys.

The one combinatorial fact is `filter_rel_getLast_take`: in a list sorted by a
strict order, the elements after a prefix are those above the prefix's last
element.  The ascending scan uses it with `<`, the descending one with `>`.
-/

namespace IcyDb

/-! ### Splitting a sorted list after a prefix -/

section Split

variable {α : Type} {R : α → α → Prop} [DecidableRel R]

omit [DecidableRel R] in
/-- Every element of a sorted list is its last element or below it. -/
theorem eq_or_rel_getLast {ys : List α} {m : α} (hys : ys.Pairwise R) (hm : ys.getLast? = some m) :
    ∀ a ∈ ys, a = m ∨ R a m := by
  obtain ⟨init, rfl⟩ := List.getLast?_eq_some_iff.mp hm
  intro a ha
  rcases List.mem_append.mp ha with ha | ha
  · exact .inr ((List.pairwise_append.mp hys).2.2 a ha m (List.mem_singleton_self m))
  · exact .inl (List.mem_singleton.mp ha)

/-- In a list sorted by a strict order, the elements after a prefix are
exactly those above the prefix's last element. -/
theorem filter_rel_getLast_take {xs : List α} (hxs : xs.Pairwise R)
    (hasymm : ∀ a b, R a b → ¬ R b a) (hirrefl : ∀ a, ¬ R a a) {c : Nat} {m : α}
    (hm : (xs.take c).getLast? = some m) :
    xs.filter (fun k => decide (R m k)) = xs.drop c := by
  have hsplit := List.take_append_drop c xs
  have hpair : (xs.take c ++ xs.drop c).Pairwise R := hsplit.symm ▸ hxs
  obtain ⟨hfront, -, hacross⟩ := List.pairwise_append.mp hpair
  have hmem : m ∈ xs.take c := List.mem_of_getLast? hm
  -- nothing in the prefix lies above its last element
  have hbefore : (xs.take c).filter (fun k => decide (R m k)) = [] := by
    refine List.filter_eq_nil_iff.mpr fun a ha => ?_
    rcases eq_or_rel_getLast hfront hm a ha with rfl | hlt
    · simpa using hirrefl a
    · simpa using hasymm a m hlt
  -- everything after the prefix does
  have hafter : (xs.drop c).filter (fun k => decide (R m k)) = xs.drop c :=
    List.filter_eq_self.mpr fun b hb => by simpa using hacross m hmem b hb
  conv_lhs => rw [← hsplit]
  rw [List.filter_append, hbefore, hafter, List.nil_append]

end Split

/-! ### Bounds -/

namespace Bound

variable {κ : Type} [LinearOrder κ]

@[simp] theorem admitsAbove_excluded (a k : κ) : (excluded a).admitsAbove k = decide (a < k) := rfl

@[simp] theorem admitsBelow_excluded (a k : κ) : (excluded a).admitsBelow k = decide (k < a) := rfl

/-- A lower bound that admits a key admits every key above it. -/
theorem admitsAbove_of_le {b : Bound κ} {k k' : κ} (h : b.admitsAbove k = true) (hk : k ≤ k') :
    b.admitsAbove k' = true := by
  cases b with
  | included a => simpa [admitsAbove] using le_trans (by simpa [admitsAbove] using h) hk
  | excluded a => simpa [admitsAbove] using lt_of_lt_of_le (by simpa [admitsAbove] using h) hk
  | unbounded => rfl

/-- An upper bound that admits a key admits every key below it. -/
theorem admitsBelow_of_le {b : Bound κ} {k k' : κ} (h : b.admitsBelow k' = true) (hk : k ≤ k') :
    b.admitsBelow k = true := by
  cases b with
  | included a => simpa [admitsBelow] using le_trans hk (by simpa [admitsBelow] using h)
  | excluded a => simpa [admitsBelow] using lt_of_le_of_lt hk (by simpa [admitsBelow] using h)
  | unbounded => rfl

end Bound

/-! ### Moving a bound -/

section Range

variable {κ : Type} [LinearOrder κ]

/-- Above a key in range, only the upper bound decides. -/
theorem rangeContains_excluded_lower {lower upper : Bound κ} {m k : κ}
    (hm : rangeContains (lower, upper) m = true) :
    rangeContains (.excluded m, upper) k = (rangeContains (lower, upper) k && decide (m < k)) := by
  have hlower : lower.admitsAbove m = true := by simp_all [rangeContains]
  by_cases hk : m < k
  · simp [rangeContains, hk, Bound.admitsAbove_of_le hlower hk.le]
  · simp [rangeContains, hk]

/-- Below a key in range, only the lower bound decides. -/
theorem rangeContains_excluded_upper {lower upper : Bound κ} {m k : κ}
    (hm : rangeContains (lower, upper) m = true) :
    rangeContains (lower, .excluded m) k = (rangeContains (lower, upper) k && decide (k < m)) := by
  have hupper : upper.admitsBelow m = true := by simp_all [rangeContains]
  by_cases hk : k < m
  · simp [rangeContains, hk, Bound.admitsBelow_of_le hupper hk.le]
  · simp [rangeContains, hk]

variable {l : List κ}

/-- An ascending chunked scan: moving the lower bound past the last key of a
chunk leaves in range exactly the keys after the chunk. -/
theorem filter_excluded_lower_of_take (hl : l.Pairwise (· < ·)) {lower upper : Bound κ} {c : Nat}
    {m : κ} (hm : ((l.filter (rangeContains (lower, upper))).take c).getLast? = some m) :
    l.filter (rangeContains (.excluded m, upper)) =
      (l.filter (rangeContains (lower, upper))).drop c := by
  have hin : rangeContains (lower, upper) m = true :=
    (List.mem_filter.mp (List.mem_of_mem_take (List.mem_of_getLast? hm))).2
  have hsorted : (l.filter (rangeContains (lower, upper))).Pairwise (· < ·) := hl.filter _
  rw [← filter_rel_getLast_take hsorted (fun _ _ h => not_lt_of_gt h) lt_irrefl hm,
    List.filter_filter]
  exact List.filter_congr fun k _ => by rw [rangeContains_excluded_lower hin, Bool.and_comm]

/-- A descending chunked scan: moving the upper bound past the last key of a
chunk leaves in range exactly the keys after the chunk. -/
theorem filter_excluded_upper_of_take (hl : l.Pairwise (· < ·)) {lower upper : Bound κ} {c : Nat}
    {m : κ} (hm : ((l.filter (rangeContains (lower, upper))).reverse.take c).getLast? = some m) :
    (l.filter (rangeContains (lower, .excluded m))).reverse =
      (l.filter (rangeContains (lower, upper))).reverse.drop c := by
  have hin : rangeContains (lower, upper) m = true :=
    (List.mem_filter.mp (List.mem_reverse.mp
      (List.mem_of_mem_take (List.mem_of_getLast? hm)))).2
  have hsorted : (l.filter (rangeContains (lower, upper))).reverse.Pairwise (· > ·) :=
    List.pairwise_reverse.mpr (hl.filter _)
  rw [← filter_rel_getLast_take hsorted (fun _ _ h => not_lt_of_gt h) lt_irrefl hm,
    List.filter_reverse, List.filter_filter]
  congr 1
  exact List.filter_congr fun k _ => by rw [rangeContains_excluded_upper hin, Bool.and_comm]

/-- Moving the lower bound to a key it admits keeps a subset in range. -/
theorem length_filter_included_lower_le {lower upper : Bound κ} {t : κ}
    (ht : lower.admitsAbove t = true) :
    (l.filter (rangeContains (.included t, upper))).length ≤
      (l.filter (rangeContains (lower, upper))).length := by
  refine (List.monotone_filter_right l fun k hk => ?_).length_le
  have htk : t ≤ k := by simp_all [rangeContains, Bound.admitsAbove]
  simp_all [rangeContains, Bound.admitsAbove_of_le ht htk]

/-- Moving the upper bound to a key it admits keeps a subset in range. -/
theorem length_filter_included_upper_le {lower upper : Bound κ} {t : κ}
    (ht : upper.admitsBelow t = true) :
    (l.filter (rangeContains (lower, .included t))).length ≤
      (l.filter (rangeContains (lower, upper))).length := by
  refine (List.monotone_filter_right l fun k hk => ?_).length_le
  have hkt : k ≤ t := by simp_all [rangeContains, Bound.admitsBelow]
  simp_all [rangeContains, Bound.admitsBelow_of_le ht hkt]

end Range

end IcyDb
