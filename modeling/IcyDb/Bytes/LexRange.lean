import IcyDb.Bytes.Lex

/-!
# Prefix ranges of the lexicographic order

A range of keys that share a prefix is written as two keys: the prefix
followed by the least possible rest, and the prefix followed by the greatest.
Such a pair selects exactly the keys with that prefix, by two facts: a key
between two keys that share a prefix shares it too, and a rest that is
pointwise between the two sentinel rests is between them lexicographically.
For bytes, the one-byte string `0x00` lies below every non-empty string, and a
run of `0xFF` lies above every string that is no longer.
-/

namespace ByteOrder

section Then

theorem then_ne_gt {o p : Ordering} (ho : o ≠ .gt) (hp : p ≠ .gt) : o.then p ≠ .gt := by
  cases o <;> simp_all [Ordering.then]

/-- A tie-breaker that is never `Greater` leaves `≤` to the first comparison. -/
theorem then_ne_gt_iff {o p : Ordering} (hp : p ≠ .gt) : o.then p ≠ .gt ↔ o ≠ .gt := by
  cases o <;> simp_all [Ordering.then]

/-- A tie-breaker that is never `Less` leaves `<` to the first comparison. -/
theorem then_eq_lt_iff {o p : Ordering} (hp : p ≠ .lt) : o.then p = .lt ↔ o = .lt := by
  cases o <;> simp_all [Ordering.then]

end Then

section Prefix

variable {α : Type} [Ord α]

theorem compare_append_left [Std.ReflOrd α] (p a b : List α) :
    compare (p ++ a) (p ++ b) = compare a b := by
  rw [compare_append_of_length_eq rfl, Std.compare_self, Ordering.eq_then]

/-- When `b` is no greater than `a`, `a` is no less than `b`. -/
theorem compare_ne_lt_of_ne_gt [Std.OrientedOrd α] {a b : α} (h : compare b a ≠ .gt) :
    compare a b ≠ .lt := by
  have hswap : compare a b = (compare b a).swap := Std.OrientedCmp.eq_swap
  rw [hswap]
  cases hc : compare b a <;> simp_all

/-- A string between two strings that share a prefix shares it. -/
theorem eq_append_of_between [Std.TransOrd α] [Std.LawfulEqOrd α] {p a b k : List α}
    (hlo : compare (p ++ a) k ≠ .gt) (hhi : compare k (p ++ b) ≠ .gt) : ∃ r, k = p ++ r := by
  induction p generalizing k with
  | nil => exact ⟨k, rfl⟩
  | cons x p ih =>
    cases k with
    | nil => simp at hlo
    | cons y k =>
      rw [List.cons_append, List.compare_cons_cons] at hlo hhi
      -- the heads agree: each is no greater than the other
      have hxy : compare x y ≠ .gt := fun h => hlo (by rw [h]; rfl)
      have hyx : compare y x ≠ .gt := fun h => hhi (by rw [h]; rfl)
      have hswap : compare y x = (compare x y).swap := Std.OrientedCmp.eq_swap
      have heq : compare x y = .eq := by
        cases hc : compare x y <;> simp_all
      obtain rfl := Std.LawfulEqOrd.eq_of_compare heq
      rw [Std.compare_self, Ordering.eq_then] at hlo hhi
      obtain ⟨r, rfl⟩ := ih hlo hhi
      exact ⟨r, rfl⟩

end Prefix

section Bytes

/-- The one-byte string `0x00` lies below every non-empty byte string. -/
theorem compare_zero_ne_gt {c : List UInt8} (hc : c ≠ []) : compare [0] c ≠ .gt := by
  obtain ⟨y, c, rfl⟩ := List.exists_cons_of_ne_nil hc
  rw [List.compare_cons_cons]
  refine then_ne_gt ?_ (Ordering.ne_gt_iff_isLE.mpr List.isLE_compare_nil_left)
  rw [compare_uint8, ne_eq, Nat.compare_eq_gt]
  simp

/-- No byte string is above a run of `0xFF` at least as long. -/
theorem compare_replicate_ff_ne_gt {c : List UInt8} {n : Nat} (h : c.length ≤ n) :
    compare c (List.replicate n 0xFF) ≠ .gt := by
  induction c generalizing n with
  | nil => exact Ordering.ne_gt_iff_isLE.mpr List.isLE_compare_nil_left
  | cons y c ih =>
    obtain ⟨m, rfl⟩ : ∃ m, n = m + 1 := ⟨n - 1, by simp at h; omega⟩
    rw [List.replicate_succ, List.compare_cons_cons]
    refine then_ne_gt ?_ (ih (by simp at h; omega))
    have hy : y.toNat < 256 := y.toNat_lt
    rw [compare_uint8, ne_eq, Nat.compare_eq_gt]
    simp only [UInt8.reduceToNat]
    omega

end Bytes

end ByteOrder
