import IcyDb.Bytes.Lex
import IcyDb.Order.Comparator

/-!
# Complemented and terminated byte strings

Order-preserving encoders write a negative number as the complement of the
bytes of its magnitude, so that a larger magnitude sorts first, and they end
a part of variable length with a terminator byte.  Complementing bytes
reverses their order.  It reverses the order of strings only where the
strings differ at a position both of them reach: a proper prefix stays a
proper prefix.  Ending both strings with a terminator that occurs in neither
makes them so.
-/

namespace ByteOrder

/-- Complementing two bytes reverses their order. -/
theorem compare_not_uint8 (x y : UInt8) : compare (~~~x) (~~~y) = compare y x := by
  rw [compare_uint8, compare_uint8, UInt8.toNat_not, UInt8.toNat_not]
  have hx := x.toNat_lt
  have hy := y.toNat_lt
  exact Comparator.compare_eq_compare_of_lt_iff (by simp only [UInt8.size] at hx hy ⊢; omega)
    (by simp only [UInt8.size] at hx hy ⊢; omega)

/-- Complemented strings that differ at a common position compare the other
way round. -/
theorem compare_map_not_of_diverge {a b : List UInt8} (h : Diverge a b) :
    compare (a.map (~~~·)) (b.map (~~~·)) = compare b a := by
  obtain ⟨p, a', b', x, y, hxy, rfl, rfl⟩ := h
  have hne : compare y x ≠ .eq := fun heq => hxy (Std.LawfulEqOrd.eq_of_compare heq).symm
  simp only [List.map_append, List.map_cons]
  rw [compare_append_of_length_eq rfl, compare_append_of_length_eq rfl, Std.compare_self,
    Std.compare_self, Ordering.eq_then, Ordering.eq_then, List.compare_cons_cons,
    List.compare_cons_cons, compare_not_uint8, then_of_ne_eq hne, then_of_ne_eq hne]

/-- Complemented strings of one length compare the other way round. -/
theorem compare_map_not_of_length_eq {a b : List UInt8} (h : a.length = b.length) :
    compare (a.map (~~~·)) (b.map (~~~·)) = compare b a := by
  by_cases hab : a = b
  · subst hab
    rw [Std.compare_self, Std.compare_self]
  · exact compare_map_not_of_diverge (diverge_of_length_eq h hab)

/-- Two strings, each ended by a terminator that occurs in neither, are equal
or differ at a common position. -/
theorem eq_or_diverge_append_terminator {α : Type} [DecidableEq α] {t : α} {a b : List α}
    (ha : t ∉ a) (hb : t ∉ b) : a = b ∨ Diverge (a ++ [t]) (b ++ [t]) := by
  induction a generalizing b with
  | nil =>
    cases b with
    | nil => exact .inl rfl
    | cons y b =>
      have hty : t ≠ y := fun h => hb (h ▸ List.mem_cons_self)
      exact .inr ⟨[], [], b ++ [t], t, y, hty, rfl, rfl⟩
  | cons x a ih =>
    cases b with
    | nil =>
      have hxt : x ≠ t := fun h => ha (h ▸ List.mem_cons_self)
      exact .inr ⟨[], a ++ [t], [], x, t, hxt, rfl, rfl⟩
    | cons y b =>
      by_cases hxy : x = y
      · subst hxy
        rcases ih (fun h => ha (List.mem_cons_of_mem x h)) (fun h => hb (List.mem_cons_of_mem x h))
          with hab | ⟨p, a', b', u, v, huv, hpa, hpb⟩
        · exact .inl (hab ▸ rfl)
        · refine .inr ⟨x :: p, a', b', u, v, huv, ?_, ?_⟩
          · simp [hpa]
          · simp [hpb]
      · exact .inr ⟨[], a ++ [t], b ++ [t], x, y, hxy, rfl, rfl⟩

/-- A terminator below every byte of two strings orders a proper prefix
first, as the strings themselves are ordered. -/
theorem compare_append_terminator_of_lt {t : UInt8} {a b : List UInt8} (ha : ∀ x ∈ a, t < x)
    (hb : ∀ y ∈ b, t < y) : compare (a ++ [t]) (b ++ [t]) = compare a b := by
  induction a generalizing b with
  | nil =>
    cases b with
    | nil => rw [Std.compare_self, List.compare_nil_nil]
    | cons y b =>
      have hty : compare t y = .lt := by
        rw [compare_uint8]
        exact Nat.compare_eq_lt.mpr (UInt8.lt_iff_toNat_lt.mp (hb y List.mem_cons_self))
      simp [List.compare_cons_cons, hty, List.compare_nil_cons]
  | cons x a ih =>
    cases b with
    | nil =>
      have hxt : compare x t = .gt := by
        rw [compare_uint8]
        exact Nat.compare_eq_gt.mpr (UInt8.lt_iff_toNat_lt.mp (ha x List.mem_cons_self))
      simp [List.compare_cons_cons, hxt, List.compare_cons_nil]
    | cons y b =>
      simp only [List.cons_append, List.compare_cons_cons]
      rw [ih (fun x hx => ha x (List.mem_cons_of_mem _ hx))
        (fun y hy => hb y (List.mem_cons_of_mem _ hy))]

/-- Compared length first, complemented strings compare the other way round:
once the lengths tie, complementing reverses the order. -/
theorem then_compare_map_not (a b : List UInt8) :
    (compare b.length a.length).then (compare (a.map (~~~·)) (b.map (~~~·))) =
      (compare b.length a.length).then (compare b a) := by
  cases h : compare b.length a.length
  · rfl
  · rw [Ordering.eq_then, Ordering.eq_then,
      compare_map_not_of_length_eq (Nat.compare_eq_eq.mp h).symm]
  · rfl

/-! ### Padding -/

/-- The string of least bytes `z` is below every other string of its length
whose bytes are at least `z`. -/
theorem compare_replicate_of_exists_ne {z : UInt8} {b : List UInt8} (hz : ∀ y ∈ b, z ≤ y)
    (hne : ∃ y ∈ b, y ≠ z) : compare (List.replicate b.length z) b = .lt := by
  induction b with
  | nil =>
    obtain ⟨y, hy, -⟩ := hne
    exact absurd hy List.not_mem_nil
  | cons y b ih =>
    rw [List.length_cons, List.replicate_succ, List.compare_cons_cons]
    by_cases hyz : y = z
    · subst hyz
      rw [Std.compare_self, Ordering.eq_then]
      apply ih (fun x hx => hz x (List.mem_cons_of_mem _ hx))
      obtain ⟨x, hx, hxz⟩ := hne
      rcases List.mem_cons.mp hx with rfl | hx'
      · exact absurd rfl hxz
      · exact ⟨x, hx', hxz⟩
    · have hle := UInt8.le_iff_toNat_le.mp (hz y List.mem_cons_self)
      have hne : y.toNat ≠ z.toNat := fun h => hyz (UInt8.toNat_inj.mp h)
      have hcmp : compare z y = .lt := by
        rw [compare_uint8]
        exact Nat.compare_eq_lt.mpr (by omega)
      rw [hcmp, Ordering.lt_then]

/-- Padding the shorter of two strings with their least byte `z` keeps their
order, unless the longer one extends the shorter by `z`s alone. -/
theorem compare_pad_eq_compare {z : UInt8} {a b : List UInt8} (ha : ∀ x ∈ a, z ≤ x)
    (hb : ∀ y ∈ b, z ≤ y) (hab : ∀ r, b = a ++ r → r ≠ [] → ∃ y ∈ r, y ≠ z)
    (hba : ∀ r, a = b ++ r → r ≠ [] → ∃ x ∈ r, x ≠ z) :
    compare (a ++ List.replicate (b.length - a.length) z)
      (b ++ List.replicate (a.length - b.length) z) = compare a b := by
  induction a generalizing b with
  | nil =>
    cases b with
    | nil => rfl
    | cons y b =>
      simp only [List.length_nil, Nat.sub_zero, List.nil_append, Nat.zero_sub,
        List.replicate_zero, List.append_nil, List.compare_nil_cons]
      exact compare_replicate_of_exists_ne hb (hab _ rfl (List.cons_ne_nil _ _))
  | cons x a ih =>
    cases b with
    | nil =>
      simp only [List.length_nil, Nat.zero_sub, List.replicate_zero, List.append_nil,
        Nat.sub_zero, List.nil_append, List.compare_cons_nil]
      rw [Std.OrientedOrd.eq_swap (a := x :: a),
        compare_replicate_of_exists_ne ha (hba _ rfl (List.cons_ne_nil _ _))]
      rfl
    | cons y b =>
      simp only [List.length_cons, Nat.add_sub_add_right, List.cons_append,
        List.compare_cons_cons]
      by_cases hxy : x = y
      · -- equal heads: the tails carry the hypotheses
        subst hxy
        rw [Std.compare_self, Ordering.eq_then, Ordering.eq_then]
        exact ih (fun x' hx => ha x' (List.mem_cons_of_mem _ hx))
          (fun y' hy => hb y' (List.mem_cons_of_mem _ hy))
          (fun r hr hne => hab r (by rw [hr]; rfl) hne)
          (fun r hr hne => hba r (by rw [hr]; rfl) hne)
      · have hne : compare x y ≠ .eq := fun h => hxy (Std.LawfulEqOrd.eq_of_compare h)
        rw [then_of_ne_eq hne, then_of_ne_eq hne]

end ByteOrder
