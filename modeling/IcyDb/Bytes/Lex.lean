import Mathlib.Order.Basic
import Mathlib.Data.List.Basic

/-!
# Lexicographic order on byte strings

Stored keys are compared as byte strings, shortest-prefix first, which is
the order of `List.compareLex` from the core library.  This file collects the
facts about that order which the key codecs use again and again: how it
behaves on concatenations whose left parts have the same length, on
concatenations whose left parts already differ, and how a comparison of
segment lists read pairwise agrees with the lexicographic one.
-/

namespace ByteOrder

section Diverge

variable {α : Type}

/-- Two strings diverge when they differ at a position both of them reach:
neither is a prefix of the other. -/
def Diverge (a b : List α) : Prop :=
  ∃ p a' b' x y, x ≠ y ∧ a = p ++ x :: a' ∧ b = p ++ y :: b'

/-- Strings of one length that are not equal diverge. -/
theorem diverge_of_length_eq [DecidableEq α] {a b : List α} (hlen : a.length = b.length)
    (hne : a ≠ b) : Diverge a b := by
  induction a generalizing b with
  | nil =>
    cases b with
    | nil => exact absurd rfl hne
    | cons y b => simp at hlen
  | cons x a ih =>
    cases b with
    | nil => simp at hlen
    | cons y b =>
      by_cases hxy : x = y
      · subst hxy
        have hab : a ≠ b := fun h => hne (h ▸ rfl)
        obtain ⟨p, a', b', u, v, huv, rfl, rfl⟩ := ih (by simpa using hlen) hab
        exact ⟨x :: p, a', b', u, v, huv, rfl, rfl⟩
      · exact ⟨[], a, b, x, y, hxy, rfl, rfl⟩

/-- Strings that diverge are different. -/
theorem Diverge.ne {a b : List α} (h : Diverge a b) : a ≠ b := by
  obtain ⟨p, a', b', x, y, hxy, rfl, rfl⟩ := h
  intro heq
  exact hxy (List.cons.inj (List.append_cancel_left heq)).1

/-- Strings that diverge still diverge with anything appended. -/
theorem Diverge.append {a b : List α} (h : Diverge a b) (s t : List α) :
    Diverge (a ++ s) (b ++ t) := by
  obtain ⟨p, a', b', x, y, hxy, rfl, rfl⟩ := h
  exact ⟨p, a' ++ s, b' ++ t, x, y, hxy, by simp, by simp⟩

/-- Strings that diverge still diverge behind a common prefix. -/
theorem Diverge.prepend (p : List α) {a b : List α} (h : Diverge a b) :
    Diverge (p ++ a) (p ++ b) := by
  obtain ⟨q, a', b', x, y, hxy, rfl, rfl⟩ := h
  exact ⟨p ++ q, a', b', x, y, hxy, by simp, by simp⟩

end Diverge

section Lex

variable {α : Type} [Ord α]

/-- Once a comparison has decided, later tie-breakers are not consulted. -/
theorem then_of_ne_eq {o : Ordering} (h : o ≠ .eq) (p : Ordering) : o.then p = o := by
  cases o <;> simp_all [Ordering.then]

theorem compare_singleton (x y : α) : compare [x] [y] = compare x y := by
  rw [List.compare_cons_cons, List.compare_nil_nil, Ordering.then_eq]

/-- A map that preserves the comparison of the elements of two strings
preserves the order of the strings. -/
theorem compare_map {β : Type} [Ord β] (f : β → α) (P : β → Prop)
    (hf : ∀ x y, P x → P y → compare (f x) (f y) = compare x y) {xs ys : List β}
    (hxs : ∀ x ∈ xs, P x) (hys : ∀ y ∈ ys, P y) :
    compare (xs.map f) (ys.map f) = compare xs ys := by
  induction xs generalizing ys with
  | nil => cases ys <;> simp [List.compare_nil_nil, List.compare_nil_cons]
  | cons x xs ih =>
    cases ys with
    | nil => simp [List.compare_cons_nil]
    | cons y ys =>
      simp only [List.mem_cons, forall_eq_or_imp] at hxs hys
      simp only [List.map_cons, List.compare_cons_cons, hf x y hxs.1 hys.1, ih hxs.2 hys.2]

/-- Comparison of bytes is the comparison of their numeric values. -/
theorem compare_uint8 (x y : UInt8) : compare x y = compare x.toNat y.toNat := by
  simp only [compare, compareOfLessAndEq, UInt8.lt_iff_toNat_lt, UInt8.ext_iff]

/-- Concatenations whose left parts have one length compare by the left parts
first, then by the right parts. -/
theorem compare_append_of_length_eq {a b : List α} (hlen : a.length = b.length)
    (s t : List α) :
    compare (a ++ s) (b ++ t) = (compare a b).then (compare s t) := by
  induction a generalizing b with
  | nil =>
    cases b with
    | nil => simp
    | cons y b => simp at hlen
  | cons x a ih =>
    cases b with
    | nil => simp at hlen
    | cons y b =>
      simp only [List.cons_append, List.compare_cons_cons]
      rw [ih (by simpa using hlen), Ordering.then_assoc]

section Lawful

variable [Std.LawfulEqOrd α]

/-- Once two strings diverge, whatever follows them cannot change their order. -/
theorem compare_append_of_diverge {a b : List α} (h : Diverge a b) (s t : List α) :
    compare (a ++ s) (b ++ t) = compare a b := by
  obtain ⟨p, a', b', x, y, hxy, rfl, rfl⟩ := h
  have hne : compare x y ≠ .eq := fun heq => hxy (Std.LawfulEqOrd.eq_of_compare heq)
  simp only [List.append_assoc, List.cons_append]
  rw [compare_append_of_length_eq rfl, compare_append_of_length_eq rfl]
  simp only [List.compare_cons_cons]
  cases hc : compare x y <;> simp_all

/-- The left parts of two concatenations decide first whenever neither is a
proper prefix of the other: they have one length, or they diverge. -/
theorem compare_append_of_length_eq_or_diverge {a b : List α}
    (h : a.length = b.length ∨ Diverge a b) (s t : List α) :
    compare (a ++ s) (b ++ t) = (compare a b).then (compare s t) := by
  rcases h with hlen | hdiv
  · exact compare_append_of_length_eq hlen s t
  · have hne : compare a b ≠ .eq := fun heq => hdiv.ne (Std.LawfulEqOrd.eq_of_compare heq)
    rw [compare_append_of_diverge hdiv]
    cases hc : compare a b <;> simp_all

end Lawful

/-- Concatenated encodings of two sequences compare as the sequences do
lexicographically, provided each encoding decides against the encoding it is
paired with before anything that follows it is read. -/
theorem compare_flatten_map {β : Type} (enc : β → List α) (cmp : β → β → Ordering)
    (R : β → β → Prop)
    (henc : ∀ x y, R x y → ∀ s t, compare (enc x ++ s) (enc y ++ t) = (cmp x y).then (compare s t))
    {xs ys : List β} (h : List.Forall₂ R xs ys) (s t : List α) :
    compare ((xs.map enc).flatten ++ s) ((ys.map enc).flatten ++ t) =
      (List.compareLex cmp xs ys).then (compare s t) := by
  induction h with
  | nil => simp [List.compareLex_nil_nil]
  | cons hxy _ ih =>
    simp only [List.map_cons, List.flatten_cons, List.append_assoc, List.compareLex_cons_cons]
    rw [henc _ _ hxy, ih, Ordering.then_assoc]

/-- Segment lists compared pairwise up to the shorter one, as a loop over
`zip` does; lists of different lengths that agree on the common part are
reported equal. -/
def compareZip : List α → List α → Ordering
  | x :: xs, y :: ys => (compare x y).then (compareZip xs ys)
  | _, _ => .eq

/-- On lists of one length the pairwise loop is the lexicographic order. -/
theorem compareZip_eq_compare {a b : List α} (hlen : a.length = b.length) :
    compareZip a b = compare a b := by
  induction a generalizing b with
  | nil =>
    cases b with
    | nil => rfl
    | cons y b => simp at hlen
  | cons x a ih =>
    cases b with
    | nil => simp at hlen
    | cons y b =>
      simp only [compareZip, List.compare_cons_cons]
      rw [ih (by simpa using hlen)]

end Lex

end ByteOrder
