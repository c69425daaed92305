import Mathlib.Data.List.Destutter

/-!
# Conjunctions and disjunctions over rewritten lists

A list read as the conjunction (`List.all`) or the disjunction
(`List.any`) of a test on its elements keeps its value under the rewrites a
simplifier makes: dropping an element another one implies, replacing two
elements by one equivalent to both, reordering, and dropping an element
equivalent to its neighbour (`List.destutter`).  A conjunction with two
contradictory elements is false.  A list that a partial map sends to a list
of results is the map of those results back.
-/

namespace ListAll

variable {α : Type} (f : α → Bool)

/-! ### Removing and replacing elements -/

/-- Dropping an element that another one implies keeps the conjunction. -/
theorem all_eraseIdx_of_imp {l : List α} {i j : Nat} (hi : i < l.length) (hij : i ≠ j)
    (himp : f l[i] = true → ∀ hj : j < l.length, f l[j] = true) :
    (l.eraseIdx j).all f = l.all f := by
  apply Bool.eq_iff_iff.mpr
  rw [List.all_eq_true, List.all_eq_true]
  constructor
  · intro h x hx
    obtain ⟨k, hk, rfl⟩ := List.getElem_of_mem hx
    by_cases hkj : k = j
    · subst hkj
      exact himp (h _ (List.mem_eraseIdx_iff_getElem.mpr ⟨i, hi, hij, rfl⟩)) hk
    · exact h _ (List.mem_eraseIdx_iff_getElem.mpr ⟨k, hk, hkj, rfl⟩)
  · intro h x hx
    obtain ⟨k, hk, -, rfl⟩ := List.mem_eraseIdx_iff_getElem.mp hx
    exact h _ (List.getElem_mem hk)

/-- Replacing the elements at `i` and `j` by one element equivalent to their
conjunction keeps the conjunction. -/
theorem all_set_eraseIdx {l : List α} {i j : Nat} (hi : i < l.length) (hj : j < l.length)
    (hij : i ≠ j) (r : α) (hr : f r = (f l[i] && f l[j])) :
    ((l.set i r).eraseIdx j).all f = l.all f := by
  have hmem : ∀ k (hk : k < (l.set i r).length), k ≠ j → (l.set i r)[k] ∈ (l.set i r).eraseIdx j :=
    fun k hk hkj => List.mem_eraseIdx_iff_getElem.mpr ⟨k, hk, hkj, rfl⟩
  apply Bool.eq_iff_iff.mpr
  rw [List.all_eq_true, List.all_eq_true]
  constructor
  · intro h x hx
    -- the replacement stands for the two elements it replaced
    have hr' := h _ (hmem i (by simpa using hi) hij)
    simp only [List.getElem_set_self, hr, Bool.and_eq_true] at hr'
    obtain ⟨k, hk, rfl⟩ := List.getElem_of_mem hx
    by_cases hki : k = i
    · subst hki
      exact hr'.1
    by_cases hkj : k = j
    · subst hkj
      exact hr'.2
    · have hk' := h _ (hmem k (by simpa using hk) hkj)
      rwa [List.getElem_set_ne (Ne.symm hki)] at hk'
  · intro h x hx
    obtain ⟨k, hk, -, rfl⟩ := List.mem_eraseIdx_iff_getElem.mp hx
    rw [List.getElem_set]
    split
    · rw [hr, h _ (List.getElem_mem hi), h _ (List.getElem_mem hj)]
      rfl
    · exact h _ (List.getElem_mem _)

/-- Two contradictory elements make the conjunction false. -/
theorem all_eq_false_of_contra {l : List α} {i j : Nat} (hi : i < l.length) (hj : j < l.length)
    (hcontra : f l[i] = true → f l[j] = true → False) : l.all f = false := by
  rw [Bool.eq_false_iff]
  intro h
  rw [List.all_eq_true] at h
  exact hcontra (h _ (List.getElem_mem hi)) (h _ (List.getElem_mem hj))

/-! ### Dropping neighbours -/

variable {R : α → α → Prop} [DecidableRel R]

/-- Destuttering drops only elements equivalent to the one kept before them. -/
theorem all_destutter' (hR : ∀ a b, ¬ R a b → f a = f b) (a : α) (l : List α) :
    (l.destutter' R a).all f = (a :: l).all f := by
  induction l generalizing a with
  | nil => rfl
  | cons b l ih =>
    by_cases h : R a b
    · rw [List.destutter'_cons_pos _ h, List.all_cons, ih b]
      rfl
    · rw [List.destutter'_cons_neg _ h, ih a, List.all_cons, List.all_cons, List.all_cons, ← hR a b h,
        ← Bool.and_assoc, Bool.and_self]

theorem any_destutter' (hR : ∀ a b, ¬ R a b → f a = f b) (a : α) (l : List α) :
    (l.destutter' R a).any f = (a :: l).any f := by
  induction l generalizing a with
  | nil => rfl
  | cons b l ih =>
    by_cases h : R a b
    · rw [List.destutter'_cons_pos _ h, List.any_cons, ih b]
      rfl
    · rw [List.destutter'_cons_neg _ h, ih a, List.any_cons, List.any_cons, List.any_cons, ← hR a b h,
        ← Bool.or_assoc, Bool.or_self]

theorem all_destutter (hR : ∀ a b, ¬ R a b → f a = f b) (l : List α) :
    (l.destutter R).all f = l.all f := by
  cases l with
  | nil => rfl
  | cons a l => exact all_destutter' f hR a l

theorem any_destutter (hR : ∀ a b, ¬ R a b → f a = f b) (l : List α) :
    (l.destutter R).any f = l.any f := by
  cases l with
  | nil => rfl
  | cons a l => exact any_destutter' f hR a l

/-! ### Partial maps -/

/-- A successful `mapM` into `Option` is a `map` back by any left inverse of
its step. -/
theorem eq_map_of_mapM_eq_some {β : Type} {g : α → Option β} {inv : β → α}
    (hinv : ∀ a b, g a = some b → a = inv b) {l : List α} {r : List β} (hl : l.mapM g = some r) :
    l = r.map inv := by
  induction l generalizing r with
  | nil =>
    cases hl
    rfl
  | cons a l ih =>
    simp only [List.mapM_cons, Option.bind_eq_bind, Option.bind_eq_some_iff, Option.pure_def,
      Option.some.injEq] at hl
    obtain ⟨b, hb, bs, hbs, rfl⟩ := hl
    rw [List.map_cons, ← hinv a b hb, ← ih hbs]

end ListAll
