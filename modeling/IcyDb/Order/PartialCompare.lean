import Mathlib.Order.Defs.LinearOrder

/-!
# Partial comparisons with an equality test

A comparison policy answers two questions about a pair of values: how the
two are ordered (`cmpO`, `none` where the policy does not order them) and
whether they are equal (`cmpE`, `none` where it does not compare them).
`Laws` collects what makes such a pair behave as a preorder on the pairs it
relates: the order is antisymmetric under swapping, transitive, and does not
tell apart two values it finds equivalent; the equality test is symmetric
and transitive, agrees with the order where the order is `eq`, and two
values it finds equal are ordered alike against every third.

The order may be undefined on pairs the equality test relates, and
conversely; no law asks for a value to be comparable with itself.

A keyed comparison compares the keys of two values under a total order on
keys, and is undefined where a value has no key.  It satisfies the laws
(`keyedLaws`).
-/

namespace PartialCompare

variable {α : Type}

section Laws

variable (cmpO : α → α → Option Ordering) (cmpE : α → α → Option Bool)

/-- The laws of an order comparison and an equality test that agree. -/
structure Laws : Prop where
  swap : ∀ a b, cmpO b a = (cmpO a b).map Ordering.swap
  congr_right : ∀ {a b b'}, cmpO b b' = some .eq → cmpO a b = cmpO a b'
  gt_trans : ∀ {a b c}, cmpO a b = some .gt → cmpO b c = some .gt → cmpO a c = some .gt
  order_congr_of_eq : ∀ {a a'}, cmpE a a' = some true → ∀ b, cmpO a b = cmpO a' b
  eq_of_order_eq : ∀ {a b}, cmpO a b = some .eq → cmpE a b = some true
  eq_symm : ∀ a b, cmpE b a = cmpE a b
  eq_trans : ∀ {a b}, cmpE a b = some true → ∀ c, cmpE b c = cmpE a c

end Laws

namespace Laws

variable {cmpO : α → α → Option Ordering} {cmpE : α → α → Option Bool}
variable (h : Laws cmpO cmpE)
include h

theorem swap_eq_some {a b : α} {o : Ordering} (hab : cmpO a b = some o) :
    cmpO b a = some o.swap := by
  rw [h.swap, hab]
  rfl

theorem eq_none_comm {a b : α} : cmpO b a = none ↔ cmpO a b = none := by
  rw [h.swap, Option.map_eq_none_iff]

theorem congr_left {a a' : α} (ha : cmpO a a' = some .eq) (b : α) : cmpO a b = cmpO a' b := by
  rw [h.swap b a, h.swap b a', h.congr_right ha]

theorem lt_trans {a b c : α} (hab : cmpO a b = some .lt) (hbc : cmpO b c = some .lt) :
    cmpO a c = some .lt := by
  have hca := h.gt_trans (h.swap_eq_some hbc) (h.swap_eq_some hab)
  exact h.swap_eq_some hca

/-- Transitivity through any two orderings that do not point opposite ways:
the result is the first strict one, or `eq`. -/
theorem trans {a b c : α} {o₁ o₂ : Ordering} (hab : cmpO a b = some o₁) (hbc : cmpO b c = some o₂)
    (hcompat : o₁ = o₂ ∨ o₁ = .eq ∨ o₂ = .eq) : cmpO a c = some (o₁.then o₂) := by
  rcases hcompat with rfl | rfl | rfl
  · cases o₁
    case lt => exact h.lt_trans hab hbc
    case eq => rw [h.congr_left hab, hbc]; rfl
    case gt => exact h.gt_trans hab hbc
  · rw [h.congr_left hab, hbc]
    rfl
  · rw [← h.congr_right hbc, hab]
    cases o₁ <;> rfl

end Laws

/-! ### Keyed comparisons -/

section Keyed

variable {κ : Type} (cmp : κ → κ → Ordering) (key : α → Option κ)

/-- The order of the keys, where both values have one. -/
def keyedCmp (a b : α) : Option Ordering :=
  match key a, key b with
  | some l, some r => some (cmp l r)
  | _, _ => none

/-- Equality of the keys, where both values have one. -/
def keyedEq (a b : α) : Option Bool := (keyedCmp cmp key a b).map (· == .eq)

variable {cmp key}

theorem keyedCmp_of_key {a b : α} {l r : κ} (ha : key a = some l) (hb : key b = some r) :
    keyedCmp cmp key a b = some (cmp l r) := by
  rw [keyedCmp, ha, hb]

theorem keyedCmp_of_key_none_left {a : α} (ha : key a = none) (b : α) :
    keyedCmp cmp key a b = none := by
  rw [keyedCmp, ha]

theorem keyedCmp_of_key_none_right (a : α) {b : α} (hb : key b = none) :
    keyedCmp cmp key a b = none := by
  unfold keyedCmp
  cases key a <;> rw [hb]

theorem keyedCmp_eq_some_iff {a b : α} {o : Ordering} :
    keyedCmp cmp key a b = some o ↔ ∃ l r, key a = some l ∧ key b = some r ∧ cmp l r = o := by
  unfold keyedCmp
  cases key a <;> cases key b <;> simp

theorem keyedEq_eq_some_true {a b : α} :
    keyedEq cmp key a b = some true ↔ keyedCmp cmp key a b = some .eq := by
  unfold keyedEq
  cases keyedCmp cmp key a b with
  | none => simp
  | some o => cases o <;> simp

/-- A keyed comparison under a total order on keys satisfies the laws. -/
theorem keyedLaws [Std.TransCmp cmp] : Laws (keyedCmp cmp key) (keyedEq cmp key) where
  swap a b := by
    cases ha : key a with
    | none => rw [keyedCmp_of_key_none_left ha, keyedCmp_of_key_none_right b ha]; rfl
    | some l =>
      cases hb : key b with
      | none => rw [keyedCmp_of_key_none_left hb, keyedCmp_of_key_none_right a hb]; rfl
      | some r =>
        rw [keyedCmp_of_key hb ha, keyedCmp_of_key ha hb, @Std.OrientedCmp.eq_swap _ cmp _ r l]
        rfl
  congr_right {a b b'} hbb' := by
    obtain ⟨m, m', hb, hb', hmm'⟩ := keyedCmp_eq_some_iff.mp hbb'
    cases ha : key a with
    | none => rw [keyedCmp_of_key_none_left ha, keyedCmp_of_key_none_left ha]
    | some l => rw [keyedCmp_of_key ha hb, keyedCmp_of_key ha hb', Std.TransCmp.congr_right hmm']
  gt_trans {a b c} hab hbc := by
    obtain ⟨l, m, ha, hb, hlm⟩ := keyedCmp_eq_some_iff.mp hab
    obtain ⟨m', r, hb', hc, hmr⟩ := keyedCmp_eq_some_iff.mp hbc
    obtain rfl : m = m' := Option.some.inj (hb.symm.trans hb')
    rw [keyedCmp_of_key ha hc, Std.TransCmp.gt_trans hlm hmr]
  order_congr_of_eq {a a'} haa' b := by
    obtain ⟨l, l', ha, ha', hll'⟩ := keyedCmp_eq_some_iff.mp (keyedEq_eq_some_true.mp haa')
    cases hb : key b with
    | none => rw [keyedCmp_of_key_none_right a hb, keyedCmp_of_key_none_right a' hb]
    | some r => rw [keyedCmp_of_key ha hb, keyedCmp_of_key ha' hb, Std.TransCmp.congr_left hll']
  eq_of_order_eq hab := keyedEq_eq_some_true.mpr hab
  eq_symm a b := by
    unfold keyedEq
    cases ha : key a with
    | none => rw [keyedCmp_of_key_none_left ha, keyedCmp_of_key_none_right b ha]
    | some l =>
      cases hb : key b with
      | none => rw [keyedCmp_of_key_none_left hb, keyedCmp_of_key_none_right a hb]
      | some r =>
        rw [keyedCmp_of_key ha hb, keyedCmp_of_key hb ha, @Std.OrientedCmp.eq_swap _ cmp _ r l]
        cases cmp l r <;> rfl
  eq_trans {a b} hab c := by
    obtain ⟨l, m, ha, hb, hlm⟩ := keyedCmp_eq_some_iff.mp (keyedEq_eq_some_true.mp hab)
    unfold keyedEq
    cases hc : key c with
    | none => rw [keyedCmp_of_key_none_right a hc, keyedCmp_of_key_none_right b hc]
    | some r => rw [keyedCmp_of_key ha hc, keyedCmp_of_key hb hc, Std.TransCmp.congr_left hlm]

end Keyed

end PartialCompare
