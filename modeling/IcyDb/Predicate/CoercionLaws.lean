import IcyDb.Predicate.Semantics
import IcyDb.Value.StrictOrderLaws
import IcyDb.Order.PartialCompare
import IcyDb.Types.DecimalOrder

/-!
# The laws of the coercion policies

Under every coercion policy, `compare_order` and `compare_eq` satisfy the
laws of a partial comparison with an equality (`PartialCompare.Laws`):

* under `Strict` and `CollectionElement` they are `strict_order_cmp` and
  `==` within one variant (`strictLaws`);
* under `NumericWiden` both compare the rational values of the `Decimal`
  forms, where both values have one;
* under `TextCasefold` both compare the folded texts, where both values
  are text.

Every policy also reads a literal only up to `==`: two `==` literals are
compared alike with every value (`compareEq_congr_right`,
`compareOrder_congr_right`), so every comparison operator evaluates alike
against them (`evalCompareValues_congr_right`).
-/

namespace IcyDb

open PartialCompare Value

theorem Float32.eq_of_bits_eq {a b : Float32} (h : a.bits = b.bits) : a = b := by
  cases a
  cases b
  cases h
  rfl

theorem Float64.eq_of_bits_eq {a b : Float64} (h : a.bits = b.bits) : a = b := by
  cases a
  cases b
  cases h
  rfl

/-! ### `Strict` and `CollectionElement` -/

namespace Value

/-- `==` within one variant, as `compare_eq` asks it under `Strict`. -/
def strictEq (left right : Value) : Option Bool :=
  if left.sameVariant right then some (left.beq right) else none

theorem beq_comm (x y : Value) : beq y x = beq x y := by
  cases hxy : beq x y with
  | true => exact beq_symm hxy
  | false =>
    cases hyx : beq y x with
    | true => rw [beq_symm hyx] at hxy; cases hxy
    | false => rfl

theorem beq_congr_right (x : Value) {y y' : Value} (h : beq y y' = true) : beq x y = beq x y' := by
  cases hxy : beq x y with
  | true => exact (beq_trans hxy h).symm
  | false =>
    cases hxy' : beq x y' with
    | true => rw [beq_trans hxy' (beq_symm h)] at hxy; cases hxy
    | false => rfl

theorem sameVariant_comm (x y : Value) : sameVariant y x = sameVariant x y := by
  simp only [sameVariant, eq_comm]

theorem sameVariant_of_beq {x y : Value} (h : beq x y = true) : sameVariant x y = true :=
  (sameVariant_iff x y).mpr (canonicalTag_eq_of_beq h)

theorem strictEq_congr_right (x : Value) {y y' : Value} (h : beq y y' = true) :
    strictEq x y = strictEq x y' := by
  have htag : sameVariant x y = sameVariant x y' := by
    simp only [sameVariant, canonicalTag_eq_of_beq h]
  rw [strictEq, strictEq, htag, beq_congr_right x h]

theorem strictEq_eq_some_true {x y : Value} : strictEq x y = some true ↔ beq x y = true := by
  unfold strictEq
  constructor
  · intro h
    split at h
    · exact Option.some.inj h
    · cases h
  · intro h
    rw [if_pos (sameVariant_of_beq h), h]

/-- `strict_order_cmp` with `==` within a variant satisfy the laws. -/
theorem strictLaws : Laws strictOrderCmp strictEq where
  swap := strictOrderCmp_swap
  congr_right {a b b'} h := strictOrderCmp_congr_right a b b' (beq_of_strictOrderCmp_eq h)
  gt_trans {a b c} := strictOrderCmp_gt_trans a b c
  order_congr_of_eq h b := strictOrderCmp_congr_left (strictEq_eq_some_true.mp h) b
  eq_of_order_eq h := strictEq_eq_some_true.mpr (beq_of_strictOrderCmp_eq h)
  eq_symm a b := by rw [strictEq, strictEq, sameVariant_comm, beq_comm]
  eq_trans {a b} h c := by
    have hab := strictEq_eq_some_true.mp h
    have htag : sameVariant b c = sameVariant a c := by
      simp only [sameVariant, canonicalTag_eq_of_beq hab]
    have hbeq : beq b c = beq a c := by
      rw [beq_comm c b, ← beq_congr_right c hab, beq_comm c a]
    rw [strictEq, strictEq, htag, hbeq]

end Value

section Policies

variable (fd : FloatDecimal) (unicodeLowercase : List UInt8 → List UInt8)

theorem compareOrder_strict (left right : Value) :
    compareOrder fd unicodeLowercase left right .strict = strictOrderCmp left right := by
  unfold compareOrder
  by_cases h : left.sameVariant right
  · rw [h]
    rfl
  · rw [Bool.not_eq_true] at h
    rw [h, strictOrderCmp_of_tag_ne fun htag => by rw [(sameVariant_iff _ _).mpr htag] at h; cases h]
    rfl

theorem compareOrder_collectionElement (left right : Value) :
    compareOrder fd unicodeLowercase left right .collectionElement = strictOrderCmp left right :=
  compareOrder_strict fd unicodeLowercase left right

/-! ### `NumericWiden` -/

/-- The rational value of a value's `Decimal` form, where it has one. -/
def numericRat (v : Value) : Option ℚ := (v.coerceNumericDecimal fd).map Decimal.toRat

theorem compareOrder_numericWiden (left right : Value) :
    compareOrder fd unicodeLowercase left right .numericWiden =
      keyedCmp compare (numericRat fd) left right := by
  show compareNumericOrder fd left right = _
  unfold compareNumericOrder keyedCmp numericRat
  cases left.coerceNumericDecimal fd <;> cases right.coerceNumericDecimal fd
  all_goals simp [Decimal.partialCmp, Decimal.cmp, Decimal.cmpDecimal_eq_compare_toRat]

theorem compareEq_numericWiden (left right : Value) :
    compareEq fd unicodeLowercase left right .numericWiden =
      keyedEq compare (numericRat fd) left right := by
  show (compareNumericOrder fd left right).map (· == .eq) = _
  rw [keyedEq, ← compareOrder_numericWiden fd unicodeLowercase]
  rfl

/-- Two `==` values have one rational value, or none. -/
theorem numericRat_congr {b b' : Value} (h : beq b b' = true) : numericRat fd b = numericRat fd b' := by
  unfold numericRat
  cases b <;> cases b' <;>
    simp [beq, coerceNumericDecimal, supportsNumericCoercion, toDecimal] at h ⊢
  case decimal.decimal => exact (Decimal.toRat_eq_iff_normalizedParts_eq _ _).mpr h
  case float32.float32 => rw [Float32.eq_of_bits_eq h]
  case float64.float64 => rw [Float64.eq_of_bits_eq h]
  all_goals
    subst h
    rfl

/-! ### `TextCasefold` -/

theorem compareOrder_textCasefold (left right : Value) :
    compareOrder fd unicodeLowercase left right .textCasefold =
      keyedCmp compare (casefoldValue unicodeLowercase) left right := by
  unfold compareOrder keyedCmp
  cases casefoldValue unicodeLowercase left <;> cases casefoldValue unicodeLowercase right <;> rfl

theorem compareEq_textCasefold (left right : Value) :
    compareEq fd unicodeLowercase left right .textCasefold =
      keyedEq compare (casefoldValue unicodeLowercase) left right := by
  unfold compareEq keyedEq keyedCmp
  cases casefoldValue unicodeLowercase left <;> cases casefoldValue unicodeLowercase right
  case some.some l r =>
    -- folded texts are equal exactly when they compare `Equal`
    rw [Option.map_some, Option.some.injEq, Bool.eq_iff_iff, beq_iff_eq, decide_eq_true_iff,
      Std.LawfulEqCmp.compare_eq_iff_eq]
  all_goals rfl

theorem casefoldValue_congr {b b' : Value} (h : beq b b' = true) :
    casefoldValue unicodeLowercase b = casefoldValue unicodeLowercase b' := by
  cases b <;> cases b' <;> simp [beq, casefoldValue] at h ⊢
  subst h
  rfl

/-! ### Every policy -/

/-- Under every coercion, the order and the equality satisfy the laws. -/
theorem compareLaws (coercion : CoercionId) :
    Laws (fun a b => compareOrder fd unicodeLowercase a b coercion)
      (fun a b => compareEq fd unicodeLowercase a b coercion) := by
  cases coercion with
  | strict | collectionElement =>
    simp only [compareOrder_strict, compareOrder_collectionElement]
    exact strictLaws
  | numericWiden =>
    simp only [compareOrder_numericWiden, compareEq_numericWiden]
    exact keyedLaws
  | textCasefold =>
    simp only [compareOrder_textCasefold, compareEq_textCasefold]
    exact keyedLaws

/-- Every policy's equality reads its right value only up to `==`. -/
theorem compareEq_congr_right (coercion : CoercionId) (a : Value) {b b' : Value}
    (h : beq b b' = true) :
    compareEq fd unicodeLowercase a b coercion = compareEq fd unicodeLowercase a b' coercion := by
  cases coercion with
  | strict | collectionElement => exact strictEq_congr_right a h
  | numericWiden =>
    rw [compareEq_numericWiden, compareEq_numericWiden, keyedEq, keyedEq, keyedCmp, keyedCmp,
      numericRat_congr fd h]
  | textCasefold =>
    rw [compareEq_textCasefold, compareEq_textCasefold, keyedEq, keyedEq, keyedCmp, keyedCmp,
      casefoldValue_congr unicodeLowercase h]

/-- Every policy's order reads its right value only up to `==`. -/
theorem compareOrder_congr_right (coercion : CoercionId) (a : Value) {b b' : Value}
    (h : beq b b' = true) :
    compareOrder fd unicodeLowercase a b coercion = compareOrder fd unicodeLowercase a b' coercion := by
  cases coercion with
  | strict | collectionElement =>
    simp only [compareOrder_strict, compareOrder_collectionElement]
    exact strictOrderCmp_congr_right a b b' h
  | numericWiden =>
    rw [compareOrder_numericWiden, compareOrder_numericWiden, keyedCmp, keyedCmp,
      numericRat_congr fd h]
  | textCasefold =>
    rw [compareOrder_textCasefold, compareOrder_textCasefold, keyedCmp, keyedCmp,
      casefoldValue_congr unicodeLowercase h]

/-! ### Every comparison reads its literal up to `==` -/

theorem forall₂_of_beqList : (xs ys : List Value) → beqList xs ys = true →
    List.Forall₂ (fun a b => beq a b = true) xs ys
  | [], [], _ => .nil
  | [], _ :: _, h | _ :: _, [], h => by simp [beqList] at h
  | x :: xs, y :: ys, h => by
    simp only [beqList, Bool.and_eq_true] at h
    exact .cons h.1 (forall₂_of_beqList xs ys h.2)

theorem eq_list_of_canonicalTag {y : Value} (h : y.canonicalTag = .list) : ∃ b, y = .list b := by
  cases y <;> first | exact ⟨_, rfl⟩ | cases h

theorem eq_text_of_canonicalTag {y : Value} (h : y.canonicalTag = .text) : ∃ b, y = .text b := by
  cases y <;> first | exact ⟨_, rfl⟩ | cases h

/-- A text is `==` only to itself. -/
theorem eq_of_beq_text {t : List UInt8} {y : Value} (h : beq (.text t) y = true) : y = .text t := by
  obtain ⟨t', rfl⟩ := eq_text_of_canonicalTag (canonicalTag_eq_of_beq h).symm
  rw [beq_text, decide_eq_true_iff] at h
  rw [h]

theorem inListLoop_congr (actual : Value) (coercion : CoercionId) {items items' : List Value}
    (h : List.Forall₂ (fun a b => beq a b = true) items items') (sawValid : Bool) :
    inListLoop fd unicodeLowercase actual coercion items sawValid =
      inListLoop fd unicodeLowercase actual coercion items' sawValid := by
  induction h generalizing sawValid with
  | nil => rfl
  | cons hab _ ih =>
    rw [inListLoop, inListLoop, compareEq_congr_right fd unicodeLowercase coercion actual hab]
    split <;> simp only [ih]

theorem inList_congr_right (actual : Value) {b b' : Value} (h : beq b b' = true)
    (coercion : CoercionId) :
    inList fd unicodeLowercase actual b coercion = inList fd unicodeLowercase actual b' coercion := by
  by_cases htag : b.canonicalTag = .list
  · obtain ⟨items, rfl⟩ := eq_list_of_canonicalTag htag
    obtain ⟨items', rfl⟩ := eq_list_of_canonicalTag ((canonicalTag_eq_of_beq h).symm.trans htag)
    have hitems : beqList items items' = true := by simpa [beq] using h
    exact inListLoop_congr fd unicodeLowercase actual coercion (forall₂_of_beqList _ _ hitems) false
  · have htag' : b'.canonicalTag ≠ .list := (canonicalTag_eq_of_beq h) ▸ htag
    have hnone : ∀ v : Value, v.canonicalTag ≠ .list →
        inList fd unicodeLowercase actual v coercion = none := by
      intro v hv
      cases v <;> first | rfl | exact absurd rfl hv
    rw [hnone b htag, hnone b' htag']

theorem containsValue_congr_right (actual : Value) {b b' : Value} (h : beq b b' = true)
    (coercion : CoercionId) :
    containsValue fd unicodeLowercase actual b coercion =
      containsValue fd unicodeLowercase actual b' coercion := by
  unfold containsValue
  cases actual <;> try rfl
  simp only [compareEq_congr_right fd unicodeLowercase coercion _ h]

theorem textOp_congr_right (left : Value) {b b' : Value} (h : beq b b' = true) (mode : TextMode)
    (f : List UInt8 → List UInt8 → Bool) :
    textOp unicodeLowercase left b mode f = textOp unicodeLowercase left b' mode f := by
  by_cases htag : b.canonicalTag = .text
  · obtain ⟨t, rfl⟩ := eq_text_of_canonicalTag htag
    rw [eq_of_beq_text h]
  · have htag' : b'.canonicalTag ≠ .text := (canonicalTag_eq_of_beq h) ▸ htag
    have hnone : ∀ v : Value, v.canonicalTag ≠ .text → textOp unicodeLowercase left v mode f = none := by
      intro v hv
      cases left <;> cases v <;> first | rfl | exact absurd rfl hv
    rw [hnone b htag, hnone b' htag']

theorem compareText_congr_right (left : Value) {b b' : Value} (h : beq b b' = true)
    (coercion : CoercionId) (op : TextOp) :
    compareText unicodeLowercase left b coercion op = compareText unicodeLowercase left b' coercion op := by
  by_cases htag : b.canonicalTag = .text
  · obtain ⟨t, rfl⟩ := eq_text_of_canonicalTag htag
    rw [eq_of_beq_text h]
  · have htag' : b'.canonicalTag ≠ .text := (canonicalTag_eq_of_beq h) ▸ htag
    have hnone : ∀ v : Value, v.canonicalTag ≠ .text →
        compareText unicodeLowercase left v coercion op = none := by
      intro v hv
      cases left <;> cases v <;> first | rfl | exact absurd rfl hv
    rw [hnone b htag, hnone b' htag']

/-- Every comparison operator evaluates alike against two `==` literals. -/
theorem evalCompareValues_congr_right (actual : Value) (op : CompareOp) {b b' : Value}
    (h : beq b b' = true) (coercion : CoercionId) :
    evalCompareValues fd unicodeLowercase actual op b coercion =
      evalCompareValues fd unicodeLowercase actual op b' coercion := by
  cases op
  case eq | ne =>
    simp only [evalCompareValues, compareEq_congr_right fd unicodeLowercase coercion actual h]
  case lt | lte | gt | gte =>
    simp only [evalCompareValues, compareOrder_congr_right fd unicodeLowercase coercion actual h]
  case in_ | notIn =>
    simp only [evalCompareValues, inList_congr_right fd unicodeLowercase actual h]
  case contains =>
    simp only [evalCompareValues, containsValue_congr_right fd unicodeLowercase actual h]
  case startsWith | endsWith =>
    simp only [evalCompareValues, compareText_congr_right unicodeLowercase actual h]


/-! ### The laws, read for `compare_order` and `compare_eq` -/

section Read

variable {fd unicodeLowercase} {coercion : CoercionId}

theorem compareOrder_swap_eq_some {a b : Value} {o : Ordering}
    (h : compareOrder fd unicodeLowercase a b coercion = some o) :
    compareOrder fd unicodeLowercase b a coercion = some o.swap :=
  (compareLaws fd unicodeLowercase coercion).swap_eq_some h

theorem compareOrder_trans {a b c : Value} {o₁ o₂ : Ordering}
    (hab : compareOrder fd unicodeLowercase a b coercion = some o₁)
    (hbc : compareOrder fd unicodeLowercase b c coercion = some o₂)
    (hcompat : o₁ = o₂ ∨ o₁ = .eq ∨ o₂ = .eq) :
    compareOrder fd unicodeLowercase a c coercion = some (o₁.then o₂) :=
  (compareLaws fd unicodeLowercase coercion).trans hab hbc hcompat

theorem compareOrder_congr_right_of_eq {b b' : Value}
    (h : compareOrder fd unicodeLowercase b b' coercion = some .eq) (a : Value) :
    compareOrder fd unicodeLowercase a b coercion = compareOrder fd unicodeLowercase a b' coercion :=
  (compareLaws fd unicodeLowercase coercion).congr_right h

theorem compareOrder_congr_left_of_compareEq {a a' : Value}
    (h : compareEq fd unicodeLowercase a a' coercion = some true) (b : Value) :
    compareOrder fd unicodeLowercase a b coercion = compareOrder fd unicodeLowercase a' b coercion :=
  (compareLaws fd unicodeLowercase coercion).order_congr_of_eq h b

theorem compareEq_of_compareOrder_eq {a b : Value}
    (h : compareOrder fd unicodeLowercase a b coercion = some .eq) :
    compareEq fd unicodeLowercase a b coercion = some true :=
  (compareLaws fd unicodeLowercase coercion).eq_of_order_eq h

theorem compareEq_trans {a b : Value} (h : compareEq fd unicodeLowercase a b coercion = some true)
    (c : Value) :
    compareEq fd unicodeLowercase b c coercion = compareEq fd unicodeLowercase a c coercion :=
  (compareLaws fd unicodeLowercase coercion).eq_trans h c

theorem compareEq_comm (a b : Value) :
    compareEq fd unicodeLowercase b a coercion = compareEq fd unicodeLowercase a b coercion :=
  (compareLaws fd unicodeLowercase coercion).eq_symm a b

theorem compareOrder_eq_none_comm {a b : Value} :
    compareOrder fd unicodeLowercase b a coercion = none ↔
      compareOrder fd unicodeLowercase a b coercion = none :=
  (compareLaws fd unicodeLowercase coercion).eq_none_comm

end Read

end Policies

end IcyDb
