import IcyDb.Value.Equality
import IcyDb.Value.CompareLaws
import IcyDb.Types.DecimalOrder

/-!
# Equality is the canonical order's `Equal`

`Value`'s derived `==` and `canonical_cmp` agree on what is equal: `x == y`
exactly when `canonical_cmp` says `Equal` (`beq_iff_canonicalCmp_eq`).  Both
read a decimal through its normal form and a float through its bits, and the
canonical order decides every other field by an injective key.  The canonical
order is the order of `orderKey`, so `==` is equality of order keys and hence
an equivalence.

`canonical_value_compare` compares two values numerically where both have a
`Decimal` form.  Within one variant the numeric comparison says `Equal`
exactly when the canonical one does, provided the float conversions keep
distinct floats apart (`FloatDecimal.Injective`).
-/

namespace IcyDb

open ByteOrder

/-! ### Atoms whose order says `Equal` only for equal atoms -/

theorem Account.cmp_eq_eq_iff (a b : Account) : a.cmp b = .eq ↔ a = b := by
  rw [← Account.compare_storedLayout, Std.compare_eq_iff_eq]
  constructor
  · intro h
    have hb := Account.tryFromBytes_storedLayout b
    rw [← h, Account.tryFromBytes_storedLayout] at hb
    exact Except.ok.inj hb
  · rintro rfl
    rfl

theorem Date.cmp_eq_eq_iff (a b : Date) : a.cmp b = .eq ↔ a = b := by
  rw [Date.cmp, Std.compare_eq_iff_eq, BitVec.toInt_inj]
  cases a
  cases b
  simp

theorem Duration.cmp_eq_eq_iff (a b : Duration) : a.cmp b = .eq ↔ a = b := by
  rw [Duration.cmp, Std.compare_eq_iff_eq, BitVec.toNat_inj]
  cases a
  cases b
  simp

theorem Timestamp.cmp_eq_eq_iff (a b : Timestamp) : a.cmp b = .eq ↔ a = b := by
  rw [Timestamp.cmp, Std.compare_eq_iff_eq, BitVec.toInt_inj]
  cases a
  cases b
  simp

theorem Float32.cmp_eq_eq_iff (a b : Float32) : a.cmp b = .eq ↔ a.bits = b.bits := by
  rw [Float32.cmp, Std.compare_eq_iff_eq, BitVec.toInt_inj]
  exact totalOrderKey_injective.eq_iff

theorem Float64.cmp_eq_eq_iff (a b : Float64) : a.cmp b = .eq ↔ a.bits = b.bits := by
  rw [Float64.cmp, Std.compare_eq_iff_eq, BitVec.toInt_inj]
  exact totalOrderKey_injective.eq_iff

theorem Principal.cmp_eq_eq_iff (a b : Principal) : a.cmp b = .eq ↔ a = b := by
  rw [Principal.cmp_eq, Ordering.then_eq_eq, Std.compare_eq_iff_eq, Std.compare_eq_iff_eq]
  cases a
  cases b
  simp only [Principal.mk.injEq, and_iff_right_iff_imp]
  exact congrArg List.length

theorem Subaccount.cmp_eq_eq_iff (a b : Subaccount) : a.cmp b = .eq ↔ a = b := by
  rw [Subaccount.cmp, Std.compare_eq_iff_eq]
  cases a
  cases b
  simp

theorem Ulid.cmp_eq_eq_iff (a b : Ulid) : a.cmp b = .eq ↔ a = b := by
  rw [Ulid.cmp, Std.compare_eq_iff_eq]
  cases a
  cases b
  simp

theorem EnumTypeId.compare_eq_eq_iff (a b : EnumTypeId) :
    compare a.id.toNat b.id.toNat = .eq ↔ a = b := by
  rw [Std.compare_eq_iff_eq, BitVec.toNat_inj]
  cases a
  cases b
  simp

theorem EnumVariantId.compare_eq_eq_iff (a b : EnumVariantId) :
    compare a.id.toNat b.id.toNat = .eq ↔ a = b := by
  rw [Std.compare_eq_iff_eq, BitVec.toNat_inj]
  cases a
  cases b
  simp

attribute [ext] Float32 Float64

/-- The float conversions keep distinct floats apart: two floats whose
`Decimal` forms denote the same number have the same bits.  The source's
conversions print the shortest decimal text that reads back as the float and
parse it exactly, which has this property. -/
structure FloatDecimal.Injective (fd : FloatDecimal) : Prop where
  f32 : ∀ a b d e, fd.fromF32Lossy a = some d → fd.fromF32Lossy b = some e →
    d.toRat = e.toRat → a.bits = b.bits
  f64 : ∀ a b d e, fd.fromF64Lossy a = some d → fd.fromF64Lossy b = some e →
    d.toRat = e.toRat → a.bits = b.bits

namespace Value

/-! ### `==` is the canonical order's `Equal` -/

/-- Values of different variants are neither `==` nor canonically `Equal`. -/
theorem beq_iff_of_tag_ne {x y : Value} (h : x.canonicalTag ≠ y.canonicalTag) :
    beq x y = true ↔ canonicalCmp x y = .eq := by
  rw [beq_of_tag_ne h, canonicalCmp_of_tag_ne h]
  simp [compare_canonicalRank_ne_eq h]

theorem compare_succ_eq_eq_iff (m n : Nat) :
    compare (m + 1) (n + 1) = .eq ↔ compare m n = .eq := by
  simp

mutual

/-- `x == y` exactly when `canonical_cmp x y` is `Equal`. -/
theorem beq_iff_canonicalCmp_eq : (x y : Value) → (beq x y = true ↔ canonicalCmp x y = .eq)
  | account a, y => by
    cases y
    case account b => simp [beq, Account.cmp_eq_eq_iff]
    all_goals exact beq_iff_of_tag_ne fun h => ValueTag.noConfusion h
  | blob a, y => by
    cases y
    case blob b => simp [beq]
    all_goals exact beq_iff_of_tag_ne fun h => ValueTag.noConfusion h
  | bool a, y => by
    cases y
    case bool b => simp [beq]
    all_goals exact beq_iff_of_tag_ne fun h => ValueTag.noConfusion h
  | date a, y => by
    cases y
    case date b => simp [beq, Date.cmp_eq_eq_iff]
    all_goals exact beq_iff_of_tag_ne fun h => ValueTag.noConfusion h
  | decimal a, y => by
    cases y
    case decimal b => simp [beq, Decimal.cmp_eq_eq_iff]
    all_goals exact beq_iff_of_tag_ne fun h => ValueTag.noConfusion h
  | duration a, y => by
    cases y
    case duration b => simp [beq, Duration.cmp_eq_eq_iff]
    all_goals exact beq_iff_of_tag_ne fun h => ValueTag.noConfusion h
  | enum t v p, y => by
    cases y
    case enum u w q =>
      -- type, variant, then the body
      simp only [beq, canonicalCmp_enum, Ordering.then_eq_eq, EnumTypeId.compare_eq_eq_iff,
        EnumVariantId.compare_eq_eq_iff, Bool.and_eq_true, decide_eq_true_eq,
        beqPayload_iff_canonicalCmpPayload_eq p q]
    all_goals exact beq_iff_of_tag_ne fun h => ValueTag.noConfusion h
  | float32 a, y => by
    cases y
    case float32 b => simp [beq, Float32.cmp_eq_eq_iff]
    all_goals exact beq_iff_of_tag_ne fun h => ValueTag.noConfusion h
  | float64 a, y => by
    cases y
    case float64 b => simp [beq, Float64.cmp_eq_eq_iff]
    all_goals exact beq_iff_of_tag_ne fun h => ValueTag.noConfusion h
  | int64 a, y => by
    cases y
    case int64 b => simp [beq, BitVec.toInt_inj]
    all_goals exact beq_iff_of_tag_ne fun h => ValueTag.noConfusion h
  | int128 a, y => by
    cases y
    case int128 b => simp [beq, BitVec.toInt_inj]
    all_goals exact beq_iff_of_tag_ne fun h => ValueTag.noConfusion h
  | intBig a, y => by
    cases y
    case intBig b => simp [beq]
    all_goals exact beq_iff_of_tag_ne fun h => ValueTag.noConfusion h
  | list a, y => by
    cases y
    case list b =>
      rw [canonicalCmp_list]
      exact beqList_iff_canonicalCmpValueList_eq a b
    all_goals exact beq_iff_of_tag_ne fun h => ValueTag.noConfusion h
  | map a, y => by
    cases y
    case map b =>
      rw [canonicalCmp_map]
      exact beqMap_iff_canonicalCmpValueMap_eq a b
    all_goals exact beq_iff_of_tag_ne fun h => ValueTag.noConfusion h
  | null, y => by
    cases y
    case null => simp [beq]
    all_goals exact beq_iff_of_tag_ne fun h => ValueTag.noConfusion h
  | principal a, y => by
    cases y
    case principal b => simp [beq, Principal.cmp_eq_eq_iff]
    all_goals exact beq_iff_of_tag_ne fun h => ValueTag.noConfusion h
  | subaccount a, y => by
    cases y
    case subaccount b => simp [beq, Subaccount.cmp_eq_eq_iff]
    all_goals exact beq_iff_of_tag_ne fun h => ValueTag.noConfusion h
  | text a, y => by
    cases y
    case text b => simp [beq]
    all_goals exact beq_iff_of_tag_ne fun h => ValueTag.noConfusion h
  | timestamp a, y => by
    cases y
    case timestamp b => simp [beq, Timestamp.cmp_eq_eq_iff]
    all_goals exact beq_iff_of_tag_ne fun h => ValueTag.noConfusion h
  | nat64 a, y => by
    cases y
    case nat64 b => simp [beq, BitVec.toNat_inj]
    all_goals exact beq_iff_of_tag_ne fun h => ValueTag.noConfusion h
  | nat128 a, y => by
    cases y
    case nat128 b => simp [beq, BitVec.toNat_inj]
    all_goals exact beq_iff_of_tag_ne fun h => ValueTag.noConfusion h
  | natBig a, y => by
    cases y
    case natBig b => simp [beq]
    all_goals exact beq_iff_of_tag_ne fun h => ValueTag.noConfusion h
  | ulid a, y => by
    cases y
    case ulid b => simp [beq, Ulid.cmp_eq_eq_iff]
    all_goals exact beq_iff_of_tag_ne fun h => ValueTag.noConfusion h
  | unit, y => by
    cases y
    case unit => simp [beq]
    all_goals exact beq_iff_of_tag_ne fun h => ValueTag.noConfusion h

/-- Lists: equal elements pairwise and equal lengths. -/
theorem beqList_iff_canonicalCmpValueList_eq : (xs ys : List Value) →
    (beqList xs ys = true ↔
      (canonicalCmpValueList xs ys).then (compare xs.length ys.length) = .eq)
  | [], [] => by simp [beqList, canonicalCmpValueList]
  | [], y :: ys => by simp [beqList, canonicalCmpValueList]
  | x :: xs, [] => by simp [beqList, canonicalCmpValueList]
  | x :: xs, y :: ys => by
    simp only [beqList, canonicalCmpValueList, Bool.and_eq_true, List.length_cons,
      Ordering.then_eq_eq, compare_succ_eq_eq_iff, beq_iff_canonicalCmp_eq x y,
      beqList_iff_canonicalCmpValueList_eq xs ys, and_assoc]

/-- Maps: equal entries pairwise, key and value, and equal lengths. -/
theorem beqMap_iff_canonicalCmpValueMap_eq : (xs ys : List (Value × Value)) →
    (beqMap xs ys = true ↔
      (canonicalCmpValueMap xs ys).then (compare xs.length ys.length) = .eq)
  | [], [] => by simp [beqMap, canonicalCmpValueMap]
  | [], (rk, rv) :: rs => by simp [beqMap, canonicalCmpValueMap]
  | (lk, lv) :: ls, [] => by simp [beqMap, canonicalCmpValueMap]
  | (lk, lv) :: ls, (rk, rv) :: rs => by
    simp only [beqMap, canonicalCmpValueMap, Bool.and_eq_true, List.length_cons,
      Ordering.then_eq_eq, compare_succ_eq_eq_iff, beq_iff_canonicalCmp_eq lk rk,
      beq_iff_canonicalCmp_eq lv rv, beqMap_iff_canonicalCmpValueMap_eq ls rs, and_assoc]

/-- Enum bodies: both unit, or both payloads equal. -/
theorem beqPayload_iff_canonicalCmpPayload_eq : (p q : Option Value) →
    (beqPayload p q = true ↔ canonicalCmpPayload p q = .eq)
  | none, none => by simp [beqPayload, canonicalCmpPayload]
  | none, some _ => by simp [beqPayload, canonicalCmpPayload]
  | some _, none => by simp [beqPayload, canonicalCmpPayload]
  | some x, some y => by
    simp only [beqPayload, canonicalCmpPayload]
    exact beq_iff_canonicalCmp_eq x y

end

/-- `==` is equality of order keys. -/
theorem beq_iff_orderKey_eq (x y : Value) : beq x y = true ↔ orderKey x = orderKey y := by
  rw [beq_iff_canonicalCmp_eq, canonicalCmp_eq_compare_orderKey, Std.compare_eq_iff_eq]

theorem beq_refl (x : Value) : beq x x = true := (beq_iff_orderKey_eq x x).mpr rfl

theorem beq_symm {x y : Value} (h : beq x y = true) : beq y x = true :=
  (beq_iff_orderKey_eq y x).mpr ((beq_iff_orderKey_eq x y).mp h).symm

theorem beq_trans {x y z : Value} (hxy : beq x y = true) (hyz : beq y z = true) :
    beq x z = true :=
  (beq_iff_orderKey_eq x z).mpr (((beq_iff_orderKey_eq x y).mp hxy).trans
    ((beq_iff_orderKey_eq y z).mp hyz))

/-! ### The numeric comparison within one variant -/

/-- A whole number read as a `Decimal` of scale zero. -/
@[simp] theorem toRat_scale_zero (m : Int) (h1 h2) : Decimal.toRat ⟨m, 0, h1, h2⟩ = m := by
  simp [Decimal.toRat]

section NumericEquality

variable {fd : FloatDecimal}

/-- Two values of one numeric variant denote the same number exactly when the
canonical order says `Equal`.  Integers and durations convert exactly; decimals
are compared as numbers by both; floats need the conversions to keep distinct
floats apart. -/
theorem toRat_eq_iff_canonicalCmp_eq (hfd : fd.Injective) {x y : Value}
    (htag : x.canonicalTag = y.canonicalTag) {l r : Decimal}
    (hx : x.coerceNumericDecimal fd = some l) (hy : y.coerceNumericDecimal fd = some r) :
    l.toRat = r.toRat ↔ canonicalCmp x y = .eq := by
  cases x
  case decimal a =>
    cases y
    case decimal b =>
      simp only [coerceNumericDecimal, supportsNumericCoercion, toDecimal] at hx hy
      cases hx
      cases hy
      rw [canonicalCmp_decimal, Decimal.cmp, Decimal.cmpDecimal_eq_compare_toRat,
        Std.compare_eq_iff_eq]
    all_goals exact absurd htag fun h => ValueTag.noConfusion h
  case duration a =>
    cases y
    case duration b =>
      simp [coerceNumericDecimal, supportsNumericCoercion, toDecimal, Decimal.fromU64] at hx hy
      subst hx hy
      simp [Duration.cmp]
    all_goals exact absurd htag fun h => ValueTag.noConfusion h
  case float32 a =>
    cases y
    case float32 b =>
      simp only [coerceNumericDecimal, supportsNumericCoercion, toDecimal] at hx hy
      rw [canonicalCmp_float32, Float32.cmp_eq_eq_iff]
      constructor
      · exact hfd.f32 a b l r hx hy
      · -- equal bits are the same float, whose conversion is one decimal
        intro hbits
        cases Float32.ext hbits
        rw [hx] at hy
        cases hy
        rfl
    all_goals exact absurd htag fun h => ValueTag.noConfusion h
  case float64 a =>
    cases y
    case float64 b =>
      simp only [coerceNumericDecimal, supportsNumericCoercion, toDecimal] at hx hy
      rw [canonicalCmp_float64, Float64.cmp_eq_eq_iff]
      constructor
      · exact hfd.f64 a b l r hx hy
      · intro hbits
        cases Float64.ext hbits
        rw [hx] at hy
        cases hy
        rfl
    all_goals exact absurd htag fun h => ValueTag.noConfusion h
  case int64 a =>
    cases y
    case int64 b =>
      simp [coerceNumericDecimal, supportsNumericCoercion, toDecimal, Decimal.fromI128] at hx hy
      subst hx hy
      simp [BitVec.toInt_signExtend_of_le]
    all_goals exact absurd htag fun h => ValueTag.noConfusion h
  case int128 a =>
    cases y
    case int128 b =>
      simp [coerceNumericDecimal, supportsNumericCoercion, toDecimal, Decimal.fromI128] at hx hy
      subst hx hy
      simp
    all_goals exact absurd htag fun h => ValueTag.noConfusion h
  case timestamp a =>
    cases y
    case timestamp b =>
      simp [coerceNumericDecimal, supportsNumericCoercion, toDecimal, Decimal.fromI64] at hx hy
      subst hx hy
      simp [Timestamp.cmp]
    all_goals exact absurd htag fun h => ValueTag.noConfusion h
  case nat64 a =>
    cases y
    case nat64 b =>
      simp [coerceNumericDecimal, supportsNumericCoercion, toDecimal, Decimal.fromU128] at hx hy
      obtain ⟨_, rfl⟩ := hx
      obtain ⟨_, rfl⟩ := hy
      simp
    all_goals exact absurd htag fun h => ValueTag.noConfusion h
  case nat128 a =>
    cases y
    case nat128 b =>
      simp [coerceNumericDecimal, supportsNumericCoercion, toDecimal, Decimal.fromU128] at hx hy
      obtain ⟨_, rfl⟩ := hx
      obtain ⟨_, rfl⟩ := hy
      simp
    all_goals exact absurd htag fun h => ValueTag.noConfusion h
  all_goals simp [coerceNumericDecimal, supportsNumericCoercion] at hx

/-- `canonical_value_compare` says `Equal` exactly when `canonical_cmp` does,
for two values of one variant or where one of them has no `Decimal` form.
Across variants it does not: `Int64(5)` and `Nat64(5)` are numerically equal. -/
theorem canonicalValueCompare_eq_eq_iff (hfd : fd.Injective) {x y : Value}
    (htag : x.canonicalTag = y.canonicalTag ∨ x.coerceNumericDecimal fd = none ∨
      y.coerceNumericDecimal fd = none) :
    canonicalValueCompare fd x y = .eq ↔ canonicalCmp x y = .eq := by
  cases hx : x.coerceNumericDecimal fd with
  | none => rw [canonicalValueCompare_of_not_decimal fd (.inl hx)]
  | some l =>
    cases hy : y.coerceNumericDecimal fd with
    | none => rw [canonicalValueCompare_of_not_decimal fd (.inr hy)]
    | some r =>
      have hsame : x.canonicalTag = y.canonicalTag := by
        rcases htag with h | h | h
        · exact h
        · rw [hx] at h
          cases h
        · rw [hy] at h
          cases h
      rw [canonicalValueCompare_of_decimal fd hx hy, Std.compare_eq_iff_eq]
      exact toRat_eq_iff_canonicalCmp_eq hfd hsame hx hy

end NumericEquality

end Value

end IcyDb
