import IcyDb.Value.CanonicalOrder

/-!
# What `canonical_value_compare` orders

`Value::partial_cmp` and `strict_order_cmp` are defined only for some pairs
of values, and where they are defined they return what `canonical_cmp`
returns: the three compare the same fields in the same order, and all three
compare map keys canonically.  So `canonical_value_compare` compares two
values numerically when both have a `Decimal` form and canonically otherwise.

Each of the two orders is a total preorder, but their union is not: the
canonical order puts every `Int64` before every `Text` and every `Text`
before every `Nat64`, while the numeric order may put an `Int64` after a
`Nat64`.  What holds is antisymmetry for all values and transitivity within
each of the two layers.
-/

namespace IcyDb

namespace Value

open ByteOrder Comparator

/-! ### The partial comparators agree with the canonical one -/

mutual

/-- Where `Value::partial_cmp` is defined, it is `canonical_cmp`. -/
theorem canonicalCmp_of_partialCmp : (x y : Value) → (o : Ordering) →
    partialCmp x y = some o → canonicalCmp x y = o
  | account _, _, _, h | blob _, _, _, h | list _, _, _, h | null, _, _, h | unit, _, _, h => by
    cases h
  | bool a, y, _, h | date a, y, _, h | decimal a, y, _, h | duration a, y, _, h
  | float32 a, y, _, h | float64 a, y, _, h | int64 a, y, _, h | int128 a, y, _, h
  | intBig a, y, _, h | principal a, y, _, h | subaccount a, y, _, h | text a, y, _, h
  | timestamp a, y, _, h | nat64 a, y, _, h | nat128 a, y, _, h | natBig a, y, _, h
  | ulid a, y, _, h => by
    cases y <;> cases h
    simp
  | enum t v p, y, o, h => by
    cases y
    case enum u w q =>
      rw [partialCmp_enum] at h
      rw [canonicalCmp_enum]
      -- the derived order of `CanonicalEnumValue` decides at type and
      -- variant before it reads the bodies
      split at h
      · rename_i hid
        rw [hid, Ordering.eq_then]
        exact canonicalCmpPayload_of_partialCmpPayload p q o h
      · rename_i hne
        cases h
        exact then_of_ne_eq hne _
    all_goals cases h
  | map a, y, o, h => by
    cases y
    case map b =>
      rw [partialCmp_map, Option.bind_eq_some_iff] at h
      obtain ⟨o', hloop, ho⟩ := h
      cases ho
      rw [canonicalCmp_map, canonicalCmpValueMap_of_partialCmpMap a b o' hloop]
    all_goals cases h

/-- The loop of `partial_cmp_map` stops where the canonical loop does, with
the same result. -/
theorem canonicalCmpValueMap_of_partialCmpMap : (xs ys : List (Value × Value)) → (o : Ordering) →
    partialCmpMap xs ys = some o → canonicalCmpValueMap xs ys = o
  | [], _, _, h | _ :: _, [], _, h => by
    cases h
    rfl
  | (lk, lv) :: ls, (rk, rv) :: rs, o, h => by
    rw [partialCmpMap_cons] at h
    rw [canonicalCmpValueMap]
    by_cases hk : canonicalCmp lk rk = .eq
    · -- equal keys: the values decide, then the rest of the entries
      rw [if_neg (not_not.mpr hk)] at h
      rw [hk, Ordering.eq_then]
      cases hv : partialCmp lv rv with
      | none =>
        rw [hv] at h
        cases h
      | some ov =>
        rw [hv] at h
        rw [canonicalCmp_of_partialCmp lv rv ov hv]
        cases ov
        case eq => exact canonicalCmpValueMap_of_partialCmpMap ls rs o h
        all_goals
          cases h
          rfl
    · rw [if_pos hk] at h
      cases h
      rw [then_of_ne_eq hk, then_of_ne_eq hk]

/-- Enum bodies: `Unit` first, payloads by `Value::partial_cmp`. -/
theorem canonicalCmpPayload_of_partialCmpPayload : (p q : Option Value) → (o : Ordering) →
    partialCmpPayload p q = some o → canonicalCmpPayload p q = o
  | none, none, _, h | none, some _, _, h | some _, none, _, h => by
    cases h
    rfl
  | some x, some y, o, h => canonicalCmp_of_partialCmp x y o h

end

mutual

/-- Where `strict_order_cmp` is defined, it is `canonical_cmp`. -/
theorem canonicalCmp_of_strictOrderCmp : (x y : Value) → (o : Ordering) →
    strictOrderCmp x y = some o → canonicalCmp x y = o
  | blob _, _, _, h | list _, _, _, h | null, _, _, h => by
    cases h
  | account a, y, _, h | bool a, y, _, h | date a, y, _, h | decimal a, y, _, h
  | duration a, y, _, h | float32 a, y, _, h | float64 a, y, _, h | int64 a, y, _, h
  | int128 a, y, _, h | intBig a, y, _, h | principal a, y, _, h | subaccount a, y, _, h
  | text a, y, _, h | timestamp a, y, _, h | nat64 a, y, _, h | nat128 a, y, _, h
  | natBig a, y, _, h | ulid a, y, _, h => by
    cases y <;> cases h
    simp
  | unit, y, _, h => by
    cases y <;> cases h
    exact canonicalCmp_unit
  | enum t v p, y, o, h => by
    cases y
    case enum u w q =>
      rw [strictOrderCmp_enum] at h
      exact canonicalCmp_of_partialCmp _ _ o h
    all_goals cases h
  | map a, y, o, h => by
    cases y
    case map b =>
      rw [strictOrderCmp_map, Option.bind_eq_some_iff] at h
      obtain ⟨o', hloop, ho⟩ := h
      cases ho
      rw [canonicalCmp_map, canonicalCmpValueMap_of_strictOrderMap a b o' hloop]
    all_goals cases h

/-- The loop of `strict_order_map` stops where the canonical loop does, with
the same result. -/
theorem canonicalCmpValueMap_of_strictOrderMap : (xs ys : List (Value × Value)) → (o : Ordering) →
    strictOrderMap xs ys = some o → canonicalCmpValueMap xs ys = o
  | [], _, _, h | _ :: _, [], _, h => by
    cases h
    rfl
  | (lk, lv) :: ls, (rk, rv) :: rs, o, h => by
    rw [strictOrderMap_cons] at h
    rw [canonicalCmpValueMap]
    by_cases hk : canonicalCmp lk rk = .eq
    · -- equal keys: the values decide, then the rest of the entries
      rw [if_neg (not_not.mpr hk)] at h
      rw [hk, Ordering.eq_then]
      cases hv : strictOrderCmp lv rv with
      | none =>
        rw [hv] at h
        cases h
      | some ov =>
        rw [hv] at h
        dsimp only at h
        rw [canonicalCmp_of_strictOrderCmp lv rv ov hv]
        by_cases hov : ov = .eq
        · rw [if_neg (not_not.mpr hov)] at h
          rw [hov, Ordering.eq_then]
          exact canonicalCmpValueMap_of_strictOrderMap ls rs o h
        · rw [if_pos hov] at h
          cases h
          rw [then_of_ne_eq hov]
    · rw [if_pos hk] at h
      cases h
      rw [then_of_ne_eq hk, then_of_ne_eq hk]

end

/-! ### The numeric layer and the canonical layer -/

section ValueCompare

variable (fd : FloatDecimal)

/-- The number a value with a `Decimal` form denotes. -/
def numericKey (v : Value) : ℚ := ((v.coerceNumericDecimal fd).map Decimal.toRat).getD 0

/-- Two values with `Decimal` forms compare as the numbers they denote. -/
theorem canonicalValueCompare_of_decimal {x y : Value} {l r : Decimal}
    (hx : x.coerceNumericDecimal fd = some l) (hy : y.coerceNumericDecimal fd = some r) :
    canonicalValueCompare fd x y = compare l.toRat r.toRat := by
  rw [canonicalValueCompare, compareNumericOrStrictOrder, compareNumericOrder, hx, hy]
  exact Decimal.cmpDecimal_eq_compare_toRat l r

/-- A value without a `Decimal` form compares canonically with every value:
the strict order, where it is defined, says what `canonical_cmp` says. -/
theorem canonicalValueCompare_of_not_decimal {x y : Value}
    (h : x.coerceNumericDecimal fd = none ∨ y.coerceNumericDecimal fd = none) :
    canonicalValueCompare fd x y = canonicalCmp x y := by
  have hnum : compareNumericOrder fd x y = none := by
    unfold compareNumericOrder
    rcases h with h | h
    · rw [h]
    · rw [h]
      cases x.coerceNumericDecimal fd <;> rfl
  rw [canonicalValueCompare, compareNumericOrStrictOrder, hnum]
  cases hs : strictOrderCmp x y with
  | none => rfl
  | some o => exact (canonicalCmp_of_strictOrderCmp x y o hs).symm

theorem canonicalValueCompare_eq_compare_numericKey {x y : Value}
    (hx : (x.coerceNumericDecimal fd).isSome) (hy : (y.coerceNumericDecimal fd).isSome) :
    canonicalValueCompare fd x y = compare (numericKey fd x) (numericKey fd y) := by
  obtain ⟨l, hl⟩ := Option.isSome_iff_exists.mp hx
  obtain ⟨r, hr⟩ := Option.isSome_iff_exists.mp hy
  rw [canonicalValueCompare_of_decimal fd hl hr, numericKey, numericKey, hl, hr]
  rfl

/-- Swapping the arguments reverses the result, in both layers and across
them. -/
theorem canonicalValueCompare_swap (x y : Value) :
    canonicalValueCompare fd x y = (canonicalValueCompare fd y x).swap := by
  cases hx : x.coerceNumericDecimal fd with
  | some l =>
    cases hy : y.coerceNumericDecimal fd with
    | some r =>
      rw [canonicalValueCompare_of_decimal fd hx hy, canonicalValueCompare_of_decimal fd hy hx]
      exact Std.OrientedCmp.eq_swap
    | none =>
      rw [canonicalValueCompare_of_not_decimal fd (.inr hy),
        canonicalValueCompare_of_not_decimal fd (.inl hy)]
      exact canonicalCmp_totalPreorder.swap x y trivial trivial
  | none =>
    rw [canonicalValueCompare_of_not_decimal fd (.inl hx),
      canonicalValueCompare_of_not_decimal fd (.inr hx)]
    exact canonicalCmp_totalPreorder.swap x y trivial trivial

/-- `canonical_value_compare` is antisymmetric on all values, and a total
preorder on the values with a `Decimal` form and on the values without one. -/
theorem canonicalValueCompare_preorder_within_layers :
    (∀ x y, canonicalValueCompare fd x y = (canonicalValueCompare fd y x).swap) ∧
    TotalPreorderOn (canonicalValueCompare fd) (fun v => (v.coerceNumericDecimal fd).isSome) ∧
    TotalPreorderOn (canonicalValueCompare fd) (fun v => (v.coerceNumericDecimal fd).isNone) := by
  refine ⟨canonicalValueCompare_swap fd, ?_, ?_⟩
  · -- the numeric layer is the order of the numbers
    exact TotalPreorderOn.of_compare_map (numericKey fd) fun x y hx hy =>
      canonicalValueCompare_eq_compare_numericKey fd hx hy
  · -- the other layer is the canonical order
    refine TotalPreorderOn.of_compare_map orderKey fun x y hx _ => ?_
    rw [canonicalValueCompare_of_not_decimal fd (.inl (Option.isNone_iff_eq_none.mp hx)),
      canonicalCmp_eq_compare_orderKey]

/-- The layers do not form one preorder, whatever the float conversions:
`Int64(5) < Text("a")` and `Text("a") < Nat64(0)` by rank, but
`Int64(5) > Nat64(0)` as numbers. -/
theorem canonicalValueCompare_cycle :
    canonicalValueCompare fd (int64 5) (text [0x61]) = .lt ∧
      canonicalValueCompare fd (text [0x61]) (nat64 0) = .lt ∧
      canonicalValueCompare fd (int64 5) (nat64 0) = .gt :=
  ⟨rfl, rfl, rfl⟩

end ValueCompare

/-- Float conversions that reject every float; no float occurs in the cycle
above, so any conversions would do. -/
def rejectAllFloats : FloatDecimal := ⟨fun _ => none, fun _ => none⟩

theorem canonicalValueCompare_not_transitive :
    canonicalValueCompare rejectAllFloats (int64 5) (text [0x61]) = .lt ∧
      canonicalValueCompare rejectAllFloats (text [0x61]) (nat64 0) = .lt ∧
      canonicalValueCompare rejectAllFloats (int64 5) (nat64 0) = .gt :=
  canonicalValueCompare_cycle rejectAllFloats

end Value

end IcyDb
