import IcyDb.Index.BigIntComponentOrder

/-!
# Which index components keep the strict order

`encode_canonical_index_component` writes the canonical tag and then a
payload.  For every variant it accepts other than `Timestamp` and
`Principal`, the payloads of two values of the variant compare as
`strict_order_cmp` compares the values, so the components do too.  The two
exceptions are the variants `OrderedComponentOrder` shows misordered.
-/

namespace IcyDb

namespace Ordered

open ByteOrder Value

variable {toU32Digits : Nat → List UInt32}

/-- A component that was written is the tag and an accepted payload. -/
theorem encodeCanonicalIndexComponent_eq_ok {a : Value} {e : List UInt8}
    (h : encodeCanonicalIndexComponent toU32Digits a = .ok e) :
    ∃ p, encodeComponentPayload toU32Digits a = .ok p ∧ e = a.canonicalTag.toU8 :: p := by
  unfold encodeCanonicalIndexComponent at h
  cases hp : encodeComponentPayload toU32Digits a with
  | error err =>
    rw [hp] at h
    cases h
  | ok p =>
    rw [hp] at h
    exact ⟨p, rfl, (Except.ok.inj h).symm⟩

/-- Where the payload encoder accepts two values of one variant, other than
timestamps and principals, the payloads compare as `strict_order_cmp`. -/
theorem strictOrderCmp_eq_compare_payload (hdigits : U32DigitsSpec toU32Digits) {a b : Value}
    {pa pb : List UInt8} (htag : a.canonicalTag = b.canonicalTag)
    (hts : a.canonicalTag ≠ .timestamp) (hpr : a.canonicalTag ≠ .principal)
    (ha : encodeComponentPayload toU32Digits a = .ok pa)
    (hb : encodeComponentPayload toU32Digits b = .ok pb) : strictOrderCmp a b = some (compare pa pb) := by
  cases a
  case account x =>
    cases b <;> cases htag
    rename_i y
    change pushAccountPayload x = .ok pa at ha
    change pushAccountPayload y = .ok pb at hb
    rw [pushAccountPayload_eq] at ha hb
    cases ha
    cases hb
    exact congrArg some (Account.compare_storedLayout x y).symm
  case bool x =>
    cases b <;> cases htag
    rename_i y
    cases ha
    cases hb
    cases x <;> cases y <;> rfl
  case date x =>
    cases b <;> cases htag
    rename_i y
    cases ha
    cases hb
    exact congrArg some (compare_orderedI32Bytes x.days y.days).symm
  case decimal x =>
    cases b <;> cases htag
    rename_i y
    obtain ⟨hx, hy, hcmp⟩ := compare_pushDecimalPayload x y
    change pushDecimalPayload x = .ok pa at ha
    change pushDecimalPayload y = .ok pb at hb
    rw [hx] at ha
    rw [hy] at hb
    cases ha
    cases hb
    exact congrArg some hcmp.symm
  case duration x =>
    cases b <;> cases htag
    rename_i y
    cases ha
    cases hb
    exact congrArg some (compare_beBytes_toNat x.millis y.millis rfl).symm
  case float32 x =>
    cases b <;> cases htag
    rename_i y
    cases ha
    cases hb
    exact congrArg some (compare_orderedF32Bytes x.bits y.bits).symm
  case float64 x =>
    cases b <;> cases htag
    rename_i y
    cases ha
    cases hb
    exact congrArg some (compare_orderedF64Bytes x.bits y.bits).symm
  case int64 x =>
    cases b <;> cases htag
    rename_i y
    cases ha
    cases hb
    exact congrArg some (compare_orderedI64Bytes x y).symm
  case int128 x =>
    cases b <;> cases htag
    rename_i y
    cases ha
    cases hb
    exact congrArg some (compare_orderedI128Bytes x y).symm
  case intBig x =>
    cases b <;> cases htag
    exact congrArg some (compare_pushSignedBigIntegerPayload hdigits ha hb).symm
  case subaccount x =>
    cases b <;> cases htag
    cases ha
    cases hb
    rfl
  case text x =>
    cases b <;> cases htag
    rename_i y
    cases ha
    cases hb
    exact congrArg some (compare_pushTerminatedBytes x y).symm
  case nat64 x =>
    cases b <;> cases htag
    rename_i y
    cases ha
    cases hb
    exact congrArg some (compare_beBytes_toNat x y rfl).symm
  case nat128 x =>
    cases b <;> cases htag
    rename_i y
    cases ha
    cases hb
    exact congrArg some (compare_beBytes_toNat x y rfl).symm
  case natBig x =>
    cases b <;> cases htag
    exact congrArg some (compare_pushUnsignedBigIntegerPayload hdigits ha hb).symm
  case ulid x =>
    cases b <;> cases htag
    cases ha
    cases hb
    rfl
  case unit =>
    cases b <;> cases htag
    cases ha
    cases hb
    rfl
  case timestamp => exact absurd rfl hts
  case principal => exact absurd rfl hpr
  -- `Blob`, `Enum`, `List`, `Map` and `Null` are rejected
  all_goals cases ha

/-- Index components of one variant other than `Timestamp` and `Principal`
compare as `strict_order_cmp` compares the values, wherever the encoder
accepts both. -/
theorem encodeCanonicalIndexComponent_orders_as_strictOrderCmp
    (hdigits : U32DigitsSpec toU32Digits) {a b : Value} {ea eb : List UInt8}
    (htag : a.canonicalTag = b.canonicalTag)
    (hts : a.canonicalTag ≠ .timestamp) (hpr : a.canonicalTag ≠ .principal)
    (ha : encodeCanonicalIndexComponent toU32Digits a = .ok ea)
    (hb : encodeCanonicalIndexComponent toU32Digits b = .ok eb) :
    strictOrderCmp a b = some (compare ea eb) := by
  obtain ⟨pa, hpa, rfl⟩ := encodeCanonicalIndexComponent_eq_ok ha
  obtain ⟨pb, hpb, rfl⟩ := encodeCanonicalIndexComponent_eq_ok hb
  rw [← htag, List.compare_cons_cons, Std.compare_self, Ordering.eq_then]
  exact strictOrderCmp_eq_compare_payload hdigits htag hts hpr hpa hpb

theorem int64_components_order_as_strictOrderCmp :
    U32DigitsSpec u32Digits ∧ (Value.int64 (-1#64)).canonicalTag = (Value.int64 1#64).canonicalTag ∧
      (Value.int64 (-1#64)).canonicalTag ≠ .timestamp ∧
      (Value.int64 (-1#64)).canonicalTag ≠ .principal ∧
      ∃ ea eb, encodeCanonicalIndexComponent u32Digits (.int64 (-1#64)) = .ok ea ∧
        encodeCanonicalIndexComponent u32Digits (.int64 1#64) = .ok eb ∧
        strictOrderCmp (.int64 (-1#64)) (.int64 1#64) = some (compare ea eb) :=
  ⟨u32Digits_spec, rfl, by decide, by decide, _, _, rfl, rfl,
    encodeCanonicalIndexComponent_orders_as_strictOrderCmp u32Digits_spec rfl (by decide)
      (by decide) rfl rfl⟩

end Ordered

end IcyDb
