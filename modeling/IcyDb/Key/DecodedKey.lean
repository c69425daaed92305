import IcyDb.Key.StoreKey
import IcyDb.Key.PrimaryKeyCodec
import IcyDb.Order.Comparator

/-!
# Decoded data keys and their order

`DecodedDataStoreKey` is a data-store key read back into its entity and its
primary-key value.  It is what the executor's key streams carry: they compare
keys by `Ord for DecodedDataStoreKey`, the entity tag and then the primary
key, and tell keys apart by equality.

Primary keys of one shape are ordered as their compact encodings
(`PrimaryKeyValue.compare_encoded`).  Keys of different shapes are not, since a
composite's length byte comes before its components, but every primary key
is still ordered as a list of byte strings: one encoded component for a
scalar key, and for a composite its tag followed by the encodings of its
components.  That map is injective, so `Ord for DecodedDataStoreKey` is a
total order on all decoded keys.

This file embeds `DecodedDataStoreKey`, `try_from_raw` and the `Ord` and `Eq`
of `db::data::key`.
-/

namespace IcyDb

open ByteOrder Comparator

/-! ### Decoding -/

/-- `DecodedDataStoreKeyDecodeError`. -/
inductive DecodedDataStoreKeyDecodeError
  | storeKey
  | key
deriving DecidableEq, Repr

deriving instance DecidableEq for CompositePrimaryKeyValue

deriving instance DecidableEq for PrimaryKeyValue

/-- `DecodedDataStoreKey`: the entity and its decoded primary key.  The raw
bytes it caches are not read by its order or its equality. -/
structure DecodedDataStoreKey where
  entityTag : EntityTag
  primaryKeyValue : PrimaryKeyValue
deriving DecidableEq

/-- `DecodedDataStoreKey::try_from_raw`. -/
def DecodedDataStoreKey.tryFromRaw (raw : List UInt8) :
    Except DecodedDataStoreKeyDecodeError DecodedDataStoreKey := do
  let decoded ← (DataStoreKey.tryFromRawBytes raw).mapError fun _ => .storeKey
  let key ← (EncodedPrimaryKey.decodeBytes decoded.primaryKey).mapError fun _ => .key
  pure ⟨decoded.entityTag, key⟩

/-! ### The order of primary keys -/

namespace PrimaryKeyComponent

/-- Components of different kinds compare by kind. -/
theorem cmp_of_kind_ne {a b : PrimaryKeyComponent} (h : a.kind ≠ b.kind) :
    a.cmp b = a.kind.cmp b.kind := by
  cases a <;> cases b <;> first | rfl | exact absurd rfl h

/-- Every two components compare as their encodings: by the kind tag first,
and within a kind by the payload. -/
theorem cmp_eq_compare_encoded (a b : PrimaryKeyComponent) :
    a.cmp b = compare a.encoded b.encoded := by
  by_cases h : a.kind = b.kind
  · simpa using (compare_encoded_append h [] []).symm
  · have htag : compare a.kind.tag b.kind.tag ≠ .eq := by
      rw [Ne, Std.compare_eq_iff_eq]
      exact fun htag => h (PrimaryKeyKind.tag_injective htag)
    rw [cmp_of_kind_ne h, PrimaryKeyKind.cmp, encoded, encoded, List.compare_cons_cons,
      then_of_ne_eq htag]

theorem encoded_injective {a b : PrimaryKeyComponent} (h : a.encoded = b.encoded) : a = b := by
  have ha := decodePrimaryKeyComponent_encoded a
  rw [h, decodePrimaryKeyComponent_encoded b, Except.ok.injEq] at ha
  exact ha.symm

end PrimaryKeyComponent

/-- `compareLex` of a comparator that is the order of a map is the order of
the mapped lists. -/
theorem compareLex_eq_compare_map {α β : Type} [Ord β] {cmp : α → α → Ordering} (f : α → β)
    (hf : ∀ a b, cmp a b = compare (f a) (f b)) :
    ∀ xs ys : List α, List.compareLex cmp xs ys = compare (xs.map f) (ys.map f)
  | [], [] => rfl
  | [], _ :: _ => rfl
  | _ :: _, [] => rfl
  | x :: xs, y :: ys => by
    rw [List.compareLex_cons_cons, List.map_cons, List.map_cons, List.compare_cons_cons, hf,
      compareLex_eq_compare_map f hf xs ys]

namespace PrimaryKeyValue

/-- A primary key as a list of byte strings: the encoding of a scalar key, or
the composite tag followed by the encodings of the components. -/
def orderKey : PrimaryKeyValue → List (List UInt8)
  | scalar c => [c.encoded]
  | composite v => [PrimaryKeyKind.composite.tag] :: v.components.map PrimaryKeyComponent.encoded

/-- A scalar key and a composite key differ in their first byte, which is the
kind tag. -/
theorem compare_scalar_composite (c : PrimaryKeyComponent) (rest : List (List UInt8)) :
    compare [c.encoded] ([PrimaryKeyKind.composite.tag] :: rest) =
      c.kind.cmp PrimaryKeyKind.composite := by
  have htag : compare c.kind.tag PrimaryKeyKind.composite.tag ≠ .eq := by
    rw [Ne, Std.compare_eq_iff_eq]
    exact fun htag => c.kind_ne_composite (PrimaryKeyKind.tag_injective htag)
  rw [List.compare_cons_cons, PrimaryKeyComponent.encoded, List.compare_cons_cons,
    then_of_ne_eq htag, then_of_ne_eq htag, PrimaryKeyKind.cmp]

theorem cmp_eq_compare_orderKey (a b : PrimaryKeyValue) :
    a.cmp b = compare a.orderKey b.orderKey := by
  cases a with
  | scalar x =>
    cases b with
    | scalar y =>
      rw [cmp, orderKey, orderKey, List.compare_cons_cons, List.compare_nil_nil,
        Ordering.then_eq, PrimaryKeyComponent.cmp_eq_compare_encoded]
    | composite w =>
      change x.kind.cmp .composite = _
      rw [orderKey, orderKey, compare_scalar_composite]
  | composite v =>
    cases b with
    | scalar y =>
      -- the scalar-composite comparison read the other way round
      change PrimaryKeyKind.composite.cmp y.kind = _
      have hswap : compare [y.encoded]
          ([PrimaryKeyKind.composite.tag] :: v.components.map PrimaryKeyComponent.encoded) =
          (compare ([PrimaryKeyKind.composite.tag] :: v.components.map PrimaryKeyComponent.encoded)
            [y.encoded]).swap :=
        Std.OrientedCmp.eq_swap
      rw [orderKey, orderKey, ← Ordering.swap_inj, ← hswap, compare_scalar_composite,
        PrimaryKeyKind.cmp, PrimaryKeyKind.cmp, ← Std.OrientedCmp.eq_swap]
    | composite w =>
      rw [cmp, orderKey, orderKey, List.compare_cons_cons, Std.compare_self, Ordering.eq_then,
        CompositePrimaryKeyValue.cmp,
        compareLex_eq_compare_map _ PrimaryKeyComponent.cmp_eq_compare_encoded]

theorem orderKey_injective {a b : PrimaryKeyValue} (h : a.orderKey = b.orderKey) : a = b := by
  cases a with
  | scalar x =>
    cases b with
    | scalar y =>
      simp only [orderKey, List.cons.injEq, and_true] at h
      rw [PrimaryKeyComponent.encoded_injective h]
    | composite w =>
      simp only [orderKey, List.cons.injEq, PrimaryKeyComponent.encoded] at h
      exact absurd (PrimaryKeyKind.tag_injective h.1.1) x.kind_ne_composite
  | composite v =>
    cases b with
    | scalar y =>
      simp only [orderKey, List.cons.injEq, PrimaryKeyComponent.encoded] at h
      exact absurd (PrimaryKeyKind.tag_injective h.1.1).symm y.kind_ne_composite
    | composite w =>
      simp only [orderKey, List.cons.injEq, true_and] at h
      have hcomponents : v.components = w.components :=
        List.map_injective_iff.mpr (fun _ _ => PrimaryKeyComponent.encoded_injective) h
      cases v
      cases w
      simp only at hcomponents
      subst hcomponents
      rfl

/-- `Ord for PrimaryKeyValue` is a total order on all primary keys. -/
theorem cmp_totalOrderOn : TotalOrderOn PrimaryKeyValue.cmp fun _ => True :=
  TotalOrderOn.of_compare_map orderKey (fun a b _ _ => cmp_eq_compare_orderKey a b)
    (fun _ _ _ _ => orderKey_injective)

end PrimaryKeyValue

/-! ### The order of decoded keys -/

namespace DecodedDataStoreKey

/-- `Ord for DecodedDataStoreKey`: the entity tag, then the primary key. -/
def cmp (a b : DecodedDataStoreKey) : Ordering :=
  (compare a.entityTag.value.toNat b.entityTag.value.toNat).then
    (a.primaryKeyValue.cmp b.primaryKeyValue)

/-- A decoded key as a list of byte strings: the entity tag, then its primary
key's `orderKey`. -/
def orderKey (k : DecodedDataStoreKey) : List (List UInt8) :=
  beBytes 8 k.entityTag.value.toNat :: k.primaryKeyValue.orderKey

theorem cmp_eq_compare_orderKey (a b : DecodedDataStoreKey) :
    a.cmp b = compare a.orderKey b.orderKey := by
  rw [cmp, orderKey, orderKey, List.compare_cons_cons,
    compare_beBytes_toNat a.entityTag.value b.entityTag.value rfl,
    PrimaryKeyValue.cmp_eq_compare_orderKey]

theorem orderKey_injective {a b : DecodedDataStoreKey} (h : a.orderKey = b.orderKey) : a = b := by
  obtain ⟨⟨tagA⟩, keyA⟩ := a
  obtain ⟨⟨tagB⟩, keyB⟩ := b
  simp only [orderKey, List.cons.injEq] at h
  have htag : tagA.toNat = tagB.toNat :=
    beBytes_injective (tagA.isLt.trans_eq (by norm_num)) (tagB.isLt.trans_eq (by norm_num)) h.1
  rw [BitVec.toNat_inj.mp htag, PrimaryKeyValue.orderKey_injective h.2]

/-- `Ord for DecodedDataStoreKey` is a total order on all decoded keys. -/
theorem cmp_totalOrderOn : TotalOrderOn DecodedDataStoreKey.cmp fun _ => True :=
  TotalOrderOn.of_compare_map orderKey (fun a b _ _ => cmp_eq_compare_orderKey a b)
    (fun _ _ _ _ => orderKey_injective)

end DecodedDataStoreKey

end IcyDb
