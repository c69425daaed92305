import IcyDb.Value.Hash
import IcyDb.Value.EqualityLaws

/-!
# Canonical grouped keys

`executor::group::key` turns the values of a row's group fields into a
`GroupKey`: the values are canonicalized (decimals in normal form, lists item
by item, maps entry by entry and then validated, put in canonical key order
and refused on a duplicate key), and the canonical value is kept with its
stable hash, the high half of its 128-bit value hash.  Keys compare with the
derived equality: equal canonical values and equal hashes.

The accepted field kinds decide which ingest path of grouped `COUNT(*)` runs:
kinds whose values arrive in canonical form take a direct path, and kinds that
support borrowed probing compare row slots against stored keys with
`canonical_value_compare`.  Both hold scalars other than enums, which
canonicalize by normalizing a decimal and nothing else
(`canonicalizeValue_of_isScalar`), and on them `==` is equality of canonical
forms (`beq_iff_canonicalScalar_eq`).

The row view is read only through `slot_value`, so its dense, single-slot and
retained storages are one function from slot indexes to values.  The test-only
hash override and the `ProjectedRowHashingFailed` error of projected rows are
not modelled.

This file embeds `executor::group::{key, hash}`, `value::map`'s
`normalize_map_entries`, `Value::is_scalar`, the capability predicates of
`executor::aggregate::capability`, `FieldSlot` and the slot readers of
`RowView`.
-/

namespace IcyDb

open ByteOrder Comparator

/-! ### Errors -/

/-- The `InternalError`s raised on the grouped paths, by the constructor that
builds them. -/
inductive InternalError
  | queryExecutorInvariant
  | executorInvariant
  | executorInternal
  | serializeUnsupported
deriving DecidableEq, Repr

/-- The hasher's errors are `InternalError`s. -/
def HashError.toInternalError : HashError → InternalError
  | .serializeUnsupported => .serializeUnsupported
  | .queryExecutorInvariant => .queryExecutorInvariant

attribute [ext] Decimal

/-- Decimals with the same normal parts have the same normal form. -/
theorem Decimal.normalize_eq_of_normalizedParts_eq {a b : Decimal}
    (h : a.normalizedParts = b.normalizedParts) : a.normalize = b.normalize := by
  ext
  · exact congrArg Prod.fst h
  · exact congrArg Prod.snd h

namespace Value

/-! ### Map normalization -/

/-- `Value::is_scalar`. -/
def isScalar : Value → Bool
  | list _ | map _ | unit => false
  | _ => true

/-- `MapValueError`, without `NonScalarValue`, which map normalization never
raises. -/
inductive MapValueError
  | emptyKey (index : Nat)
  | nonScalarKey (index : Nat) (key : Value)
  | duplicateKey (leftIndex rightIndex : Nat)

/-- The loop of `validate_map_entries` from position `index`: a `Null` key or
a non-scalar key is refused. -/
def validateMapEntriesFrom : Nat → List (Value × Value) → Except MapValueError Unit
  | _, [] => .ok ()
  | index, (null, _) :: _ => .error (.emptyKey index)
  | index, (key, _) :: rest =>
    if !key.isScalar then .error (.nonScalarKey index key)
    else validateMapEntriesFrom (index + 1) rest

/-- `validate_map_entries`. -/
def validateMapEntries (entries : List (Value × Value)) : Except MapValueError Unit :=
  validateMapEntriesFrom 0 entries

/-- The duplicate check of `normalize_map_entries` over the sorted entries: the
first adjacent pair, at `index` and `index + 1`, whose keys compare `Equal`. -/
def checkAdjacentMapKeys : Nat → List (Value × Value) → Except MapValueError Unit
  | index, left :: right :: rest =>
    if canonicalCmp left.1 right.1 = .eq then .error (.duplicateKey index (index + 1))
    else checkAdjacentMapKeys (index + 1) (right :: rest)
  | _, _ => .ok ()

/-- `normalize_map_entries`: validate, sort by canonical key order, refuse a
duplicate key.  `sort_unstable_by` is the stable merge sort here; the two
differ only on keys that compare `Equal`, which are refused either way. -/
def normalizeMapEntries (entries : List (Value × Value)) :
    Except MapValueError (List (Value × Value)) := do
  validateMapEntries entries
  let sorted := sortBy (fun left right => canonicalCmp left.1 right.1) entries
  checkAdjacentMapKeys 0 sorted
  pure sorted

end Value

/-! ### Canonicalization -/

/-- `KeyCanonicalError`, without `ProjectedRowHashingFailed`. -/
inductive KeyCanonicalError
  | invalidMapValue (err : Value.MapValueError)
  | hashingFailed (value : UInt8)

/-- `KeyCanonicalValueCode::from_value`: the codes run from `ACCOUNT = 0` to
`UNIT = 23` in tag order, one below the tag. -/
def keyCanonicalValueCode (value : Value) : UInt8 := value.canonicalTag.toU8 - 1

/-- `KeyCanonicalError::into_internal_error`. -/
def KeyCanonicalError.intoInternalError : KeyCanonicalError → InternalError
  | .invalidMapValue _ => .executorInvariant
  | .hashingFailed _ => .executorInternal

namespace Value

/-- `normalize_canonical_map_entries`. -/
def normalizeCanonicalMapEntries (entries : List (Value × Value)) :
    Except KeyCanonicalError Value :=
  match normalizeMapEntries entries with
  | .ok normalized => .ok (map normalized)
  | .error err => .error (.invalidMapValue err)

mutual

/-- `canonicalize_owned_value`, and `canonicalize_value`, which differs from it
only in ownership: decimals in normal form, lists item by item, maps entry by
entry and then normalized, every other value as it is (enum payloads too). -/
def canonicalizeValue : Value → Except KeyCanonicalError Value
  | decimal d => .ok (decimal d.normalize)
  | list items => do
    let items ← canonicalizeItems items
    pure (list items)
  | map entries => do
    let entries ← canonicalizeMapEntries entries
    normalizeCanonicalMapEntries entries
  | value => .ok value

/-- The list arm: the items in order, up to the first failure. -/
def canonicalizeItems : List Value → Except KeyCanonicalError (List Value)
  | [] => .ok []
  | item :: rest => do
    let item ← canonicalizeValue item
    let rest ← canonicalizeItems rest
    pure (item :: rest)

/-- The map arm: each key and then its value, up to the first failure. -/
def canonicalizeMapEntries :
    List (Value × Value) → Except KeyCanonicalError (List (Value × Value))
  | [] => .ok []
  | (key, value) :: rest => do
    let key ← canonicalizeValue key
    let value ← canonicalizeValue value
    let rest ← canonicalizeMapEntries rest
    pure ((key, value) :: rest)

end

/-- What canonicalization makes of a scalar: a decimal's normal form, and any
other scalar itself. -/
def canonicalScalar : Value → Value
  | decimal d => decimal d.normalize
  | value => value

/-! ### Scalars in canonical form -/

theorem canonicalizeValue_of_isScalar {v : Value} (hv : v.isScalar) :
    canonicalizeValue v = .ok v.canonicalScalar := by
  cases v <;> first | rfl | simp [isScalar] at hv

theorem canonicalizeItems_of_isScalar {vs : List Value} (hvs : ∀ v ∈ vs, v.isScalar) :
    canonicalizeItems vs = .ok (vs.map canonicalScalar) := by
  induction vs with
  | nil => rfl
  | cons v vs ih =>
    rw [canonicalizeItems, canonicalizeValue_of_isScalar (hvs v List.mem_cons_self),
      ih fun w hw => hvs w (List.mem_cons_of_mem v hw)]
    rfl

@[simp] theorem canonicalTag_canonicalScalar (v : Value) :
    v.canonicalScalar.canonicalTag = v.canonicalTag := by
  cases v <;> rfl

theorem canonicalScalar_of_ne_decimal {v : Value} (h : v.canonicalTag ≠ .decimal) :
    v.canonicalScalar = v := by
  cases v <;> first | rfl | exact absurd rfl h

theorem canonicalScalar_canonicalScalar (v : Value) :
    v.canonicalScalar.canonicalScalar = v.canonicalScalar := by
  cases v
  case decimal d =>
    simp only [canonicalScalar]
    exact congrArg decimal
      (Decimal.normalize_eq_of_normalizedParts_eq (Decimal.normalizedParts_normalize d))
  all_goals rfl

/-- A value is `==` to its canonical form. -/
theorem beq_canonicalScalar (v : Value) : beq v.canonicalScalar v = true := by
  cases v
  case decimal d => simp [canonicalScalar, beq, Decimal.normalizedParts_normalize]
  all_goals exact beq_refl _

/-- On scalars other than enums, `==` identifies exactly the values with one
canonical form: decimals by their normal parts, floats by their bits, every
other kind by its payload. -/
theorem canonicalScalar_eq_of_beq {x y : Value} (hx : x.isScalar) (hxe : x.canonicalTag ≠ .enum)
    (h : beq x y = true) : x.canonicalScalar = y.canonicalScalar := by
  cases x <;> cases y <;> simp_all [beq, canonicalScalar, isScalar, canonicalTag]
  case decimal.decimal a b => exact Decimal.normalize_eq_of_normalizedParts_eq h
  case float32.float32 a b => exact Float32.ext h
  case float64.float64 a b => exact Float64.ext h

theorem beq_iff_canonicalScalar_eq {x y : Value} (hx : x.isScalar)
    (hxe : x.canonicalTag ≠ .enum) : beq x y = true ↔ x.canonicalScalar = y.canonicalScalar := by
  constructor
  · exact canonicalScalar_eq_of_beq hx hxe
  · intro h
    have hy : beq y.canonicalScalar y = true := beq_canonicalScalar y
    rw [← h] at hy
    exact beq_trans (beq_symm (beq_canonicalScalar x)) hy

@[simp] theorem isScalar_canonicalScalar (v : Value) : v.canonicalScalar.isScalar = v.isScalar := by
  cases v <;> rfl

/-- On canonical forms of scalars other than enums, `==` is equality. -/
theorem beq_canonicalScalar_iff {x y : Value} (hx : x.isScalar) (hxe : x.canonicalTag ≠ .enum) :
    beq x.canonicalScalar y.canonicalScalar = true ↔ x.canonicalScalar = y.canonicalScalar := by
  rw [beq_iff_canonicalScalar_eq (by simpa using hx) (by simpa using hxe),
    canonicalScalar_canonicalScalar, canonicalScalar_canonicalScalar]

/-! ### Canonical forms hash alike -/

variable (leb : Leb128)

theorem writeToHasher_canonicalScalar (v : Value) :
    writeToHasher leb v.canonicalScalar = writeToHasher leb v := by
  cases v
  case decimal d => exact writeToHasher_decimal_normalize leb d
  all_goals rfl

theorem writeListItemsToHasher_map_canonicalScalar (vs : List Value) :
    writeListItemsToHasher leb (vs.map canonicalScalar) = writeListItemsToHasher leb vs := by
  induction vs with
  | nil => rfl
  | cons v vs ih =>
    simp only [List.map_cons, writeListItemsToHasher, writeToHasher_canonicalScalar, ih]

theorem hashValue_list_map_canonicalScalar (digest : List UInt8 → BitVec 128) (vs : List Value) :
    hashValue leb digest (list (vs.map canonicalScalar)) = hashValue leb digest (list vs) := by
  simp only [hashValue, ValueHashWriter.writeValue, writeToHasher,
    writeListItemsToHasher_map_canonicalScalar, List.length_map, canonicalTag]

end Value

/-! ### Stable hashes and keys -/

/-- `StableHash`, a `u64`. -/
abbrev StableHash := BitVec 64

/-- `stable_hash_from_digest`: the first eight big-endian digest bytes, the high
half of the digest. -/
def stableHashFromDigest (digest : BitVec 128) : StableHash := digest.extractLsb' 64 64

/-- `GroupKey`: a canonical value and its stable hash. -/
structure GroupKey where
  raw : Value
  hash : StableHash

namespace GroupKey

/-- The derived `PartialEq`: equal canonical values and equal hashes. -/
def beq (a b : GroupKey) : Bool := Value.beq a.raw b.raw && a.hash == b.hash

theorem beq_refl (a : GroupKey) : a.beq a = true := by
  simp [beq, Value.beq_refl]

theorem beq_symm {a b : GroupKey} (h : a.beq b = true) : b.beq a = true := by
  simp only [beq, Bool.and_eq_true, beq_iff_eq] at h ⊢
  exact ⟨Value.beq_symm h.1, h.2.symm⟩

theorem beq_trans {a b c : GroupKey} (hab : a.beq b = true) (hbc : b.beq c = true) :
    a.beq c = true := by
  simp only [beq, Bool.and_eq_true, beq_iff_eq] at hab hbc ⊢
  exact ⟨Value.beq_trans hab.1 hbc.1, hab.2.trans hbc.2⟩

/-- Equal keys share their hash, so a hash bucket holds every key equal to
one filed there. -/
theorem hash_eq_of_beq {a b : GroupKey} (h : a.beq b = true) : a.hash = b.hash := by
  simp only [beq, Bool.and_eq_true, beq_iff_eq] at h
  exact h.2

/-- `GroupKey::from_raw_with_hash`. -/
def fromRawWithHash (raw : Value) (hash : StableHash) : GroupKey := ⟨raw, hash⟩

/-- `GroupKey::from_single_canonical_group_value_with_hash`. -/
def fromSingleCanonicalGroupValueWithHash (groupValue : Value) (hash : StableHash) : GroupKey :=
  fromRawWithHash (.list [groupValue]) hash

/-- `GroupKey::from_group_values_with_hash`. -/
def fromGroupValuesWithHash (groupValues : List Value) (hash : StableHash) :
    Except KeyCanonicalError GroupKey := do
  let canonical ← Value.canonicalizeValue (.list groupValues)
  pure (fromRawWithHash canonical hash)

/-- `GroupKey::from_single_group_value_with_hash`. -/
def fromSingleGroupValueWithHash (groupValue : Value) (hash : StableHash) :
    Except KeyCanonicalError GroupKey := do
  let canonical ← Value.canonicalizeValue groupValue
  pure (fromRawWithHash (.list [canonical]) hash)

end GroupKey

section Hashing

variable (leb : Leb128) (digest : List UInt8 → BitVec 128)

/-- `stable_hash_value`. -/
def stableHashValue (value : Value) : Except HashError StableHash := do
  let d ← Value.hashValue leb digest value
  pure (stableHashFromDigest d)

/-- `GroupKey::from_raw`: the key of a canonical value, with its stable hash. -/
def GroupKey.fromRaw (raw : Value) : Except KeyCanonicalError GroupKey :=
  match stableHashValue leb digest raw with
  | .ok hash => .ok (fromRawWithHash raw hash)
  | .error _ => .error (.hashingFailed (keyCanonicalValueCode raw))

/-- `GroupKey::from_group_values`. -/
def GroupKey.fromGroupValues (groupValues : List Value) : Except KeyCanonicalError GroupKey := do
  let canonical ← Value.canonicalizeValue (.list groupValues)
  fromRaw leb digest canonical

/-- `GroupKey::from_single_group_value`. -/
def GroupKey.fromSingleGroupValue (groupValue : Value) : Except KeyCanonicalError GroupKey := do
  let canonical ← Value.canonicalizeValue groupValue
  fromRaw leb digest (.list [canonical])

/-- `GroupKey::from_single_canonical_group_value`. -/
def GroupKey.fromSingleCanonicalGroupValue (groupValue : Value) :
    Except KeyCanonicalError GroupKey :=
  fromRaw leb digest (.list [groupValue])

/-- Every value has a stable hash: the hasher fails only on accounts and
principals without stored bytes, and the model's have them. -/
theorem stableHashValue_ok (value : Value) : ∃ hash, stableHashValue leb digest value = .ok hash := by
  obtain ⟨bytes, hbytes⟩ := Value.writeToHasher_ok leb value
  exact ⟨stableHashFromDigest (digest (Value.ValueHashWriter.new.stream ++ bytes)), by
    simp [stableHashValue, Value.hashValue, Value.ValueHashWriter.writeValue,
      Value.ValueHashWriter.finish, hbytes]⟩

theorem GroupKey.fromRaw_eq {raw : Value} {hash : StableHash}
    (h : stableHashValue leb digest raw = .ok hash) : fromRaw leb digest raw = .ok ⟨raw, hash⟩ := by
  simp [fromRaw, h, fromRawWithHash]

end Hashing

/-! ### Field kinds -/

/-- `AcceptedFieldKind`, without the catalog data the grouped paths never read:
length limits, decimal scale, big-integer widths, enum and composite catalog
ids, and a relation's target. -/
inductive AcceptedFieldKind
  | account | blob | bool | date | decimal | duration | enum | float32 | float64
  | int8 | int16 | int32 | int64 | int128 | intBig | principal | subaccount | text
  | timestamp | nat8 | nat16 | nat32 | nat64 | nat128 | natBig | ulid | unit
  | relation (keyKind : AcceptedFieldKind)
  | list (item : AcceptedFieldKind)
  | set (item : AcceptedFieldKind)
  | map (key value : AcceptedFieldKind)
  | composite
deriving DecidableEq, Repr

namespace AcceptedFieldKind

/-- `accepted_field_kind_has_identity_group_canonical_form`. -/
def hasIdentityGroupCanonicalForm : AcceptedFieldKind → Bool
  | decimal | enum | relation _ | list _ | set _ | map _ _ | composite | unit => false
  | _ => true

/-- `accepted_field_kind_supports_group_probe`. -/
def supportsGroupProbe : AcceptedFieldKind → Bool
  | relation keyKind => supportsGroupProbe keyKind
  | decimal => true
  | kind => hasIdentityGroupCanonicalForm kind

theorem supportsGroupProbe_of_hasIdentity {kind : AcceptedFieldKind}
    (h : kind.hasIdentityGroupCanonicalForm) : kind.supportsGroupProbe := by
  cases kind <;> simp_all [hasIdentityGroupCanonicalForm, supportsGroupProbe]

/-- The variant a field of this kind stores: the narrow integers are stored
as `Int64` and `Nat64`, sets as lists, and a relation as its key. -/
def valueTag : AcceptedFieldKind → Option ValueTag
  | account => some .account
  | blob => some .blob
  | bool => some .bool
  | date => some .date
  | decimal => some .decimal
  | duration => some .duration
  | enum => some .enum
  | float32 => some .float32
  | float64 => some .float64
  | int8 | int16 | int32 | int64 => some .int64
  | int128 => some .int128
  | intBig => some .intBig
  | principal => some .principal
  | subaccount => some .subaccount
  | text => some .text
  | timestamp => some .timestamp
  | nat8 | nat16 | nat32 | nat64 => some .nat64
  | nat128 => some .nat128
  | natBig => some .natBig
  | ulid => some .ulid
  | unit => some .unit
  | relation keyKind => keyKind.valueTag
  | list _ | set _ => some .list
  | map _ _ => some .map
  | composite => none

/-- A field of this kind holds `Null` or a value of its variant. -/
def Admits (kind : AcceptedFieldKind) (v : Value) : Prop :=
  v.canonicalTag = .null ∨ kind.valueTag = some v.canonicalTag

instance (kind : AcceptedFieldKind) (v : Value) : Decidable (kind.Admits v) :=
  inferInstanceAs (Decidable (_ ∨ _))

/-- A probe-capable kind stores scalars other than enums. -/
theorem valueTag_of_supportsGroupProbe {kind : AcceptedFieldKind} (hk : kind.supportsGroupProbe)
    {t : ValueTag} (ht : kind.valueTag = some t) :
    t ≠ .list ∧ t ≠ .map ∧ t ≠ .unit ∧ t ≠ .enum := by
  induction kind with
  | relation keyKind ih => exact ih hk ht
  | _ =>
    -- the kinds that do not probe are refuted by `hk`, the rest name their tag
    simp only [supportsGroupProbe, hasIdentityGroupCanonicalForm, valueTag,
      Option.some.injEq, reduceCtorEq] at hk ht <;> subst ht <;> decide

/-- A kind with an identity canonical form stores no decimals. -/
theorem valueTag_of_hasIdentity {kind : AcceptedFieldKind} (hk : kind.hasIdentityGroupCanonicalForm)
    {t : ValueTag} (ht : kind.valueTag = some t) : t ≠ .decimal := by
  cases kind <;> simp only [hasIdentityGroupCanonicalForm, valueTag, Option.some.injEq,
    reduceCtorEq] at hk ht <;> (subst ht; decide)

section Admits

variable {kind : AcceptedFieldKind} {v : Value}

theorem Admits.canonicalScalar (hv : kind.Admits v) : kind.Admits v.canonicalScalar := by
  simpa [Admits] using hv

/-- A value a probe-capable kind admits is a scalar other than an enum. -/
theorem Admits.probe (hk : kind.supportsGroupProbe) (hv : kind.Admits v) :
    v.isScalar ∧ v.canonicalTag ≠ .enum := by
  have htag : v.canonicalTag ≠ .list ∧ v.canonicalTag ≠ .map ∧ v.canonicalTag ≠ .unit ∧
      v.canonicalTag ≠ .enum := by
    rcases hv with h | h
    · rw [h]
      decide
    · exact valueTag_of_supportsGroupProbe hk h
  obtain ⟨hl, hm, hu, he⟩ := htag
  refine ⟨?_, he⟩
  cases v <;> simp_all [Value.isScalar, Value.canonicalTag]

/-- A value an identity kind admits is its own canonical form. -/
theorem Admits.canonicalScalar_eq (hk : kind.hasIdentityGroupCanonicalForm)
    (hv : kind.Admits v) : v.canonicalScalar = v := by
  apply Value.canonicalScalar_of_ne_decimal
  rcases hv with h | h
  · rw [h]
    decide
  · exact valueTag_of_hasIdentity hk h

/-- Two values one kind admits are of one variant, or one of them is `Null`,
which has no `Decimal` form. -/
theorem Admits.tag_eq_or_not_decimal (fd : FloatDecimal) {x y : Value} (hx : kind.Admits x)
    (hy : kind.Admits y) :
    x.canonicalTag = y.canonicalTag ∨ x.coerceNumericDecimal fd = none ∨
      y.coerceNumericDecimal fd = none := by
  have hnull : ∀ w : Value, w.canonicalTag = .null → w.coerceNumericDecimal fd = none := by
    intro w hw
    cases w <;> first | rfl | cases hw
  rcases hx with hx | hx
  · exact .inr (.inl (hnull x hx))
  rcases hy with hy | hy
  · exact .inr (.inr (hnull y hy))
  · rw [hx] at hy
    exact .inl (Option.some.inj hy)

end Admits

end AcceptedFieldKind

/-- On values one probe-capable kind admits, the borrowed probe says `Equal`
against a canonical form exactly when the two canonical forms are equal. -/
theorem canonicalValueCompare_canonicalScalar_eq_iff {fd : FloatDecimal} (hfd : fd.Injective)
    {kind : AcceptedFieldKind} (hk : kind.supportsGroupProbe) {x y : Value} (hx : kind.Admits x)
    (hy : kind.Admits y) :
    Value.canonicalValueCompare fd x y.canonicalScalar = .eq ↔
      y.canonicalScalar = x.canonicalScalar := by
  obtain ⟨hscalar, henum⟩ := hx.probe hk
  have htag := AcceptedFieldKind.Admits.tag_eq_or_not_decimal fd hx hy.canonicalScalar
  rw [Value.canonicalValueCompare_eq_eq_iff hfd htag, ← Value.beq_iff_canonicalCmp_eq,
    Value.beq_iff_canonicalScalar_eq hscalar henum, Value.canonicalScalar_canonicalScalar, eq_comm]

/-! ### Field slots and row views -/

/-- `FieldSlot`: a group field's slot and its accepted kind, when the planner
froze one. -/
structure FieldSlot where
  index : Nat
  acceptedKind : Option AcceptedFieldKind

/-- `RowView`, read through `slot_value`. -/
structure RowView where
  slotValue : Nat → Option Value

namespace RowView

/-- `require_slot_value` (and `require_slot_owned`, its owned copy):
`missing_required_slot_error` is `query_executor_invariant`. -/
def requireSlotValue (row : RowView) (index : Nat) : Except InternalError Value :=
  match row.slotValue index with
  | some value => .ok value
  | none => .error .queryExecutorInvariant

/-- `with_required_slot`. -/
def withRequiredSlot {α : Type} (row : RowView) (index : Nat)
    (f : Value → Except InternalError α) : Except InternalError α := do
  let value ← row.requireSlotValue index
  f value

/-- `group_values`: the group slots in field order, up to the first missing
one. -/
def groupValues (row : RowView) (groupFields : List FieldSlot) :
    Except InternalError (List Value) :=
  groupFields.mapM fun field => row.requireSlotValue field.index

/-- The row holds `values` in the slots of `fields`, in order. -/
def Holds (row : RowView) (fields : List FieldSlot) (values : List Value) : Prop :=
  List.Forall₂ (fun field value => row.slotValue field.index = some value) fields values

theorem requireSlotValue_of_eq {row : RowView} {index : Nat} {v : Value}
    (h : row.slotValue index = some v) : row.requireSlotValue index = .ok v := by
  simp [requireSlotValue, h]

theorem withRequiredSlot_of_eq {α : Type} {row : RowView} {index : Nat} {v : Value}
    (h : row.slotValue index = some v) (f : Value → Except InternalError α) :
    row.withRequiredSlot index f = f v := by
  simp [withRequiredSlot, requireSlotValue_of_eq h]

theorem groupValues_of_holds {row : RowView} {fields : List FieldSlot} {values : List Value}
    (h : row.Holds fields values) : row.groupValues fields = .ok values := by
  induction h with
  | nil => rfl
  | cons hv _ ih =>
    simp only [groupValues, List.mapM_cons, requireSlotValue_of_eq hv] at ih ⊢
    rw [ih]
    rfl

end RowView

/-- The values fit their fields: each field has an accepted kind that admits
its value, and the value's length frames fit a `u32`. -/
def GroupValuesFit (leb : Leb128) (fields : List FieldSlot) (values : List Value) : Prop :=
  List.Forall₂ (fun field value => ∃ kind, field.acceptedKind = some kind ∧ kind.Admits value ∧
    Value.FitsLengthFrames leb value) fields values

end IcyDb
