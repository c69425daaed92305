import IcyDb.Types.Account

/-!
# Compact primary-key codec

The key taxonomy writes a primary key as a kind tag followed by a canonical
payload: big-endian unsigned integers, sign-flipped big-endian signed
integers and timestamps, a length byte before a principal, the 62-byte
account layout, and nothing for `Unit`.  A composite key is the composite
tag, a component count and the concatenated scalar encodings of its two to
four non-`Unit` components.

This file embeds the data model, the encoder and the decoder of
`db::key_taxonomy`, with the decoder's error taxonomy.
-/

namespace IcyDb

open ByteOrder

/-- `MAX_PRIMARY_KEY_FIELDS`. -/
def maxPrimaryKeyFields : Nat := 4

/-- `PrimaryKeyKind`, in declaration order, which is also tag order. -/
inductive PrimaryKeyKind
  | nat64 | int64 | timestamp | ulid | principal | subaccount | account | unit | composite
  | int128 | nat128
deriving DecidableEq, Repr

namespace PrimaryKeyKind

/-- `PrimaryKeyKind::tag`. -/
def tag : PrimaryKeyKind → UInt8
  | nat64 => 0x01 | int64 => 0x02 | timestamp => 0x03 | ulid => 0x04 | principal => 0x05
  | subaccount => 0x06 | account => 0x07 | unit => 0x08 | composite => 0x09
  | int128 => 0x0A | nat128 => 0x0B

/-- `PrimaryKeyKind::from_tag`. -/
def fromTag : UInt8 → Option PrimaryKeyKind
  | 0x01 => some nat64 | 0x02 => some int64 | 0x03 => some timestamp | 0x04 => some ulid
  | 0x05 => some principal | 0x06 => some subaccount | 0x07 => some account
  | 0x08 => some unit | 0x09 => some composite | 0x0A => some int128 | 0x0B => some nat128
  | _ => none

/-- `PrimaryKeyKind::fixed_payload_len`. -/
def fixedPayloadLen : PrimaryKeyKind → Option Nat
  | nat64 => some 8 | int64 => some 8 | nat128 => some 16 | int128 => some 16
  | timestamp => some 8 | ulid => some 16 | principal => none | composite => none
  | subaccount => some 32 | account => some accountStoredSize | unit => some 0

/-- The derived order on the kind: declaration order, which is tag order. -/
def cmp (a b : PrimaryKeyKind) : Ordering := compare a.tag b.tag

@[simp] theorem fromTag_tag (k : PrimaryKeyKind) : fromTag k.tag = some k := by
  cases k <;> rfl

theorem eq_of_fromTag {t : UInt8} {k : PrimaryKeyKind} (h : fromTag t = some k) : k.tag = t := by
  unfold fromTag at h
  split at h <;> cases h <;> rfl

theorem tag_injective {a b : PrimaryKeyKind} (h : a.tag = b.tag) : a = b := by
  have := fromTag_tag a
  rw [h, fromTag_tag] at this
  exact (Option.some.inj this).symm

end PrimaryKeyKind

/-- `PrimaryKeyComponent`: one admitted scalar primary-key component. -/
inductive PrimaryKeyComponent
  | nat64 (value : BitVec 64)
  | int64 (value : BitVec 64)
  | nat128 (value : BitVec 128)
  | int128 (value : BitVec 128)
  | timestamp (value : Timestamp)
  | ulid (value : Ulid)
  | principal (value : Principal)
  | subaccount (value : Subaccount)
  | account (value : Account)
  | unit
deriving DecidableEq

namespace PrimaryKeyComponent

/-- `PrimaryKeyComponent::kind`. -/
def kind : PrimaryKeyComponent → PrimaryKeyKind
  | nat64 _ => .nat64 | int64 _ => .int64 | nat128 _ => .nat128 | int128 _ => .int128
  | timestamp _ => .timestamp | ulid _ => .ulid | principal _ => .principal
  | subaccount _ => .subaccount | account _ => .account | unit => .unit

/-- `Ord for PrimaryKeyComponent`: same-kind components compare by value,
different kinds by kind. -/
def cmp : PrimaryKeyComponent → PrimaryKeyComponent → Ordering
  | nat64 a, nat64 b => compare a.toNat b.toNat
  | int64 a, int64 b => compare a.toInt b.toInt
  | nat128 a, nat128 b => compare a.toNat b.toNat
  | int128 a, int128 b => compare a.toInt b.toInt
  | timestamp a, timestamp b => a.cmp b
  | ulid a, ulid b => a.cmp b
  | principal a, principal b => a.cmp b
  | subaccount a, subaccount b => a.cmp b
  | account a, account b => a.cmp b
  | unit, unit => .eq
  | a, b => a.kind.cmp b.kind

end PrimaryKeyComponent

/-- `CompositePrimaryKeyValue`: two to four components, none of them `Unit`,
as `try_from_components` admits them. -/
structure CompositePrimaryKeyValue where
  components : List PrimaryKeyComponent
  two_le : 2 ≤ components.length
  le_max : components.length ≤ maxPrimaryKeyFields
  no_unit : ∀ c ∈ components, c ≠ .unit

/-- `CompositePrimaryKeyValueError`. -/
inductive CompositePrimaryKeyValueError
  | tooFewComponents (count min : Nat)
  | tooManyComponents (count max : Nat)
  | unitComponent (index : Nat)
deriving DecidableEq, Repr

/-- `CompositePrimaryKeyValue::try_from_components`. -/
def CompositePrimaryKeyValue.tryFromComponents (components : List PrimaryKeyComponent) :
    Except CompositePrimaryKeyValueError CompositePrimaryKeyValue :=
  if h2 : components.length < 2 then .error (.tooFewComponents components.length 2)
  else if h4 : components.length > maxPrimaryKeyFields then
    .error (.tooManyComponents components.length maxPrimaryKeyFields)
  else if hu : PrimaryKeyComponent.unit ∈ components then
    .error (.unitComponent (components.idxOf .unit))
  else
    .ok ⟨components, by omega, by omega, fun c hc heq => hu (heq ▸ hc)⟩

/-- `Ord for CompositePrimaryKeyValue`: the component slices compared
lexicographically. -/
def CompositePrimaryKeyValue.cmp (a b : CompositePrimaryKeyValue) : Ordering :=
  List.compareLex PrimaryKeyComponent.cmp a.components b.components

/-- `PrimaryKeyValue`: a scalar component or a composite. -/
inductive PrimaryKeyValue
  | scalar (component : PrimaryKeyComponent)
  | composite (value : CompositePrimaryKeyValue)

namespace PrimaryKeyValue

/-- `PrimaryKeyValue::kind`. -/
def kind : PrimaryKeyValue → PrimaryKeyKind
  | scalar c => c.kind
  | composite _ => .composite

/-- `Ord for PrimaryKeyValue`. -/
def cmp : PrimaryKeyValue → PrimaryKeyValue → Ordering
  | scalar a, scalar b => a.cmp b
  | composite a, composite b => a.cmp b
  | a, b => a.kind.cmp b.kind

end PrimaryKeyValue

/-! ### Encoder -/

/-- `CompactPrimaryKeyEncodeError`. -/
inductive CompactPrimaryKeyEncodeError
  | invalidAccount
  | principalTooLarge
deriving DecidableEq, Repr

/-- `encode_ordered_i64`: `(value as u64 ^ 1 << 63).to_be_bytes()`. -/
def encodeOrderedI64 (value : BitVec 64) : List UInt8 := signFlipBytes 8 value

/-- `decode_ordered_i64`. -/
def decodeOrderedI64 (bytes : List UInt8) : BitVec 64 := signFlipValue bytes

/-- `encode_ordered_i128`: `(value as u128 ^ 1 << 127).to_be_bytes()`. -/
def encodeOrderedI128 (value : BitVec 128) : List UInt8 := signFlipBytes 16 value

/-- `decode_ordered_i128`. -/
def decodeOrderedI128 (bytes : List UInt8) : BitVec 128 := signFlipValue bytes

@[simp] theorem length_encodeOrderedI64 (value : BitVec 64) :
    (encodeOrderedI64 value).length = 8 :=
  length_signFlipBytes value

@[simp] theorem length_encodeOrderedI128 (value : BitVec 128) :
    (encodeOrderedI128 value).length = 16 :=
  length_signFlipBytes value

@[simp] theorem decodeOrderedI64_encodeOrderedI64 (value : BitVec 64) :
    decodeOrderedI64 (encodeOrderedI64 value) = value :=
  signFlipValue_signFlipBytes value rfl

@[simp] theorem decodeOrderedI128_encodeOrderedI128 (value : BitVec 128) :
    decodeOrderedI128 (encodeOrderedI128 value) = value :=
  signFlipValue_signFlipBytes value rfl

theorem encodeOrderedI64_decodeOrderedI64 {bytes : List UInt8} (h : bytes.length = 8) :
    encodeOrderedI64 (decodeOrderedI64 bytes) = bytes := by
  have := signFlipBytes_signFlipValue (k := 63) bytes (by rw [h])
  rwa [h] at this

theorem encodeOrderedI128_decodeOrderedI128 {bytes : List UInt8} (h : bytes.length = 16) :
    encodeOrderedI128 (decodeOrderedI128 bytes) = bytes := by
  have := signFlipBytes_signFlipValue (k := 127) bytes (by rw [h])
  rwa [h] at this

/-- `encode_principal`: a length byte, then the principal bytes. -/
def encodePrincipal (value : Principal) : Except CompactPrimaryKeyEncodeError (List UInt8) :=
  -- `stored_bytes` rejects an over-long principal, then the length must fit a `u8`
  if value.bytes.length > principalMaxLength then .error .principalTooLarge
  else if value.bytes.length > 255 then .error .principalTooLarge
  else .ok (UInt8.ofNat value.bytes.length :: value.bytes)

/-- `encode_primary_key_payload`. -/
def encodePrimaryKeyPayload : PrimaryKeyComponent → Except CompactPrimaryKeyEncodeError (List UInt8)
  | .nat64 value => .ok (beBytes 8 value.toNat)
  | .int64 value => .ok (encodeOrderedI64 value)
  | .nat128 value => .ok (beBytes 16 value.toNat)
  | .int128 value => .ok (encodeOrderedI128 value)
  | .timestamp value => .ok (encodeOrderedI64 value.millis)
  | .ulid value => .ok value.bytes
  | .principal value => encodePrincipal value
  | .subaccount value => .ok value.bytes
  | .account value =>
    match value.toStoredBytes with
    | .ok bytes => .ok bytes
    | .error _ => .error .invalidAccount
  | .unit => .ok []

/-- `encode_primary_key_component`: the kind tag, then the payload. -/
def encodePrimaryKeyComponent (value : PrimaryKeyComponent) :
    Except CompactPrimaryKeyEncodeError (List UInt8) := do
  let payload ← encodePrimaryKeyPayload value
  pure (value.kind.tag :: payload)

/-- `encode_composite_primary_key_value`: the composite tag, the component
count, then each component. -/
def encodeCompositePrimaryKeyValue (value : CompositePrimaryKeyValue) :
    Except CompactPrimaryKeyEncodeError (List UInt8) := do
  let parts ← value.components.mapM encodePrimaryKeyComponent
  pure (PrimaryKeyKind.composite.tag :: UInt8.ofNat value.components.length :: parts.flatten)

/-- `EncodedPrimaryKey::encode`. -/
def EncodedPrimaryKey.encode : PrimaryKeyValue → Except CompactPrimaryKeyEncodeError (List UInt8)
  | .scalar value => encodePrimaryKeyComponent value
  | .composite value => encodeCompositePrimaryKeyValue value

/-! ### Decoder -/

/-- `CompactPrimaryKeyDecodeError`. -/
inductive CompactPrimaryKeyDecodeError
  | empty
  | unknownKind (tag : UInt8)
  | invalidLength (kind : PrimaryKeyKind)
  | invalidPrincipalLength
  | invalidAccount
  | invalidCompositeCount (count : Nat)
  | unitCompositeComponent (index : Nat)
  | nestedComposite
  | compositeNotScalar
  | trailingCompositeBytes
deriving DecidableEq, Repr

/-- `primary_key_kind_from_bytes`. -/
def primaryKeyKindFromBytes : List UInt8 → Except CompactPrimaryKeyDecodeError PrimaryKeyKind
  | [] => .error .empty
  | tag :: _ =>
    match PrimaryKeyKind.fromTag tag with
    | some kind => .ok kind
    | none => .error (.unknownKind tag)

/-- `decode_principal`. -/
def decodePrincipal : List UInt8 → Except CompactPrimaryKeyDecodeError PrimaryKeyComponent
  | [] => .error (.invalidLength .principal)
  | len :: bytes =>
    if hlen : len.toNat > principalMaxLength then .error .invalidPrincipalLength
    else if h : bytes.length = len.toNat then
      .ok (.principal ⟨bytes, h ▸ Nat.le_of_not_gt hlen⟩)
    else .error (.invalidLength .principal)

/-- The payload of a fixed-length kind; the length check of the decoder has
already passed, so the `copy_from_slice` into the fixed array cannot fail and
the fallback branch is unreachable. -/
def fixedPayload (kind : PrimaryKeyKind) (len : Nat) (payload : List UInt8) :
    Except CompactPrimaryKeyDecodeError { bytes : List UInt8 // bytes.length = len } :=
  if h : payload.length = len then .ok ⟨payload, h⟩ else .error (.invalidLength kind)

theorem fixedPayload_of_length {kind : PrimaryKeyKind} {len : Nat} {payload : List UInt8}
    (h : payload.length = len) : fixedPayload kind len payload = .ok ⟨payload, h⟩ :=
  dif_pos h

/-- `decode_primary_key_component`. -/
def decodePrimaryKeyComponent : List UInt8 → Except CompactPrimaryKeyDecodeError PrimaryKeyComponent
  | [] => .error .empty
  | tag :: payload =>
    match PrimaryKeyKind.fromTag tag with
    | none => .error (.unknownKind tag)
    | some kind =>
      if kind.fixedPayloadLen.any (· != payload.length) then .error (.invalidLength kind)
      else
        match kind with
        | .nat64 => .ok (.nat64 (BitVec.ofNat 64 (beValue payload)))
        | .int64 => .ok (.int64 (decodeOrderedI64 payload))
        | .nat128 => .ok (.nat128 (BitVec.ofNat 128 (beValue payload)))
        | .int128 => .ok (.int128 (decodeOrderedI128 payload))
        | .timestamp => .ok (.timestamp ⟨decodeOrderedI64 payload⟩)
        | .ulid => (fixedPayload .ulid 16 payload).map fun bytes => .ulid ⟨bytes.1, bytes.2⟩
        | .principal => decodePrincipal payload
        | .subaccount =>
          (fixedPayload .subaccount 32 payload).map fun bytes => .subaccount ⟨bytes.1, bytes.2⟩
        | .account =>
          match Account.tryFromBytes payload with
          | .ok value => .ok (.account value)
          | .error _ => .error .invalidAccount
        | .unit => .ok .unit
        | .composite => .error .compositeNotScalar

/-- `take_encoded_primary_key_component`: split one scalar component off the
front of a composite payload, reading only its tag and, for a principal, its
length byte. -/
def takeEncodedPrimaryKeyComponent (input : List UInt8) :
    Except CompactPrimaryKeyDecodeError (List UInt8 × List UInt8) :=
  match input with
  | [] => .error .empty
  | tag :: rest =>
    match PrimaryKeyKind.fromTag tag with
    | none => .error (.unknownKind tag)
    | some .composite => .error .nestedComposite
    | some kind =>
      let totalLen : Except CompactPrimaryKeyDecodeError Nat :=
        if kind = .principal then
          match rest with
          | [] => .error (.invalidLength kind)
          | len :: _ =>
            if len.toNat > principalMaxLength then .error .invalidPrincipalLength
            else .ok (1 + 1 + len.toNat)
        else
          match kind.fixedPayloadLen with
          | none => .error (.invalidLength kind)
          | some payloadLen => .ok (1 + payloadLen)
      totalLen.bind fun total =>
        if input.length < total then .error (.invalidLength kind)
        else .ok (input.take total, input.drop total)

/-- The component loop of `decode_composite_primary_key_value`: `count`
components, each split off, decoded, and rejected when it is `Unit`. -/
def decodeCompositeComponents : Nat → Nat → List UInt8 →
    Except CompactPrimaryKeyDecodeError (List PrimaryKeyComponent × List UInt8)
  | 0, _, input => .ok ([], input)
  | count + 1, index, input => do
    let (bytes, rest) ← takeEncodedPrimaryKeyComponent input
    let value ← decodePrimaryKeyComponent bytes
    if value = .unit then .error (.unitCompositeComponent index)
    else
      let (values, tail) ← decodeCompositeComponents count (index + 1) rest
      pure (value :: values, tail)

/-- `decode_composite_primary_key_value`. -/
def decodeCompositePrimaryKeyValue :
    List UInt8 → Except CompactPrimaryKeyDecodeError CompositePrimaryKeyValue
  | [] => .error .empty
  | tag :: payload =>
    match PrimaryKeyKind.fromTag tag with
    | none => .error (.unknownKind tag)
    | some kind =>
      if kind ≠ .composite then .error (.invalidCompositeCount 0)
      else
        match payload with
        | [] => .error (.invalidLength kind)
        | count :: rest =>
          if ¬(2 ≤ count.toNat ∧ count.toNat ≤ maxPrimaryKeyFields) then
            .error (.invalidCompositeCount count.toNat)
          else do
            let (components, input) ← decodeCompositeComponents count.toNat 0 rest
            if input ≠ [] then .error .trailingCompositeBytes
            else
              match CompositePrimaryKeyValue.tryFromComponents components with
              | .ok value => .ok value
              | .error (.tooFewComponents count _) => .error (.invalidCompositeCount count)
              | .error (.tooManyComponents count _) => .error (.invalidCompositeCount count)
              | .error (.unitComponent index) => .error (.unitCompositeComponent index)

/-- `EncodedPrimaryKey::decode_bytes`. -/
def EncodedPrimaryKey.decodeBytes (bytes : List UInt8) :
    Except CompactPrimaryKeyDecodeError PrimaryKeyValue := do
  match ← primaryKeyKindFromBytes bytes with
  | .composite => (decodeCompositePrimaryKeyValue bytes).map .composite
  | _ => (decodePrimaryKeyComponent bytes).map .scalar

/-- `EncodedPrimaryKey::try_from`: accept the bytes when they decode. -/
def EncodedPrimaryKey.tryFrom (bytes : List UInt8) :
    Except CompactPrimaryKeyDecodeError (List UInt8) :=
  (EncodedPrimaryKey.decodeBytes bytes).map fun _ => bytes

end IcyDb
