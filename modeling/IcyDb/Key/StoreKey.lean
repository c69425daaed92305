import IcyDb.Key.PrimaryKey

/-!
# Store keys

The data store is keyed by the entity tag, big-endian, followed by the encoded
primary key.  The index store is keyed by a namespace byte, the 18-byte
`IndexId`, a component count and length-prefixed segments: one per indexed
component, then one for the primary key.  Raw index keys are not ordered by
their bytes: `compare_raw_index_store_key_bytes` re-parses both keys and
compares the segments, and only falls back to byte order when a key does not
parse.

This file embeds those wrappers of `db::key_taxonomy` and `IndexId` of
`db::index::key::id`.
-/

namespace IcyDb

open ByteOrder

/-- `LENGTH_PREFIX_SIZE`: segment lengths are `u16`. -/
def lengthPrefixSize : Nat := 2

/-- `INDEX_COMPONENT_MAX_SIZE`. -/
def indexComponentMaxSize : Nat := 4 * 1024

/-- `MAX_INDEX_FIELDS`. -/
def maxIndexFields : Nat := 4

/-- `SCALAR_PRIMARY_KEY_MAX_SIZE`: the tag and the largest scalar payload. -/
def scalarPrimaryKeyMaxSize : Nat := 1 + accountStoredSize

/-- `COMPOSITE_PRIMARY_KEY_MAX_SIZE`: the composite header and four of the
largest scalar components. -/
def compositePrimaryKeyMaxSize : Nat := (1 + 1) + maxPrimaryKeyFields * scalarPrimaryKeyMaxSize

/-- `INDEX_PRIMARY_KEY_MAX_SIZE`. -/
def indexPrimaryKeyMaxSize : Nat := compositePrimaryKeyMaxSize

/-- `CompactStoreKeyEncodeError`. -/
inductive CompactStoreKeyEncodeError
  | tooManyIndexComponents
  | indexSegmentTooLarge
deriving DecidableEq, Repr

/-- `CompactStoreKeyDecodeError`. -/
inductive CompactStoreKeyDecodeError
  | dataStoreKeyTooShort
  | truncatedIndexSegment
  | unknownIndexKeyKind
  | emptyIndexSegment
  | invalidIndexId
  | trailingIndexBytes
  | tooManyIndexComponents
  | indexSegmentTooLarge
  | invalidPrimaryKey (err : CompactPrimaryKeyDecodeError)
deriving DecidableEq, Repr

/-! ### Data-store keys -/

/-- `DataStoreKey`: an entity tag and the bytes of an `EncodedPrimaryKey`. -/
structure DataStoreKey where
  entityTag : EntityTag
  primaryKey : List UInt8
deriving DecidableEq

/-- `DataStoreKey::to_raw`. -/
def DataStoreKey.toRaw (k : DataStoreKey) : List UInt8 :=
  beBytes 8 k.entityTag.value.toNat ++ k.primaryKey

/-- `DataStoreKey::try_from_raw_bytes`. -/
def DataStoreKey.tryFromRawBytes (bytes : List UInt8) :
    Except CompactStoreKeyDecodeError DataStoreKey :=
  if bytes.length < 8 + 1 then .error .dataStoreKeyTooShort
  else
    match EncodedPrimaryKey.tryFrom (bytes.drop 8) with
    | .error err => .error (.invalidPrimaryKey err)
    | .ok primaryKey => .ok ⟨⟨BitVec.ofNat 64 (beValue (bytes.take 8))⟩, primaryKey⟩

/-! ### Index identity -/

/-- `IndexId`: entity tag, dense ordinal and generation. -/
structure IndexId where
  entityTag : EntityTag
  ordinal : BitVec 16
  generation : BitVec 64
deriving DecidableEq

/-- `IndexId::STORED_SIZE_USIZE`. -/
def IndexId.storedSize : Nat := 8 + 2 + 8

/-- `IndexId::to_bytes`: the three fields, big-endian. -/
def IndexId.toBytes (id : IndexId) : List UInt8 :=
  beBytes 8 id.entityTag.value.toNat ++ beBytes 2 id.ordinal.toNat ++ beBytes 8 id.generation.toNat

/-- `IndexId::from_bytes`. -/
def IndexId.fromBytes (bytes : List UInt8) : Option IndexId :=
  if bytes.length ≠ IndexId.storedSize then none
  else
    some ⟨⟨BitVec.ofNat 64 (beValue (bytes.take 8))⟩, BitVec.ofNat 16 (beValue ((bytes.drop 8).take 2)),
      BitVec.ofNat 64 (beValue (bytes.drop (8 + 2)))⟩

/-- The order derived on `IndexId`: entity tag, then ordinal, then generation. -/
def IndexId.cmp (a b : IndexId) : Ordering :=
  ((compare a.entityTag.value.toNat b.entityTag.value.toNat).then
    (compare a.ordinal.toNat b.ordinal.toNat)).then
      (compare a.generation.toNat b.generation.toNat)

/-! ### Index-store keys -/

/-- `IndexStoreKeyKind`. -/
inductive IndexStoreKeyKind
  | user
  | system
deriving DecidableEq, Repr

/-- `IndexStoreKeyKind::tag`. -/
def IndexStoreKeyKind.tag : IndexStoreKeyKind → UInt8
  | user => 0x00
  | system => 0x01

/-- `IndexStoreKeyKind::from_tag`. -/
def IndexStoreKeyKind.fromTag : UInt8 → Option IndexStoreKeyKind
  | 0x00 => some user
  | 0x01 => some system
  | _ => none

/-- The derived order: declaration order, which is tag order. -/
def IndexStoreKeyKind.cmp (a b : IndexStoreKeyKind) : Ordering := compare a.tag b.tag

/-- `IndexStoreKey`: namespace, index, encoded components and the encoded
primary key. -/
structure IndexStoreKey where
  keyKind : IndexStoreKeyKind
  indexId : IndexId
  components : List (List UInt8)
  primaryKey : List UInt8
deriving DecidableEq

/-- `push_len_prefixed`: append a `u16` big-endian length and the bytes. -/
def pushLenPrefixed (bytes out : List UInt8) : Except CompactStoreKeyEncodeError (List UInt8) :=
  if bytes.length ≥ 2 ^ 16 then .error .indexSegmentTooLarge
  else .ok (out ++ beBytes lengthPrefixSize bytes.length ++ bytes)

/-- `IndexStoreKey::to_raw`. -/
def IndexStoreKey.toRaw (k : IndexStoreKey) : Except CompactStoreKeyEncodeError (List UInt8) :=
  if k.components.length ≥ 2 ^ 8 then .error .tooManyIndexComponents
  else do
    let header := k.keyKind.tag :: k.indexId.toBytes ++ [UInt8.ofNat k.components.length]
    let bytes ← k.components.foldlM (fun out component => pushLenPrefixed component out) header
    pushLenPrefixed k.primaryKey bytes

/-- `take_exact`: split `len` bytes off the front. -/
def takeExact (input : List UInt8) (len : Nat) :
    Except CompactStoreKeyDecodeError (List UInt8 × List UInt8) :=
  if input.length < len then .error .truncatedIndexSegment
  else .ok (input.take len, input.drop len)

/-- `take_len_prefixed`: a non-empty `u16`-length-prefixed segment. -/
def takeLenPrefixed (input : List UInt8) :
    Except CompactStoreKeyDecodeError (List UInt8 × List UInt8) := do
  let (lenBytes, input) ← takeExact input lengthPrefixSize
  let len := beValue lenBytes
  if len = 0 then throw .emptyIndexSegment
  else takeExact input len

/-- The component loop of `decode_raw_index_store_key_segments`. -/
def takeIndexComponents : Nat → List UInt8 →
    Except CompactStoreKeyDecodeError (List (List UInt8) × List UInt8)
  | 0, input => .ok ([], input)
  | count + 1, input => do
    let (component, input) ← takeLenPrefixed input
    if component.length > indexComponentMaxSize then throw .indexSegmentTooLarge
    else
      let (components, input) ← takeIndexComponents count input
      pure (component :: components, input)

/-- `BorrowedIndexStoreKeySegments`: namespace, index, component segments and
primary-key segment. -/
abbrev IndexStoreKeySegments := IndexStoreKeyKind × IndexId × List (List UInt8) × List UInt8

/-- `decode_raw_index_store_key_segments`.  A one-byte `take_exact` always
yields one byte, so its first byte is read with a default that is never used. -/
def decodeRawIndexStoreKeySegments (bytes : List UInt8) :
    Except CompactStoreKeyDecodeError IndexStoreKeySegments := do
  let (kindBytes, input) ← takeExact bytes 1
  let some keyKind := IndexStoreKeyKind.fromTag (kindBytes.headD 0)
    | throw .unknownIndexKeyKind
  let (idBytes, input) ← takeExact input IndexId.storedSize
  let some indexId := IndexId.fromBytes idBytes
    | throw .invalidIndexId
  let (countBytes, input) ← takeExact input 1
  let componentCount := (countBytes.headD 0).toNat
  if componentCount > maxIndexFields then throw .tooManyIndexComponents
  else
    let (components, input) ← takeIndexComponents componentCount input
    let (primaryKey, input) ← takeLenPrefixed input
    if primaryKey.length > indexPrimaryKeyMaxSize then throw .indexSegmentTooLarge
    else if input ≠ [] then throw .trailingIndexBytes
    else pure (keyKind, indexId, components, primaryKey)

/-- `compare_segments`: the first unequal pair of the `zip` loop decides. -/
def compareSegments (left right : List (List UInt8)) : Ordering := compareZip left right

/-- `compare_raw_index_store_key_bytes`: parsed keys compare by namespace,
index, component count, component segments and primary-key segment; when
either key does not parse, the raw bytes compare. -/
def compareRawIndexStoreKeyBytes (left right : List UInt8) : Ordering :=
  match decodeRawIndexStoreKeySegments left, decodeRawIndexStoreKeySegments right with
  | .ok (leftKind, leftIndexId, leftComponents, leftPrimaryKey),
    .ok (rightKind, rightIndexId, rightComponents, rightPrimaryKey) =>
    ((((leftKind.cmp rightKind).then (leftIndexId.cmp rightIndexId)).then
      (compare leftComponents.length rightComponents.length)).then
        (compareSegments leftComponents rightComponents)).then
          (compare leftPrimaryKey rightPrimaryKey)
  | _, _ => compare left right

end IcyDb
