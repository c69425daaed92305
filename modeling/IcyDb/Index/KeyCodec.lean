import IcyDb.Key.StoreKey

/-!
# Index-key codec

`IndexKey` is the engine's in-memory index key: a namespace, an index, the
canonical bytes of each indexed component and the primary-key suffix.  Its
raw form is the index-store key framing.  `to_raw` writes an ordinary row key
through `IndexStoreKey::to_raw` when the suffix is a compact primary key, and
writes the same framing directly otherwise (range sentinels use wildcard
suffixes).  `try_from_raw` reads the framing back at offsets, under the size
window of `MIN_STORED_SIZE`/`MAX_STORED_SIZE` and the segment bounds
`MAX_COMPONENT_SIZE`/`MAX_PK_SIZE`.

This file embeds `db::index::key::codec` with its bounds, errors and tuple
helpers.
-/

namespace IcyDb

open ByteOrder

/-- `IndexKeyKind`. -/
inductive IndexKeyKind
  | user
  | system
deriving DecidableEq, Repr

/-- `IndexKeyEncodeError`. -/
inductive IndexKeyEncodeError
  | emptySegment
  | invalidPrimaryKey
  | segmentTooLarge
  | tooManyComponents
deriving DecidableEq, Repr

/-- `From<CompactStoreKeyEncodeError> for IndexKeyEncodeError`. -/
def IndexKeyEncodeError.ofCompactStoreKeyEncodeError :
    CompactStoreKeyEncodeError → IndexKeyEncodeError
  | .tooManyIndexComponents => .tooManyComponents
  | .indexSegmentTooLarge => .segmentTooLarge

/-- `IndexKeyDecodeError`. -/
inductive IndexKeyDecodeError
  | invalidKeyKind
  | invalidSize
  | invalidIndexIdBytes
  | invalidIndexLength
  | invalidPrimaryKey
  | trailingBytes
  | truncatedKey
  | zeroLengthSegment
  | overlongSegment
  | segmentOverflow
deriving DecidableEq, Repr

namespace IndexKeyKind

/-- `IndexKeyKind::from_tag`. -/
def fromTag : UInt8 → Except IndexKeyDecodeError IndexKeyKind
  | 0 => .ok user
  | 1 => .ok system
  | _ => .error .invalidKeyKind

/-- `index_key_kind_to_store_key_kind`. -/
def toStoreKeyKind : IndexKeyKind → IndexStoreKeyKind
  | user => .user
  | system => .system

/-- The derived order: declaration order. -/
def cmp : IndexKeyKind → IndexKeyKind → Ordering
  | user, user => .eq
  | user, system => .lt
  | system, user => .gt
  | system, system => .eq

end IndexKeyKind

/-! ### Bounds -/

/-- `KEY_KIND_TAG_SIZE`. -/
def keyKindTagSize : Nat := 1

/-- `COMPONENT_COUNT_SIZE`. -/
def componentCountSize : Nat := 1

/-- `SEGMENT_LEN_SIZE`. -/
def segmentLenSize : Nat := 2

/-- `KEY_PREFIX_SIZE`. -/
def keyPrefixSize : Nat := keyKindTagSize + IndexId.storedSize + componentCountSize

/-- `IndexKey`: namespace, index, canonical component bytes and primary-key
suffix. -/
structure IndexKey where
  keyKind : IndexKeyKind
  indexId : IndexId
  components : List (List UInt8)
  primaryKey : List UInt8
deriving DecidableEq

namespace IndexKey

/-- `IndexKey::MAX_COMPONENT_SIZE`. -/
def maxComponentSize : Nat := 4 * 1024

/-- `IndexKey::MAX_PK_SIZE`: one tag byte and the 62-byte account payload, the
largest scalar primary key. -/
def maxPkSize : Nat := 1 + accountStoredSize

/-- `IndexKey::MIN_SEGMENT_SIZE`. -/
def minSegmentSize : Nat := 1

/-- `IndexKey::MAX_STORED_SIZE_USIZE`. -/
def maxStoredSize : Nat :=
  keyPrefixSize + maxIndexFields * (segmentLenSize + maxComponentSize) +
    (segmentLenSize + maxPkSize)

/-- `IndexKey::MIN_STORED_SIZE_USIZE`. -/
def minStoredSize : Nat := keyPrefixSize + segmentLenSize + minSegmentSize

/-- `IndexKey::wildcard_low_pk`. -/
def wildcardLowPk : List UInt8 := [0]

/-- `IndexKey::wildcard_high_pk`. -/
def wildcardHighPk : List UInt8 := List.replicate maxPkSize 0xFF

end IndexKey

/-! ### Tuple helpers -/

/-- `push_segment`: append a non-empty segment with its `u16` big-endian
length. -/
def pushSegment (bytes segment : List UInt8) : Except IndexKeyEncodeError (List UInt8) :=
  if segment = [] then .error .emptySegment
  else if segment.length ≥ 2 ^ 16 then .error .segmentTooLarge
  else .ok (bytes ++ beBytes segmentLenSize segment.length ++ segment)

/-- `compare_segment_bytes`. -/
def compareSegmentBytes (left right : List UInt8) : Ordering := compare left right

/-- `compare_component_segments`: the first unequal pair of the `zip` loop
decides. -/
def compareComponentSegments (left right : List (List UInt8)) : Ordering := compareZip left right

/-- `read_segment`: read a `u16` length at `offset`, then that many bytes.
Offsets are bounded by the length of an in-memory buffer, so the
`checked_add` behind `SegmentOverflow` cannot fail and is not modelled. -/
def readSegment (bytes : List UInt8) (offset maxLen : Nat) :
    Except IndexKeyDecodeError (List UInt8 × Nat) :=
  if offset + segmentLenSize > bytes.length then .error .truncatedKey
  else
    let len := beValue ((bytes.drop offset).take segmentLenSize)
    let offset := offset + segmentLenSize
    if len = 0 then .error .zeroLengthSegment
    else if len > maxLen then .error .overlongSegment
    else if offset + len > bytes.length then .error .truncatedKey
    else .ok ((bytes.drop offset).take len, offset + len)

/-- The check `to_raw_with_primary_key` and the bound builders make of every
component they write. -/
def validateComponentSegment (component : List UInt8) : Except IndexKeyEncodeError Unit :=
  if component = [] then .error .emptySegment
  else if component.length > IndexKey.maxComponentSize then .error .segmentTooLarge
  else .ok ()

/-- `parse_index_key_header`: the size window, then namespace, index and
component count.  The window guarantees the 20 header bytes, so the indexed
reads use a default that is never taken. -/
def parseIndexKeyHeader (bytes : List UInt8) :
    Except IndexKeyDecodeError (IndexKeyKind × IndexId × Nat × Nat) :=
  if bytes.length < IndexKey.minStoredSize ∨ bytes.length > IndexKey.maxStoredSize then
    .error .invalidSize
  else do
    let keyKind ← IndexKeyKind.fromTag (bytes.getD 0 0)
    let offset := keyKindTagSize
    let some indexId := IndexId.fromBytes ((bytes.drop offset).take IndexId.storedSize)
      | throw .invalidIndexIdBytes
    let offset := offset + IndexId.storedSize
    let componentCount := bytes.getD offset 0
    let offset := offset + componentCountSize
    if componentCount.toNat > maxIndexFields then throw .invalidIndexLength
    else pure (keyKind, indexId, componentCount.toNat, offset)

/-- The component loop of `try_from_raw` and
`primary_key_value_and_bytes_from_raw`. -/
def readComponentSegments (bytes : List UInt8) :
    Nat → Nat → Except IndexKeyDecodeError (List (List UInt8) × Nat)
  | 0, offset => .ok ([], offset)
  | count + 1, offset => do
    let (component, offset) ← readSegment bytes offset IndexKey.maxComponentSize
    let (components, offset) ← readComponentSegments bytes count offset
    pure (component :: components, offset)

namespace IndexKey

/-- `Ord for IndexKey`: namespace, index, component count, component
segments, then primary-key bytes. -/
def cmp (a b : IndexKey) : Ordering :=
  ((((a.keyKind.cmp b.keyKind).then (a.indexId.cmp b.indexId)).then
    (compare a.components.length b.components.length)).then
      (compareComponentSegments a.components b.components)).then
        (compareSegmentBytes a.primaryKey b.primaryKey)

/-- `IndexKey::to_raw_with_primary_key_segment`: the framing written
directly, for suffixes that are not compact primary keys. -/
def toRawWithPrimaryKeySegment (k : IndexKey) (primaryKey : List UInt8) :
    Except IndexKeyEncodeError (List UInt8) :=
  let bytes := k.keyKind.toStoreKeyKind.tag :: k.indexId.toBytes
  if k.components.length ≥ 2 ^ 8 then .error .tooManyComponents
  else do
    let bytes ← k.components.foldlM pushSegment (bytes ++ [UInt8.ofNat k.components.length])
    pushSegment bytes primaryKey

/-- `IndexKey::to_raw_with_primary_key`: validate, then write a row key
through the compact taxonomy and anything else through the raw segment path. -/
def toRawWithPrimaryKey (k : IndexKey) (primaryKey : List UInt8) :
    Except IndexKeyEncodeError (List UInt8) :=
  if k.components.length > maxIndexFields ∨ k.components.length ≥ 2 ^ 8 then
    .error .tooManyComponents
  else if primaryKey = [] then .error .emptySegment
  else if primaryKey.length > maxPkSize then .error .segmentTooLarge
  else do
    k.components.forM validateComponentSegment
    match EncodedPrimaryKey.tryFrom primaryKey with
    | .error _ => k.toRawWithPrimaryKeySegment primaryKey
    | .ok primaryKey =>
      match (IndexStoreKey.mk k.keyKind.toStoreKeyKind k.indexId k.components primaryKey).toRaw with
      | .ok raw => .ok raw
      | .error err => .error (IndexKeyEncodeError.ofCompactStoreKeyEncodeError err)

/-- `IndexKey::to_raw`. -/
def toRaw (k : IndexKey) : Except IndexKeyEncodeError (List UInt8) :=
  k.toRawWithPrimaryKey k.primaryKey

/-- `IndexKey::try_from_raw`. -/
def tryFromRaw (bytes : List UInt8) : Except IndexKeyDecodeError IndexKey := do
  let (keyKind, indexId, componentCount, offset) ← parseIndexKeyHeader bytes
  let (components, offset) ← readComponentSegments bytes componentCount offset
  let (primaryKey, offset) ← readSegment bytes offset maxPkSize
  if offset ≠ bytes.length then throw .trailingBytes
  else pure ⟨keyKind, indexId, components, primaryKey⟩

/-- `IndexKey::primary_key_value_and_bytes_from_raw`. -/
def primaryKeyValueAndBytesFromRaw (bytes : List UInt8) :
    Except IndexKeyDecodeError (PrimaryKeyValue × List UInt8) := do
  let (_, _, componentCount, offset) ← parseIndexKeyHeader bytes
  let (_, offset) ← readComponentSegments bytes componentCount offset
  let (primaryKey, offset) ← readSegment bytes offset maxPkSize
  if offset ≠ bytes.length then throw .trailingBytes
  else
    match EncodedPrimaryKey.decodeBytes primaryKey with
    | .ok value => pure (value, primaryKey)
    | .error _ => throw .invalidPrimaryKey

end IndexKey

end IcyDb
