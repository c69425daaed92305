import IcyDb.Predicate.Semantics
import IcyDb.Value.Hash
import Mathlib.Data.List.Destutter

/-!
# Predicate sort keys

`db::predicate::encoding` writes a predicate as bytes: a tag for each node,
every variable-length part after its `u64` big-endian length, and every child
inside a length frame.  Normalization orders the children of `And` and `Or`
by these bytes, and plan fingerprints hash them (`hash_predicate`).

A literal is written as its comparison reads it.  Under `NumericWiden` a
number is written as its `Decimal` form, under `TextCasefold` a text is
written folded, and an `IN` or `NOT IN` list is written as a canonical value
set, sorted with duplicates dropped.  A map is written in canonical entry
order, whatever order its entries are stored in.

`CoercionSpec::new` is the only constructor of a coercion spec and leaves its
parameters empty, so a coercion is written as its identifier and an empty
parameter list.  `sort_unstable_by` is modelled by the stable merge sort, as
in `Value.Hash`: the two can differ only in the order of elements that compare
equal.
-/

namespace IcyDb

open ByteOrder Comparator

/-! ### Frames -/

/-- `push_len_u64`: a length in eight big-endian bytes, saturating at
`u64::MAX`. -/
def pushLenU64 (len : Nat) : List UInt8 := beBytes 8 (min len (2 ^ 64 - 1))

/-- `push_bytes_u64`, and `push_str_u64` on the UTF-8 bytes of a string.  A
frame (`begin_framed`, then the payload, then `finish_framed`) writes the same
bytes: the payload's length and then the payload. -/
def pushBytesU64 (bytes : List UInt8) : List UInt8 := pushLenU64 bytes.length ++ bytes

/-- `push_str_u64`. -/
def pushStrU64 (s : String) : List UInt8 := pushBytesU64 s.toUTF8.toList

/-! ### Canonical value sets -/

namespace Value

/-- `value_set_is_strictly_canonical`: each value canonically below the
next. -/
def valueSetIsStrictlyCanonical : List Value → Bool
  | a :: b :: rest => canonicalCmp a b == .lt && valueSetIsStrictlyCanonical (b :: rest)
  | _ => true

/-- `canonicalize_value_set`: a set already strictly canonical is kept;
otherwise it is sorted canonically and `Vec::dedup` drops each value equal
(`==`) to the one kept before it. -/
def canonicalizeValueSet (values : List Value) : List Value :=
  if valueSetIsStrictlyCanonical values then values
  else (sortBy canonicalCmp values).destutter fun a b => beq a b = false

end Value

/-! ### Values -/

namespace Value

variable (leb : Leb128)

mutual

/-- `encode_value_sort_key_into`: the canonical tag, then the payload.  The
entries of a map are framed one by one and then put in canonical entry
order, which is `ordered_map_entries` followed by the framing loop. -/
def encodeValueSortKey (value : Value) : List UInt8 :=
  value.canonicalTag.toU8 ::
    match value with
    | account a =>
      pushBytesU64 a.owner.bytes ++
        match a.subaccount with
        | some sub => 1 :: pushBytesU64 sub.bytes
        | none => [0]
    | blob v => pushBytesU64 v
    | bool b => [if b then 1 else 0]
    | date d => beBytes 4 d.days.toNat
    | decimal d =>
      -- sign, `u32` scale and `i128` mantissa of the normal form
      let n := d.normalize
      (if n.mantissa < 0 then 1 else 0) :: beBytes 4 n.scale ++
        beBytes 16 (BitVec.ofInt 128 n.mantissa).toNat
    | duration t => beBytes 8 t.millis.toNat
    | enum t v p => beBytes 4 t.id.toNat ++ beBytes 4 v.id.toNat ++ encodeEnumBodySortKey p
    | float32 x => beBytes 4 x.bits.toNat
    | float64 x => beBytes 8 x.bits.toNat
    | int64 i => beBytes 8 i.toNat
    | int128 i => beBytes 16 i.toNat
    | intBig n => pushBytesU64 (leb.signed n)
    | list xs => pushLenU64 xs.length ++ encodeListItemsSortKey xs
    | map entries =>
      pushLenU64 entries.length ++
        (sortBy (fun a b => canonicalCmpMapEntry a.1 b.1) (encodeMapEntriesSortKey entries)).flatMap
          Prod.snd
    | null => []
    | principal p => pushBytesU64 p.bytes
    | subaccount s => pushBytesU64 s.bytes
    | text s => pushBytesU64 s
    | timestamp t => beBytes 8 t.millis.toNat
    | nat64 u => beBytes 8 u.toNat
    | nat128 u => beBytes 16 u.toNat
    | natBig n => pushBytesU64 (leb.unsigned n)
    | ulid u => u.bytes
    | unit => []
termination_by structural value

/-- The list arm's loop: each item framed. -/
def encodeListItemsSortKey : List Value → List UInt8
  | [] => []
  | x :: xs => pushBytesU64 (encodeValueSortKey x) ++ encodeListItemsSortKey xs
termination_by structural xs => xs

/-- The map arm's loop: each entry with its framed key and framed value. -/
def encodeMapEntriesSortKey : List (Value × Value) → List ((Value × Value) × List UInt8)
  | [] => []
  | (k, v) :: es =>
    ((k, v), pushBytesU64 (encodeValueSortKey k) ++ pushBytesU64 (encodeValueSortKey v)) ::
      encodeMapEntriesSortKey es
termination_by structural es => es

/-- `encode_enum_sort_key_into`'s body: `0` for a unit body, `1` and the
framed payload otherwise. -/
def encodeEnumBodySortKey : Option Value → List UInt8
  | none => [0]
  | some p => 1 :: pushBytesU64 (encodeValueSortKey p)
termination_by structural p => p

end

end Value

/-! ### Comparison literals -/

/-- `CompareOp::tag`. -/
def CompareOp.tag : CompareOp → UInt8
  | .eq => 0x01
  | .ne => 0x02
  | .lt => 0x03
  | .lte => 0x04
  | .gt => 0x05
  | .gte => 0x06
  | .in_ => 0x07
  | .notIn => 0x08
  | .contains => 0x09
  | .startsWith => 0x0a
  | .endsWith => 0x0b

section Literal

variable (fd : FloatDecimal) (unicodeLowercase : List UInt8 → List UInt8) (leb : Leb128)

/-- `canonicalize_compare_literal_for_coercion`: a number as its `Decimal`
form under `NumericWiden`, a text folded under `TextCasefold`. -/
def canonicalizeCompareLiteralForCoercion (coercion : CoercionId) (value : Value) : Value :=
  match coercion with
  | .strict | .collectionElement => value
  | .numericWiden =>
    match value.coerceNumericDecimal fd with
    | some decimal => .decimal decimal
    | none => value
  | .textCasefold =>
    match value with
    | .text text => .text (casefoldText unicodeLowercase text)
    | _ => value

/-- `canonicalize_compare_literal_list_for_coercion`. -/
def canonicalizeCompareLiteralListForCoercion (coercion : CoercionId) (items : List Value) :
    List Value :=
  Value.canonicalizeValueSet
    (items.map (canonicalizeCompareLiteralForCoercion fd unicodeLowercase coercion))

/-- `encode_compare_value_sort_key_into`: an `IN` or `NOT IN` list item by
item, already canonical or canonicalized here; any other literal
canonicalized for its coercion. -/
def encodeCompareValueSortKey (op : CompareOp) (coercion : CoercionId) (value : Value)
    (compareListsAlreadyCanonical : Bool) : List UInt8 :=
  match op, value with
  | .in_, .list items | .notIn, .list items =>
    value.canonicalTag.toU8 ::
      if compareListsAlreadyCanonical then
        pushLenU64 items.length ++ items.flatMap fun item =>
          match coercion with
          | .strict | .collectionElement => pushBytesU64 (Value.encodeValueSortKey leb item)
          | .numericWiden | .textCasefold =>
            pushBytesU64 (Value.encodeValueSortKey leb
              (canonicalizeCompareLiteralForCoercion fd unicodeLowercase coercion item))
      else
        let ordered := canonicalizeCompareLiteralListForCoercion fd unicodeLowercase coercion items
        pushLenU64 ordered.length ++
          ordered.flatMap fun item => pushBytesU64 (Value.encodeValueSortKey leb item)
  | _, _ =>
    Value.encodeValueSortKey leb (canonicalizeCompareLiteralForCoercion fd unicodeLowercase coercion value)

/-- `encode_coercion_sort_key_into`: the identifier, then the parameter count
and parameters, of which there are none. -/
def encodeCoercionSortKey (coercion : CoercionId) : List UInt8 :=
  (match coercion with
    | .strict => 0
    | .numericWiden => 1
    | .textCasefold => 2
    | .collectionElement => 3) :: pushLenU64 0

/-! ### Predicates -/

mutual

/-- `encode_predicate_sort_key_into`: a node tag, then the node's parts. -/
def encodePredicateSortKey (compareListsAlreadyCanonical : Bool) : Predicate → List UInt8
  | .true => [0x00]
  | .false => [0x01]
  | .and children =>
    0x02 :: pushLenU64 children.length ++ encodeChildrenSortKey compareListsAlreadyCanonical children
  | .or children =>
    0x03 :: pushLenU64 children.length ++ encodeChildrenSortKey compareListsAlreadyCanonical children
  | .not inner => 0x04 :: pushBytesU64 (encodePredicateSortKey compareListsAlreadyCanonical inner)
  | .compare cmp =>
    0x05 :: pushStrU64 cmp.field ++ cmp.op.tag ::
      pushBytesU64 (encodeCompareValueSortKey fd unicodeLowercase leb cmp.op cmp.coercion cmp.value
        compareListsAlreadyCanonical) ++
      pushBytesU64 (encodeCoercionSortKey cmp.coercion)
  | .compareFields cmp =>
    0x0B :: pushStrU64 cmp.leftField ++ cmp.op.tag :: pushStrU64 cmp.rightField ++
      pushBytesU64 (encodeCoercionSortKey cmp.coercion)
  | .isNull field => 0x06 :: pushStrU64 field
  | .isNotNull field => 0x0A :: pushStrU64 field
  | .isMissing field => 0x07 :: pushStrU64 field
  | .isEmpty field => 0x08 :: pushStrU64 field
  | .isNotEmpty field => 0x09 :: pushStrU64 field
  | .textContains field value =>
    0x0C :: pushStrU64 field ++ pushBytesU64 (Value.encodeValueSortKey leb value)
  | .textContainsCi field value =>
    0x0D :: pushStrU64 field ++ pushBytesU64 (Value.encodeValueSortKey leb value)

/-- The children of `And` and `Or`, each framed. -/
def encodeChildrenSortKey (compareListsAlreadyCanonical : Bool) : List Predicate → List UInt8
  | [] => []
  | c :: cs =>
    pushBytesU64 (encodePredicateSortKey compareListsAlreadyCanonical c) ++
      encodeChildrenSortKey compareListsAlreadyCanonical cs

end

/-- `encode_predicate_sort_key`: the key of a predicate whose `IN` lists are
canonicalized while it is written. -/
def encodePredicateSortKeyOf (predicate : Predicate) : List UInt8 :=
  encodePredicateSortKey fd unicodeLowercase leb false predicate

end Literal

end IcyDb
