import IcyDb.Value.Compare
import IcyDb.Types.Account
import IcyDb.Bytes.BigEndian
import IcyDb.Order.TopK
import IcyDb.Types.DecimalOrder
import IcyDb.Control.Except

/-!
# Stable value hashing

`value::hash` feeds a value's canonical bytes to a seeded XXH3 hasher and
keeps the 128-bit digest.  The hasher is modelled by what it is fed: each
writer returns the bytes it feeds, and a digest is the parameter `digest`
applied to the whole stream, so two values hash alike when they feed the same
bytes, whatever XXH3 computes.  The big-integer `to_leb128` writers belong to
candid and are a parameter too (`Leb128`).

Every value feeds its canonical tag and then a payload: fixed-width integers
big-endian, byte strings after a `u32` length (`len as u32`, which truncates),
decimals in normal form, list items each after `0xFF`, map entries in
canonical entry order each as `0xFD` key `0xFE` value.
`hash_single_list_identity_canonical_value` feeds the bytes of a one-element
list directly for the scalar kinds, with checked length frames
(`feed_len_u32`), and declines the others.  `ValueHashWriter` streams a
virtual list item by item.

`sort_unstable_by` over map entries is modelled by the stable merge sort; the
two can differ only in the order of entries that compare equal.  The test-only
hash override is not modelled.
-/

namespace IcyDb

open ByteOrder Comparator

/-- `IntBig::to_leb128` and `NatBig::to_leb128`, candid's LEB128 writers. -/
structure Leb128 where
  signed : Int → List UInt8
  unsigned : Nat → List UInt8

/-- The `InternalError`s the hasher raises: `serialize_unsupported` for an
account or principal without stored bytes, and `query_executor_invariant` for
a length past a checked `u32` frame. -/
inductive HashError
  | serializeUnsupported
  | queryExecutorInvariant
deriving DecidableEq, Repr

/-- `VALUE_HASH_VERSION`. -/
def valueHashVersion : UInt8 := 1

/-- `feed_u32`: four big-endian bytes.  Its callers pass `len as u32`, which
keeps the low 32 bits, as `beBytes` does. -/
def feedU32 (x : Nat) : List UInt8 := beBytes 4 x

/-- `feed_len_u32`: a length in four big-endian bytes, refused past
`u32::MAX`. -/
def feedLenU32 (len : Nat) : Except HashError (List UInt8) :=
  if len < 2 ^ 32 then .ok (feedU32 len) else .error .queryExecutorInvariant

theorem feedLenU32_of_lt {len : Nat} (h : len < 2 ^ 32) : feedLenU32 len = .ok (feedU32 len) :=
  if_pos h

/-- `Principal::stored_bytes`: the bytes, or nothing past
`MAX_LENGTH_IN_BYTES`. -/
def Principal.storedBytes (p : Principal) : Option (List UInt8) :=
  if p.bytes.length > principalMaxLength then none else some p.bytes

/-- A principal is never past its bound. -/
theorem Principal.storedBytes_eq (p : Principal) : p.storedBytes = some p.bytes :=
  if_neg (Nat.not_lt.mpr p.bounded)

namespace Value

/-- `canonical_cmp_map_entry`: key, then value. -/
def canonicalCmpMapEntry (a b : Value × Value) : Ordering :=
  (canonicalCmp a.1 b.1).then (canonicalCmp a.2 b.2)

variable (leb : Leb128)

mutual

/-- `write_to_hasher`: the canonical tag, then the payload.  Map entries are
framed one by one and then put in canonical entry order, which is
`ordered_map_entries` followed by the framing loop: every framing error is
`serialize_unsupported`, so the order in which they are met does not show. -/
def writeToHasher (value : Value) : Except HashError (List UInt8) := do
  let payload ← match value with
    | account a =>
      match a.toStoredBytes with
      | .ok bytes => pure bytes
      | .error _ => throw .serializeUnsupported
    | blob v => pure (0x01 :: feedU32 v.length ++ v)
    | bool b => pure [if b then 1 else 0]
    | date d => pure (beBytes 4 d.days.toNat)
    | decimal d =>
      -- `(sign, scale, mantissa)` of the normal form
      let n := d.normalize
      pure ((if n.mantissa < 0 then 1 else 0) :: feedU32 n.scale ++
        beBytes 16 (BitVec.ofInt 128 n.mantissa).toNat)
    | duration t => pure (beBytes 8 t.millis.toNat)
    | enum t v p => do
      let body ← writePayloadToHasher p
      pure (feedU32 t.id.toNat ++ feedU32 v.id.toNat ++ body)
    | float32 x => pure (beBytes 4 x.bits.toNat)
    | float64 x => pure (beBytes 8 x.bits.toNat)
    | int64 i => pure (beBytes 8 i.toNat)
    | int128 i => pure (beBytes 16 i.toNat)
    | intBig n => pure (feedU32 (leb.signed n).length ++ leb.signed n)
    | list xs => do
      let items ← writeListItemsToHasher xs
      pure (feedU32 xs.length ++ items)
    | map entries => do
      let framed ← writeMapEntriesToHasher entries
      pure (feedU32 entries.length ++
        (sortBy (fun a b => canonicalCmpMapEntry a.1 b.1) framed).flatMap Prod.snd)
    | null => pure []
    | principal p =>
      match p.storedBytes with
      | some raw => pure (feedU32 raw.length ++ raw)
      | none => throw .serializeUnsupported
    | subaccount s => pure s.bytes
    | text s => pure (feedU32 s.length ++ s)
    | timestamp t => pure (beBytes 8 t.millis.toNat)
    | nat64 u => pure (beBytes 8 u.toNat)
    | nat128 u => pure (beBytes 16 u.toNat)
    | natBig n => pure (feedU32 (leb.unsigned n).length ++ leb.unsigned n)
    | ulid u => pure u.bytes
    | unit => pure []
  pure (value.canonicalTag.toU8 :: payload)
termination_by structural value

/-- The list arm's loop: each item after `0xFF`. -/
def writeListItemsToHasher : List Value → Except HashError (List UInt8)
  | [] => pure []
  | x :: xs => do
    let item ← writeToHasher x
    let rest ← writeListItemsToHasher xs
    pure (0xFF :: item ++ rest)
termination_by structural xs => xs

/-- The framing of `write_map_entries_to_hasher`, entry by entry. -/
def writeMapEntriesToHasher :
    List (Value × Value) → Except HashError (List ((Value × Value) × List UInt8))
  | [] => pure []
  | (k, v) :: es => do
    let key ← writeToHasher k
    let value ← writeToHasher v
    let rest ← writeMapEntriesToHasher es
    pure (((k, v), 0xFD :: key ++ 0xFE :: value) :: rest)
termination_by structural es => es

/-- The enum arm's body: `0x01` and the payload, or `0x00`. -/
def writePayloadToHasher : Option Value → Except HashError (List UInt8)
  | none => pure [0x00]
  | some p => do
    let body ← writeToHasher p
    pure (0x01 :: body)
termination_by structural p => p

end

variable (digest : List UInt8 → BitVec 128)

/-- `ValueHashWriter`: the bytes fed so far. -/
structure ValueHashWriter where
  stream : List UInt8

/-- `ValueHashWriter::new`: the version byte. -/
def ValueHashWriter.new : ValueHashWriter := ⟨[valueHashVersion]⟩

/-- `write_list_prefix`: the list tag and `len as u32`. -/
def ValueHashWriter.writeListPrefix (w : ValueHashWriter) (len : Nat) : ValueHashWriter :=
  ⟨w.stream ++ ValueTag.list.toU8 :: feedU32 len⟩

/-- `write_list_value`: one item after `0xFF`. -/
def ValueHashWriter.writeListValue (w : ValueHashWriter) (v : Value) :
    Except HashError ValueHashWriter := do
  let bytes ← writeToHasher leb v
  pure ⟨w.stream ++ 0xFF :: bytes⟩

/-- `write_value`. -/
def ValueHashWriter.writeValue (w : ValueHashWriter) (v : Value) :
    Except HashError ValueHashWriter := do
  let bytes ← writeToHasher leb v
  pure ⟨w.stream ++ bytes⟩

/-- `finish`: the digest of everything fed. -/
def ValueHashWriter.finish (w : ValueHashWriter) : BitVec 128 := digest w.stream

/-- `hash_value`. -/
def hashValue (v : Value) : Except HashError (BitVec 128) := do
  let w ← (ValueHashWriter.new.writeValue leb v)
  pure (w.finish digest)

/-- `hash_single_list_identity_canonical_value`: the bytes of the one-element
list `[value]`, written directly for the scalar kinds with checked length
frames; `None` for decimals, enums, lists, maps, `Null` and `Unit`. -/
def hashSingleListIdentityCanonicalValue (value : Value) :
    Except HashError (Option (BitVec 128)) := do
  let header :=
    [valueHashVersion, ValueTag.list.toU8] ++ feedU32 1 ++ [0xFF, value.canonicalTag.toU8]
  let payload? : Except HashError (Option (List UInt8)) :=
    match value with
    | account a =>
      match a.toStoredBytes with
      | .ok bytes => pure (some bytes)
      | .error _ => throw .serializeUnsupported
    | blob bytes => do
      let len ← feedLenU32 bytes.length
      pure (some (0x01 :: len ++ bytes))
    | bool b => pure (some [if b then 1 else 0])
    | date d => pure (some (beBytes 4 d.days.toNat))
    | duration t => pure (some (beBytes 8 t.millis.toNat))
    | float32 x => pure (some (beBytes 4 x.bits.toNat))
    | float64 x => pure (some (beBytes 8 x.bits.toNat))
    | int64 i => pure (some (beBytes 8 i.toNat))
    | int128 i => pure (some (beBytes 16 i.toNat))
    | intBig n => do
      let len ← feedLenU32 (leb.signed n).length
      pure (some (len ++ leb.signed n))
    | principal p =>
      match p.storedBytes with
      | some raw => do
        let len ← feedLenU32 raw.length
        pure (some (len ++ raw))
      | none => throw .serializeUnsupported
    | subaccount s => pure (some s.bytes)
    | text s => do
      let len ← feedLenU32 s.length
      pure (some (len ++ s))
    | timestamp t => pure (some (beBytes 8 t.millis.toNat))
    | nat64 u => pure (some (beBytes 8 u.toNat))
    | nat128 u => pure (some (beBytes 16 u.toNat))
    | natBig n => do
      let len ← feedLenU32 (leb.unsigned n).length
      pure (some (len ++ leb.unsigned n))
    | ulid u => pure (some u.bytes)
    | _ => pure none
  let payload ← payload?
  pure (payload.map fun bytes => digest (header ++ bytes))

/-! ### Every value hashes -/

mutual

/-- The hasher accepts every value: accounts and principals always have their
stored bytes. -/
theorem writeToHasher_ok : (v : Value) → ∃ bytes, writeToHasher leb v = .ok bytes
  | account a => ⟨_, by simp [writeToHasher, Account.toStoredBytes_eq]; rfl⟩
  | principal p => ⟨_, by simp [writeToHasher, Principal.storedBytes_eq]; rfl⟩
  | enum t v p => by
    obtain ⟨body, hb⟩ := writePayloadToHasher_ok p
    exact ⟨_, by simp [writeToHasher, hb]; rfl⟩
  | list xs => by
    obtain ⟨items, hi⟩ := writeListItemsToHasher_ok xs
    exact ⟨_, by simp [writeToHasher, hi]; rfl⟩
  | map es => by
    obtain ⟨framed, hf⟩ := writeMapEntriesToHasher_ok es
    exact ⟨_, by simp [writeToHasher, hf]; rfl⟩
  | blob _ | bool _ | date _ | decimal _ | duration _ | float32 _ | float64 _ | int64 _
  | int128 _ | intBig _ | null | subaccount _ | text _ | timestamp _ | nat64 _ | nat128 _
  | natBig _ | ulid _ | unit => ⟨_, rfl⟩

theorem writeListItemsToHasher_ok : (xs : List Value) → ∃ bytes, writeListItemsToHasher leb xs = .ok bytes
  | [] => ⟨[], rfl⟩
  | x :: xs => by
    obtain ⟨b, hb⟩ := writeToHasher_ok x
    obtain ⟨r, hr⟩ := writeListItemsToHasher_ok xs
    exact ⟨_, by simp [writeListItemsToHasher, hb, hr]; rfl⟩

theorem writeMapEntriesToHasher_ok : (es : List (Value × Value)) →
    ∃ framed, writeMapEntriesToHasher leb es = .ok framed
  | [] => ⟨[], rfl⟩
  | (k, v) :: es => by
    obtain ⟨kb, hk⟩ := writeToHasher_ok k
    obtain ⟨vb, hv⟩ := writeToHasher_ok v
    obtain ⟨r, hr⟩ := writeMapEntriesToHasher_ok es
    exact ⟨_, by simp [writeMapEntriesToHasher, hk, hv, hr]; rfl⟩

theorem writePayloadToHasher_ok : (p : Option Value) → ∃ bytes, writePayloadToHasher leb p = .ok bytes
  | none => ⟨[0x00], rfl⟩
  | some p => by
    obtain ⟨b, hb⟩ := writeToHasher_ok p
    exact ⟨_, by simp [writePayloadToHasher, hb]; rfl⟩

end

/-! ### Streams that agree -/

/-- A decimal hashes as its normal form. -/
theorem writeToHasher_decimal_normalize (d : Decimal) :
    writeToHasher leb (decimal d.normalize) = writeToHasher leb (decimal d) := by
  have hm : d.normalize.normalize.mantissa = d.normalize.mantissa :=
    congrArg Prod.fst (Decimal.normalizedParts_normalize d)
  have hs : d.normalize.normalize.scale = d.normalize.scale :=
    congrArg Prod.snd (Decimal.normalizedParts_normalize d)
  simp only [writeToHasher, hm, hs]
  rfl

/-- Streaming items into a writer appends the list arm's loop. -/
theorem foldlM_writeListValue {vs : List Value} {items : List UInt8}
    (h : writeListItemsToHasher leb vs = .ok items) (w : ValueHashWriter) :
    vs.foldlM (fun w v => w.writeListValue leb v) w = .ok ⟨w.stream ++ items⟩ := by
  induction vs generalizing items w with
  | nil =>
    cases h
    simp [List.foldlM]
  | cons v vs ih =>
    simp only [writeListItemsToHasher, Except.bind_eq_ok_iff, Except.pure_eq_ok_iff] at h
    obtain ⟨b, hb, r, hr, rfl⟩ := h
    have hstep : w.writeListValue leb v = .ok ⟨w.stream ++ 0xFF :: b⟩ := by
      simp [ValueHashWriter.writeListValue, hb]
    rw [List.foldlM_cons, hstep, Except.ok_bind, ih hr]
    simp

/-- A virtual list streamed item by item is hashed as the list itself. -/
theorem writeListPrefix_foldlM_finish (vs : List Value) :
    ((vs.foldlM (fun (w : ValueHashWriter) v => w.writeListValue leb v)
        (ValueHashWriter.new.writeListPrefix vs.length)).map (ValueHashWriter.finish digest)) =
      hashValue leb digest (list vs) := by
  obtain ⟨r, hr⟩ := writeListItemsToHasher_ok leb vs
  rw [foldlM_writeListValue leb hr]
  simp [hashValue, ValueHashWriter.writeValue, ValueHashWriter.writeListPrefix,
    ValueHashWriter.new, ValueHashWriter.finish, writeToHasher, hr, Except.map, canonicalTag]

/-! ### The direct single-value digest -/

/-- The byte fields that the direct digest frames with `feed_len_u32` are
shorter than `2 ^ 32`. -/
def FitsLengthFrames : Value → Prop
  | blob bytes => bytes.length < 2 ^ 32
  | intBig n => (leb.signed n).length < 2 ^ 32
  | text s => s.length < 2 ^ 32
  | natBig n => (leb.unsigned n).length < 2 ^ 32
  | _ => True

/-- Where its length frames fit, the direct digest of `value` either declines
or is the digest of the one-element list `[value]`. -/
theorem hashSingleListIdentityCanonicalValue_eq (value : Value)
    (hfit : FitsLengthFrames leb value) :
    hashSingleListIdentityCanonicalValue leb digest value = .ok none ∨
      hashSingleListIdentityCanonicalValue leb digest value =
        (hashValue leb digest (list [value])).map some := by
  cases value
  case decimal | enum | list | map | null | unit => exact .inl rfl
  all_goals
    right
    simp only [FitsLengthFrames] at hfit
    have hprincipal : ∀ p : Principal, p.bytes.length < 2 ^ 32 := fun p => by
      have := p.bounded
      unfold principalMaxLength at this
      omega
    simp [hashSingleListIdentityCanonicalValue, hashValue, ValueHashWriter.writeValue,
      ValueHashWriter.new, ValueHashWriter.finish, writeToHasher, writeListItemsToHasher,
      Account.toStoredBytes_eq, Principal.storedBytes_eq, canonicalTag, Except.map, pure,
      Except.pure]
  -- the five checked frames: blob, big integers, principal and text
  case blob | intBig | text | natBig => exact ⟨_, feedLenU32_of_lt hfit, rfl⟩
  case principal p => exact ⟨_, feedLenU32_of_lt (hprincipal p), rfl⟩

end Value

end IcyDb
