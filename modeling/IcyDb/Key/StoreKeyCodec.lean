import IcyDb.Key.StoreKey
import IcyDb.Key.PrimaryKeyCodec
import IcyDb.Order.Comparator

/-!
# Store-key framing and the raw index-key order

The index-store framing is described by `IndexStoreKeySegments.layout`.  The
decoder inverts the layout on segments within its bounds, and whatever it
accepts is the layout of what it returns.  On parsed keys the raw comparator
is the lexicographic order of `IndexStoreKeySegments.orderKey`, a list of
byte strings; since parsing is injective, the comparator is a total order on
every byte string that parses.

On data-store keys the entity tag is a fixed-width prefix, so within one
entity the raw key order is the primary-key byte order.
-/

namespace IcyDb

open ByteOrder

/-! ### Index identity -/

namespace IndexId

@[simp] theorem length_toBytes (id : IndexId) : id.toBytes.length = storedSize := by
  simp [toBytes, storedSize]

theorem fromBytes_toBytes (id : IndexId) : fromBytes id.toBytes = some id := by
  simp [fromBytes, toBytes, storedSize, List.take_left', List.drop_left',
    List.drop_append, List.drop_eq_nil_of_le, ofNat_beValue_beBytes]

theorem toBytes_of_fromBytes {bytes : List UInt8} {id : IndexId} (h : fromBytes bytes = some id) :
    id.toBytes = bytes := by
  unfold fromBytes at h
  split at h
  · cases h
  · rename_i hlen
    cases h
    have hlen : bytes.length = 18 := by simpa [storedSize] using hlen
    have h8 : (bytes.take 8).length = 8 := by simp; omega
    have h2 : ((bytes.drop 8).take 2).length = 2 := by simp; omega
    have h10 : (bytes.drop (8 + 2)).length = 8 := by simp; omega
    rw [toBytes, beBytes_ofNat_beValue_of_length h8 rfl, beBytes_ofNat_beValue_of_length h2 rfl,
      beBytes_ofNat_beValue_of_length h10 rfl, List.append_assoc, ← List.drop_drop,
      List.take_append_drop, List.take_append_drop]

/-- The big-endian bytes of index identities compare as the identities. -/
theorem compare_toBytes (a b : IndexId) : compare a.toBytes b.toBytes = a.cmp b := by
  rw [toBytes, toBytes, compare_append_of_length_eq (by simp), compare_append_of_length_eq (by simp),
    compare_beBytes_toNat _ _ rfl, compare_beBytes_toNat _ _ rfl, compare_beBytes_toNat _ _ rfl, cmp]

end IndexId

namespace IndexStoreKeyKind

@[simp] theorem fromTag_tag (k : IndexStoreKeyKind) : fromTag k.tag = some k := by
  cases k <;> rfl

theorem tag_of_fromTag {t : UInt8} {k : IndexStoreKeyKind} (h : fromTag t = some k) : k.tag = t := by
  unfold fromTag at h
  split at h <;> cases h <;> rfl

end IndexStoreKeyKind

/-! ### Length-prefixed segments -/

/-- A segment behind its `u16` big-endian length, as `push_len_prefixed` and
`push_segment` write it. -/
def frameSegment (segment : List UInt8) : List UInt8 :=
  beBytes lengthPrefixSize segment.length ++ segment

@[simp] theorem length_frameSegment (segment : List UInt8) :
    (frameSegment segment).length = segment.length + 2 := by
  simp [frameSegment, lengthPrefixSize]
  omega

theorem takeExact_append {a : List UInt8} {n : Nat} (h : a.length = n) (rest : List UInt8) :
    takeExact (a ++ rest) n = .ok (a, rest) := by
  subst h
  simp [takeExact]

@[simp] theorem takeExact_cons (b : UInt8) (rest : List UInt8) :
    takeExact (b :: rest) 1 = .ok ([b], rest) :=
  takeExact_append (a := [b]) rfl rest

theorem append_of_takeExact {input a rest : List UInt8} {n : Nat}
    (h : takeExact input n = .ok (a, rest)) : a ++ rest = input ∧ a.length = n := by
  unfold takeExact at h
  split at h
  · cases h
  · cases h
    exact ⟨List.take_append_drop _ _, by simp; omega⟩

theorem takeLenPrefixed_frameSegment {segment : List UInt8} (hne : segment ≠ [])
    (hlt : segment.length < 2 ^ 16) (rest : List UInt8) :
    takeLenPrefixed (frameSegment segment ++ rest) = .ok (segment, rest) := by
  have hpos : segment.length ≠ 0 := fun h => hne (List.eq_nil_of_length_eq_zero h)
  have hmod : segment.length % 65536 = segment.length := Nat.mod_eq_of_lt hlt
  rw [frameSegment, List.append_assoc, takeLenPrefixed,
    takeExact_append (length_beBytes _ _), Except.ok_bind]
  simp [beValue_beBytes, lengthPrefixSize, hmod, hpos, takeExact_append]

theorem frameSegment_of_takeLenPrefixed {input segment rest : List UInt8}
    (h : takeLenPrefixed input = .ok (segment, rest)) :
    frameSegment segment ++ rest = input ∧ segment ≠ [] ∧ segment.length < 2 ^ 16 := by
  simp only [takeLenPrefixed, Except.bind_eq_ok_iff] at h
  obtain ⟨⟨lenBytes, input'⟩, htake, h⟩ := h
  obtain ⟨hsplit, hlenBytes⟩ := append_of_takeExact htake
  split at h
  · simp at h
  · rename_i hzero
    obtain ⟨hseg, hlen⟩ := append_of_takeExact h
    have hlt : beValue lenBytes < 2 ^ 16 := by
      have := beValue_lt lenBytes
      rwa [hlenBytes] at this
    refine ⟨?_, ?_, hlen ▸ hlt⟩
    · rw [frameSegment, hlen, ← hlenBytes, beBytes_beValue, List.append_assoc, hseg, hsplit]
    · intro hnil
      rw [hnil] at hlen
      exact hzero hlen.symm

/-! ### Index-store framing -/

/-- A component segment within the decoder's bounds. -/
def ComponentSegmentValid (component : List UInt8) : Prop :=
  component ≠ [] ∧ component.length ≤ indexComponentMaxSize

theorem takeIndexComponents_layout (components : List (List UInt8))
    (hvalid : ∀ c ∈ components, ComponentSegmentValid c) (rest : List UInt8) :
    takeIndexComponents components.length ((components.map frameSegment).flatten ++ rest) =
      .ok (components, rest) := by
  induction components with
  | nil => rfl
  | cons c cs ih =>
    obtain ⟨hne, hle⟩ := hvalid c (List.mem_cons_self ..)
    have hlt : c.length < 2 ^ 16 := by unfold indexComponentMaxSize at hle; omega
    simp only [List.length_cons, List.map_cons, List.flatten_cons, List.append_assoc,
      takeIndexComponents, takeLenPrefixed_frameSegment hne hlt, Except.ok_bind,
      Nat.not_lt.mpr hle, if_false, ih (fun c' hc' => hvalid c' (List.mem_cons_of_mem _ hc'))]
    rfl

theorem takeIndexComponents_sound {count : Nat} {input rest : List UInt8}
    {components : List (List UInt8)}
    (h : takeIndexComponents count input = .ok (components, rest)) :
    (components.map frameSegment).flatten ++ rest = input ∧ components.length = count ∧
      ∀ c ∈ components, ComponentSegmentValid c := by
  induction count generalizing input components with
  | zero =>
    cases h
    simp
  | succ count ih =>
    simp only [takeIndexComponents, Except.bind_eq_ok_iff] at h
    obtain ⟨⟨c, input'⟩, htake, h⟩ := h
    obtain ⟨hframe, hne, -⟩ := frameSegment_of_takeLenPrefixed htake
    split at h
    · simp at h
    · rename_i hle
      rw [Except.bind_eq_ok_iff] at h
      obtain ⟨⟨cs, tail⟩, hloop, h⟩ := h
      cases h
      obtain ⟨hflat, hlen, hvalid⟩ := ih hloop
      refine ⟨?_, by simp [hlen], ?_⟩
      · rw [List.map_cons, List.flatten_cons, List.append_assoc, hflat, hframe]
      · intro c' hc'
        rcases List.mem_cons.mp hc' with rfl | hc'
        · exact ⟨hne, Nat.not_lt.mp hle⟩
        · exact hvalid c' hc'

namespace IndexStoreKeySegments

/-- The bytes of index-store key segments, as `IndexStoreKey::to_raw` frames
them. -/
def layout : IndexStoreKeySegments → List UInt8
  | (keyKind, indexId, components, primaryKey) =>
    keyKind.tag :: indexId.toBytes ++ [UInt8.ofNat components.length] ++
      (components.map frameSegment).flatten ++ frameSegment primaryKey

/-- The bounds `decode_raw_index_store_key_segments` enforces. -/
def Valid : IndexStoreKeySegments → Prop
  | (_, _, components, primaryKey) =>
    components.length ≤ maxIndexFields ∧ (∀ c ∈ components, ComponentSegmentValid c) ∧
      primaryKey ≠ [] ∧ primaryKey.length ≤ indexPrimaryKeyMaxSize

end IndexStoreKeySegments

open IndexStoreKeySegments in
/-- The decoder reads back every framing within its bounds. -/
theorem decodeRawIndexStoreKeySegments_layout {s : IndexStoreKeySegments} (hvalid : s.Valid) :
    decodeRawIndexStoreKeySegments s.layout = .ok s := by
  obtain ⟨keyKind, indexId, components, primaryKey⟩ := s
  obtain ⟨hcount, hcomponents, hpk, hpkle⟩ := hvalid
  have hcountMod : components.length % 256 = components.length := by
    unfold maxIndexFields at hcount
    omega
  have hpklt : primaryKey.length < 2 ^ 16 := by
    unfold indexPrimaryKeyMaxSize compositePrimaryKeyMaxSize scalarPrimaryKeyMaxSize
      maxPrimaryKeyFields accountStoredSize at hpkle
    omega
  have hframe := takeLenPrefixed_frameSegment hpk hpklt []
  rw [List.append_nil] at hframe
  simp only [layout, List.cons_append, List.append_assoc]
  simp [decodeRawIndexStoreKeySegments, takeExact_append (IndexId.length_toBytes indexId),
    IndexId.fromBytes_toBytes, hcountMod, Nat.not_lt.mpr hcount,
    takeIndexComponents_layout components hcomponents, hframe, Nat.not_lt.mpr hpkle]

open IndexStoreKeySegments in
/-- Whatever the decoder accepts is the framing of what it returns, within the
decoder's bounds. -/
theorem layout_of_decodeRawIndexStoreKeySegments {bytes : List UInt8} {s : IndexStoreKeySegments}
    (h : decodeRawIndexStoreKeySegments bytes = .ok s) : s.layout = bytes ∧ s.Valid := by
  simp only [decodeRawIndexStoreKeySegments, Except.bind_eq_ok_iff] at h
  obtain ⟨⟨kindBytes, input₁⟩, hkind, h⟩ := h
  obtain ⟨rfl, hkindLen⟩ := append_of_takeExact hkind
  obtain ⟨kindTag, rfl⟩ := List.length_eq_one_iff.mp hkindLen
  split at h
  · rename_i keyKind hkeyKind
    rw [Except.bind_eq_ok_iff] at h
    obtain ⟨⟨idBytes, input₂⟩, hid, h⟩ := h
    obtain ⟨rfl, -⟩ := append_of_takeExact hid
    split at h
    · rename_i indexId hindexId
      rw [Except.bind_eq_ok_iff] at h
      obtain ⟨⟨countBytes, input₃⟩, hcount, h⟩ := h
      obtain ⟨rfl, hcountLen⟩ := append_of_takeExact hcount
      obtain ⟨count, rfl⟩ := List.length_eq_one_iff.mp hcountLen
      split at h
      · cases h
      · rename_i hcountLe
        rw [Except.bind_eq_ok_iff] at h
        obtain ⟨⟨components, input₄⟩, hcomponents, h⟩ := h
        obtain ⟨rfl, hlen, hvalid⟩ := takeIndexComponents_sound hcomponents
        rw [Except.bind_eq_ok_iff] at h
        obtain ⟨⟨primaryKey, input₅⟩, hpk, h⟩ := h
        obtain ⟨rfl, hpkne, -⟩ := frameSegment_of_takeLenPrefixed hpk
        split at h
        · cases h
        · rename_i hpkle
          split at h
          · cases h
          · rename_i hrest
            obtain rfl : input₅ = [] := not_not.mp hrest
            cases h
            refine ⟨?_, ?_⟩
            · simp [layout, IndexStoreKeyKind.tag_of_fromTag hkeyKind,
                IndexId.toBytes_of_fromBytes hindexId, hlen]
            · have hle : components.length ≤ maxIndexFields := by
                simp only [List.headD_cons] at hcountLe hlen
                omega
              exact ⟨hle, hvalid, hpkne, Nat.not_lt.mp hpkle⟩
    · cases h
  · cases h

/-! ### The raw index-key order -/

namespace IndexStoreKeySegments

/-- The comparison chain `compare_raw_index_store_key_bytes` applies to two
parsed keys. -/
def cmp : IndexStoreKeySegments → IndexStoreKeySegments → Ordering
  | (leftKind, leftIndexId, leftComponents, leftPrimaryKey),
    (rightKind, rightIndexId, rightComponents, rightPrimaryKey) =>
    ((((leftKind.cmp rightKind).then (leftIndexId.cmp rightIndexId)).then
      (compare leftComponents.length rightComponents.length)).then
        (compareSegments leftComponents rightComponents)).then
          (compare leftPrimaryKey rightPrimaryKey)

/-- The byte strings the chain compares, in its order: the namespace tag, the
index identity, the component count, each component and the primary key. -/
def orderKey : IndexStoreKeySegments → List (List UInt8)
  | (keyKind, indexId, components, primaryKey) =>
    [keyKind.tag] :: indexId.toBytes :: [UInt8.ofNat components.length] ::
      (components ++ [primaryKey])

/-- Within the decoder's bounds the chain is the lexicographic order of the
order keys: the count is compared before the components, so the `zip` loop
only ever meets component lists of one length. -/
theorem cmp_eq_compare_orderKey {a b : IndexStoreKeySegments} (ha : a.Valid) (hb : b.Valid) :
    a.cmp b = compare a.orderKey b.orderKey := by
  obtain ⟨leftKind, leftIndexId, leftComponents, leftPrimaryKey⟩ := a
  obtain ⟨rightKind, rightIndexId, rightComponents, rightPrimaryKey⟩ := b
  have hla : leftComponents.length < 256 := by
    have := ha.1
    unfold maxIndexFields at this
    omega
  have hlb : rightComponents.length < 256 := by
    have := hb.1
    unfold maxIndexFields at this
    omega
  have hcount : compare (UInt8.ofNat leftComponents.length) (UInt8.ofNat rightComponents.length) =
      compare leftComponents.length rightComponents.length := by
    rw [compare_uint8, toNat_ofNat_byte, toNat_ofNat_byte, Nat.mod_eq_of_lt hla,
      Nat.mod_eq_of_lt hlb]
  simp only [cmp, orderKey, List.compare_cons_cons, List.compare_nil_nil, Ordering.eq_then, hcount,
    IndexId.compare_toBytes, IndexStoreKeyKind.cmp, Ordering.then_assoc]
  by_cases hlen : leftComponents.length = rightComponents.length
  · rw [compare_append_of_length_eq hlen, compare_singleton, compareSegments,
      compareZip_eq_compare hlen]
  · have hne : compare leftComponents.length rightComponents.length ≠ .eq := by
      rwa [ne_eq, Nat.compare_eq_eq]
    rw [then_of_ne_eq hne, then_of_ne_eq hne]

end IndexStoreKeySegments

/-- On two keys that parse, the raw comparator runs its comparison chain on
the parsed segments. -/
theorem compareRawIndexStoreKeyBytes_of_decode {left right : List UInt8}
    {a b : IndexStoreKeySegments} (ha : decodeRawIndexStoreKeySegments left = .ok a)
    (hb : decodeRawIndexStoreKeySegments right = .ok b) :
    compareRawIndexStoreKeyBytes left right = a.cmp b := by
  simp only [compareRawIndexStoreKeyBytes, ha, hb]
  rfl

open IndexStoreKeySegments in
/-- On two keys that parse, the raw comparator is the lexicographic order of
their order keys. -/
theorem compareRawIndexStoreKeyBytes_eq_compare_orderKey {left right : List UInt8}
    {a b : IndexStoreKeySegments} (ha : decodeRawIndexStoreKeySegments left = .ok a)
    (hb : decodeRawIndexStoreKeySegments right = .ok b) :
    compareRawIndexStoreKeyBytes left right = compare a.orderKey b.orderKey := by
  rw [compareRawIndexStoreKeyBytes_of_decode ha hb, cmp_eq_compare_orderKey
    (layout_of_decodeRawIndexStoreKeySegments ha).2 (layout_of_decodeRawIndexStoreKeySegments hb).2]

open IndexStoreKeySegments in
/-- Parsed keys with one order key are one key. -/
theorem eq_of_orderKey_eq {left right : List UInt8} {a b : IndexStoreKeySegments}
    (ha : decodeRawIndexStoreKeySegments left = .ok a)
    (hb : decodeRawIndexStoreKeySegments right = .ok b) (h : a.orderKey = b.orderKey) :
    left = right := by
  rw [← (layout_of_decodeRawIndexStoreKeySegments ha).1,
    ← (layout_of_decodeRawIndexStoreKeySegments hb).1]
  obtain ⟨leftKind, leftIndexId, leftComponents, leftPrimaryKey⟩ := a
  obtain ⟨rightKind, rightIndexId, rightComponents, rightPrimaryKey⟩ := b
  simp only [orderKey, List.cons.injEq, and_true] at h
  obtain ⟨hkind, hid, hcount, hrest⟩ := h
  obtain ⟨rfl, hpk⟩ := List.append_inj' hrest rfl
  simp only [List.cons.injEq, and_true] at hpk
  simp only [layout, hkind, hid, hpk]

/-- A byte string that `decode_raw_index_store_key_segments` accepts. -/
def RawIndexStoreKeyDecodes (bytes : List UInt8) : Prop :=
  ∃ s, decodeRawIndexStoreKeySegments bytes = .ok s

/-- The order key of a raw key that parses, and the empty key otherwise. -/
def rawOrderKey (bytes : List UInt8) : List (List UInt8) :=
  match decodeRawIndexStoreKeySegments bytes with
  | .ok s => s.orderKey
  | .error _ => []

theorem rawOrderKey_of_decode {bytes : List UInt8} {s : IndexStoreKeySegments}
    (h : decodeRawIndexStoreKeySegments bytes = .ok s) : rawOrderKey bytes = s.orderKey := by
  simp [rawOrderKey, h]

/-- Restricted to the byte strings that parse, the raw index-key comparator is
a total order. -/
theorem compareRawIndexStoreKeyBytes_totalOrderOn :
    Comparator.TotalOrderOn compareRawIndexStoreKeyBytes RawIndexStoreKeyDecodes := by
  apply Comparator.TotalOrderOn.of_compare_map rawOrderKey
  · rintro left right ⟨a, ha⟩ ⟨b, hb⟩
    rw [compareRawIndexStoreKeyBytes_eq_compare_orderKey ha hb, rawOrderKey_of_decode ha,
      rawOrderKey_of_decode hb]
  · rintro left right ⟨a, ha⟩ ⟨b, hb⟩ h
    rw [rawOrderKey_of_decode ha, rawOrderKey_of_decode hb] at h
    exact eq_of_orderKey_eq ha hb h

/-! ### Writing index-store keys -/

theorem foldlM_pushLenPrefixed (components : List (List UInt8))
    (hlt : ∀ c ∈ components, c.length < 2 ^ 16) (out : List UInt8) :
    components.foldlM (fun out component => pushLenPrefixed component out) out =
      .ok (out ++ (components.map frameSegment).flatten) := by
  induction components generalizing out with
  | nil => simp
  | cons c cs ih =>
    have hc : ¬c.length ≥ 2 ^ 16 := Nat.not_le.mpr (hlt c (List.mem_cons_self ..))
    rw [List.foldlM_cons, pushLenPrefixed, if_neg hc, Except.ok_bind,
      ih (fun c' hc' => hlt c' (List.mem_cons_of_mem _ hc'))]
    simp [frameSegment]

/-- `IndexStoreKey::to_raw` writes the framing of its segments whenever every
length fits its prefix. -/
theorem IndexStoreKey.toRaw_eq (k : IndexStoreKey) (hcount : k.components.length < 2 ^ 8)
    (hcomponents : ∀ c ∈ k.components, c.length < 2 ^ 16) (hpk : k.primaryKey.length < 2 ^ 16) :
    k.toRaw = .ok (IndexStoreKeySegments.layout (k.keyKind, k.indexId, k.components, k.primaryKey)) := by
  rw [toRaw, if_neg (Nat.not_le.mpr hcount)]
  simp only [foldlM_pushLenPrefixed _ hcomponents, Except.ok_bind]
  rw [pushLenPrefixed, if_neg (Nat.not_le.mpr hpk)]
  simp [IndexStoreKeySegments.layout, frameSegment]

/-! ### Data-store keys -/

/-- Raw data-store keys order by entity tag, then by primary-key bytes. -/
theorem DataStoreKey.compare_toRaw (a b : DataStoreKey) :
    compare a.toRaw b.toRaw =
      (compare a.entityTag.value.toNat b.entityTag.value.toNat).then
        (compare a.primaryKey b.primaryKey) := by
  rw [toRaw, toRaw, compare_append_of_length_eq (by simp), compare_beBytes_toNat _ _ rfl]

/-- Within one entity, raw data-store keys order as their primary-key bytes. -/
theorem DataStoreKey.compare_toRaw_of_entityTag_eq {a b : DataStoreKey}
    (h : a.entityTag = b.entityTag) :
    compare a.toRaw b.toRaw = compare a.primaryKey b.primaryKey := by
  rw [compare_toRaw, h, Std.compare_self, Ordering.eq_then]

/-- The compact primary-key codec is a bijection between admitted primary keys
and the byte strings `try_from` accepts, and on keys of one shape it keeps
order, also behind an entity tag in the data store. -/
theorem compactPrimaryKeyCodec_bijective_and_monotone :
    (∀ pk : PrimaryKeyValue, ∃ bytes, EncodedPrimaryKey.encode pk = .ok bytes ∧
      EncodedPrimaryKey.decodeBytes bytes = .ok pk) ∧
    (∀ bytes out : List UInt8, EncodedPrimaryKey.tryFrom bytes = .ok out ↔
      out = bytes ∧ ∃ pk, EncodedPrimaryKey.encode pk = .ok bytes) ∧
    (∀ (a b : PrimaryKeyValue) (bytesA bytesB : List UInt8),
      EncodedPrimaryKey.encode a = .ok bytesA → EncodedPrimaryKey.encode b = .ok bytesB →
        a.shape = b.shape → compare bytesA bytesB = a.cmp b) ∧
    (∀ (entity : EntityTag) (a b : PrimaryKeyValue) (bytesA bytesB : List UInt8),
      EncodedPrimaryKey.encode a = .ok bytesA → EncodedPrimaryKey.encode b = .ok bytesB →
        a.shape = b.shape →
          compare (DataStoreKey.toRaw ⟨entity, bytesA⟩) (DataStoreKey.toRaw ⟨entity, bytesB⟩) =
            a.cmp b) := by
  refine ⟨fun pk => ⟨pk.encoded, pk.encode_eq, EncodedPrimaryKey.decodeBytes_encoded pk⟩,
    fun _ _ => EncodedPrimaryKey.tryFrom_eq_ok_iff, ?_, ?_⟩
  · intro a b bytesA bytesB ha hb hshape
    rw [PrimaryKeyValue.encode_eq, Except.ok.injEq] at ha hb
    rw [← ha, ← hb, PrimaryKeyValue.compare_encoded hshape]
  · intro entity a b bytesA bytesB ha hb hshape
    rw [PrimaryKeyValue.encode_eq, Except.ok.injEq] at ha hb
    rw [DataStoreKey.compare_toRaw_of_entityTag_eq (a := ⟨entity, bytesA⟩) (b := ⟨entity, bytesB⟩) rfl,
      ← ha, ← hb,
      PrimaryKeyValue.compare_encoded hshape]

end IcyDb
