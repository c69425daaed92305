import IcyDb.Index.KeyOrder

/-!
# Index-key round trips

`IndexKey::try_from_raw` reads the framing `to_raw` writes back at offsets.
Reading a segment at the offset where a frame starts returns the segment and
the offset just past it; conversely a successful read says the bytes at the
offset are that frame.  From these two facts, `try_from_raw` inverts `to_raw`
on every key within its bounds, and every raw key it accepts is written back
byte for byte.
-/

namespace IcyDb

open ByteOrder

theorem readSegment_frame (pre segment post : List UInt8) {maxLen : Nat} (hne : segment ≠ [])
    (hle : segment.length ≤ maxLen) (hlt : segment.length < 2 ^ 16) :
    readSegment (pre ++ frameSegment segment ++ post) pre.length maxLen =
      .ok (segment, pre.length + segmentLenSize + segment.length) := by
  have hpos : segment.length ≠ 0 := fun h => hne (List.eq_nil_of_length_eq_zero h)
  have hmod : segment.length % 65536 = segment.length := Nat.mod_eq_of_lt hlt
  simp [readSegment, frameSegment, segmentLenSize, lengthPrefixSize, List.take_left',
    List.drop_left', beValue_beBytes, hmod, hpos, Nat.not_lt.mpr hle, List.drop_append]
  rw [if_neg (by omega), if_neg (by omega)]
  simp [List.drop_eq_nil_of_le, List.take_left']

theorem readComponentSegments_frames (pre : List UInt8) (components : List (List UInt8))
    (post : List UInt8)
    (hvalid : ∀ c ∈ components, c ≠ [] ∧ c.length ≤ IndexKey.maxComponentSize) :
    readComponentSegments (pre ++ (components.map frameSegment).flatten ++ post) components.length
        pre.length =
      .ok (components, pre.length + ((components.map frameSegment).flatten).length) := by
  induction components generalizing pre with
  | nil => simp [readComponentSegments]
  | cons c cs ih =>
    obtain ⟨hne, hle⟩ := hvalid c (List.mem_cons_self ..)
    have hlt : c.length < 2 ^ 16 := by unfold IndexKey.maxComponentSize at hle; omega
    have hsplit : pre ++ ((c :: cs).map frameSegment).flatten ++ post =
        pre ++ frameSegment c ++ ((cs.map frameSegment).flatten ++ post) := by simp
    have hsplit' : pre ++ ((c :: cs).map frameSegment).flatten ++ post =
        (pre ++ frameSegment c) ++ (cs.map frameSegment).flatten ++ post := by simp
    have hcs := ih (pre ++ frameSegment c) (fun c' hc' => hvalid c' (List.mem_cons_of_mem _ hc'))
    rw [List.length_cons, readComponentSegments, hsplit, readSegment_frame _ _ _ hne hle hlt,
      Except.ok_bind, ← hsplit, hsplit']
    simp only [List.length_append, length_frameSegment] at hcs
    simp only [segmentLenSize, List.map_cons, List.flatten_cons, List.length_append,
      length_frameSegment]
    have hoff : pre.length + 2 + c.length = pre.length + (c.length + 2) := by omega
    rw [hoff, hcs, Except.ok_bind]
    simp only [pure, Except.pure, Except.ok.injEq, Prod.mk.injEq, true_and]
    omega

/-- A successful read finds a frame at the offset and stops right after it. -/
theorem readSegment_sound {bytes segment : List UInt8} {offset maxLen next : Nat}
    (h : readSegment bytes offset maxLen = .ok (segment, next)) :
    bytes.drop offset = frameSegment segment ++ bytes.drop next ∧ segment ≠ [] ∧
      segment.length ≤ maxLen := by
  unfold readSegment at h
  split at h
  · cases h
  · rename_i hroom
    simp only at h
    split at h
    · cases h
    · rename_i hzero
      split at h
      · cases h
      · rename_i hmax
        split at h
        · cases h
        · rename_i hfits
          cases h
          set lenBytes := (bytes.drop offset).take segmentLenSize with hlenBytes
          have hlenBytesLen : lenBytes.length = segmentLenSize := by
            simp [hlenBytes, segmentLenSize] at hroom ⊢
            omega
          have hseg : ((bytes.drop (offset + segmentLenSize)).take (beValue lenBytes)).length =
              beValue lenBytes := by
            simp
            omega
          have hframe : frameSegment ((bytes.drop (offset + segmentLenSize)).take (beValue lenBytes)) =
              lenBytes ++ (bytes.drop (offset + segmentLenSize)).take (beValue lenBytes) := by
            rw [frameSegment, hseg, show lengthPrefixSize = lenBytes.length from hlenBytesLen.symm,
              beBytes_beValue]
          refine ⟨?_, ?_, ?_⟩
          · -- the frame is the length bytes, then the segment, and the rest follows
            rw [hframe, List.append_assoc,
              ← List.drop_drop (i := beValue lenBytes) (j := offset + segmentLenSize),
              List.take_append_drop, ← List.drop_drop (i := segmentLenSize) (j := offset), hlenBytes,
              List.take_append_drop]
          · intro hnil
            rw [hnil, List.length_nil] at hseg
            exact hzero hseg.symm
          · rw [hseg]
            exact Nat.not_lt.mp hmax

theorem readComponentSegments_sound {bytes : List UInt8} {count offset next : Nat}
    {components : List (List UInt8)}
    (h : readComponentSegments bytes count offset = .ok (components, next)) :
    bytes.drop offset = (components.map frameSegment).flatten ++ bytes.drop next ∧
      components.length = count ∧
        ∀ c ∈ components, c ≠ [] ∧ c.length ≤ IndexKey.maxComponentSize := by
  induction count generalizing offset components with
  | zero =>
    cases h
    simp
  | succ count ih =>
    simp only [readComponentSegments, Except.bind_eq_ok_iff] at h
    obtain ⟨⟨c, mid⟩, hc, ⟨cs, next'⟩, hcs, h⟩ := h
    cases h
    obtain ⟨hframe, hne, hle⟩ := readSegment_sound hc
    obtain ⟨hflat, hlen, hvalid⟩ := ih hcs
    refine ⟨?_, by simp [hlen], ?_⟩
    · rw [hframe, hflat, List.map_cons, List.flatten_cons, List.append_assoc]
    · intro c' hc'
      rcases List.mem_cons.mp hc' with rfl | hc'
      · exact ⟨hne, hle⟩
      · exact hvalid c' hc'

theorem IndexKeyKind.fromTag_toStoreKeyKind_tag (k : IndexKeyKind) :
    IndexKeyKind.fromTag k.toStoreKeyKind.tag = .ok k := by
  cases k <;> rfl

theorem IndexKeyKind.toStoreKeyKind_tag_of_fromTag {t : UInt8} {k : IndexKeyKind}
    (h : IndexKeyKind.fromTag t = .ok k) : k.toStoreKeyKind.tag = t := by
  unfold IndexKeyKind.fromTag at h
  split at h <;> cases h <;> rfl

/-- The first 20 bytes of a long enough string: its first byte, the next 18,
and the byte at offset 19. -/
theorem take_keyPrefixSize {bytes : List UInt8} (h : keyPrefixSize ≤ bytes.length) :
    bytes.take keyPrefixSize =
      bytes.getD 0 0 :: ((bytes.drop keyKindTagSize).take IndexId.storedSize ++
        [bytes.getD (keyKindTagSize + IndexId.storedSize) 0]) := by
  match bytes, h with
  | b :: rest, h =>
    have hrest : IndexId.storedSize < rest.length := by
      simp [keyPrefixSize, keyKindTagSize, IndexId.storedSize, componentCountSize] at h ⊢
      omega
    simp only [keyPrefixSize, keyKindTagSize, componentCountSize, List.take_succ_cons,
      List.getD_cons_zero, List.drop_succ_cons, List.drop_zero, Nat.add_comm 1,
      List.getD_cons_succ, List.cons.injEq, true_and]
    rw [List.take_add_one, List.getElem?_eq_getElem hrest]
    simp [List.getD_eq_getElem?_getD, List.getElem?_eq_getElem hrest]

theorem length_flatten_frameSegment_le {m : Nat} (components : List (List UInt8))
    (h : ∀ c ∈ components, c.length ≤ m) :
    ((components.map frameSegment).flatten).length ≤ components.length * (m + 2) := by
  induction components with
  | nil => simp
  | cons c cs ih =>
    have hc := h c (List.mem_cons_self ..)
    have hcs := ih (fun c' hc' => h c' (List.mem_cons_of_mem _ hc'))
    simp only [List.map_cons, List.flatten_cons, List.length_append, length_frameSegment,
      List.length_cons, Nat.succ_mul]
    omega

namespace IndexKey

/-- The framing of a key: the 20-byte header, the component frames, the
primary-key frame. -/
theorem segments_layout (k : IndexKey) :
    k.segments.layout =
      (k.keyKind.toStoreKeyKind.tag :: k.indexId.toBytes ++ [UInt8.ofNat k.components.length]) ++
        ((k.components.map frameSegment).flatten ++ frameSegment k.primaryKey) := by
  simp [segments, IndexStoreKeySegments.layout]

theorem length_header (k : IndexKey) :
    (k.keyKind.toStoreKeyKind.tag :: k.indexId.toBytes ++ [UInt8.ofNat k.components.length]).length =
      keyPrefixSize := by
  simp [keyPrefixSize, keyKindTagSize, componentCountSize]
  omega

/-- The header of a written key parses back, and the body starts at offset 20. -/
theorem parseIndexKeyHeader_layout {k : IndexKey} (hw : k.Writable) :
    parseIndexKeyHeader k.segments.layout =
      .ok (k.keyKind, k.indexId, k.components.length, keyPrefixSize) := by
  obtain ⟨hcount, hcomponents, hne, hle⟩ := hw
  have hbody := length_flatten_frameSegment_le k.components (fun c hc => (hcomponents c hc).2)
  have hpos : 0 < k.primaryKey.length := List.length_pos_of_ne_nil hne
  have hcountMod : k.components.length % 256 = k.components.length := by
    unfold maxIndexFields at hcount
    omega
  have hwindow : ¬(k.segments.layout.length < minStoredSize ∨
      k.segments.layout.length > maxStoredSize) := by
    rw [segments_layout, List.length_append, length_header, List.length_append,
      length_frameSegment]
    have : k.components.length * (maxComponentSize + 2) ≤ maxIndexFields * (segmentLenSize +
        maxComponentSize) := by
      rw [Nat.add_comm segmentLenSize]
      exact Nat.mul_le_mul_right _ hcount
    unfold minStoredSize maxStoredSize segmentLenSize minSegmentSize at *
    omega
  -- the count byte sits right after the tag and the 18 identity bytes
  have hindex : ∀ rest : List UInt8,
      (k.keyKind.toStoreKeyKind.tag ::
        (k.indexId.toBytes ++ UInt8.ofNat k.components.length :: rest))[1 + IndexId.storedSize]? =
        some (UInt8.ofNat k.components.length) := by
    intro rest
    rw [Nat.add_comm, List.getElem?_cons_succ, List.getElem?_append_right (by simp),
      IndexId.length_toBytes, Nat.sub_self]
    rfl
  rw [parseIndexKeyHeader, if_neg hwindow]
  simp [segments, IndexStoreKeySegments.layout, IndexKeyKind.fromTag_toStoreKeyKind_tag,
    keyKindTagSize, componentCountSize, List.take_left', IndexId.fromBytes_toBytes, hindex,
    hcountMod, Nat.not_lt.mpr hcount, keyPrefixSize]

/-- A header that parses sits in the first 20 bytes of a string within the
size window. -/
theorem parseIndexKeyHeader_sound {bytes : List UInt8} {keyKind : IndexKeyKind} {indexId : IndexId}
    {count offset : Nat} (h : parseIndexKeyHeader bytes = .ok (keyKind, indexId, count, offset)) :
    offset = keyPrefixSize ∧ count ≤ maxIndexFields ∧ minStoredSize ≤ bytes.length ∧
      bytes.length ≤ maxStoredSize ∧
        bytes.take keyPrefixSize =
          keyKind.toStoreKeyKind.tag :: indexId.toBytes ++ [UInt8.ofNat count] := by
  unfold parseIndexKeyHeader at h
  split at h
  · cases h
  · rename_i hwindow
    rw [Except.bind_eq_ok_iff] at h
    obtain ⟨kind, hkind, h⟩ := h
    simp only at h
    split at h
    · rename_i id hid
      split at h
      · cases h
      · rename_i hcount
        simp only [pure, Except.pure, Except.ok.injEq, Prod.mk.injEq] at h
        obtain ⟨rfl, rfl, rfl, rfl⟩ := h
        have hlen : keyPrefixSize ≤ bytes.length := by
          unfold minStoredSize at hwindow
          omega
        refine ⟨rfl, Nat.not_lt.mp hcount, by omega, by omega, ?_⟩
        rw [take_keyPrefixSize hlen, IndexKeyKind.toStoreKeyKind_tag_of_fromTag hkind,
          IndexId.toBytes_of_fromBytes hid, UInt8.ofNat_toNat]
        simp
    · cases h

/-- Reading a written key meets its header, then its component frames, then
its primary-key frame, which ends the string. -/
theorem reads_layout {k : IndexKey} (hw : k.Writable) :
    parseIndexKeyHeader k.segments.layout =
        .ok (k.keyKind, k.indexId, k.components.length, keyPrefixSize) ∧
      readComponentSegments k.segments.layout k.components.length keyPrefixSize =
        .ok (k.components, keyPrefixSize + ((k.components.map frameSegment).flatten).length) ∧
      readSegment k.segments.layout
          (keyPrefixSize + ((k.components.map frameSegment).flatten).length) maxPkSize =
        .ok (k.primaryKey, k.segments.layout.length) := by
  obtain ⟨hcount, hcomponents, hne, hle⟩ := hw
  set header := k.keyKind.toStoreKeyKind.tag :: k.indexId.toBytes ++ [UInt8.ofNat k.components.length]
  set body := (k.components.map frameSegment).flatten with hbody
  have hlayout : k.segments.layout = header ++ body ++ frameSegment k.primaryKey := by
    simp [header, body, segments, IndexStoreKeySegments.layout]
  have hoff : (header ++ body).length = keyPrefixSize + body.length := by
    rw [List.length_append, length_header]
  have hlt : k.primaryKey.length < 2 ^ 16 := by
    unfold maxPkSize accountStoredSize at hle
    omega
  have hcomps := readComponentSegments_frames header k.components (frameSegment k.primaryKey)
    hcomponents
  have hpk := readSegment_frame (header ++ body) k.primaryKey [] hne hle hlt
  have hend : keyPrefixSize + body.length + segmentLenSize + k.primaryKey.length =
      k.segments.layout.length := by
    rw [hlayout, List.length_append, hoff, length_frameSegment, segmentLenSize]
    omega
  rw [List.append_nil, ← hlayout, hoff, hend] at hpk
  rw [← hlayout, length_header] at hcomps
  exact ⟨parseIndexKeyHeader_layout ⟨hcount, hcomponents, hne, hle⟩, hcomps, hpk⟩

/-- `try_from_raw` reads back every key `to_raw` writes. -/
theorem tryFromRaw_layout {k : IndexKey} (hw : k.Writable) : tryFromRaw k.segments.layout = .ok k := by
  obtain ⟨hheader, hcomponents, hpk⟩ := reads_layout hw
  simp only [tryFromRaw, hheader, hcomponents, hpk, Except.ok_bind]
  rw [if_neg (not_not.mpr rfl)]
  rfl

/-- The primary-key suffix of a written key decodes to the primary key it
encodes, next to its bytes. -/
theorem primaryKeyValueAndBytesFromRaw_layout {k : IndexKey} (hw : k.Writable)
    {pk : PrimaryKeyValue} (hpk : k.primaryKey = pk.encoded) :
    primaryKeyValueAndBytesFromRaw k.segments.layout = .ok (pk, pk.encoded) := by
  obtain ⟨hheader, hcomponents, hsuffix⟩ := reads_layout hw
  simp only [primaryKeyValueAndBytesFromRaw, hheader, hcomponents, hsuffix, Except.ok_bind]
  rw [if_neg (not_not.mpr rfl), hpk, EncodedPrimaryKey.decodeBytes_encoded]
  rfl

/-- Every raw key `try_from_raw` accepts is within `to_raw`'s bounds and is
exactly the framing of the key it returns. -/
theorem writable_and_layout_of_tryFromRaw {bytes : List UInt8} {k : IndexKey}
    (h : tryFromRaw bytes = .ok k) : k.Writable ∧ k.segments.layout = bytes := by
  simp only [tryFromRaw, Except.bind_eq_ok_iff] at h
  obtain ⟨⟨keyKind, indexId, count, offset⟩, hheader, ⟨components, mid⟩, hcomponents,
    ⟨primaryKey, next⟩, hpk, h⟩ := h
  split at h
  · cases h
  · rename_i hend
    simp only [pure, Except.pure, Except.ok.injEq] at h
    subst h
    obtain ⟨rfl, hcount, -, -, htake⟩ := parseIndexKeyHeader_sound hheader
    obtain ⟨hbody, hlen, hvalid⟩ := readComponentSegments_sound hcomponents
    obtain ⟨hframe, hne, hle⟩ := readSegment_sound hpk
    obtain rfl : next = bytes.length := not_not.mp hend
    simp only at hlen
    refine ⟨⟨show components.length ≤ maxIndexFields by omega, hvalid, hne, hle⟩, ?_⟩
    rw [List.drop_length, List.append_nil] at hframe
    rw [segments_layout, ← List.take_append_drop keyPrefixSize bytes, htake, hbody, hframe, hlen]

/-- `to_raw` writes back byte for byte every raw key `try_from_raw` accepts. -/
theorem toRaw_of_tryFromRaw {bytes : List UInt8} {k : IndexKey} (h : tryFromRaw bytes = .ok k) :
    k.toRaw = .ok bytes := by
  obtain ⟨hw, hlayout⟩ := writable_and_layout_of_tryFromRaw h
  rw [toRaw_of_writable hw, hlayout]

/-- On keys within `to_raw`'s bounds the codec round-trips: `to_raw` succeeds,
`try_from_raw` returns the key, and the primary-key suffix decodes back. -/
theorem roundTrip_of_writable {k : IndexKey} (hw : k.Writable) {pk : PrimaryKeyValue}
    (hpk : k.primaryKey = pk.encoded) :
    ∃ raw, k.toRaw = .ok raw ∧ tryFromRaw raw = .ok k ∧
      primaryKeyValueAndBytesFromRaw raw = .ok (pk, pk.encoded) :=
  ⟨k.segments.layout, toRaw_of_writable hw, tryFromRaw_layout hw,
    primaryKeyValueAndBytesFromRaw_layout hw hpk⟩

/-- A suffix longer than `MAX_PK_SIZE` stops `to_raw`, whatever it encodes. -/
theorem toRaw_eq_error_of_maxPkSize_lt {k : IndexKey}
    (hcount : k.components.length ≤ maxIndexFields) (hlong : maxPkSize < k.primaryKey.length) :
    k.toRaw = .error .segmentTooLarge := by
  have hne : k.primaryKey ≠ [] := fun h => by simp [h] at hlong
  rw [toRaw, toRawWithPrimaryKey, if_neg (by unfold maxIndexFields at hcount ⊢; omega), if_neg hne,
    if_pos hlong]

end IndexKey

/-- Four `Nat128` components: an admitted composite primary key, 70 bytes
encoded. -/
def wideCompositePrimaryKey : PrimaryKeyValue :=
  .composite ⟨[.nat128 0, .nat128 0, .nat128 0, .nat128 0], by decide, by decide, by decide⟩

/-- The key taxonomy admits composite primary keys up to 254 bytes, but
`IndexKey::MAX_PK_SIZE` is 63: an index key carrying an admitted composite key
cannot be written. -/
theorem toRaw_rejects_wide_composite_primary_key :
    EncodedPrimaryKey.encode wideCompositePrimaryKey = .ok wideCompositePrimaryKey.encoded ∧
      wideCompositePrimaryKey.encoded.length = 70 ∧
      (⟨.user, ⟨⟨7⟩, 1, 0⟩, [[0x01]], wideCompositePrimaryKey.encoded⟩ : IndexKey).toRaw =
        .error .segmentTooLarge :=
  ⟨PrimaryKeyValue.encode_eq _, by decide,
    IndexKey.toRaw_eq_error_of_maxPkSize_lt (by decide) (by decide)⟩

end IcyDb
