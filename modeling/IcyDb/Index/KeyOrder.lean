import IcyDb.Index.KeyCodec
import IcyDb.Key.StoreKeyCodec

/-!
# Raw index keys order as index keys

`IndexKey::to_raw` succeeds exactly on the keys within its bounds, and on both
of its paths it writes the index-store framing of the key's segments.  Those
framings parse, and the raw comparator then runs the same chain as
`Ord for IndexKey`; the `u16` length prefixes never take part.
-/

namespace IcyDb

open ByteOrder

theorem IndexKeyKind.cmp_eq_toStoreKeyKind (a b : IndexKeyKind) :
    a.cmp b = a.toStoreKeyKind.cmp b.toStoreKeyKind := by
  cases a <;> cases b <;> rfl

theorem validateComponentSegment_eq_ok_iff (component : List UInt8) :
    validateComponentSegment component = .ok () ↔
      component ≠ [] ∧ component.length ≤ IndexKey.maxComponentSize := by
  unfold validateComponentSegment
  split
  · simp_all
  · split <;> simp_all

theorem forM_validateComponentSegment_eq_ok_iff (components : List (List UInt8)) :
    components.forM validateComponentSegment = .ok () ↔
      ∀ c ∈ components, c ≠ [] ∧ c.length ≤ IndexKey.maxComponentSize := by
  rw [Except.forM_eq_ok_iff]
  simp only [validateComponentSegment_eq_ok_iff]

theorem foldlM_pushSegment (components : List (List UInt8))
    (hvalid : ∀ c ∈ components, c ≠ [] ∧ c.length < 2 ^ 16) (out : List UInt8) :
    components.foldlM pushSegment out = .ok (out ++ (components.map frameSegment).flatten) := by
  induction components generalizing out with
  | nil => simp
  | cons c cs ih =>
    obtain ⟨hne, hlt⟩ := hvalid c (List.mem_cons_self ..)
    rw [List.foldlM_cons, pushSegment, if_neg hne, if_neg (Nat.not_le.mpr hlt), Except.ok_bind,
      ih (fun c' hc' => hvalid c' (List.mem_cons_of_mem _ hc'))]
    simp [frameSegment, segmentLenSize, lengthPrefixSize]

namespace IndexKey

/-- The segments an index key frames. -/
def segments (k : IndexKey) : IndexStoreKeySegments :=
  (k.keyKind.toStoreKeyKind, k.indexId, k.components, k.primaryKey)

/-- The bounds `to_raw_with_primary_key` checks before it writes anything. -/
def Writable (k : IndexKey) : Prop :=
  k.components.length ≤ maxIndexFields ∧
    (∀ c ∈ k.components, c ≠ [] ∧ c.length ≤ maxComponentSize) ∧
      k.primaryKey ≠ [] ∧ k.primaryKey.length ≤ maxPkSize

theorem toRawWithPrimaryKeySegment_eq (k : IndexKey) {primaryKey : List UInt8}
    (hcount : k.components.length < 2 ^ 8)
    (hcomponents : ∀ c ∈ k.components, c ≠ [] ∧ c.length < 2 ^ 16)
    (hne : primaryKey ≠ []) (hlt : primaryKey.length < 2 ^ 16) :
    k.toRawWithPrimaryKeySegment primaryKey =
      .ok (IndexStoreKeySegments.layout
        (k.keyKind.toStoreKeyKind, k.indexId, k.components, primaryKey)) := by
  rw [toRawWithPrimaryKeySegment]
  simp only [if_neg (Nat.not_le.mpr hcount), foldlM_pushSegment _ hcomponents, Except.ok_bind]
  rw [pushSegment, if_neg hne, if_neg (Nat.not_le.mpr hlt)]
  simp [IndexStoreKeySegments.layout, frameSegment, segmentLenSize, lengthPrefixSize]

/-- Within its bounds, `to_raw` writes the framing of the key's segments, on
the compact path and on the raw-segment path alike. -/
theorem toRaw_of_writable {k : IndexKey} (hw : k.Writable) : k.toRaw = .ok k.segments.layout := by
  obtain ⟨hcount, hcomponents, hne, hle⟩ := hw
  have hcount' : k.components.length < 2 ^ 8 := by unfold maxIndexFields at hcount; omega
  have hlt : k.primaryKey.length < 2 ^ 16 := by
    unfold maxPkSize accountStoredSize at hle
    omega
  have hcomponents' : ∀ c ∈ k.components, c ≠ [] ∧ c.length < 2 ^ 16 := by
    intro c hc
    obtain ⟨hc₁, hc₂⟩ := hcomponents c hc
    unfold maxComponentSize at hc₂
    exact ⟨hc₁, by omega⟩
  have hforM := (forM_validateComponentSegment_eq_ok_iff k.components).mpr hcomponents
  rw [toRaw, toRawWithPrimaryKey, if_neg (by omega), if_neg hne, if_neg (Nat.not_lt.mpr hle),
    hforM, Except.ok_bind]
  cases htry : EncodedPrimaryKey.tryFrom k.primaryKey with
  | error e => exact toRawWithPrimaryKeySegment_eq k hcount' hcomponents' hne hlt
  | ok primaryKey =>
    obtain ⟨rfl, -⟩ := EncodedPrimaryKey.tryFrom_eq_ok_iff.mp htry
    simp only
    rw [IndexStoreKey.toRaw_eq _ hcount' (fun c hc => (hcomponents' c hc).2) hlt]
    rfl

/-- `to_raw` fails on every key outside its bounds. -/
theorem writable_of_toRaw {k : IndexKey} {raw : List UInt8} (h : k.toRaw = .ok raw) :
    k.Writable := by
  rw [toRaw, toRawWithPrimaryKey] at h
  split at h
  · cases h
  · rename_i hcount
    split at h
    · cases h
    · rename_i hne
      split at h
      · cases h
      · rename_i hle
        obtain ⟨⟨⟩, hforM, -⟩ := Except.bind_eq_ok_iff.mp h
        exact ⟨by omega, (forM_validateComponentSegment_eq_ok_iff _).mp hforM, hne,
          Nat.not_lt.mp hle⟩

theorem toRaw_eq_ok_iff {k : IndexKey} {raw : List UInt8} :
    k.toRaw = .ok raw ↔ k.Writable ∧ raw = k.segments.layout := by
  constructor
  · intro h
    have hw := writable_of_toRaw h
    rw [toRaw_of_writable hw, Except.ok.injEq] at h
    exact ⟨hw, h.symm⟩
  · rintro ⟨hw, rfl⟩
    exact toRaw_of_writable hw

theorem segments_valid {k : IndexKey} (hw : k.Writable) : k.segments.Valid := by
  obtain ⟨hcount, hcomponents, hne, hle⟩ := hw
  refine ⟨hcount, hcomponents, hne, ?_⟩
  unfold indexPrimaryKeyMaxSize compositePrimaryKeyMaxSize scalarPrimaryKeyMaxSize
    maxPrimaryKeyFields
  unfold maxPkSize at hle
  omega

/-- The raw comparator's chain on the segments of two index keys is the index
key order. -/
theorem segments_cmp (a b : IndexKey) : a.segments.cmp b.segments = a.cmp b := by
  rw [segments, segments, IndexStoreKeySegments.cmp, cmp, IndexKeyKind.cmp_eq_toStoreKeyKind]
  rfl

/-- Raw keys written by `to_raw` compare as the index keys they encode. -/
theorem compareRawIndexStoreKeyBytes_toRaw {a b : IndexKey} {rawA rawB : List UInt8}
    (ha : a.toRaw = .ok rawA) (hb : b.toRaw = .ok rawB) :
    compareRawIndexStoreKeyBytes rawA rawB = a.cmp b := by
  obtain ⟨hwa, rfl⟩ := toRaw_eq_ok_iff.mp ha
  obtain ⟨hwb, rfl⟩ := toRaw_eq_ok_iff.mp hb
  rw [compareRawIndexStoreKeyBytes_of_decode
    (decodeRawIndexStoreKeySegments_layout (segments_valid hwa))
    (decodeRawIndexStoreKeySegments_layout (segments_valid hwb)), segments_cmp]

end IndexKey

/-- Raw index-store keys written by `to_raw` compare as the index keys they
encode, whichever path wrote them; and on the byte strings that parse, the raw
comparator is a total order. -/
theorem rawIndexStoreKeyOrder_eq_indexKeyOrder :
    (∀ (a b : IndexKey) (rawA rawB : List UInt8), a.toRaw = .ok rawA → b.toRaw = .ok rawB →
      compareRawIndexStoreKeyBytes rawA rawB = a.cmp b) ∧
    Comparator.TotalOrderOn compareRawIndexStoreKeyBytes RawIndexStoreKeyDecodes :=
  ⟨fun _ _ _ _ ha hb => IndexKey.compareRawIndexStoreKeyBytes_toRaw ha hb,
    compareRawIndexStoreKeyBytes_totalOrderOn⟩

/-- One-component keys on `"alex"` and `"bob"`: the longer text carries the
larger length prefix, yet its raw key sorts first. -/
theorem rawIndexStoreKeyOrder_alex_before_bob :
    compareRawIndexStoreKeyBytes
        (IndexKey.segments ⟨.user, ⟨⟨7⟩, 1, 0⟩, [[0x61, 0x6C, 0x65, 0x78]],
          [0x01, 0, 0, 0, 0, 0, 0, 0, 1]⟩).layout
        (IndexKey.segments ⟨.user, ⟨⟨7⟩, 1, 0⟩, [[0x62, 0x6F, 0x62]],
          [0x01, 0, 0, 0, 0, 0, 0, 0, 1]⟩).layout =
      .lt := by
  rw [rawIndexStoreKeyOrder_eq_indexKeyOrder.1
    ⟨.user, ⟨⟨7⟩, 1, 0⟩, [[0x61, 0x6C, 0x65, 0x78]], [0x01, 0, 0, 0, 0, 0, 0, 0, 1]⟩
    ⟨.user, ⟨⟨7⟩, 1, 0⟩, [[0x62, 0x6F, 0x62]], [0x01, 0, 0, 0, 0, 0, 0, 0, 1]⟩ _ _
    (IndexKey.toRaw_of_writable (by unfold IndexKey.Writable; decide))
    (IndexKey.toRaw_of_writable (by unfold IndexKey.Writable; decide))]
  decide

end IcyDb
