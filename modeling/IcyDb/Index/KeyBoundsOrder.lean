import IcyDb.Index.KeyBounds
import IcyDb.Bytes.LexRange

/-!
# Index-key bounds select a prefix and a component range

Under the raw index-store key order, the two keys of
`raw_bounds_for_prefix_with_kind` enclose exactly the keys of the index whose
first components are the prefix, and the bounds of
`raw_bounds_for_prefix_component_range_with_kind` enclose exactly those whose
next component also lies within the component bounds.  Every raw key that
`IndexKey::to_raw` writes parses, so the raw order on it is the lexicographic
order of its order key (namespace, index, count, components, primary key);
the bounds share the header and the prefix with the keys they select, and
their sentinels lie below or above every component and primary key that
`to_raw` admits.
-/

namespace IcyDb

open ByteOrder

/-- The order-key segments before the components: namespace, index and
component count. -/
def orderKeyHeader (keyKind : IndexKeyKind) (indexId : IndexId) (count : Nat) :
    List (List UInt8) :=
  [[keyKind.toStoreKeyKind.tag], indexId.toBytes, [UInt8.ofNat count]]

theorem orderKey_eq (keyKind : IndexKeyKind) (indexId : IndexId) (components : List (List UInt8))
    (primaryKey : List UInt8) :
    IndexStoreKeySegments.orderKey (keyKind.toStoreKeyKind, indexId, components, primaryKey) =
      orderKeyHeader keyKind indexId components.length ++ components ++ [primaryKey] := rfl

namespace IndexKey

/-- A key of the index `indexId` in namespace `keyKind`, with `indexLen`
components, the first of which are `prefixComponents`. -/
def MatchesPrefix (k : IndexKey) (keyKind : IndexKeyKind) (indexId : IndexId) (indexLen : Nat)
    (prefixComponents : List (List UInt8)) : Prop :=
  k.keyKind = keyKind ∧ k.indexId = indexId ∧ k.components.length = indexLen ∧
    k.components.take prefixComponents.length = prefixComponents

theorem orderKey_segments (k : IndexKey) :
    k.segments.orderKey = orderKeyHeader k.keyKind k.indexId k.components.length ++
      k.components ++ [k.primaryKey] := rfl

end IndexKey

theorem IndexKeyKind.toStoreKeyKind_injective {a b : IndexKeyKind}
    (h : a.toStoreKeyKind = b.toStoreKeyKind) : a = b := by
  cases a <;> cases b <;> first | rfl | cases h

theorem IndexStoreKeyKind.tag_injective {a b : IndexStoreKeyKind} (h : a.tag = b.tag) : a = b := by
  have hsome : IndexStoreKeyKind.fromTag a.tag = IndexStoreKeyKind.fromTag b.tag := by rw [h]
  rw [IndexStoreKeyKind.fromTag_tag, IndexStoreKeyKind.fromTag_tag] at hsome
  exact Option.some.inj hsome

theorem IndexId.toBytes_injective {a b : IndexId} (h : a.toBytes = b.toBytes) : a = b := by
  have hsome : IndexId.fromBytes a.toBytes = IndexId.fromBytes b.toBytes := by rw [h]
  rw [IndexId.fromBytes_toBytes, IndexId.fromBytes_toBytes] at hsome
  exact Option.some.inj hsome

/-- Two order keys that agree on their header and prefix come from keys of
one index and count whose components start with the prefix. -/
theorem IndexKey.matchesPrefix_of_orderKey_eq {k : IndexKey} (hk : k.Writable)
    {keyKind : IndexKeyKind} {indexId : IndexId} {indexLen : Nat}
    {prefixComponents r : List (List UInt8)} (hlen : indexLen ≤ maxIndexFields)
    (hshape : prefixComponents.length ≤ indexLen)
    (h : k.segments.orderKey = orderKeyHeader keyKind indexId indexLen ++ prefixComponents ++ r) :
    k.MatchesPrefix keyKind indexId indexLen prefixComponents := by
  rw [IndexKey.orderKey_segments] at h
  simp only [orderKeyHeader, List.cons_append, List.nil_append, List.cons.injEq, and_true] at h
  obtain ⟨htag, hid, hcount, hrest⟩ := h
  have hcountLt : k.components.length < 256 := by
    have := hk.1
    unfold maxIndexFields at this
    omega
  have hcountEq : k.components.length = indexLen := by
    have := congrArg UInt8.toNat hcount
    rw [toNat_ofNat_byte, toNat_ofNat_byte] at this
    unfold maxIndexFields at hlen
    omega
  refine ⟨IndexKeyKind.toStoreKeyKind_injective (IndexStoreKeyKind.tag_injective htag),
    IndexId.toBytes_injective hid, hcountEq, ?_⟩
  -- the prefix is no longer than the components, so it is a prefix of them
  rcases List.append_eq_append_iff.mp hrest with ⟨a', hprefixValid, -⟩ | ⟨c', hcomponents, -⟩
  · have ha' : a' = [] := by
      have := congrArg List.length hprefixValid
      simp only [List.length_append] at this
      exact List.eq_nil_of_length_eq_zero (by omega)
    rw [hprefixValid, ha', List.append_nil, List.take_length]
  · rw [hcomponents, List.take_left]

theorem IndexKey.eq_append_of_matchesPrefix {k : IndexKey} {keyKind : IndexKeyKind}
    {indexId : IndexId} {indexLen : Nat} {prefixComponents : List (List UInt8)}
    (h : k.MatchesPrefix keyKind indexId indexLen prefixComponents) :
    k.components = prefixComponents ++ k.components.drop prefixComponents.length := by
  conv_lhs => rw [← List.take_append_drop prefixComponents.length k.components]
  rw [h.2.2.2]

/-- The order key of a key with the prefix: the bounds' header and prefix,
then its own remaining components and primary key. -/
theorem IndexKey.orderKey_of_matchesPrefix {k : IndexKey} {keyKind : IndexKeyKind}
    {indexId : IndexId} {indexLen : Nat} {prefixComponents : List (List UInt8)}
    (h : k.MatchesPrefix keyKind indexId indexLen prefixComponents) :
    k.segments.orderKey = orderKeyHeader keyKind indexId indexLen ++ prefixComponents ++
      (k.components.drop prefixComponents.length ++ [k.primaryKey]) := by
  have hsplit := eq_append_of_matchesPrefix h
  obtain ⟨hkind, hid, hcount, -⟩ := h
  rw [IndexKey.orderKey_segments, hkind, hid, hcount]
  conv_lhs => rw [hsplit]
  simp only [List.append_assoc]

/-! ### Sentinel tails -/

/-- The low sentinels lie below the remaining components and primary key of
every key. -/
theorem compare_lowTail_ne_gt {rest : List (List UInt8)} {primaryKey : List UInt8}
    (hrest : ∀ c ∈ rest, c ≠ []) (hpk : primaryKey ≠ []) :
    compare (List.replicate rest.length PrefixBoundSentinel.low.component ++
      [PrefixBoundSentinel.low.primaryKey]) (rest ++ [primaryKey]) ≠ .gt := by
  induction rest with
  | nil =>
    rw [List.length_nil, List.replicate_zero, List.nil_append, List.nil_append,
      compare_singleton]
    exact compare_zero_ne_gt hpk
  | cons c rest ih =>
    rw [List.length_cons, List.replicate_succ, List.cons_append, List.cons_append,
      List.compare_cons_cons]
    exact then_ne_gt (compare_zero_ne_gt (hrest c (List.mem_cons_self ..)))
      (ih fun c' hc' => hrest c' (List.mem_cons_of_mem _ hc'))

/-- The high sentinels lie above the remaining components and primary key of
every key `to_raw` writes. -/
theorem compare_highTail_ne_gt {rest : List (List UInt8)} {primaryKey : List UInt8}
    (hrest : ∀ c ∈ rest, c.length ≤ IndexKey.maxComponentSize)
    (hpk : primaryKey.length ≤ IndexKey.maxPkSize) :
    compare (rest ++ [primaryKey]) (List.replicate rest.length PrefixBoundSentinel.high.component ++
      [PrefixBoundSentinel.high.primaryKey]) ≠ .gt := by
  induction rest with
  | nil =>
    rw [List.length_nil, List.replicate_zero, List.nil_append, List.nil_append,
      compare_singleton]
    exact compare_replicate_ff_ne_gt hpk
  | cons c rest ih =>
    rw [List.length_cons, List.replicate_succ, List.cons_append, List.cons_append,
      List.compare_cons_cons]
    exact then_ne_gt (compare_replicate_ff_ne_gt (hrest c (List.mem_cons_self ..)))
      (ih fun c' hc' => hrest c' (List.mem_cons_of_mem _ hc'))

section Bounds

variable {indexId : IndexId} {keyKind : IndexKeyKind} {indexLen : Nat}
  {prefixComponents : List (List UInt8)}

/-- The sentinel segments are segments the raw decoder accepts. -/
theorem sentinel_component_valid (sentinel : PrefixBoundSentinel) :
    ComponentSegmentValid sentinel.component := by
  have hpos := sentinel.componentLen_pos
  have hle := sentinel.componentLen_le
  refine ⟨?_, ?_⟩
  · simp only [PrefixBoundSentinel.component, ne_eq, List.replicate_eq_nil_iff]
    omega
  · simpa [PrefixBoundSentinel.component, indexComponentMaxSize, IndexKey.maxComponentSize]
      using hle

theorem sentinel_primaryKey_valid (sentinel : PrefixBoundSentinel) :
    sentinel.primaryKey ≠ [] ∧ sentinel.primaryKey.length ≤ indexPrimaryKeyMaxSize := by
  have hpos := sentinel.primaryKeyLen_pos
  have hle := sentinel.primaryKeyLen_le
  refine ⟨?_, ?_⟩
  · simp only [PrefixBoundSentinel.primaryKey, ne_eq, List.replicate_eq_nil_iff]
    omega
  · simp only [PrefixBoundSentinel.primaryKey, List.length_replicate]
    unfold indexPrimaryKeyMaxSize compositePrimaryKeyMaxSize scalarPrimaryKeyMaxSize
      maxPrimaryKeyFields
    unfold IndexKey.maxPkSize at hle
    omega

theorem prefixBoundSegments_valid (hlen : indexLen ≤ maxIndexFields)
    (hshape : prefixComponents.length ≤ indexLen)
    (hprefixValid : ∀ c ∈ prefixComponents, c ≠ [] ∧ c.length ≤ IndexKey.maxComponentSize)
    (sentinel : PrefixBoundSentinel) :
    (IndexKey.prefixBoundSegments indexId keyKind indexLen prefixComponents sentinel).Valid := by
  refine ⟨?_, ?_, sentinel_primaryKey_valid sentinel⟩
  · simp only [List.length_append, List.length_replicate]
    omega
  · intro c hc
    rcases List.mem_append.mp hc with hc | hc
    · exact hprefixValid c hc
    · rw [List.eq_of_mem_replicate hc]
      exact sentinel_component_valid sentinel

theorem rangeBoundSegments_valid (hlen : indexLen ≤ maxIndexFields)
    (hshape : prefixComponents.length < indexLen)
    (hprefixValid : ∀ c ∈ prefixComponents, c ≠ [] ∧ c.length ≤ IndexKey.maxComponentSize)
    {bound : Bound (List UInt8)} (hbound : validateComponentBound bound = .ok ())
    (side : RangeBoundSide) :
    (IndexKey.rangeBoundSegments indexId keyKind indexLen prefixComponents bound side).Valid := by
  refine ⟨?_, ?_, sentinel_primaryKey_valid _⟩
  · simp only [List.length_append, List.length_cons, List.length_replicate]
    omega
  · intro c hc
    rcases List.mem_append.mp hc with hc | hc
    · exact hprefixValid c hc
    · rcases List.mem_cons.mp hc with rfl | hc
      · exact boundComponent_valid hbound _
      · rw [List.eq_of_mem_replicate hc]
        exact sentinel_component_valid _

/-- A bound key and a key that `to_raw` writes compare as their order keys. -/
theorem compareRawIndexStoreKeyBytes_layout {a b : IndexStoreKeySegments} (ha : a.Valid)
    (hb : b.Valid) :
    compareRawIndexStoreKeyBytes a.layout b.layout = compare a.orderKey b.orderKey :=
  compareRawIndexStoreKeyBytes_eq_compare_orderKey (decodeRawIndexStoreKeySegments_layout ha)
    (decodeRawIndexStoreKeySegments_layout hb)

theorem orderKey_prefixBoundSegments (hshape : prefixComponents.length ≤ indexLen)
    (sentinel : PrefixBoundSentinel) :
    (IndexKey.prefixBoundSegments indexId keyKind indexLen prefixComponents sentinel).orderKey =
      orderKeyHeader keyKind indexId indexLen ++ prefixComponents ++
        (List.replicate (indexLen - prefixComponents.length) sentinel.component ++
          [sentinel.primaryKey]) := by
  rw [IndexKey.prefixBoundSegments, orderKey_eq]
  simp only [List.length_append, List.length_replicate, List.append_assoc]
  congr 2
  omega

theorem orderKey_rangeBoundSegments (hshape : prefixComponents.length < indexLen)
    (bound : Bound (List UInt8)) (side : RangeBoundSide) :
    (IndexKey.rangeBoundSegments indexId keyKind indexLen prefixComponents bound side).orderKey =
      orderKeyHeader keyKind indexId indexLen ++ prefixComponents ++
        (boundComponent bound side.unboundedSentinel ::
          (List.replicate (indexLen - prefixComponents.length - 1)
            (side.suffixSentinel bound.isExcluded).component ++
              [(side.primaryKeySentinel bound.isExcluded).primaryKey])) := by
  rw [IndexKey.rangeBoundSegments, orderKey_eq]
  simp only [List.length_append, List.length_cons, List.length_replicate, List.append_assoc,
    List.cons_append]
  congr 2
  omega

/-- A raw key between the prefix bounds has the prefix, and every key with the
prefix is between them. -/
theorem prefixBounds_enclose_iff (hlen : indexLen ≤ maxIndexFields)
    (hshape : prefixComponents.length ≤ indexLen) {k : IndexKey} (hk : k.Writable) :
    (compare (IndexKey.prefixBoundSegments indexId keyKind indexLen prefixComponents
        .low).orderKey k.segments.orderKey ≠ .gt ∧
      compare k.segments.orderKey (IndexKey.prefixBoundSegments indexId keyKind indexLen
        prefixComponents .high).orderKey ≠ .gt) ↔
    k.MatchesPrefix keyKind indexId indexLen prefixComponents := by
  rw [orderKey_prefixBoundSegments hshape, orderKey_prefixBoundSegments hshape]
  constructor
  · rintro ⟨hlo, hhi⟩
    obtain ⟨r, hr⟩ := eq_append_of_between hlo hhi
    exact IndexKey.matchesPrefix_of_orderKey_eq hk hlen hshape hr
  · intro h
    have hrest : (k.components.drop prefixComponents.length).length =
        indexLen - prefixComponents.length := by
      rw [List.length_drop, h.2.2.1]
    rw [IndexKey.orderKey_of_matchesPrefix h, compare_append_left, compare_append_left, ← hrest]
    refine ⟨compare_lowTail_ne_gt (fun c hc => ?_) hk.2.2.1,
      compare_highTail_ne_gt (fun c hc => ?_) hk.2.2.2⟩
    · exact (hk.2.1 c (List.mem_of_mem_drop hc)).1
    · exact (hk.2.1 c (List.mem_of_mem_drop hc)).2

/-! ### Range bounds against a key with the prefix -/

section Slot

variable {k : IndexKey} (hk : k.Writable)
  (hkey : k.MatchesPrefix keyKind indexId indexLen prefixComponents)
  {c : List UInt8} {rest : List (List UInt8)}
  (hslot : k.components.drop prefixComponents.length = c :: rest)

include hk hslot in
theorem rest_valid : ∀ c' ∈ rest, c' ≠ [] ∧ c'.length ≤ IndexKey.maxComponentSize := by
  intro c' hc'
  have hmem : c' ∈ k.components.drop prefixComponents.length := by
    rw [hslot]
    exact List.mem_cons_of_mem _ hc'
  exact hk.2.1 c' (List.mem_of_mem_drop hmem)

include hkey hslot in
theorem length_rest : rest.length = indexLen - prefixComponents.length - 1 := by
  have hlen := congrArg List.length hslot
  rw [List.length_drop, hkey.2.2.1, List.length_cons] at hlen
  omega

include hkey hslot in
/-- A key with the prefix, split at the range slot. -/
theorem orderKey_of_slot :
    k.segments.orderKey = orderKeyHeader keyKind indexId indexLen ++ prefixComponents ++
      (c :: (rest ++ [k.primaryKey])) := by
  rw [IndexKey.orderKey_of_matchesPrefix hkey, hslot, List.cons_append]

include hk hkey hslot in
/-- The raw order of a range bound against a key with the prefix: the bound's
component against the key's at the range slot, then the sentinels against the
rest of the key. -/
theorem compareRaw_rangeBound_key (hlen : indexLen ≤ maxIndexFields)
    (hshape : prefixComponents.length < indexLen)
    (hprefixValid : ∀ c ∈ prefixComponents, c ≠ [] ∧ c.length ≤ IndexKey.maxComponentSize)
    {bound : Bound (List UInt8)} (hbound : validateComponentBound bound = .ok ())
    (side : RangeBoundSide) :
    compareRawIndexStoreKeyBytes
        (IndexKey.rangeBoundSegments indexId keyKind indexLen prefixComponents bound side).layout
        k.segments.layout =
      (compare (boundComponent bound side.unboundedSentinel) c).then
        (compare (List.replicate rest.length (side.suffixSentinel bound.isExcluded).component ++
          [(side.primaryKeySentinel bound.isExcluded).primaryKey]) (rest ++ [k.primaryKey])) := by
  rw [compareRawIndexStoreKeyBytes_layout
    (rangeBoundSegments_valid hlen hshape hprefixValid hbound side)
    (IndexKey.segments_valid hk), orderKey_rangeBoundSegments hshape, orderKey_of_slot hkey hslot,
    compare_append_left, List.compare_cons_cons, length_rest hkey hslot]

include hk hkey hslot in
theorem compareRaw_key_rangeBound (hlen : indexLen ≤ maxIndexFields)
    (hshape : prefixComponents.length < indexLen)
    (hprefixValid : ∀ c ∈ prefixComponents, c ≠ [] ∧ c.length ≤ IndexKey.maxComponentSize)
    {bound : Bound (List UInt8)} (hbound : validateComponentBound bound = .ok ())
    (side : RangeBoundSide) :
    compareRawIndexStoreKeyBytes k.segments.layout
        (IndexKey.rangeBoundSegments indexId keyKind indexLen prefixComponents bound side).layout =
      (compare c (boundComponent bound side.unboundedSentinel)).then
        (compare (rest ++ [k.primaryKey])
          (List.replicate rest.length (side.suffixSentinel bound.isExcluded).component ++
            [(side.primaryKeySentinel bound.isExcluded).primaryKey])) := by
  rw [compareRawIndexStoreKeyBytes_layout (IndexKey.segments_valid hk)
    (rangeBoundSegments_valid hlen hshape hprefixValid hbound side),
    orderKey_rangeBoundSegments hshape,
    orderKey_of_slot hkey hslot, compare_append_left, List.compare_cons_cons,
    length_rest hkey hslot]

variable (hlen : indexLen ≤ maxIndexFields) (hshape : prefixComponents.length < indexLen)
  (hprefixValid : ∀ c ∈ prefixComponents, c ≠ [] ∧ c.length ≤ IndexKey.maxComponentSize)

include hk hkey hslot hlen hshape hprefixValid

/-- The lower raw bound admits a key with the prefix exactly when the lower
component bound admits its component at the range slot. -/
theorem admitsAboveBy_lowerRangeBound {lower : Bound (List UInt8)}
    (hlower : validateComponentBound lower = .ok ()) :
    (if lower.isExcluded then
        Bound.excluded (IndexKey.rangeBoundSegments indexId keyKind indexLen prefixComponents lower
          .lower).layout
      else
        .included (IndexKey.rangeBoundSegments indexId keyKind indexLen prefixComponents lower
          .lower).layout).admitsAboveBy compareRawIndexStoreKeyBytes k.segments.layout =
      lower.admitsAboveBy compare c := by
  have hcmp := compareRaw_rangeBound_key hk hkey hslot hlen hshape hprefixValid hlower .lower
  have hvalid := rest_valid hk hslot
  have hlow := compare_lowTail_ne_gt (fun c' hc' => (hvalid c' hc').1) hk.2.2.1
  have hhigh := compare_highTail_ne_gt (fun c' hc' => (hvalid c' hc').2) hk.2.2.2
  cases lower with
  | unbounded =>
    -- the low sentinel is below every component
    have hc : c ≠ [] := (hk.2.1 c (List.mem_of_mem_drop (hslot ▸ List.mem_cons_self ..))).1
    simp only [Bound.isExcluded, Bool.false_eq_true, ↓reduceIte, Bound.admitsAboveBy, hcmp,
      boundComponent, RangeBoundSide.unboundedSentinel, RangeBoundSide.suffixSentinel,
      RangeBoundSide.primaryKeySentinel, decide_eq_true_eq]
    exact then_ne_gt (compare_zero_ne_gt hc) hlow
  | included b =>
    simp only [Bound.isExcluded, Bool.false_eq_true, ↓reduceIte, Bound.admitsAboveBy, hcmp,
      boundComponent, RangeBoundSide.suffixSentinel, RangeBoundSide.primaryKeySentinel]
    exact decide_eq_decide.mpr (then_ne_gt_iff hlow)
  | excluded b =>
    simp only [Bound.isExcluded, ↓reduceIte, Bound.admitsAboveBy, hcmp, boundComponent,
      RangeBoundSide.suffixSentinel, RangeBoundSide.primaryKeySentinel]
    exact decide_eq_decide.mpr (then_eq_lt_iff (compare_ne_lt_of_ne_gt hhigh))

/-- The upper raw bound admits a key with the prefix exactly when the upper
component bound admits its component at the range slot. -/
theorem admitsBelowBy_upperRangeBound {upper : Bound (List UInt8)}
    (hupper : validateComponentBound upper = .ok ()) :
    (if upper.isExcluded then
        Bound.excluded (IndexKey.rangeBoundSegments indexId keyKind indexLen prefixComponents upper
          .upper).layout
      else
        .included (IndexKey.rangeBoundSegments indexId keyKind indexLen prefixComponents upper
          .upper).layout).admitsBelowBy compareRawIndexStoreKeyBytes k.segments.layout =
      upper.admitsBelowBy compare c := by
  have hcmp := compareRaw_key_rangeBound hk hkey hslot hlen hshape hprefixValid hupper .upper
  have hvalid := rest_valid hk hslot
  have hlow := compare_lowTail_ne_gt (fun c' hc' => (hvalid c' hc').1) hk.2.2.1
  have hhigh := compare_highTail_ne_gt (fun c' hc' => (hvalid c' hc').2) hk.2.2.2
  cases upper with
  | unbounded =>
    -- the high sentinel is above every component `to_raw` admits
    have hc : c.length ≤ IndexKey.maxComponentSize :=
      (hk.2.1 c (List.mem_of_mem_drop (hslot ▸ List.mem_cons_self ..))).2
    simp only [Bound.isExcluded, Bool.false_eq_true, ↓reduceIte, Bound.admitsBelowBy, hcmp,
      boundComponent, RangeBoundSide.unboundedSentinel, RangeBoundSide.suffixSentinel,
      RangeBoundSide.primaryKeySentinel, decide_eq_true_eq]
    exact then_ne_gt (compare_replicate_ff_ne_gt hc) hhigh
  | included b =>
    simp only [Bound.isExcluded, Bool.false_eq_true, ↓reduceIte, Bound.admitsBelowBy, hcmp,
      boundComponent, RangeBoundSide.suffixSentinel, RangeBoundSide.primaryKeySentinel]
    exact decide_eq_decide.mpr (then_ne_gt_iff hhigh)
  | excluded b =>
    simp only [Bound.isExcluded, ↓reduceIte, Bound.admitsBelowBy, hcmp, boundComponent,
      RangeBoundSide.suffixSentinel, RangeBoundSide.primaryKeySentinel]
    exact decide_eq_decide.mpr (then_eq_lt_iff (compare_ne_lt_of_ne_gt hlow))

end Slot

theorem exists_slot_of_getElem? {components : List (List UInt8)} {i : Nat} {c : List UInt8}
    (h : components[i]? = some c) : ∃ rest, components.drop i = c :: rest := by
  obtain ⟨hi, hget⟩ := List.getElem?_eq_some_iff.mp h
  exact ⟨components.drop (i + 1), by rw [List.drop_eq_getElem_cons hi, hget]⟩

/-- A raw key between the range bounds has the prefix and a component within
the component bounds at the range slot, and every such key is between them. -/
theorem rangeBounds_enclose_iff (hlen : indexLen ≤ maxIndexFields)
    (hshape : prefixComponents.length < indexLen)
    (hprefixValid : ∀ c ∈ prefixComponents, c ≠ [] ∧ c.length ≤ IndexKey.maxComponentSize)
    {lower upper : Bound (List UInt8)} (hlower : validateComponentBound lower = .ok ())
    (hupper : validateComponentBound upper = .ok ()) {k : IndexKey} (hk : k.Writable) :
    rangeContainsBy compareRawIndexStoreKeyBytes
        (if lower.isExcluded then
          .excluded (IndexKey.rangeBoundSegments indexId keyKind indexLen prefixComponents lower
            .lower).layout
        else
          .included (IndexKey.rangeBoundSegments indexId keyKind indexLen prefixComponents lower
            .lower).layout,
        if upper.isExcluded then
          .excluded (IndexKey.rangeBoundSegments indexId keyKind indexLen prefixComponents upper
            .upper).layout
        else
          .included (IndexKey.rangeBoundSegments indexId keyKind indexLen prefixComponents upper
            .upper).layout) k.segments.layout = true ↔
      k.MatchesPrefix keyKind indexId indexLen prefixComponents ∧
        ∃ c, k.components[prefixComponents.length]? = some c ∧
          lower.admitsAboveBy compare c = true ∧ upper.admitsBelowBy compare c = true := by
  have hwrap : ∀ (exclusive : Bool) (x : List UInt8),
      (if exclusive then Bound.excluded x else .included x) = .included x ∨
        (if exclusive then Bound.excluded x else .included x) = .excluded x := by
    intro exclusive x
    cases exclusive <;> simp
  rw [rangeContainsBy, Bool.and_eq_true]
  dsimp only
  constructor
  · rintro ⟨habove, hbelow⟩
    -- the key lies between the two bound keys, which share the header and prefix
    have hlo := Bound.admitsAboveBy_ne_gt _ (hwrap _ _) habove
    have hhi := Bound.admitsBelowBy_ne_gt _ (hwrap _ _) hbelow
    rw [compareRawIndexStoreKeyBytes_layout
      (rangeBoundSegments_valid hlen hshape hprefixValid hlower _)
      (IndexKey.segments_valid hk), orderKey_rangeBoundSegments hshape] at hlo
    rw [compareRawIndexStoreKeyBytes_layout (IndexKey.segments_valid hk)
      (rangeBoundSegments_valid hlen hshape hprefixValid hupper _),
      orderKey_rangeBoundSegments hshape] at hhi
    obtain ⟨r, hr⟩ := eq_append_of_between hlo hhi
    have hkey := IndexKey.matchesPrefix_of_orderKey_eq hk hlen hshape.le hr
    -- the range slot exists, since the prefix is shorter than the key
    obtain ⟨c, rest, hslot⟩ : ∃ c rest, k.components.drop prefixComponents.length = c :: rest := by
      cases hdrop : k.components.drop prefixComponents.length with
      | nil =>
        have := congrArg List.length hdrop
        rw [List.length_drop, hkey.2.2.1, List.length_nil] at this
        omega
      | cons c rest => exact ⟨c, rest, rfl⟩
    have hget : k.components[prefixComponents.length]? = some c := by
      rw [← List.head?_drop, hslot, List.head?_cons]
    refine ⟨hkey, c, hget, ?_, ?_⟩
    · rwa [← admitsAboveBy_lowerRangeBound hk hkey hslot hlen hshape hprefixValid hlower]
    · rwa [← admitsBelowBy_upperRangeBound hk hkey hslot hlen hshape hprefixValid hupper]
  · rintro ⟨hkey, c, hget, habove, hbelow⟩
    obtain ⟨rest, hslot⟩ := exists_slot_of_getElem? hget
    exact ⟨(admitsAboveBy_lowerRangeBound hk hkey hslot hlen hshape hprefixValid hlower).trans
        habove,
      (admitsBelowBy_upperRangeBound hk hkey hslot hlen hshape hprefixValid hupper).trans hbelow⟩

/-! ### The bounds the builders return -/

/-- The raw keys between the bounds `raw_bounds_for_prefix_with_kind`
returns are exactly the keys with the prefix. -/
theorem rawBoundsForPrefixWithKind_select (hlen : indexLen ≤ maxIndexFields)
    (hshape : prefixComponents.length ≤ indexLen) {bounds : List UInt8 × List UInt8}
    (hbounds : IndexKey.rawBoundsForPrefixWithKind indexId keyKind indexLen prefixComponents =
      .ok bounds)
    {k : IndexKey} {raw : List UInt8} (hraw : k.toRaw = .ok raw) :
    rangeContainsBy compareRawIndexStoreKeyBytes (.included bounds.1, .included bounds.2) raw =
        true ↔
      k.MatchesPrefix keyKind indexId indexLen prefixComponents := by
  obtain ⟨hprefixValid, rfl⟩ := (rawBoundsForPrefixWithKind_eq_ok_iff hlen hshape).mp hbounds
  obtain ⟨hk, rfl⟩ := IndexKey.toRaw_eq_ok_iff.mp hraw
  rw [← prefixBounds_enclose_iff hlen hshape hk, rangeContainsBy, Bool.and_eq_true]
  simp only [Bound.admitsAboveBy, Bound.admitsBelowBy, decide_eq_true_eq,
    compareRawIndexStoreKeyBytes_layout (prefixBoundSegments_valid hlen hshape hprefixValid _)
      (IndexKey.segments_valid hk),
    compareRawIndexStoreKeyBytes_layout (IndexKey.segments_valid hk)
      (prefixBoundSegments_valid hlen hshape hprefixValid _)]

/-- The raw keys within the bounds
`raw_bounds_for_prefix_component_range_with_kind` returns are exactly the keys
with the prefix whose next component lies within the component bounds. -/
theorem rawBoundsForPrefixComponentRangeWithKind_select (hlen : indexLen ≤ maxIndexFields)
    (hshape : prefixComponents.length < indexLen) {lower upper : Bound (List UInt8)}
    {bounds : Bound (List UInt8) × Bound (List UInt8)}
    (hbounds : IndexKey.rawBoundsForPrefixComponentRangeWithKind indexId keyKind indexLen
      prefixComponents lower upper = .ok bounds)
    {k : IndexKey} {raw : List UInt8} (hraw : k.toRaw = .ok raw) :
    rangeContainsBy compareRawIndexStoreKeyBytes bounds raw = true ↔
      k.MatchesPrefix keyKind indexId indexLen prefixComponents ∧
        ∃ c, k.components[prefixComponents.length]? = some c ∧
          lower.admitsAboveBy compare c = true ∧ upper.admitsBelowBy compare c = true := by
  obtain ⟨hprefixValid, hlower, hupper, rfl⟩ :=
    (rawBoundsForPrefixComponentRangeWithKind_eq_ok_iff (by omega) hlen hshape).mp hbounds
  obtain ⟨hk, rfl⟩ := IndexKey.toRaw_eq_ok_iff.mp hraw
  exact rangeBounds_enclose_iff hlen hshape hprefixValid hlower hupper hk

end Bounds

/-- Prefix and component-range bounds select exactly the matching keys, for an
index of at most `MAX_INDEX_FIELDS` components and every key that
`IndexKey::to_raw` writes.  On a prefix no longer than the index,
`raw_bounds_for_prefix_with_kind` succeeds on valid components, and the raw
keys between the bounds it returns are exactly the keys of that index and
length with the prefix.  On a prefix shorter than the index,
`raw_bounds_for_prefix_component_range_with_kind` succeeds on valid components
and component bounds, and the raw keys within the bounds it returns are
exactly those keys whose component after the prefix lies within the component
bounds. -/
theorem rawIndexBounds_select_matching_keys (indexId : IndexId) (keyKind : IndexKeyKind)
    {indexLen : Nat} (prefixComponents : List (List UInt8)) (hlen : indexLen ≤ maxIndexFields) :
    (prefixComponents.length ≤ indexLen →
      ((∀ c ∈ prefixComponents, c ≠ [] ∧ c.length ≤ IndexKey.maxComponentSize) →
        ∃ bounds, IndexKey.rawBoundsForPrefixWithKind indexId keyKind indexLen prefixComponents =
          .ok bounds) ∧
      ∀ bounds, IndexKey.rawBoundsForPrefixWithKind indexId keyKind indexLen prefixComponents =
          .ok bounds →
        ∀ (k : IndexKey) (raw : List UInt8), k.toRaw = .ok raw →
          (rangeContainsBy compareRawIndexStoreKeyBytes (.included bounds.1, .included bounds.2)
              raw = true ↔
            k.MatchesPrefix keyKind indexId indexLen prefixComponents)) ∧
    (prefixComponents.length < indexLen → ∀ lower upper : Bound (List UInt8),
      ((∀ c ∈ prefixComponents, c ≠ [] ∧ c.length ≤ IndexKey.maxComponentSize) →
        validateComponentBound lower = .ok () → validateComponentBound upper = .ok () →
        ∃ bounds, IndexKey.rawBoundsForPrefixComponentRangeWithKind indexId keyKind indexLen
          prefixComponents lower upper = .ok bounds) ∧
      ∀ bounds, IndexKey.rawBoundsForPrefixComponentRangeWithKind indexId keyKind indexLen
          prefixComponents lower upper = .ok bounds →
        ∀ (k : IndexKey) (raw : List UInt8), k.toRaw = .ok raw →
          (rangeContainsBy compareRawIndexStoreKeyBytes bounds raw = true ↔
            k.MatchesPrefix keyKind indexId indexLen prefixComponents ∧
              ∃ c, k.components[prefixComponents.length]? = some c ∧
                lower.admitsAboveBy compare c = true ∧ upper.admitsBelowBy compare c = true)) := by
  constructor
  · intro hshape
    refine ⟨fun hprefixValid => ?_, fun bounds hbounds k raw hraw => ?_⟩
    · exact ⟨_, (rawBoundsForPrefixWithKind_eq_ok_iff hlen hshape).mpr ⟨hprefixValid, rfl⟩⟩
    · exact rawBoundsForPrefixWithKind_select hlen hshape hbounds hraw
  · intro hshape lower upper
    refine ⟨fun hprefixValid hlower hupper => ?_, fun bounds hbounds k raw hraw => ?_⟩
    · exact ⟨_, (rawBoundsForPrefixComponentRangeWithKind_eq_ok_iff (by omega) hlen hshape).mpr
        ⟨hprefixValid, hlower, hupper, rfl⟩⟩
    · exact rawBoundsForPrefixComponentRangeWithKind_select hlen hshape hbounds hraw

/-- The key `("a", "b")` of a two-field index, and the range of keys with first
field `"a"` and second field from `"b"` up to but excluding `"c"`. -/
theorem rangeBounds_contain_a_b :
    ∃ bounds, IndexKey.rawBoundsForPrefixComponentRangeWithKind ⟨⟨7⟩, 1, 0⟩ .user 2 [[0x61]]
        (.included [0x62]) (.excluded [0x63]) = .ok bounds ∧
      rangeContainsBy compareRawIndexStoreKeyBytes bounds
        (IndexKey.segments ⟨.user, ⟨⟨7⟩, 1, 0⟩, [[0x61], [0x62]],
          [0x01, 0, 0, 0, 0, 0, 0, 0, 1]⟩).layout = true := by
  obtain ⟨-, hrange⟩ := @rawIndexBounds_select_matching_keys ⟨⟨7⟩, 1, 0⟩ .user 2 [[0x61]]
    (by decide)
  obtain ⟨hexists, hselect⟩ := hrange (by decide) (.included [0x62]) (.excluded [0x63])
  obtain ⟨bounds, hbounds⟩ := hexists (by decide) rfl rfl
  refine ⟨bounds, hbounds, (hselect bounds hbounds _ _
    (IndexKey.toRaw_of_writable (by unfold IndexKey.Writable; decide))).mpr
      ⟨⟨rfl, rfl, rfl, rfl⟩, [0x62], rfl, by decide, by decide⟩⟩

end IcyDb
