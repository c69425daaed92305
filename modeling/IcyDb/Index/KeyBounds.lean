import IcyDb.Index.KeyOrder
import IcyDb.Order.Bound

/-!
# Raw bounds of index-key ranges

`raw_bounds_for_prefix_with_kind` and
`raw_bounds_for_prefix_component_range_with_kind` turn an equality prefix of
encoded components, and for a range the bounds on the next component, into
raw index-store keys.  The slots after the prefix or the range fill with
sentinel segments: the one-byte segment `0x00` below every component and a
maximal run of `0xFF` above every one, and likewise for the primary key.
Which sentinel a bound uses depends on its side and on whether it excludes
its value.

An input outside the expected shape trips a `debug_assert!`; the model is the
release build, which returns the bounds of the empty key.  The capacity sums
only size an allocation, and their `checked_add` cannot overflow on lengths
of in-memory slices, so they are not modelled.
-/

namespace IcyDb

open ByteOrder

/-- `PrefixBoundSentinel`. -/
inductive PrefixBoundSentinel
  | low
  | high
deriving DecidableEq, Repr

namespace PrefixBoundSentinel

/-- `PrefixBoundSentinel::component_len`. -/
def componentLen : PrefixBoundSentinel → Nat
  | low => 1
  | high => IndexKey.maxComponentSize

/-- `PrefixBoundSentinel::component_byte`. -/
def componentByte : PrefixBoundSentinel → UInt8
  | low => 0
  | high => 0xFF

/-- `PrefixBoundSentinel::primary_key_len`. -/
def primaryKeyLen : PrefixBoundSentinel → Nat
  | low => 1
  | high => IndexKey.maxPkSize

/-- `PrefixBoundSentinel::primary_key_byte`. -/
def primaryKeyByte : PrefixBoundSentinel → UInt8
  | low => 0
  | high => 0xFF

end PrefixBoundSentinel

/-- `RangeBoundSide`. -/
inductive RangeBoundSide
  | lower
  | upper
deriving DecidableEq, Repr

namespace RangeBoundSide

/-- `RangeBoundSide::unbounded_sentinel`. -/
def unboundedSentinel : RangeBoundSide → PrefixBoundSentinel
  | lower => .low
  | upper => .high

/-- `RangeBoundSide::suffix_sentinel`: an exclusive lower bound and an
inclusive upper bound close their value's slots from above. -/
def suffixSentinel : RangeBoundSide → Bool → PrefixBoundSentinel
  | lower, true | upper, false => .high
  | lower, false | upper, true => .low

/-- `RangeBoundSide::primary_key_sentinel`. -/
def primaryKeySentinel : RangeBoundSide → Bool → PrefixBoundSentinel
  | lower, true | upper, false => .high
  | lower, false | upper, true => .low

end RangeBoundSide

/-- `push_repeated_segment`: a segment of `len` copies of `byte`. -/
def pushRepeatedSegment (bytes : List UInt8) (len : Nat) (byte : UInt8) :
    Except IndexKeyEncodeError (List UInt8) :=
  if len = 0 then .error .emptySegment
  else if len ≥ 2 ^ 16 then .error .segmentTooLarge
  else .ok (bytes ++ beBytes segmentLenSize len ++ List.replicate len byte)

/-- `validate_component_bound`. -/
def validateComponentBound : Bound (List UInt8) → Except IndexKeyEncodeError Unit
  | .unbounded => .ok ()
  | .included component | .excluded component => validateComponentSegment component

/-- `push_component_bound_segment`: the bound's component, or the side's
sentinel when it is unbounded. -/
def pushComponentBoundSegment (bytes : List UInt8) (bound : Bound (List UInt8))
    (unboundedSentinel : PrefixBoundSentinel) : Except IndexKeyEncodeError (List UInt8) :=
  match bound with
  | .unbounded =>
    pushRepeatedSegment bytes unboundedSentinel.componentLen unboundedSentinel.componentByte
  | .included component | .excluded component => pushSegment bytes component

namespace IndexKey

/-- `IndexKey::empty_with_kind`. -/
def emptyWithKind (indexId : IndexId) (keyKind : IndexKeyKind) : IndexKey :=
  ⟨keyKind, indexId, [], wildcardLowPk⟩

/-- `IndexKey::raw_prefix_bound_with_kind`: the prefix, then one sentinel
segment for every remaining slot and the sentinel primary key. -/
def rawPrefixBoundWithKind (indexId : IndexId) (keyKind : IndexKeyKind) (indexLen : Nat)
    (prefixComponents : List (List UInt8)) (sentinel : PrefixBoundSentinel) :
    Except IndexKeyEncodeError (List UInt8) :=
  let suffixCount := indexLen - prefixComponents.length
  let bytes := keyKind.toStoreKeyKind.tag :: indexId.toBytes
  if indexLen ≥ 2 ^ 8 then .error .tooManyComponents
  else do
    let bytes ← prefixComponents.foldlM pushSegment (bytes ++ [UInt8.ofNat indexLen])
    let bytes ← (List.range suffixCount).foldlM
      (fun bytes _ => pushRepeatedSegment bytes sentinel.componentLen sentinel.componentByte) bytes
    pushRepeatedSegment bytes sentinel.primaryKeyLen sentinel.primaryKeyByte

/-- `IndexKey::raw_component_range_bound_with_kind`: the prefix, the bound's
component, then sentinels chosen by the side and by whether the bound is
exclusive. -/
def rawComponentRangeBoundWithKind (indexId : IndexId) (keyKind : IndexKeyKind) (indexLen : Nat)
    (prefixComponents : List (List UInt8)) (bound : Bound (List UInt8)) (side : RangeBoundSide) :
    Except IndexKeyEncodeError (List UInt8) :=
  let rangeSlot := prefixComponents.length
  let exclusive := bound.isExcluded
  let suffixCount := indexLen - rangeSlot - 1
  let bytes := keyKind.toStoreKeyKind.tag :: indexId.toBytes
  if indexLen ≥ 2 ^ 8 then .error .tooManyComponents
  else do
    let bytes ← prefixComponents.foldlM pushSegment (bytes ++ [UInt8.ofNat indexLen])
    let bytes ← pushComponentBoundSegment bytes bound side.unboundedSentinel
    let bytes ← (List.range suffixCount).foldlM (fun bytes _ =>
      let sentinel := side.suffixSentinel exclusive
      pushRepeatedSegment bytes sentinel.componentLen sentinel.componentByte) bytes
    let primaryKeySentinel := side.primaryKeySentinel exclusive
    pushRepeatedSegment bytes primaryKeySentinel.primaryKeyLen primaryKeySentinel.primaryKeyByte

/-- `IndexKey::raw_bounds_for_prefix_with_kind`: the least and the greatest
raw key with the given prefix. -/
def rawBoundsForPrefixWithKind (indexId : IndexId) (keyKind : IndexKeyKind) (indexLen : Nat)
    (prefixComponents : List (List UInt8)) :
    Except IndexKeyEncodeError (List UInt8 × List UInt8) :=
  if indexLen > maxIndexFields ∨ prefixComponents.length > indexLen then do
    let empty ← (emptyWithKind indexId keyKind).toRaw
    pure (empty, empty)
  else do
    prefixComponents.forM validateComponentSegment
    let lower ← rawPrefixBoundWithKind indexId keyKind indexLen prefixComponents .low
    let upper ← rawPrefixBoundWithKind indexId keyKind indexLen prefixComponents .high
    pure (lower, upper)

/-- `IndexKey::raw_bounds_for_prefix_component_range_with_kind`: an exclusive
component bound stays exclusive, an inclusive or absent one becomes an
inclusive raw bound. -/
def rawBoundsForPrefixComponentRangeWithKind (indexId : IndexId) (keyKind : IndexKeyKind)
    (indexLen : Nat) (prefixComponents : List (List UInt8)) (lower upper : Bound (List UInt8)) :
    Except IndexKeyEncodeError (Bound (List UInt8) × Bound (List UInt8)) :=
  if indexLen = 0 ∨ indexLen > maxIndexFields ∨ prefixComponents.length ≥ indexLen then do
    let empty ← (emptyWithKind indexId keyKind).toRaw
    pure (.included empty, .included empty)
  else do
    prefixComponents.forM validateComponentSegment
    validateComponentBound lower
    validateComponentBound upper
    let lowerRaw ←
      rawComponentRangeBoundWithKind indexId keyKind indexLen prefixComponents lower .lower
    let upperRaw ←
      rawComponentRangeBoundWithKind indexId keyKind indexLen prefixComponents upper .upper
    let lowerBound := match lower with
      | .excluded _ => Bound.excluded lowerRaw
      | .included _ | .unbounded => .included lowerRaw
    let upperBound := match upper with
      | .excluded _ => Bound.excluded upperRaw
      | .included _ | .unbounded => .included upperRaw
    pure (lowerBound, upperBound)

end IndexKey

/-! ### The segments the bounds frame -/

namespace PrefixBoundSentinel

/-- The component segment a sentinel writes. -/
def component (sentinel : PrefixBoundSentinel) : List UInt8 :=
  List.replicate sentinel.componentLen sentinel.componentByte

/-- The primary-key segment a sentinel writes. -/
def primaryKey (sentinel : PrefixBoundSentinel) : List UInt8 :=
  List.replicate sentinel.primaryKeyLen sentinel.primaryKeyByte

theorem componentLen_pos (sentinel : PrefixBoundSentinel) : 0 < sentinel.componentLen := by
  cases sentinel <;> decide

theorem componentLen_le (sentinel : PrefixBoundSentinel) :
    sentinel.componentLen ≤ IndexKey.maxComponentSize := by
  cases sentinel <;> decide

theorem primaryKeyLen_pos (sentinel : PrefixBoundSentinel) : 0 < sentinel.primaryKeyLen := by
  cases sentinel <;> decide

theorem primaryKeyLen_le (sentinel : PrefixBoundSentinel) :
    sentinel.primaryKeyLen ≤ IndexKey.maxPkSize := by
  cases sentinel <;> decide

end PrefixBoundSentinel

/-- The component segment `push_component_bound_segment` writes. -/
def boundComponent (bound : Bound (List UInt8)) (unboundedSentinel : PrefixBoundSentinel) :
    List UInt8 :=
  match bound with
  | .unbounded => unboundedSentinel.component
  | .included component | .excluded component => component

namespace IndexKey

/-- The segments `raw_prefix_bound_with_kind` frames. -/
def prefixBoundSegments (indexId : IndexId) (keyKind : IndexKeyKind) (indexLen : Nat)
    (prefixComponents : List (List UInt8)) (sentinel : PrefixBoundSentinel) :
    IndexStoreKeySegments :=
  (keyKind.toStoreKeyKind, indexId,
    prefixComponents ++ List.replicate (indexLen - prefixComponents.length) sentinel.component,
    sentinel.primaryKey)

/-- The segments `raw_component_range_bound_with_kind` frames. -/
def rangeBoundSegments (indexId : IndexId) (keyKind : IndexKeyKind) (indexLen : Nat)
    (prefixComponents : List (List UInt8)) (bound : Bound (List UInt8)) (side : RangeBoundSide) :
    IndexStoreKeySegments :=
  (keyKind.toStoreKeyKind, indexId,
    prefixComponents ++ boundComponent bound side.unboundedSentinel ::
      List.replicate (indexLen - prefixComponents.length - 1)
        (side.suffixSentinel bound.isExcluded).component,
    (side.primaryKeySentinel bound.isExcluded).primaryKey)

end IndexKey

/-! ### The builders write those segments -/

theorem pushRepeatedSegment_eq (bytes : List UInt8) {len : Nat} (hpos : 0 < len)
    (hlt : len < 2 ^ 16) (byte : UInt8) :
    pushRepeatedSegment bytes len byte = .ok (bytes ++ frameSegment (List.replicate len byte)) := by
  rw [pushRepeatedSegment, if_neg (by omega), if_neg (by omega)]
  simp [frameSegment, segmentLenSize, lengthPrefixSize]

/-- The suffix loop writes one framed copy of the segment per slot. -/
theorem foldlM_range_pushRepeatedSegment (count : Nat) {len : Nat} (hpos : 0 < len)
    (hlt : len < 2 ^ 16) (byte : UInt8) (bytes : List UInt8) :
    (List.range count).foldlM (fun bytes _ => pushRepeatedSegment bytes len byte) bytes =
      .ok (bytes ++
        ((List.replicate count (List.replicate len byte)).map frameSegment).flatten) := by
  induction count with
  | zero => simp
  | succ count ih =>
    rw [List.range_succ, List.foldlM_append, ih, Except.ok_bind, List.foldlM_cons,
      pushRepeatedSegment_eq _ hpos hlt, Except.ok_bind, List.foldlM_nil, List.replicate_succ',
      List.map_append, List.flatten_append, List.append_assoc]
    simp

theorem foldlM_range_pushSentinelSegment (count : Nat) (sentinel : PrefixBoundSentinel)
    (bytes : List UInt8) :
    (List.range count).foldlM
        (fun bytes _ => pushRepeatedSegment bytes sentinel.componentLen sentinel.componentByte)
        bytes =
      .ok (bytes ++ ((List.replicate count sentinel.component).map frameSegment).flatten) :=
  foldlM_range_pushRepeatedSegment count sentinel.componentLen_pos
    (by have := sentinel.componentLen_le; unfold IndexKey.maxComponentSize at this; omega) _ bytes

theorem pushSentinelPrimaryKey_eq (bytes : List UInt8) (sentinel : PrefixBoundSentinel) :
    pushRepeatedSegment bytes sentinel.primaryKeyLen sentinel.primaryKeyByte =
      .ok (bytes ++ frameSegment sentinel.primaryKey) :=
  pushRepeatedSegment_eq bytes sentinel.primaryKeyLen_pos
    (by
      have := sentinel.primaryKeyLen_le
      unfold IndexKey.maxPkSize accountStoredSize at this
      omega)
    _

theorem validateComponentBound_eq_ok_iff {bound : Bound (List UInt8)} :
    validateComponentBound bound = .ok () ↔
      ∀ component, (bound = .included component ∨ bound = .excluded component) →
        component ≠ [] ∧ component.length ≤ IndexKey.maxComponentSize := by
  cases bound with
  | unbounded => simp [validateComponentBound]
  | included component => simp [validateComponentBound, validateComponentSegment_eq_ok_iff]
  | excluded component => simp [validateComponentBound, validateComponentSegment_eq_ok_iff]

/-- The component a valid bound writes is a valid segment. -/
theorem boundComponent_valid {bound : Bound (List UInt8)}
    (hbound : validateComponentBound bound = .ok ()) (sentinel : PrefixBoundSentinel) :
    boundComponent bound sentinel ≠ [] ∧
      (boundComponent bound sentinel).length ≤ IndexKey.maxComponentSize := by
  rw [validateComponentBound_eq_ok_iff] at hbound
  cases bound with
  | unbounded =>
    have hpos := sentinel.componentLen_pos
    refine ⟨?_, ?_⟩
    · simp only [boundComponent, PrefixBoundSentinel.component, ne_eq, List.replicate_eq_nil_iff]
      omega
    · simpa [boundComponent, PrefixBoundSentinel.component] using sentinel.componentLen_le
  | included component => exact hbound component (.inl rfl)
  | excluded component => exact hbound component (.inr rfl)

theorem pushComponentBoundSegment_eq (bytes : List UInt8) {bound : Bound (List UInt8)}
    (hbound : validateComponentBound bound = .ok ()) (sentinel : PrefixBoundSentinel) :
    pushComponentBoundSegment bytes bound sentinel =
      .ok (bytes ++ frameSegment (boundComponent bound sentinel)) := by
  obtain ⟨hne, hle⟩ := boundComponent_valid hbound sentinel
  have hlt : (boundComponent bound sentinel).length < 2 ^ 16 := by
    unfold IndexKey.maxComponentSize at hle
    omega
  cases bound with
  | unbounded =>
    simp only [boundComponent, PrefixBoundSentinel.component, List.length_replicate] at hlt
    exact pushRepeatedSegment_eq bytes sentinel.componentLen_pos hlt _
  | included component | excluded component =>
    simp only [pushComponentBoundSegment, pushSegment, boundComponent] at hne hlt ⊢
    rw [if_neg hne, if_neg (Nat.not_le.mpr hlt)]
    simp [frameSegment, segmentLenSize, lengthPrefixSize]

section Builders

variable {indexId : IndexId} {keyKind : IndexKeyKind} {indexLen : Nat}
  {prefixComponents : List (List UInt8)}

/-- The header and the framed prefix both builders start with. -/
theorem foldlM_pushSegment_header
    (hprefixValid : ∀ c ∈ prefixComponents, c ≠ [] ∧ c.length ≤ IndexKey.maxComponentSize) :
    prefixComponents.foldlM pushSegment
        (keyKind.toStoreKeyKind.tag :: indexId.toBytes ++ [UInt8.ofNat indexLen]) =
      .ok (keyKind.toStoreKeyKind.tag :: indexId.toBytes ++ [UInt8.ofNat indexLen] ++
        (prefixComponents.map frameSegment).flatten) := by
  refine foldlM_pushSegment _ (fun c hc => ?_) _
  obtain ⟨hne, hle⟩ := hprefixValid c hc
  unfold IndexKey.maxComponentSize at hle
  exact ⟨hne, by omega⟩

theorem rawPrefixBoundWithKind_eq (hlen : indexLen ≤ maxIndexFields)
    (hshape : prefixComponents.length ≤ indexLen)
    (hprefixValid : ∀ c ∈ prefixComponents, c ≠ [] ∧ c.length ≤ IndexKey.maxComponentSize)
    (sentinel : PrefixBoundSentinel) :
    IndexKey.rawPrefixBoundWithKind indexId keyKind indexLen prefixComponents sentinel =
      .ok (IndexKey.prefixBoundSegments indexId keyKind indexLen prefixComponents
        sentinel).layout := by
  have hcount : ¬indexLen ≥ 2 ^ 8 := by unfold maxIndexFields at hlen; omega
  have hlength : (prefixComponents ++ List.replicate (indexLen - prefixComponents.length)
      sentinel.component).length = indexLen := by
    simp only [List.length_append, List.length_replicate]
    omega
  rw [IndexKey.rawPrefixBoundWithKind, if_neg hcount, foldlM_pushSegment_header hprefixValid,
    Except.ok_bind, foldlM_range_pushSentinelSegment, Except.ok_bind, pushSentinelPrimaryKey_eq]
  simp only [IndexKey.prefixBoundSegments, IndexStoreKeySegments.layout, hlength, List.map_append,
    List.flatten_append, List.cons_append, List.append_assoc]

theorem rawComponentRangeBoundWithKind_eq (hlen : indexLen ≤ maxIndexFields)
    (hshape : prefixComponents.length < indexLen)
    (hprefixValid : ∀ c ∈ prefixComponents, c ≠ [] ∧ c.length ≤ IndexKey.maxComponentSize)
    {bound : Bound (List UInt8)} (hbound : validateComponentBound bound = .ok ())
    (side : RangeBoundSide) :
    IndexKey.rawComponentRangeBoundWithKind indexId keyKind indexLen prefixComponents bound side =
      .ok (IndexKey.rangeBoundSegments indexId keyKind indexLen prefixComponents bound
        side).layout := by
  have hcount : ¬indexLen ≥ 2 ^ 8 := by unfold maxIndexFields at hlen; omega
  have hlength : (prefixComponents ++ boundComponent bound side.unboundedSentinel ::
      List.replicate (indexLen - prefixComponents.length - 1)
        (side.suffixSentinel bound.isExcluded).component).length = indexLen := by
    simp only [List.length_append, List.length_cons, List.length_replicate]
    omega
  rw [IndexKey.rawComponentRangeBoundWithKind, if_neg hcount,
    foldlM_pushSegment_header hprefixValid,
    Except.ok_bind, pushComponentBoundSegment_eq _ hbound, Except.ok_bind,
    foldlM_range_pushSentinelSegment, Except.ok_bind, pushSentinelPrimaryKey_eq]
  simp only [IndexKey.rangeBoundSegments, IndexStoreKeySegments.layout, hlength, List.map_append,
    List.map_cons, List.flatten_append, List.flatten_cons, List.cons_append, List.append_assoc]

/-- On inputs of the expected shape, the prefix bounds are the least and the
greatest sentinel keys, exactly when every prefix component is a valid
segment. -/
theorem rawBoundsForPrefixWithKind_eq_ok_iff (hlen : indexLen ≤ maxIndexFields)
    (hshape : prefixComponents.length ≤ indexLen) {bounds : List UInt8 × List UInt8} :
    IndexKey.rawBoundsForPrefixWithKind indexId keyKind indexLen prefixComponents = .ok bounds ↔
      (∀ c ∈ prefixComponents, c ≠ [] ∧ c.length ≤ IndexKey.maxComponentSize) ∧
        bounds = ((IndexKey.prefixBoundSegments indexId keyKind indexLen prefixComponents
          .low).layout, (IndexKey.prefixBoundSegments indexId keyKind indexLen prefixComponents
            .high).layout) := by
  rw [IndexKey.rawBoundsForPrefixWithKind, if_neg (by omega)]
  constructor
  · intro h
    obtain ⟨⟨⟩, hforM, h⟩ := Except.bind_eq_ok_iff.mp h
    have hprefixValid := (forM_validateComponentSegment_eq_ok_iff _).mp hforM
    rw [rawPrefixBoundWithKind_eq hlen hshape hprefixValid, Except.ok_bind,
      rawPrefixBoundWithKind_eq hlen hshape hprefixValid, Except.ok_bind] at h
    exact ⟨hprefixValid, (Except.ok.inj h).symm⟩
  · rintro ⟨hprefixValid, rfl⟩
    rw [(forM_validateComponentSegment_eq_ok_iff _).mpr hprefixValid, Except.ok_bind,
      rawPrefixBoundWithKind_eq hlen hshape hprefixValid, Except.ok_bind,
      rawPrefixBoundWithKind_eq hlen hshape hprefixValid, Except.ok_bind]
    rfl

/-- On inputs of the expected shape, the range bounds are the sentinel keys
around the bound components, exactly when the prefix and both component
bounds are valid. -/
theorem rawBoundsForPrefixComponentRangeWithKind_eq_ok_iff (hpos : 0 < indexLen)
    (hlen : indexLen ≤ maxIndexFields) (hshape : prefixComponents.length < indexLen)
    {lower upper : Bound (List UInt8)} {bounds : Bound (List UInt8) × Bound (List UInt8)} :
    IndexKey.rawBoundsForPrefixComponentRangeWithKind indexId keyKind indexLen prefixComponents
        lower upper = .ok bounds ↔
      (∀ c ∈ prefixComponents, c ≠ [] ∧ c.length ≤ IndexKey.maxComponentSize) ∧
        validateComponentBound lower = .ok () ∧ validateComponentBound upper = .ok () ∧
        bounds =
          (if lower.isExcluded then
            .excluded (IndexKey.rangeBoundSegments indexId keyKind indexLen prefixComponents lower
              .lower).layout
          else
            .included (IndexKey.rangeBoundSegments indexId keyKind indexLen prefixComponents lower
              .lower).layout,
          if upper.isExcluded then
            .excluded (IndexKey.rangeBoundSegments indexId keyKind indexLen prefixComponents upper
              .upper).layout
          else
            .included (IndexKey.rangeBoundSegments indexId keyKind indexLen prefixComponents upper
              .upper).layout) := by
  rw [IndexKey.rawBoundsForPrefixComponentRangeWithKind, if_neg (by omega)]
  constructor
  · intro h
    obtain ⟨⟨⟩, hforM, h⟩ := Except.bind_eq_ok_iff.mp h
    obtain ⟨⟨⟩, hlower, h⟩ := Except.bind_eq_ok_iff.mp h
    obtain ⟨⟨⟩, hupper, h⟩ := Except.bind_eq_ok_iff.mp h
    have hprefixValid := (forM_validateComponentSegment_eq_ok_iff _).mp hforM
    rw [rawComponentRangeBoundWithKind_eq hlen hshape hprefixValid hlower, Except.ok_bind,
      rawComponentRangeBoundWithKind_eq hlen hshape hprefixValid hupper, Except.ok_bind] at h
    refine ⟨hprefixValid, hlower, hupper, ?_⟩
    rw [← Except.ok.inj h]
    cases lower <;> cases upper <;> rfl
  · rintro ⟨hprefixValid, hlower, hupper, rfl⟩
    rw [(forM_validateComponentSegment_eq_ok_iff _).mpr hprefixValid, Except.ok_bind, hlower,
      Except.ok_bind, hupper, Except.ok_bind,
      rawComponentRangeBoundWithKind_eq hlen hshape hprefixValid hlower, Except.ok_bind,
      rawComponentRangeBoundWithKind_eq hlen hshape hprefixValid hupper, Except.ok_bind]
    cases lower <;> cases upper <;> rfl

end Builders

end IcyDb
