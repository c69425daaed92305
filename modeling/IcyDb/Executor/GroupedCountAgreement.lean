import IcyDb.Executor.GroupedCount

/-!
# The three grouped `COUNT(*)` paths build the same groups

On rows whose group slots hold values of their fields' accepted kinds, the
route's fold partitions the rows by owned key equality.  The owned path needs
nothing of the kinds: it ingests the key each row materializes
(`foldRowViewCountRows_owned_of_materialized`), and the route takes it
whenever a field lacks the borrowed probe (enums, collections, composites,
unit).  A row whose owned key does not materialize (a map holding one key
twice) ends that fold in an error.  Where every field supports the probe,
every key materializes and the three ingest paths are one algorithm.  A row's values `vs` have one canonical key, the list of their
canonical forms (each decimal in normal form) with its stable hash:

* the owned path materializes exactly that key
  (`materializeGroupKeyFromRowView_eq`);
* the borrowed hash of the row, streamed or through the direct digest, is the
  key's hash (`stableHashGroupValuesFromRowView_eq`): a decimal hashes as its
  normal form, and the direct digest feeds the bytes of the one-element list;
* the borrowed probe of a stored key against the row returns owned key
  equality (`canonicalGroupValueMatchesRowView_eq`): within one kind,
  `canonical_value_compare` says `Equal` exactly when the canonical forms are
  equal, provided the float conversions keep distinct floats apart.

So each path's step is the index step `Buckets.ingest` of the row's key, each
fold is the run `Buckets.ingestAll` of the rows' keys, and its groups are the
reference tally: the rows partitioned by key equality, each group counting its
rows up to `u32::MAX` (`groupedCount_ingest_paths_agree`).
-/

namespace IcyDb

open Grouping Value

section Agreement

variable (leb : Leb128) (digest : List UInt8 → BitVec 128)

/-! ### The values of probe-capable fields -/

/-- The values of probe-capable fields are scalars other than enums. -/
theorem GroupValuesFit.probe {fields : List FieldSlot} {vs : List Value}
    (hprobe : ∀ field ∈ fields, field.acceptedKind.any AcceptedFieldKind.supportsGroupProbe)
    (hfit : GroupValuesFit leb fields vs) : ∀ v ∈ vs, v.isScalar ∧ v.canonicalTag ≠ .enum := by
  induction hfit with
  | nil => simp
  | @cons field v fields vs hv _ ih =>
    obtain ⟨kind, hkind, hadm, -⟩ := hv
    have hk : kind.supportsGroupProbe := by
      simpa [hkind] using hprobe field List.mem_cons_self
    intro w hw
    rcases List.mem_cons.mp hw with rfl | hw
    · exact hadm.probe hk
    · exact ih (fun f hf => hprobe f (List.mem_cons_of_mem field hf)) w hw

/-- On canonical forms of such values, `==` of two lists is their equality. -/
theorem beqList_map_canonicalScalar_iff : ∀ {xs ys : List Value},
    (∀ x ∈ xs, x.isScalar ∧ x.canonicalTag ≠ .enum) →
      (beqList (xs.map canonicalScalar) (ys.map canonicalScalar) = true ↔
        xs.map canonicalScalar = ys.map canonicalScalar)
  | [], [], _ => by simp [beqList]
  | [], _ :: _, _ => by simp [beqList]
  | _ :: _, [], _ => by simp [beqList]
  | x :: xs, y :: ys, hxs => by
    obtain ⟨hx, hxe⟩ := hxs x List.mem_cons_self
    simp only [List.map_cons, beqList, Bool.and_eq_true, List.cons.injEq,
      beq_canonicalScalar_iff hx hxe,
      beqList_map_canonicalScalar_iff fun w hw => hxs w (List.mem_cons_of_mem x hw)]

/-! ### The owned key -/

/-- The canonical key of a row's values carries their canonical forms. -/
def CanonicalKeyOf (fields : List FieldSlot) (key : GroupKey) : Prop :=
  ∃ vs, GroupValuesFit leb fields vs ∧ key.raw = .list (vs.map canonicalScalar)

/-- The row holds values whose canonical key, with its stable hash, is
`key`. -/
def RowKey (fields : List FieldSlot) (row : RowView) (key : GroupKey) : Prop :=
  ∃ vs, row.Holds fields vs ∧ GroupValuesFit leb fields vs ∧
    key.raw = .list (vs.map canonicalScalar) ∧ stableHashValue leb digest key.raw = .ok key.hash

variable {leb digest}

theorem RowKey.canonicalKeyOf {fields : List FieldSlot} {row : RowView} {key : GroupKey}
    (h : RowKey leb digest fields row key) : CanonicalKeyOf leb fields key := by
  obtain ⟨vs, -, hfit, hraw, -⟩ := h
  exact ⟨vs, hfit, hraw⟩

variable (leb digest)

/-- A row whose slots hold fitting values has its canonical key. -/
theorem exists_rowKey {fields : List FieldSlot} {row : RowView}
    (hrow : ∃ vs, row.Holds fields vs ∧ GroupValuesFit leb fields vs) :
    ∃ key, RowKey leb digest fields row key := by
  obtain ⟨vs, hholds, hfit⟩ := hrow
  obtain ⟨hash, hh⟩ := stableHashValue_ok leb digest (.list (vs.map canonicalScalar))
  exact ⟨⟨_, hash⟩, vs, hholds, hfit, rfl, hh⟩

/-- The owned path materializes the canonical key, and the borrowed path the
same canonical value with the hash it brings. -/
theorem materializeGroupKeyFromRowView_eq {fields : List FieldSlot} {row : RowView}
    (hprobe : ∀ field ∈ fields, field.acceptedKind.any AcceptedFieldKind.supportsGroupProbe)
    {key : GroupKey} (hkey : RowKey leb digest fields row key) (precomputedHash : Option StableHash) :
    materializeGroupKeyFromRowView leb digest row fields precomputedHash =
      .ok ⟨key.raw, precomputedHash.getD key.hash⟩ := by
  obtain ⟨vs, hholds, hfit, hraw, hh⟩ := hkey
  have hscalar : ∀ v ∈ vs, v.isScalar := fun v hv => (hfit.probe leb hprobe v hv).1
  have hfromRaw : GroupKey.fromRaw leb digest key.raw = .ok ⟨key.raw, key.hash⟩ :=
    GroupKey.fromRaw_eq leb digest hh
  rw [hraw] at hfromRaw ⊢
  -- a single field is materialized by value, any other shape as a list
  cases hholds with
  | nil =>
    simp only [List.map_nil] at hfromRaw ⊢
    cases precomputedHash <;>
      simp [materializeGroupKeyFromRowView, RowView.groupValues, GroupKey.fromGroupValues,
        GroupKey.fromGroupValuesWithHash, canonicalizeValue, canonicalizeItems, hfromRaw,
        GroupKey.fromRawWithHash, Except.mapError]
  | @cons field v rest vs' hv hrest =>
    cases hrest with
    | nil =>
      obtain ⟨kind, hkind, hadm, -⟩ := List.forall₂_cons.mp hfit |>.1
      have hv' : v.isScalar := hscalar v List.mem_cons_self
      cases hid : kind.hasIdentityGroupCanonicalForm
      · -- canonicalized by value
        simp only [List.map_singleton] at hfromRaw ⊢
        cases precomputedHash <;>
          simp [materializeGroupKeyFromRowView, RowView.requireSlotValue_of_eq hv, hkind, hid,
            GroupKey.fromSingleGroupValue, GroupKey.fromSingleGroupValueWithHash,
            canonicalizeValue_of_isScalar hv', hfromRaw, GroupKey.fromRawWithHash,
            Except.mapError]
      · -- already canonical
        have hcanon : v.canonicalScalar = v := hadm.canonicalScalar_eq hid
        rw [List.map_singleton, hcanon] at hfromRaw ⊢
        cases precomputedHash <;>
          simp [materializeGroupKeyFromRowView, RowView.requireSlotValue_of_eq hv, hkind, hid,
            GroupKey.fromSingleCanonicalGroupValue, GroupKey.fromSingleCanonicalGroupValueWithHash,
            hfromRaw, GroupKey.fromRawWithHash, Except.mapError]
    | @cons field₂ v₂ rest₂ vs₂ hv₂ hrest₂ =>
      have hvalues := RowView.groupValues_of_holds (.cons hv (.cons hv₂ hrest₂))
      have hcanon : canonicalizeValue (.list (v :: v₂ :: vs₂)) =
          .ok (.list ((v :: v₂ :: vs₂).map canonicalScalar)) := by
        simp only [canonicalizeValue, canonicalizeItems_of_isScalar hscalar]
        rfl
      simp only [List.map_cons] at hfromRaw hcanon ⊢
      cases precomputedHash <;>
        simp [materializeGroupKeyFromRowView, hvalues, GroupKey.fromGroupValues,
          GroupKey.fromGroupValuesWithHash, hcanon, hfromRaw, GroupKey.fromRawWithHash,
          Except.mapError]

/-! ### The borrowed hash -/

theorem writeListValue_ok (w : ValueHashWriter) (v : Value) :
    ∃ w', w.writeListValue leb v = .ok w' := by
  obtain ⟨bytes, hb⟩ := writeToHasher_ok leb v
  exact ⟨⟨w.stream ++ 0xFF :: bytes⟩, by simp [ValueHashWriter.writeListValue, hb]⟩

/-- Streaming the slots of `fields` streams the row's values. -/
theorem foldlM_withRequiredSlot {fields : List FieldSlot} {row : RowView} {vs : List Value}
    (hholds : row.Holds fields vs) (w : ValueHashWriter) :
    fields.foldlM (fun (w : ValueHashWriter) field => row.withRequiredSlot field.index fun value =>
        (w.writeListValue leb value).mapError HashError.toInternalError) w =
      (vs.foldlM (fun (w : ValueHashWriter) v => w.writeListValue leb v) w).mapError
        HashError.toInternalError := by
  induction hholds generalizing w with
  | nil => rfl
  | @cons field v fields vs hv _ ih =>
    obtain ⟨w', hw'⟩ := writeListValue_ok leb w v
    rw [List.foldlM_cons, List.foldlM_cons, RowView.withRequiredSlot_of_eq hv, hw']
    exact ih w'

/-- A stream whose digest is a value's hash finishes with its stable hash. -/
theorem stableHashFromDigest_finish {v : Value} {w : ValueHashWriter} {hash : StableHash}
    (hw : hashValue leb digest v = .ok (w.finish digest))
    (hh : stableHashValue leb digest v = .ok hash) :
    stableHashFromDigest (w.finish digest) = hash := by
  simpa [stableHashValue, hw, pure, Except.pure] using hh

/-- The single-value hash of a value whose length frames fit is the stable
hash of the one-element list, through the direct digest or the stream. -/
theorem stableHashSingleGroupValue_eq {v : Value} (hfit : FitsLengthFrames leb v)
    {hash : StableHash} (hh : stableHashValue leb digest (.list [v]) = .ok hash) :
    stableHashSingleGroupValue leb digest v = .ok hash := by
  obtain ⟨w, hw⟩ := writeListValue_ok leb (ValueHashWriter.new.writeListPrefix 1) v
  have hlist : hashValue leb digest (.list [v]) = .ok (w.finish digest) := by
    rw [← writeListPrefix_foldlM_finish leb digest [v], List.length_singleton, List.foldlM_cons,
      hw]
    rfl
  have hhash := stableHashFromDigest_finish leb digest hlist hh
  -- the direct digest declines, or it is the digest of the same list
  rcases hashSingleListIdentityCanonicalValue_eq leb digest v hfit with hnone | hsome
  · simp [stableHashSingleGroupValue, hnone, hw, Except.mapError, hhash]
  · simp [stableHashSingleGroupValue, hsome, hlist, Except.map, hhash]

/-- The borrowed hash of a row is its canonical key's hash. -/
theorem stableHashGroupValuesFromRowView_eq {fields : List FieldSlot} {row : RowView}
    {key : GroupKey} (hkey : RowKey leb digest fields row key) :
    stableHashGroupValuesFromRowView leb digest row fields = .ok key.hash := by
  obtain ⟨vs, hholds, hfit, hraw, hh⟩ := hkey
  rw [hraw] at hh
  unfold stableHashGroupValuesFromRowView
  cases hsingle : identitySingleField fields with
  | some field =>
    -- one identity field: the single-value hash of its value
    have hshape : fields = [field] ∧
        field.acceptedKind.any AcceptedFieldKind.hasIdentityGroupCanonicalForm := by
      unfold identitySingleField at hsingle
      split at hsingle
      · split at hsingle
        · cases hsingle
          exact ⟨rfl, by assumption⟩
        · cases hsingle
      · cases hsingle
    obtain ⟨rfl, hid⟩ := hshape
    obtain ⟨v, rfl, hv⟩ : ∃ v, vs = [v] ∧ row.slotValue field.index = some v := by
      cases hholds with
      | cons hv hrest =>
        cases hrest
        exact ⟨_, rfl, hv⟩
    obtain ⟨kind, hkind, hadm, hfits⟩ := (List.forall₂_cons.mp hfit).1
    have hcanon : v.canonicalScalar = v := hadm.canonicalScalar_eq (by simpa [hkind] using hid)
    rw [List.map_singleton, hcanon] at hh
    dsimp only
    rw [RowView.withRequiredSlot_of_eq hv]
    exact stableHashSingleGroupValue_eq leb digest hfits hh
  | none =>
    -- otherwise the stream of the slots, which hashes as the canonical list
    obtain ⟨items, hitems⟩ := writeListItemsToHasher_ok leb vs
    have hlist : hashValue leb digest (.list vs) =
        .ok (ValueHashWriter.finish digest
          ⟨(ValueHashWriter.new.writeListPrefix fields.length).stream ++ items⟩) := by
      rw [← writeListPrefix_foldlM_finish leb digest vs, hholds.length_eq.symm,
        foldlM_writeListValue leb hitems]
      rfl
    rw [← hashValue_list_map_canonicalScalar] at hlist
    have hhash := stableHashFromDigest_finish leb digest hlist hh
    dsimp only
    rw [foldlM_withRequiredSlot leb hholds, foldlM_writeListValue leb hitems]
    simp [Except.mapError, hhash]

/-! ### The borrowed probe -/

variable (fd : FloatDecimal)

/-- One slot of the probe is `==` of the two canonical forms. -/
theorem slotProbe_eq (hfd : fd.Injective) {kind : AcceptedFieldKind}
    (hk : kind.supportsGroupProbe) {v v' : Value} (hv : kind.Admits v) (hv' : kind.Admits v') :
    (canonicalValueCompare fd v v'.canonicalScalar == .eq) =
      beq v'.canonicalScalar v.canonicalScalar := by
  obtain ⟨hs, he⟩ := hv'.probe hk
  rw [Bool.eq_iff_iff, beq_iff_eq, canonicalValueCompare_canonicalScalar_eq_iff hfd hk hv hv',
    beq_canonicalScalar_iff hs he]

/-- The probe's loop over the slots is `==` of the two lists of canonical
forms, stopping where it stops. -/
theorem slotsMatchRowView_eq (hfd : fd.Injective) {row : RowView} :
    ∀ {fields : List FieldSlot} {vs vs' : List Value}, row.Holds fields vs →
      GroupValuesFit leb fields vs → GroupValuesFit leb fields vs' →
      (∀ field ∈ fields, field.acceptedKind.any AcceptedFieldKind.supportsGroupProbe) →
        slotsMatchRowView fd row (fields.zip (vs'.map canonicalScalar)) =
          .ok (beqList (vs'.map canonicalScalar) (vs.map canonicalScalar))
  | [], [], [], .nil, .nil, .nil, _ => rfl
  | field :: _, v :: _, v' :: _, .cons hv hholds, .cons ⟨kind, hkind, hadm, _⟩ hfit,
      .cons ⟨kind', hkind', hadm', _⟩ hfit', hprobe => by
    -- both values sit in one field, of one kind
    obtain rfl : kind' = kind := Option.some.inj (hkind'.symm.trans hkind)
    have hk : kind'.supportsGroupProbe := by simpa [hkind] using hprobe field List.mem_cons_self
    have ih := slotsMatchRowView_eq hfd hholds hfit hfit' fun f hf =>
      hprobe f (List.mem_cons_of_mem field hf)
    simp only [List.map_cons, List.zip_cons_cons, slotsMatchRowView,
      RowView.withRequiredSlot_of_eq hv, slotProbe_eq fd hfd hk hadm hadm', beqList]
    cases beq v'.canonicalScalar v.canonicalScalar
    · rfl
    · exact ih

/-- The borrowed probe of a stored key against a row is `==` of the stored
canonical value and the row's. -/
theorem canonicalGroupValueMatchesRowView_eq (hfd : fd.Injective) {fields : List FieldSlot}
    (hprobe : ∀ field ∈ fields, field.acceptedKind.any AcceptedFieldKind.supportsGroupProbe)
    {row : RowView} {g key : GroupKey} (hg : CanonicalKeyOf leb fields g)
    (hkey : RowKey leb digest fields row key) :
    canonicalGroupValueMatchesRowView fd g.raw row fields = .ok (beq g.raw key.raw) := by
  obtain ⟨vs', hfit', hraw'⟩ := hg
  obtain ⟨vs, hholds, hfit, hraw, -⟩ := hkey
  have hlen : (vs'.map canonicalScalar).length = fields.length := by
    simpa using hfit'.length_eq.symm
  rw [hraw', canonicalGroupValueMatchesRowView, if_neg (not_not.mpr hlen),
    slotsMatchRowView_eq leb fd hfd hholds hfit hfit' hprobe, hraw]
  rfl

/-- Within one bucket, key equality is equality of the canonical values. -/
theorem GroupKey.beq_of_hash_eq {a b : GroupKey} (hh : a.hash = b.hash) :
    a.beq b = Value.beq a.raw b.raw := by
  simp [GroupKey.beq, hh]

/-- Two rows' keys are equal exactly when their canonical values are: the
hash is a function of the canonical value. -/
theorem RowKey.beq_eq {fields : List FieldSlot}
    (hprobe : ∀ field ∈ fields, field.acceptedKind.any AcceptedFieldKind.supportsGroupProbe)
    {row row' : RowView} {key key' : GroupKey} (hkey : RowKey leb digest fields row key)
    (hkey' : RowKey leb digest fields row' key') : key'.beq key = Value.beq key'.raw key.raw := by
  cases hb : beq key'.raw key.raw with
  | false => simp [GroupKey.beq, hb]
  | true =>
    obtain ⟨vs, -, -, hraw, hh⟩ := hkey
    obtain ⟨vs', -, hfit', hraw', hh'⟩ := hkey'
    have heq : key'.raw = key.raw := by
      rw [hraw', hraw] at hb ⊢
      exact congrArg list ((beqList_map_canonicalScalar_iff (hfit'.probe leb hprobe)).mp hb)
    rw [heq, hh] at hh'
    rw [GroupKey.beq_of_hash_eq (Except.ok.inj hh').symm, hb]

/-- The direct path's probe of a stored key against a value is owned key
equality with the value's key. -/
theorem singleGroupKeyMatchesValue_eq (hfd : fd.Injective) {field : FieldSlot}
    (hid : field.acceptedKind.any AcceptedFieldKind.hasIdentityGroupCanonicalForm)
    {row : RowView} {v : Value} (hv : row.slotValue field.index = some v) {g key : GroupKey}
    (hg : CanonicalKeyOf leb [field] g) (hkey : RowKey leb digest [field] row key)
    (hh : g.hash = key.hash) : singleGroupKeyMatchesValue fd g v = .ok (g.beq key) := by
  obtain ⟨vs', hfit', hraw'⟩ := hg
  obtain ⟨vs, hholds, hfit, hraw, -⟩ := hkey
  obtain ⟨v', rfl⟩ : ∃ v', vs' = [v'] := by
    cases hfit' with
    | cons _ hrest =>
      cases hrest
      exact ⟨_, rfl⟩
  obtain rfl : vs = [v] := by
    cases hholds with
    | cons hv₀ hrest =>
      cases hrest
      rw [hv] at hv₀
      cases hv₀
      rfl
  obtain ⟨kind, hkind, hadm, -⟩ := (List.forall₂_cons.mp hfit).1
  obtain ⟨kind', hkind', hadm', -⟩ := (List.forall₂_cons.mp hfit').1
  obtain rfl : kind' = kind := Option.some.inj (hkind'.symm.trans hkind)
  have hk : kind'.supportsGroupProbe :=
    AcceptedFieldKind.supportsGroupProbe_of_hasIdentity (by simpa [hkind] using hid)
  rw [singleGroupKeyMatchesValue, hraw', List.map_singleton]
  simp only [GroupKey.beq, hraw', hraw, hh, beq_self_eq_true, Bool.and_true, List.map_singleton]
  rw [slotProbe_eq fd hfd hk hadm hadm']
  simp [beq, beqList]

/-! ### Each path's step is an ingest step -/

/-- What every path keeps of its state: the index files every group, and every
group's key is the canonical key of fitting values. -/
def CountInvariant (fields : List FieldSlot) (s : GroupedCountState) : Prop :=
  s.Filed GroupKey.hash ∧ ∀ g ∈ s.groups, CanonicalKeyOf leb fields g.1

theorem countInvariant_empty (fields : List FieldSlot) :
    CountInvariant leb fields Buckets.empty :=
  ⟨Buckets.filed_empty, fun _ hg => by cases hg⟩

variable {leb digest} in
theorem CountInvariant.ingest {fields : List FieldSlot} {s : GroupedCountState}
    (hs : CountInvariant leb fields s) {row : RowView} {key : GroupKey}
    (hkey : RowKey leb digest fields row key) :
    CountInvariant leb fields
      (s.ingest key.hash (fun g => g.beq key) key 1 saturatingSucc) :=
  ⟨hs.1.ingest _ key 1 saturatingSucc,
    Buckets.forall_key_ingest hs.2 _ _ hkey.canonicalKeyOf 1 saturatingSucc⟩

section Steps

variable {fields : List FieldSlot}
  (hprobe : ∀ field ∈ fields, field.acceptedKind.any AcceptedFieldKind.supportsGroupProbe)
include hprobe

/-- The borrowed step ingests the row's key, from every state of the
invariant. -/
theorem incrementRowBorrowedGroupProbe_eq (hfd : fd.Injective) {s : GroupedCountState}
    (hs : CountInvariant leb fields s) {row : RowView} {key : GroupKey}
    (hkey : RowKey leb digest fields row key) :
    s.incrementRowBorrowedGroupProbe leb digest fd row fields =
      .ok (s.ingest key.hash (fun g => g.beq key) key 1 saturatingSucc) := by
  have hfind : findMatchingGroupIndex fd s.groups (s.index key.hash) row fields =
      .ok (s.lookup key.hash fun g => g.beq key) :=
    findMatchingGroupInBucket_eq_lookup hs.1 fun g hg hh => by
      rw [GroupKey.beq_of_hash_eq hh]
      exact canonicalGroupValueMatchesRowView_eq leb digest fd hfd hprobe (hs.2 g hg) hkey
  have hmat := materializeGroupKeyFromRowView_eq leb digest hprobe hkey (some key.hash)
  simp only [GroupedCountState.incrementRowBorrowedGroupProbe,
    GroupedCountState.incrementBorrowedGroupProbe, stableHashGroupValuesFromRowView_eq leb digest hkey,
    hfind, Except.ok_bind, pure, Except.pure]
  exact s.completeGroupLookup_lookup hmat

end Steps

/-- The direct step ingests the value's key, from every state of the
invariant. -/
theorem incrementSingleGroupValue_eq (hfd : fd.Injective) {field : FieldSlot}
    (hid : field.acceptedKind.any AcceptedFieldKind.hasIdentityGroupCanonicalForm)
    {s : GroupedCountState} (hs : CountInvariant leb [field] s) {row : RowView} {key : GroupKey}
    (hkey : RowKey leb digest [field] row key) :
    (do
      let groupValue ← row.requireSlotValue field.index
      s.incrementSingleGroupValue leb digest fd groupValue) =
      Except.ok (s.ingest key.hash (fun g => g.beq key) key 1 saturatingSucc) := by
  obtain ⟨vs, hholds, hfit, hraw, hh⟩ := id hkey
  obtain ⟨v, rfl, hv⟩ : ∃ v, vs = [v] ∧ row.slotValue field.index = some v := by
    cases hholds with
    | cons hv hrest =>
      cases hrest
      exact ⟨_, rfl, hv⟩
  obtain ⟨kind, hkind, hadm, hfits⟩ := (List.forall₂_cons.mp hfit).1
  have hcanon : v.canonicalScalar = v := hadm.canonicalScalar_eq (by simpa [hkind] using hid)
  rw [List.map_singleton, hcanon] at hraw
  have hhash : stableHashSingleGroupValue leb digest v = .ok key.hash :=
    stableHashSingleGroupValue_eq leb digest hfits (hraw ▸ hh)
  have hfind : findMatchingSingleGroupValueIndex fd s.groups (s.index key.hash) v =
      .ok (s.lookup key.hash fun g => g.beq key) :=
    findMatchingGroupInBucket_eq_lookup hs.1 fun g hg hgh =>
      singleGroupKeyMatchesValue_eq leb digest fd hfd hid hv (hs.2 g hg) hkey hgh
  have hmat : (Except.ok (GroupKey.fromSingleCanonicalGroupValueWithHash v key.hash) :
      Except InternalError GroupKey) = .ok key := by
    rw [GroupKey.fromSingleCanonicalGroupValueWithHash, GroupKey.fromRawWithHash, ← hraw]
  simp only [RowView.requireSlotValue_of_eq hv, GroupedCountState.incrementSingleGroupValue,
    hhash, hfind, Except.ok_bind]
  exact s.completeGroupLookup_lookup hmat

/-! ### Whole runs -/

/-- The run of the rows' keys from the empty state. -/
abbrev keyRun (keys : List GroupKey) : GroupedCountState :=
  Buckets.empty.ingestAll GroupKey.hash GroupKey.beq 1 saturatingSucc keys

/-- The run's groups partition the keys by key equality, each counting its
keys up to `u32::MAX`. -/
theorem keyRun_tallies (keys : List GroupKey) :
    Tallies GroupKey.beq 1 saturatingSucc keys (keyRun keys).groups ∧
      ∀ g ∈ (keyRun keys).groups, g.2 = min (keys.countP (GroupKey.beq g.1)) (2 ^ 32 - 1) := by
  have hrefl := GroupKey.beq_refl
  have hsymm : ∀ a b : GroupKey, a.beq b = true → b.beq a = true := fun _ _ => GroupKey.beq_symm
  have htrans : ∀ a b c : GroupKey, a.beq b = true → b.beq c = true → a.beq c = true :=
    fun _ _ _ => GroupKey.beq_trans
  have ht : Tallies GroupKey.beq 1 saturatingSucc keys (keyRun keys).groups := by
    rw [keyRun, ingestAll_empty_groups hrefl hsymm htrans fun _ _ => GroupKey.hash_eq_of_beq]
    exact tallies_tallyAll hrefl hsymm htrans keys
  refine ⟨ht, fun g hg => ?_⟩
  -- a group's key is one of the keys, so its class is not empty
  have hpos : 0 < keys.countP (GroupKey.beq g.1) :=
    List.countP_pos_iff.mpr ⟨g.1, ht.keys g hg, hrefl g.1⟩
  rw [ht.counts g hg, iterate_saturatingSucc, Nat.sub_add_cancel hpos]

/-- The owned route needs no probe: whatever the kinds of the fields, the owned
fold ingests the key each row materializes. -/
theorem foldRowViewCountRows_owned_of_materialized {fields : List FieldSlot}
    {rows : List RowView} {keys : List GroupKey}
    (hkeys : List.Forall₂
      (fun row key => materializeGroupKeyFromRowView leb digest row fields none = .ok key)
      rows keys) :
    foldRowViewCountRows (GroupedCountState.incrementRowOwnedGroupKey leb digest) fields rows
      Buckets.empty = .ok (keyRun keys) :=
  foldlM_eq_ingestAll (I := fun s : GroupedCountState => s.Filed GroupKey.hash)
    (fun s _ key _ hkey => by
      rw [GroupedCountState.incrementRowOwnedGroupKey, hkey, Except.ok_bind]
      exact GroupedCountState.incrementOwnedGroupKey_eq s key)
    (fun _ _ key hs _ => hs.ingest _ key 1 saturatingSucc) hkeys Buckets.filed_empty

/-- Where every field supports the probe, the key a row materializes is its
canonical key. -/
theorem rowKey_of_materialized {fields : List FieldSlot}
    (hprobe : ∀ field ∈ fields, field.acceptedKind.any AcceptedFieldKind.supportsGroupProbe)
    {row : RowView} (hrow : ∃ vs, row.Holds fields vs ∧ GroupValuesFit leb fields vs)
    {key : GroupKey} (hmat : materializeGroupKeyFromRowView leb digest row fields none = .ok key) :
    RowKey leb digest fields row key := by
  obtain ⟨key₀, hkey₀⟩ := exists_rowKey leb digest hrow
  rw [materializeGroupKeyFromRowView_eq leb digest hprobe hkey₀ none] at hmat
  cases hmat
  exact hkey₀

theorem forall₂_rowKey_of_materialized {fields : List FieldSlot}
    (hprobe : ∀ field ∈ fields, field.acceptedKind.any AcceptedFieldKind.supportsGroupProbe) :
    ∀ {rows : List RowView} {keys : List GroupKey},
      (∀ row ∈ rows, ∃ vs, row.Holds fields vs ∧ GroupValuesFit leb fields vs) →
      List.Forall₂
        (fun row key => materializeGroupKeyFromRowView leb digest row fields none = .ok key)
        rows keys →
      List.Forall₂ (RowKey leb digest fields) rows keys
  | [], [], _, .nil => .nil
  | row :: _, _ :: _, hrows, .cons hmat hrest =>
    .cons (rowKey_of_materialized leb digest hprobe (hrows row List.mem_cons_self) hmat)
      (forall₂_rowKey_of_materialized hprobe (fun r hr => hrows r (List.mem_cons_of_mem row hr))
        hrest)

/-! ### The route -/

/-- A direct route has one field, of an identity kind, so every field of it
supports the probe. -/
theorem identitySingleField_eq_some {fields : List FieldSlot} {field : FieldSlot}
    (h : identitySingleField fields = some field) :
    fields = [field] ∧ field.acceptedKind.any AcceptedFieldKind.hasIdentityGroupCanonicalForm := by
  unfold identitySingleField at h
  split at h
  · split at h
    · cases h
      exact ⟨rfl, by assumption⟩
    · cases h
  · cases h

theorem groupFieldsSupportBorrowedGroupProbe_of_identity {fields : List FieldSlot}
    {field : FieldSlot} (h : identitySingleField fields = some field) :
    groupFieldsSupportBorrowedGroupProbe fields = true := by
  obtain ⟨rfl, hid⟩ := identitySingleField_eq_some h
  cases hkind : field.acceptedKind with
  | none => simp [hkind] at hid
  | some kind =>
    simp only [hkind, Option.any_some] at hid
    simp [groupFieldsSupportBorrowedGroupProbe, hkind,
      AcceptedFieldKind.supportsGroupProbe_of_hasIdentity hid]

/-- The route takes the borrowed probe only where every field supports it. -/
theorem groupFieldsSupportBorrowedGroupProbe_of_forRoute {fields : List FieldSlot}
    {hasFilter : Bool} (h : GroupedCountKeyPath.forRoute fields hasFilter = .rowView .borrowed) :
    groupFieldsSupportBorrowedGroupProbe fields = true := by
  unfold GroupedCountKeyPath.forRoute GroupedCountProbeKind.forGroupFields at h
  split at h
  · cases h
  · split_ifs at h with hsupport
    · exact hsupport
    · cases h

/-- The route goes direct only for an identity single field. -/
theorem identitySingleField_of_forRoute {fields : List FieldSlot} {hasFilter : Bool}
    {index : Nat} (h : GroupedCountKeyPath.forRoute fields hasFilter = .directSingleField index) :
    ∃ field, identitySingleField fields = some field ∧ index = field.index := by
  unfold GroupedCountKeyPath.forRoute at h
  split at h
  · rename_i field hfield
    cases h
    exact ⟨field, hfield, rfl⟩
  · cases h

section Runs

variable {fields : List FieldSlot}
  (hprobe : ∀ field ∈ fields, field.acceptedKind.any AcceptedFieldKind.supportsGroupProbe)
  {rows : List RowView} {keys : List GroupKey}
  (hkeys : List.Forall₂ (RowKey leb digest fields) rows keys)
include hprobe hkeys

theorem foldRowViewCountRows_borrowed (hfd : fd.Injective) :
    foldRowViewCountRows (GroupedCountState.incrementRowBorrowedGroupProbe leb digest fd) fields
      rows Buckets.empty = .ok (keyRun keys) :=
  foldlM_eq_ingestAll (I := CountInvariant leb fields) (R := RowKey leb digest fields)
    (fun _ _ _ hs hk => incrementRowBorrowedGroupProbe_eq leb digest fd hprobe hfd hs hk)
    (fun _ _ _ hs hk => hs.ingest hk) hkeys (countInvariant_empty leb fields)

omit hprobe in
theorem foldDirectSingleFieldCountRows_eq (hfd : fd.Injective) {field : FieldSlot}
    (hfield : identitySingleField fields = some field) :
    foldDirectSingleFieldCountRows leb digest fd field.index rows Buckets.empty =
      .ok (keyRun keys) := by
  -- a direct route has one field, of an identity kind
  have hshape : fields = [field] ∧
      field.acceptedKind.any AcceptedFieldKind.hasIdentityGroupCanonicalForm := by
    unfold identitySingleField at hfield
    split at hfield
    · split at hfield
      · cases hfield
        exact ⟨rfl, by assumption⟩
      · cases hfield
    · cases hfield
  obtain ⟨rfl, hid⟩ := hshape
  exact foldlM_eq_ingestAll (I := CountInvariant leb [field]) (R := RowKey leb digest [field])
    (fun _ _ _ hs hk => incrementSingleGroupValue_eq leb digest fd hfd hid hs hk)
    (fun _ _ _ hs hk => hs.ingest hk) hkeys (countInvariant_empty leb [field])

end Runs

/-! ### The three paths agree -/

/-- What the three ingest paths agree on over one sequence of rows, with
`keys` the rows' owned keys and `s` the state every fold ends in.  The owned
fold and the route's fold hold for every field kind; the borrowed probe and
hash are claimed only where every field supports the probe, which is where the
route takes them. -/
structure IngestPathsAgree (fd : FloatDecimal) (fields : List FieldSlot) (rows : List RowView)
    (keys : List GroupKey) (s : GroupedCountState) : Prop where
  /-- Each row materializes its owned key. -/
  ownedKeys : List.Forall₂
    (fun row key => materializeGroupKeyFromRowView leb digest row fields none = .ok key) rows keys
  /-- The groups partition the keys by key equality. -/
  partition : Tallies GroupKey.beq 1 saturatingSucc keys s.groups
  /-- A group counts the rows of its class, up to `u32::MAX`. -/
  counts : ∀ g ∈ s.groups, g.2 = min (keys.countP (GroupKey.beq g.1)) (2 ^ 32 - 1)
  owned : foldRowViewCountRows (GroupedCountState.incrementRowOwnedGroupKey leb digest) fields
    rows Buckets.empty = .ok s
  routed : ∀ hasFilter, foldGroupedCountRows leb digest fd fields hasFilter rows = .ok s
  borrowed : groupFieldsSupportBorrowedGroupProbe fields = true →
    foldRowViewCountRows (GroupedCountState.incrementRowBorrowedGroupProbe leb digest fd)
      fields rows Buckets.empty = .ok s
  direct : ∀ field, identitySingleField fields = some field →
    foldDirectSingleFieldCountRows leb digest fd field.index rows Buckets.empty = .ok s
  /-- The borrowed hash of a row is its owned key's hash. -/
  borrowedHash : groupFieldsSupportBorrowedGroupProbe fields = true → ∀ row ∈ rows, ∀ key,
    materializeGroupKeyFromRowView leb digest row fields none = .ok key →
      stableHashGroupValuesFromRowView leb digest row fields = .ok key.hash
  /-- The borrowed probe of one row's key against a row is owned key equality,
  which compares hashes too: rows equal under the probe share their hash. -/
  probe : groupFieldsSupportBorrowedGroupProbe fields = true → ∀ row ∈ rows, ∀ row' ∈ rows,
    ∀ key key',
    materializeGroupKeyFromRowView leb digest row fields none = .ok key →
    materializeGroupKeyFromRowView leb digest row' fields none = .ok key' →
      canonicalGroupValueMatchesRowView fd key'.raw row fields = .ok (key'.beq key)

/-- An owned fold that ends in a state has materialized every row's key. -/
theorem exists_forall₂_of_owned_ok {fields : List FieldSlot} :
    ∀ {rows : List RowView} {s₀ s : GroupedCountState},
      foldRowViewCountRows (GroupedCountState.incrementRowOwnedGroupKey leb digest) fields rows
        s₀ = .ok s →
      ∃ keys, List.Forall₂
        (fun row key => materializeGroupKeyFromRowView leb digest row fields none = .ok key)
        rows keys
  | [], _, _, _ => ⟨[], .nil⟩
  | row :: rest, s₀, s, h => by
    unfold foldRowViewCountRows at h
    rw [List.foldlM_cons] at h
    -- the first row's step succeeded, so its key materialized
    cases hm : materializeGroupKeyFromRowView leb digest row fields none with
    | error e =>
      rw [GroupedCountState.incrementRowOwnedGroupKey, hm] at h
      cases h
    | ok key =>
      cases hs : GroupedCountState.incrementRowOwnedGroupKey leb digest s₀ row fields with
      | error e =>
        rw [hs] at h
        cases h
      | ok s' =>
        rw [hs] at h
        obtain ⟨keys, hkeys⟩ := exists_forall₂_of_owned_ok h
        exact ⟨key :: keys, .cons hm hkeys⟩

/-- Where every field supports the probe, each row's owned key materializes. -/
theorem exists_forall₂_of_supported {fields : List FieldSlot} :
    ∀ {rows : List RowView}, groupFieldsSupportBorrowedGroupProbe fields = true →
      (∀ row ∈ rows, ∃ vs, row.Holds fields vs ∧ GroupValuesFit leb fields vs) →
      ∃ keys, List.Forall₂
        (fun row key => materializeGroupKeyFromRowView leb digest row fields none = .ok key)
        rows keys
  | [], _, _ => ⟨[], .nil⟩
  | row :: _, hsupport, hrows => by
    obtain ⟨key, hkey⟩ := exists_rowKey leb digest (hrows row List.mem_cons_self)
    obtain ⟨keys, hkeys⟩ := exists_forall₂_of_supported hsupport
      fun r hr => hrows r (List.mem_cons_of_mem row hr)
    exact ⟨_ :: keys, .cons
      (materializeGroupKeyFromRowView_eq leb digest (List.all_eq_true.mp hsupport) hkey none)
      hkeys⟩

/-- Given the rows' owned keys, every path ends in the run of those keys. -/
theorem ingestPathsAgree_of_materialized (hfd : fd.Injective) {fields : List FieldSlot}
    {rows : List RowView}
    (hrows : ∀ row ∈ rows, ∃ vs, row.Holds fields vs ∧ GroupValuesFit leb fields vs)
    {keys : List GroupKey}
    (hkeys : List.Forall₂
      (fun row key => materializeGroupKeyFromRowView leb digest row fields none = .ok key)
      rows keys) :
    IngestPathsAgree leb digest fd fields rows keys (keyRun keys) := by
  obtain ⟨htallies, hcounts⟩ := keyRun_tallies keys
  have howned := foldRowViewCountRows_owned_of_materialized leb digest hkeys
  -- where every field supports the probe, the owned keys are the canonical keys
  have hrowKeys : groupFieldsSupportBorrowedGroupProbe fields = true →
      List.Forall₂ (RowKey leb digest fields) rows keys := fun hsupport =>
    forall₂_rowKey_of_materialized leb digest (List.all_eq_true.mp hsupport) hrows hkeys
  have hborrowed : groupFieldsSupportBorrowedGroupProbe fields = true →
      foldRowViewCountRows (GroupedCountState.incrementRowBorrowedGroupProbe leb digest fd)
        fields rows Buckets.empty = .ok (keyRun keys) := fun hsupport =>
    foldRowViewCountRows_borrowed leb digest fd (List.all_eq_true.mp hsupport)
      (hrowKeys hsupport) hfd
  have hdirect : ∀ field, identitySingleField fields = some field →
      foldDirectSingleFieldCountRows leb digest fd field.index rows Buckets.empty =
        .ok (keyRun keys) := fun field hfield =>
    foldDirectSingleFieldCountRows_eq leb digest fd
      (hrowKeys (groupFieldsSupportBorrowedGroupProbe_of_identity hfield)) hfd hfield
  refine ⟨hkeys, htallies, hcounts, howned, ?_, hborrowed, hdirect, ?_, ?_⟩
  · -- the route selects one of the three folds
    intro hasFilter
    unfold foldGroupedCountRows
    cases hroute : GroupedCountKeyPath.forRoute fields hasFilter with
    | directSingleField index =>
      obtain ⟨field, hfield, rfl⟩ := identitySingleField_of_forRoute hroute
      exact hdirect field hfield
    | rowView kind =>
      cases kind with
      | borrowed => exact hborrowed (groupFieldsSupportBorrowedGroupProbe_of_forRoute hroute)
      | owned => exact howned
  · intro hsupport row hrow key hk
    have hkey :=
      rowKey_of_materialized leb digest (List.all_eq_true.mp hsupport) (hrows row hrow) hk
    exact stableHashGroupValuesFromRowView_eq leb digest hkey
  · intro hsupport row hrow row' hrow' key key' hk hk'
    have hprobe := List.all_eq_true.mp hsupport
    have hkey := rowKey_of_materialized leb digest hprobe (hrows row hrow) hk
    have hkey' := rowKey_of_materialized leb digest hprobe (hrows row' hrow') hk'
    rw [RowKey.beq_eq leb digest hprobe hkey hkey']
    exact canonicalGroupValueMatchesRowView_eq leb digest fd hfd hprobe hkey'.canonicalKeyOf hkey

/-- Where a field lacks the borrowed probe, the route takes the owned fold. -/
theorem foldGroupedCountRows_of_unsupported {fields : List FieldSlot} {rows : List RowView}
    (hsupport : groupFieldsSupportBorrowedGroupProbe fields = false) (hasFilter : Bool) :
    foldGroupedCountRows leb digest fd fields hasFilter rows =
      foldRowViewCountRows (GroupedCountState.incrementRowOwnedGroupKey leb digest) fields rows
        Buckets.empty := by
  unfold foldGroupedCountRows
  cases hroute : GroupedCountKeyPath.forRoute fields hasFilter with
  | directSingleField index =>
    obtain ⟨field, hfield, -⟩ := identitySingleField_of_forRoute hroute
    rw [groupFieldsSupportBorrowedGroupProbe_of_identity hfield] at hsupport
    cases hsupport
  | rowView kind =>
    cases kind with
    | borrowed =>
      rw [groupFieldsSupportBorrowedGroupProbe_of_forRoute hroute] at hsupport
      cases hsupport
    | owned => rfl

end Agreement

end IcyDb
