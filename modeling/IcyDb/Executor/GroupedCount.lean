import IcyDb.Executor.GroupKey
import IcyDb.Grouping.Buckets

/-!
# Grouped `COUNT(*)`

The dedicated grouped `COUNT(*)` fold keeps its groups in order of first
appearance, each a `GroupKey` and a `u32` count, with an index from stable
hashes to the positions of the groups filed under them: a `Grouping.Buckets`.
A row's group is found by hashing the row's group values and searching the
bucket of that hash; a hit bumps the count (saturating at `u32::MAX`), a miss
materializes the row's key and appends a group for it with count one.

Three ingest paths do this with different hashes and equalities.  The owned
path materializes the row's canonical key first, hashes it, and compares keys
with `==`.  The borrowed path hashes the row's slot values as a virtual list,
or a single identity-canonical value through the direct digest, and compares
slots against stored keys with `canonical_value_compare`; it materializes a
key only for a new group, with the hash it computed.  The direct path does the
same for the value of the one group field of a single-field route.  The route
picks the direct path for a single field whose kind has an identity canonical
form and no residual filter, the borrowed path when every field supports
probing, and the owned path otherwise.

The execution budget and the fallible reservations of a new group, the metrics
and the row-level filter are not modelled: the rows here are those that reach
an ingest function.  The ordered streaming mode, which feeds a different state,
is not modelled either.

This file embeds `grouped_fold::count::{state, ingest}`,
`grouped_fold::utils::{equality, hashing}`, `grouped_fold::dispatch` and the
first phase of `execute_single_grouped_count_fold_stage`.
-/

namespace IcyDb

open Grouping

/-- `GroupedCountState`: the groups with their counts, and `bucket_index`,
whose missing buckets are empty ones. -/
abbrev GroupedCountState := Buckets GroupKey Nat StableHash

/-- `u32::saturating_add(1)`. -/
def saturatingSucc (count : Nat) : Nat := min (count + 1) (2 ^ 32 - 1)

/-- A group seen `n + 1` times counts `n + 1`, up to `u32::MAX`. -/
theorem iterate_saturatingSucc (n : Nat) : saturatingSucc^[n] 1 = min (n + 1) (2 ^ 32 - 1) := by
  induction n with
  | zero => rfl
  | succ n ih =>
    rw [Function.iterate_succ_apply', ih, saturatingSucc]
    omega

namespace GroupedCountState

/-! ### The state's two updates -/

/-- `increment_existing_group`: a position without a group is an invariant
error. -/
def incrementExistingGroup (s : GroupedCountState) (existingIndex : Nat) :
    Except InternalError GroupedCountState :=
  if existingIndex < s.groups.length then .ok (s.bump existingIndex saturatingSucc)
  else .error .queryExecutorInvariant

/-- `finish_new_group_insert`: the group with count one, filed under its
hash. -/
def finishNewGroupInsert (s : GroupedCountState) (groupHash : StableHash) (groupKey : GroupKey) :
    GroupedCountState :=
  s.push groupHash groupKey 1

/-- `complete_group_lookup`: bump the group found, or materialize the key of a
new one. -/
def completeGroupLookup (s : GroupedCountState) (lookup : StableHash × Option Nat)
    (materializeNewGroup : StableHash → Except InternalError GroupKey) :
    Except InternalError GroupedCountState :=
  match lookup.2 with
  | some existingIndex => s.incrementExistingGroup existingIndex
  | none => do
    let groupKey ← materializeNewGroup lookup.1
    pure (s.finishNewGroupInsert lookup.1 groupKey)

/-- `increment_borrowed_group_probe`. -/
def incrementBorrowedGroupProbe (s : GroupedCountState)
    (lookupExistingGroup : List (GroupKey × Nat) → (StableHash → List Nat) →
      Except InternalError (StableHash × Option Nat))
    (materializeNewGroup : StableHash → Except InternalError GroupKey) :
    Except InternalError GroupedCountState := do
  let lookup ← lookupExistingGroup s.groups s.index
  s.completeGroupLookup lookup materializeNewGroup

/-- `increment_owned_group_key`: the key's bucket searched with key equality,
skipping a position without a group. -/
def incrementOwnedGroupKey (s : GroupedCountState) (groupKey : GroupKey) :
    Except InternalError GroupedCountState :=
  s.completeGroupLookup (groupKey.hash, s.lookup groupKey.hash fun existing => existing.beq groupKey)
    fun _ => .ok groupKey

/-- Completing a lookup the index answered is one ingest step. -/
theorem completeGroupLookup_lookup (s : GroupedCountState) {groupHash : StableHash}
    {p : GroupKey → Bool} {groupKey : GroupKey}
    {materializeNewGroup : StableHash → Except InternalError GroupKey}
    (hm : materializeNewGroup groupHash = .ok groupKey) :
    s.completeGroupLookup (groupHash, s.lookup groupHash p) materializeNewGroup =
      .ok (s.ingest groupHash p groupKey 1 saturatingSucc) := by
  unfold completeGroupLookup Buckets.ingest
  cases hl : s.lookup groupHash p with
  | none => simp [hm, finishNewGroupInsert]
  | some i =>
    -- the index returns only positions that hold a group
    obtain ⟨g, hg, -⟩ := Buckets.exists_of_lookup hl
    have hi : i < s.groups.length := (List.getElem?_eq_some_iff.mp hg).1
    simp [incrementExistingGroup, hi]

/-- The owned path's step is an ingest step, for every state. -/
theorem incrementOwnedGroupKey_eq (s : GroupedCountState) (groupKey : GroupKey) :
    s.incrementOwnedGroupKey groupKey =
      .ok (s.ingest groupKey.hash (fun existing => existing.beq groupKey) groupKey 1
        saturatingSucc) :=
  s.completeGroupLookup_lookup rfl

end GroupedCountState

/-! ### Bucket probes -/

/-- `find_matching_group_in_bucket` and the generic
`find_matching_group_index_in_bucket` it calls: the first position of the
bucket whose group matches; a position without a group is an invariant
error. -/
def findMatchingGroupInBucket (groups : List (GroupKey × Nat))
    (matchesGroup : GroupKey → Except InternalError Bool) :
    List Nat → Except InternalError (Option Nat)
  | [] => .ok none
  | groupIndex :: rest =>
    match groups[groupIndex]? with
    | none => .error .queryExecutorInvariant
    | some group => do
      let isMatch ← matchesGroup group.1
      if isMatch then pure (some groupIndex)
      else findMatchingGroupInBucket groups matchesGroup rest

section Probes

variable (fd : FloatDecimal)

/-- `single_group_key_matches_value`. -/
def singleGroupKeyMatchesValue (groupKey : GroupKey) (groupValue : Value) :
    Except InternalError Bool :=
  match groupKey.raw with
  | .list [canonicalGroupValue] =>
    .ok (Value.canonicalValueCompare fd groupValue canonicalGroupValue == .eq)
  | _ => .error .queryExecutorInvariant

/-- The loop of `canonical_group_value_matches_row_view_with_context` over the
fields zipped with the key's values: `false` at the first slot that does not
compare `Equal`. -/
def slotsMatchRowView (row : RowView) : List (FieldSlot × Value) → Except InternalError Bool
  | [] => .ok true
  | (field, canonicalGroupValue) :: rest => do
    let isMatch ← row.withRequiredSlot field.index fun value =>
      .ok (Value.canonicalValueCompare fd value canonicalGroupValue == .eq)
    if !isMatch then pure false else slotsMatchRowView row rest

/-- `canonical_group_value_matches_row_view_with_context`. -/
def canonicalGroupValueMatchesRowView (canonicalGroupValue : Value) (row : RowView)
    (groupFields : List FieldSlot) : Except InternalError Bool :=
  match canonicalGroupValue with
  | .list canonicalGroupValues =>
    if canonicalGroupValues.length ≠ groupFields.length then .error .queryExecutorInvariant
    else slotsMatchRowView fd row (groupFields.zip canonicalGroupValues)
  | _ => .error .queryExecutorInvariant

/-- `find_matching_group_index`. -/
def findMatchingGroupIndex (groups : List (GroupKey × Nat)) (bucket : List Nat) (row : RowView)
    (groupFields : List FieldSlot) : Except InternalError (Option Nat) :=
  findMatchingGroupInBucket groups
    (fun groupKey => canonicalGroupValueMatchesRowView fd groupKey.raw row groupFields) bucket

/-- `find_matching_single_group_value_index`. -/
def findMatchingSingleGroupValueIndex (groups : List (GroupKey × Nat)) (bucket : List Nat)
    (groupValue : Value) : Except InternalError (Option Nat) :=
  findMatchingGroupInBucket groups (fun groupKey => singleGroupKeyMatchesValue fd groupKey groupValue)
    bucket

end Probes

/-- Over a filed index, a probe that agrees with a Boolean test on the groups
filed under `groupHash` finds what the index lookup with that test finds. -/
theorem findMatchingGroupInBucket_eq_lookup {s : GroupedCountState} {groupHash : StableHash}
    (hs : s.Filed GroupKey.hash) {matchesGroup : GroupKey → Except InternalError Bool}
    {p : GroupKey → Bool}
    (hmatch : ∀ g ∈ s.groups, g.1.hash = groupHash → matchesGroup g.1 = .ok (p g.1)) :
    findMatchingGroupInBucket s.groups matchesGroup (s.index groupHash) =
      .ok (s.lookup groupHash p) := by
  -- every position of the bucket holds a group filed under `groupHash`
  suffices h : ∀ bucket : List Nat,
      (∀ i ∈ bucket, ∃ g, s.groups[i]? = some g ∧ g.1.hash = groupHash) →
        findMatchingGroupInBucket s.groups matchesGroup bucket =
          .ok (bucket.find? fun i => s.groups[i]?.any fun g => p g.1) from
    h _ fun i hi => (hs groupHash i).mp hi
  intro bucket hbucket
  induction bucket with
  | nil => rfl
  | cons i rest ih =>
    obtain ⟨g, hg, hh⟩ := hbucket i List.mem_cons_self
    have hrest := ih fun j hj => hbucket j (List.mem_cons_of_mem i hj)
    simp only [findMatchingGroupInBucket, hg, List.find?_cons, Option.any_some,
      hmatch g (List.mem_of_getElem? hg) hh, Except.ok_bind]
    cases p g.1 with
    | true => rfl
    | false => exact hrest

/-! ### Borrowed hashing -/

section Hashing

variable (leb : Leb128) (digest : List UInt8 → BitVec 128)

/-- `stable_hash_single_group_value`: the direct digest where it applies, and
otherwise the one-element virtual list. -/
def stableHashSingleGroupValue (groupValue : Value) : Except InternalError StableHash :=
  match Value.hashSingleListIdentityCanonicalValue leb digest groupValue with
  | .error err => .error err.toInternalError
  | .ok (some d) => .ok (stableHashFromDigest d)
  | .ok none => do
    let w ← ((Value.ValueHashWriter.new.writeListPrefix 1).writeListValue leb groupValue).mapError
      HashError.toInternalError
    pure (stableHashFromDigest (w.finish digest))

/-- The field of a single-field route whose accepted kind has an identity
canonical form. -/
def identitySingleField : List FieldSlot → Option FieldSlot
  | [field] =>
    if field.acceptedKind.any AcceptedFieldKind.hasIdentityGroupCanonicalForm then some field
    else none
  | _ => none

/-- `stable_hash_group_values_from_row_view`: the single-value hash for an
identity single field, and otherwise the slots streamed as a virtual list. -/
def stableHashGroupValuesFromRowView (row : RowView) (groupFields : List FieldSlot) :
    Except InternalError StableHash :=
  match identitySingleField groupFields with
  | some field => row.withRequiredSlot field.index (stableHashSingleGroupValue leb digest)
  | none => do
    let w ← groupFields.foldlM
      (fun w field => row.withRequiredSlot field.index fun value =>
        (w.writeListValue leb value).mapError HashError.toInternalError)
      (Value.ValueHashWriter.new.writeListPrefix groupFields.length)
    pure (stableHashFromDigest (w.finish digest))

/-- `materialize_group_key_from_row_view`: the key of the row's group slots,
with the caller's hash when it brings one. -/
def materializeGroupKeyFromRowView (row : RowView) (groupFields : List FieldSlot)
    (precomputedHash : Option StableHash) : Except InternalError GroupKey :=
  match groupFields with
  | [field] => do
    let groupValue ← row.requireSlotValue field.index
    let identityCanonicalForm :=
      field.acceptedKind.any AcceptedFieldKind.hasIdentityGroupCanonicalForm
    let groupKey : Except KeyCanonicalError GroupKey :=
      match identityCanonicalForm, precomputedHash with
      | true, some hash => .ok (GroupKey.fromSingleCanonicalGroupValueWithHash groupValue hash)
      | true, none => GroupKey.fromSingleCanonicalGroupValue leb digest groupValue
      | false, some hash => GroupKey.fromSingleGroupValueWithHash groupValue hash
      | false, none => GroupKey.fromSingleGroupValue leb digest groupValue
    groupKey.mapError KeyCanonicalError.intoInternalError
  | _ => do
    let groupValues ← row.groupValues groupFields
    let groupKey : Except KeyCanonicalError GroupKey :=
      match precomputedHash with
      | some hash => GroupKey.fromGroupValuesWithHash groupValues hash
      | none => GroupKey.fromGroupValues leb digest groupValues
    groupKey.mapError KeyCanonicalError.intoInternalError

end Hashing

/-! ### The three ingest paths -/

namespace GroupedCountState

variable (leb : Leb128) (digest : List UInt8 → BitVec 128) (fd : FloatDecimal)

/-- `increment_row_owned_group_key`. -/
def incrementRowOwnedGroupKey (s : GroupedCountState) (row : RowView)
    (groupFields : List FieldSlot) : Except InternalError GroupedCountState := do
  let groupKey ← materializeGroupKeyFromRowView leb digest row groupFields none
  s.incrementOwnedGroupKey groupKey

/-- `increment_row_borrowed_group_probe`. -/
def incrementRowBorrowedGroupProbe (s : GroupedCountState) (row : RowView)
    (groupFields : List FieldSlot) : Except InternalError GroupedCountState :=
  s.incrementBorrowedGroupProbe
    (fun groups bucketIndex => do
      let groupHash ← stableHashGroupValuesFromRowView leb digest row groupFields
      let existingIndex ← findMatchingGroupIndex fd groups (bucketIndex groupHash) row groupFields
      pure (groupHash, existingIndex))
    fun groupHash => materializeGroupKeyFromRowView leb digest row groupFields (some groupHash)

/-- `increment_single_group_value`. -/
def incrementSingleGroupValue (s : GroupedCountState) (groupValue : Value) :
    Except InternalError GroupedCountState := do
  let groupHash ← stableHashSingleGroupValue leb digest groupValue
  let existingIndex ← findMatchingSingleGroupValueIndex fd s.groups (s.index groupHash) groupValue
  s.completeGroupLookup (groupHash, existingIndex) fun groupHash =>
    .ok (GroupKey.fromSingleCanonicalGroupValueWithHash groupValue groupHash)

end GroupedCountState

/-! ### Route dispatch and the fold -/

/-- `GroupedCountProbeKind`. -/
inductive GroupedCountProbeKind
  | borrowed
  | owned
deriving DecidableEq, Repr

/-- `GroupedCountKeyPath`. -/
inductive GroupedCountKeyPath
  | directSingleField (groupFieldIndex : Nat)
  | rowView (probeKind : GroupedCountProbeKind)
deriving DecidableEq, Repr

/-- `group_fields_support_borrowed_group_probe`. -/
def groupFieldsSupportBorrowedGroupProbe (groupFields : List FieldSlot) : Bool :=
  groupFields.all fun field => field.acceptedKind.any AcceptedFieldKind.supportsGroupProbe

/-- `GroupedCountProbeKind::for_group_fields`. -/
def GroupedCountProbeKind.forGroupFields (groupFields : List FieldSlot) : GroupedCountProbeKind :=
  if groupFieldsSupportBorrowedGroupProbe groupFields then .borrowed else .owned

/-- `GroupedCountKeyPath::for_route`; `hasFilter` says whether a residual
filter program runs. -/
def GroupedCountKeyPath.forRoute (groupFields : List FieldSlot) (hasFilter : Bool) :
    GroupedCountKeyPath :=
  match hasFilter, identitySingleField groupFields with
  | false, some field => .directSingleField field.index
  | _, _ => .rowView (GroupedCountProbeKind.forGroupFields groupFields)

section Fold

variable (leb : Leb128) (digest : List UInt8 → BitVec 128) (fd : FloatDecimal)

/-- `fold_row_view_count_rows`, over the rows that reach the ingest
function. -/
def foldRowViewCountRows
    (incrementRow : GroupedCountState → RowView → List FieldSlot →
      Except InternalError GroupedCountState)
    (groupFields : List FieldSlot) (rows : List RowView) (s : GroupedCountState) :
    Except InternalError GroupedCountState :=
  rows.foldlM (fun s row => incrementRow s row groupFields) s

/-- The direct single-field loop of `execute_single_grouped_count_fold_stage`:
each row's one group slot, ingested by value. -/
def foldDirectSingleFieldCountRows (groupFieldIndex : Nat) (rows : List RowView)
    (s : GroupedCountState) : Except InternalError GroupedCountState :=
  rows.foldlM (fun s row => do
    let groupValue ← row.requireSlotValue groupFieldIndex
    s.incrementSingleGroupValue leb digest fd groupValue) s

/-- Phase 1 of `execute_single_grouped_count_fold_stage`: the rows folded from
an empty state through the path the route selects. -/
def foldGroupedCountRows (groupFields : List FieldSlot) (hasFilter : Bool) (rows : List RowView) :
    Except InternalError GroupedCountState :=
  match GroupedCountKeyPath.forRoute groupFields hasFilter with
  | .directSingleField groupFieldIndex =>
    foldDirectSingleFieldCountRows leb digest fd groupFieldIndex rows Buckets.empty
  | .rowView .borrowed =>
    foldRowViewCountRows (GroupedCountState.incrementRowBorrowedGroupProbe leb digest fd)
      groupFields rows Buckets.empty
  | .rowView .owned =>
    foldRowViewCountRows (GroupedCountState.incrementRowOwnedGroupKey leb digest) groupFields
      rows Buckets.empty

end Fold

end IcyDb
