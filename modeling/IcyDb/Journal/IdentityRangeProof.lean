import IcyDb.Key.DecodedKey
import IcyDb.Schema.IdentityState

/-!
# The journal's identity-range proof

A journal batch that spends identity values carries one
`IdentityRangeAdvance` record per owner beside the row records that used
them.  Before a batch is accepted, `validate_identity_range_row_sets` checks,
range by range, that no owner advances twice and that the owner entity's rows
are the allocation the range records: its puts above the expected high water
are `expected + 1, …, new` in record order, and no delete reaches above the
expected high water.

This file embeds that check, which decodes every row key with
`DecodedDataStoreKey::try_from_raw`, and characterises the batches it accepts.
Journal records keep only the fields the check reads; the records it passes
over are kept by name.
-/

namespace IcyDb

namespace Journal

open Except

/-- The `InternalError` the range proof raises: `journal_batch_corruption`. -/
inductive InternalError
  | journalBatchCorruption
deriving DecidableEq, Repr

/-! ### Journal records -/

/-- `JournalRecord`.  A row record keeps its raw `primary_key`, an identity
advance its range; the check reads no other field. -/
inductive JournalRecord
  | rowPut (primaryKey : List UInt8)
  | rowDelete (primaryKey : List UInt8)
  | schemaPut
  | acceptedSchemaPublish
  | acceptedSchemaIndexDelete
  | acceptedSchemaIndexPut
  | constraintValidationJobPut
  | constraintValidationJobDelete
  | constraintValidationIndexPut
  | identityRangeAdvance (range : Schema.IdentityRangeAdvance)
  | schemaMigrationRowPut
  | schemaMigrationIndexPut

/-- `JournalBatch`; the range proof reads its records only. -/
structure JournalBatch where
  records : List JournalRecord

/-- The range of an `IdentityRangeAdvance` record. -/
def JournalRecord.identityRange : JournalRecord → Option Schema.IdentityRangeAdvance
  | .identityRangeAdvance range => some range
  | _ => none

/-- The `ranges` the check collects, in record order. -/
def JournalBatch.ranges (batch : JournalBatch) : List Schema.IdentityRangeAdvance :=
  batch.records.filterMap JournalRecord.identityRange

/-! ### The check -/

/-- The identity value of a scalar `Nat64` or `Nat128` primary key, widened to
`u128`. -/
def scalarNatValue : PrimaryKeyValue → Option Nat
  | .scalar (.nat64 value) => some value.toNat
  | .scalar (.nat128 value) => some value.toNat
  | _ => none

/-- The head that the `RowPut` and `RowDelete` arms share: decode the key, pass
over another entity's row (`none`), and read the owner entity's key as its
identity value. -/
def ownedRowValue (range : Schema.IdentityRangeAdvance) (primaryKey : List UInt8) :
    Except InternalError (Option Nat) := do
  let key ← (DecodedDataStoreKey.tryFromRaw primaryKey).mapError fun _ => .journalBatchCorruption
  if key.entityTag ≠ range.owner.entityTag then pure none
  else some <$> okOrElse (scalarNatValue key.primaryKeyValue) .journalBatchCorruption

/-- One record of the pass over the batch for one range.  The state is
`(expected_allocation, count)`: the last value allocated and how many were. -/
def visitRecord (range : Schema.IdentityRangeAdvance) (state : Nat × Nat) :
    JournalRecord → Except InternalError (Nat × Nat)
  | .rowPut primaryKey => do
    match ← ownedRowValue range primaryKey with
    | none => pure state
    | some value =>
      if value ≤ range.expectedHighWater then pure state
      else do
        failIf (range.newHighWater < value) .journalBatchCorruption
        let expectedAllocation ←
          okOrElse (Schema.checkedAdd 128 state.1 1) .journalBatchCorruption
        let count ← okOrElse (Schema.checkedAdd 32 state.2 1) .journalBatchCorruption
        failIf (value ≠ expectedAllocation) .journalBatchCorruption
        pure (expectedAllocation, count)
  | .rowDelete primaryKey => do
    match ← ownedRowValue range primaryKey with
    | none => pure state
    | some value =>
      failIf (range.expectedHighWater < value) .journalBatchCorruption
      pure state
  | _ => pure state

/-- The body of the range loop: the pass over every record, then the check
that the count and the last allocation reach the range's. -/
def validateRangeRows (records : List JournalRecord) (range : Schema.IdentityRangeAdvance) :
    Except InternalError Unit := do
  let state ← records.foldlM (visitRecord range) (range.expectedHighWater, 0)
  failIf (state.2 ≠ range.allocationCount ∨ state.1 ≠ range.newHighWater)
    .journalBatchCorruption

/-- The range loop of the check; `earlier` is `ranges[..index]`. -/
def validateRanges (records : List JournalRecord) (earlier : List Schema.IdentityRangeAdvance) :
    List Schema.IdentityRangeAdvance → Except InternalError Unit
  | [] => pure ()
  | range :: rest => do
    failIf (earlier.any fun existing => existing.owner == range.owner) .journalBatchCorruption
    validateRangeRows records range
    validateRanges records (earlier ++ [range]) rest

/-- `validate_identity_range_row_sets`. -/
def validateIdentityRangeRowSets (batch : JournalBatch) : Except InternalError Unit :=
  validateRanges batch.records [] batch.ranges

/-! ### What one record asks of a batch -/

/-- The raw key of a `RowPut` or `RowDelete`. -/
def JournalRecord.rowPrimaryKey : JournalRecord → Option (List UInt8)
  | .rowPut primaryKey | .rowDelete primaryKey => some primaryKey
  | _ => none

/-- The identity value a record allocates: that of a put of the range owner's
entity above the expected high water. -/
def allocatedValue (range : Schema.IdentityRangeAdvance) : JournalRecord → Option Nat
  | .rowPut primaryKey =>
    match DecodedDataStoreKey.tryFromRaw primaryKey with
    | .ok key =>
      if key.entityTag = range.owner.entityTag then
        match scalarNatValue key.primaryKeyValue with
        | some value => if range.expectedHighWater < value then some value else none
        | none => none
      else none
    | .error _ => none
  | _ => none

/-- The identity values a batch's records allocate, in record order. -/
def allocatedValues (range : Schema.IdentityRangeAdvance) (records : List JournalRecord) :
    List Nat :=
  records.filterMap (allocatedValue range)

/-- What the pass asks of one record whatever its state: a row key decodes and
the owner entity's key is a scalar identity value, which for a delete stays
at or below the expected high water. -/
def RowAccepted (range : Schema.IdentityRangeAdvance) : JournalRecord → Prop
  | .rowPut primaryKey => ∃ value?, ownedRowValue range primaryKey = .ok value?
  | .rowDelete primaryKey => ∃ value?, ownedRowValue range primaryKey = .ok value? ∧
      ∀ value, value? = some value → value ≤ range.expectedHighWater
  | _ => True

section Step

variable {range : Schema.IdentityRangeAdvance} {primaryKey : List UInt8}

theorem ownedRowValue_eq_ok_iff {value? : Option Nat} :
    ownedRowValue range primaryKey = .ok value? ↔
      ∃ key, DecodedDataStoreKey.tryFromRaw primaryKey = .ok key ∧
        (key.entityTag = range.owner.entityTag →
          ∃ value, scalarNatValue key.primaryKeyValue = some value ∧ value? = some value) ∧
        (key.entityTag ≠ range.owner.entityTag → value? = none) := by
  unfold ownedRowValue
  cases hkey : DecodedDataStoreKey.tryFromRaw primaryKey with
  | error err => simp
  | ok key =>
    by_cases hentity : key.entityTag = range.owner.entityTag
    · cases hvalue : scalarNatValue key.primaryKeyValue <;> simp [hentity, hvalue, eq_comm]
    · simp [hentity]
      exact eq_comm

/-- A put allocates exactly the value its owned key reads above the expected
high water. -/
theorem allocatedValue_rowPut :
    allocatedValue range (.rowPut primaryKey) =
      match ownedRowValue range primaryKey with
      | .ok (some value) => if range.expectedHighWater < value then some value else none
      | _ => none := by
  simp only [allocatedValue, ownedRowValue]
  cases hkey : DecodedDataStoreKey.tryFromRaw primaryKey with
  | error err => rfl
  | ok key =>
    by_cases hentity : key.entityTag = range.owner.entityTag
    · cases hvalue : scalarNatValue key.primaryKeyValue <;> simp [hentity, hvalue]
    · simp [hentity]

theorem allocatedValue_eq_some_iff {record : JournalRecord} {value : Nat} :
    allocatedValue range record = some value ↔
      ∃ primaryKey, record = .rowPut primaryKey ∧
        ownedRowValue range primaryKey = .ok (some value) ∧
        range.expectedHighWater < value := by
  cases record with
  | rowPut primaryKey =>
    rw [allocatedValue_rowPut]
    simp only [JournalRecord.rowPut.injEq, exists_eq_left']
    rcases ownedRowValue range primaryKey with _ | _ | owned <;> simp
    constructor
    · rintro ⟨hlt, rfl⟩
      exact ⟨rfl, hlt⟩
    · rintro ⟨rfl, hlt⟩
      exact ⟨hlt, rfl⟩
  | _ => simp [allocatedValue]

theorem rowAccepted_of_allocatedValue_eq_some {record : JournalRecord} {value : Nat}
    (hsome : allocatedValue range record = some value) : RowAccepted range record := by
  obtain ⟨primaryKey, rfl, hown, -⟩ := allocatedValue_eq_some_iff.mp hsome
  exact ⟨_, hown⟩

/-- A record that allocates nothing leaves the state as it is, once accepted. -/
theorem visitRecord_eq_ok_iff_of_allocatedValue_none {record : JournalRecord}
    (hnone : allocatedValue range record = none) {state s : Nat × Nat} :
    visitRecord range state record = .ok s ↔ RowAccepted range record ∧ s = state := by
  cases record with
  | rowPut primaryKey =>
    rw [allocatedValue_rowPut] at hnone
    simp only [visitRecord, RowAccepted]
    rcases hown : ownedRowValue range primaryKey with err | _ | value
    · simp
    · simp [eq_comm]
    · -- a put of the owner at or below the expected high water is passed over
      have hle : value ≤ range.expectedHighWater := by
        rw [hown] at hnone
        simpa using hnone
      simp [hle, eq_comm]
  | rowDelete primaryKey =>
    simp only [visitRecord, RowAccepted]
    rcases hown : ownedRowValue range primaryKey with err | _ | value
    · simp
    · simp [eq_comm]
    · by_cases hle : value ≤ range.expectedHighWater
      · simp [hle, Nat.not_lt.mpr hle, eq_comm]
      · simp [hle, Nat.lt_of_not_le hle]
  | _ => simp [visitRecord, RowAccepted, eq_comm]

/-- A record that allocates `value` is accepted exactly when `value` is the
next allocation and both counters have room for it. -/
theorem visitRecord_eq_ok_iff_of_allocatedValue_some {record : JournalRecord} {value : Nat}
    (hsome : allocatedValue range record = some value) {a c : Nat} {s : Nat × Nat} :
    visitRecord range (a, c) record = .ok s ↔
      value ≤ range.newHighWater ∧ a + 1 < 2 ^ 128 ∧ c + 1 < 2 ^ 32 ∧ value = a + 1 ∧
        s = (a + 1, c + 1) := by
  obtain ⟨primaryKey, rfl, hown, hlt⟩ := allocatedValue_eq_some_iff.mp hsome
  simp only [visitRecord, hown, ok_bind, if_neg (Nat.not_le.mpr hlt), bind_eq_ok_iff,
    failIf_eq_ok_iff, okOrElse_eq_ok_iff, Schema.checkedAdd_eq_some_iff, pure_eq_ok_iff]
  constructor
  · rintro ⟨-, hfits, ea, ⟨hea, rfl⟩, cnt, ⟨hcnt, rfl⟩, -, hvalue, rfl⟩
    exact ⟨Nat.le_of_not_lt hfits, hea, hcnt, not_not.mp hvalue, rfl⟩
  · rintro ⟨hfits, hea, hcnt, rfl, rfl⟩
    exact ⟨(), Nat.not_lt.mpr hfits, _, ⟨hea, rfl⟩, _, ⟨hcnt, rfl⟩, (), not_not.mpr rfl, rfl⟩

end Step

/-! ### The pass over the records -/

section Run

variable (range : Schema.IdentityRangeAdvance)

/-- The run lemma of the pass, from any state that keeps
`expected_allocation = expected + count` within the range: it succeeds exactly
when every record is accepted and the allocated values go on from
`expected_allocation` without a gap, and it ends on the last of them. -/
theorem foldlM_visitRecord_eq_ok_iff :
    ∀ (records : List JournalRecord) {a c : Nat} {s : Nat × Nat},
      a = range.expectedHighWater + c → a ≤ range.newHighWater →
      (records.foldlM (visitRecord range) (a, c) = .ok s ↔
        (∀ record ∈ records, RowAccepted range record) ∧
        allocatedValues range records =
          List.range' (a + 1) (allocatedValues range records).length ∧
        a + (allocatedValues range records).length ≤ range.newHighWater ∧
        s = (a + (allocatedValues range records).length,
          c + (allocatedValues range records).length))
  | [], a, c, s, _, hfit => by
    simp [allocatedValues, hfit, eq_comm]
  | record :: rest, a, c, s, hac, hfit => by
    rw [List.foldlM_cons, bind_eq_ok_iff, List.forall_mem_cons]
    cases hvalue : allocatedValue range record with
    | none =>
      -- the record allocates nothing: the pass goes on from the same state
      have hvalues : allocatedValues range (record :: rest) = allocatedValues range rest := by
        simp [allocatedValues, hvalue]
      have hstep : (∃ state, visitRecord range (a, c) record = .ok state ∧
            rest.foldlM (visitRecord range) state = .ok s) ↔
          RowAccepted range record ∧ rest.foldlM (visitRecord range) (a, c) = .ok s := by
        simp only [visitRecord_eq_ok_iff_of_allocatedValue_none hvalue]
        constructor
        · rintro ⟨_, ⟨haccept, rfl⟩, hrest⟩
          exact ⟨haccept, hrest⟩
        · rintro ⟨haccept, hrest⟩
          exact ⟨_, ⟨haccept, rfl⟩, hrest⟩
      rw [hstep, foldlM_visitRecord_eq_ok_iff rest hac hfit, hvalues, and_assoc]
    | some value =>
      -- the record allocates `value`, which has to be `a + 1`
      have hvalues :
          allocatedValues range (record :: rest) = value :: allocatedValues range rest := by
        simp [allocatedValues, hvalue]
      have haccept := rowAccepted_of_allocatedValue_eq_some hvalue
      simp only [visitRecord_eq_ok_iff_of_allocatedValue_some hvalue, hvalues,
        List.length_cons, List.range'_succ, List.cons.injEq]
      by_cases hnext : a + 1 ≤ range.newHighWater
      · have hcounters : a + 1 < 2 ^ 128 ∧ c + 1 < 2 ^ 32 := by
          have := range.newHighWater_lt
          have := range.expected_add_count
          have := range.allocationCount_lt
          omega
        have ih := foldlM_visitRecord_eq_ok_iff rest (a := a + 1) (c := c + 1) (s := s)
          (by omega) hnext
        constructor
        · rintro ⟨_, ⟨-, -, -, rfl, rfl⟩, hrest⟩
          obtain ⟨hacc, hvals, hfit', rfl⟩ := ih.mp hrest
          refine ⟨⟨haccept, hacc⟩, ⟨rfl, hvals⟩, by omega, ?_⟩
          simp only [Prod.mk.injEq]
          omega
        · rintro ⟨⟨-, hacc⟩, ⟨rfl, hvals⟩, hfit', rfl⟩
          refine ⟨_, ⟨hnext, hcounters.1, hcounters.2, rfl, rfl⟩, ih.mpr ⟨hacc, hvals, by omega, ?_⟩⟩
          simp only [Prod.mk.injEq]
          omega
      · -- no room above `a`: neither side holds
        constructor
        · rintro ⟨_, ⟨hle, -, -, rfl, -⟩, -⟩
          omega
        · rintro ⟨-, -, hfit', -⟩
          omega

/-- One range passes exactly when every record is accepted and the owner's
allocated values are `expected + 1, …, expected + count`. -/
theorem validateRangeRows_eq_ok_iff (records : List JournalRecord) :
    validateRangeRows records range = .ok () ↔
      (∀ record ∈ records, RowAccepted range record) ∧
      allocatedValues range records =
        List.range' (range.expectedHighWater + 1) range.allocationCount := by
  have hcount := range.expected_add_count
  have hrun := fun s => foldlM_visitRecord_eq_ok_iff range records
    (a := range.expectedHighWater) (c := 0) (s := s) rfl (by omega)
  simp only [validateRangeRows, bind_eq_ok_iff, failIf_eq_ok_iff, hrun]
  constructor
  · rintro ⟨_, ⟨hacc, hvals, -, rfl⟩, hfinal⟩
    -- the final check pins the number of allocations to the range's count
    have hk : (allocatedValues range records).length = range.allocationCount := by
      simp only [Nat.zero_add, ne_eq, not_or, not_not] at hfinal
      exact hfinal.1
    rw [hk] at hvals
    exact ⟨hacc, hvals⟩
  · rintro ⟨hacc, hvals⟩
    have hk : (allocatedValues range records).length = range.allocationCount := by
      rw [hvals, List.length_range']
    refine ⟨_, ⟨hacc, by rw [hk]; exact hvals, by omega, rfl⟩, ?_⟩
    simp only [Nat.zero_add, ne_eq, not_or, not_not]
    omega

end Run

/-- The range loop passes exactly when no owner repeats, among the ranges or
with an earlier one, and every range passes. -/
theorem validateRanges_eq_ok_iff (records : List JournalRecord) :
    ∀ (earlier ranges : List Schema.IdentityRangeAdvance),
      validateRanges records earlier ranges = .ok () ↔
        (∀ range ∈ ranges, range.owner ∉ earlier.map (·.owner)) ∧
        (ranges.map (·.owner)).Nodup ∧
        ∀ range ∈ ranges, validateRangeRows records range = .ok ()
  | earlier, [] => by simp [validateRanges]
  | earlier, range :: rest => by
    have hfresh : (earlier.any fun existing => existing.owner == range.owner) = true ↔
        range.owner ∈ earlier.map (·.owner) := by
      simp
    simp only [validateRanges, bind_eq_ok_iff, failIf_eq_ok_iff, hfresh,
      validateRanges_eq_ok_iff records (earlier ++ [range]) rest]
    simp only [List.forall_mem_cons, List.map_append, List.mem_append, List.map_cons,
      List.map_nil, List.mem_singleton, not_or, List.nodup_cons, List.mem_map]
    constructor
    · rintro ⟨⟨⟩, hnew, ⟨⟩, hrows, hrest, hnodup, hrestRows⟩
      refine ⟨⟨hnew, fun other hother => (hrest other hother).1⟩, ⟨?_, hnodup⟩, hrows, hrestRows⟩
      rintro ⟨other, hother, howner⟩
      exact (hrest other hother).2 howner
    · rintro ⟨⟨hnew, hrestNew⟩, ⟨hdistinct, hnodup⟩, hrows, hrestRows⟩
      refine ⟨(), hnew, (), hrows, fun other hother => ⟨hrestNew other hother, ?_⟩, hnodup,
        hrestRows⟩
      exact fun howner => hdistinct ⟨other, hother, howner⟩

/-! ### The batches the check accepts -/

/-- Every row key decodes as a data-store key. -/
def RowKeysDecode (records : List JournalRecord) : Prop :=
  ∀ record ∈ records, ∀ primaryKey, record.rowPrimaryKey = some primaryKey →
    ∃ key, DecodedDataStoreKey.tryFromRaw primaryKey = .ok key

/-- The rows of one range's owner entity are the allocation the range records. -/
structure RangeRowsFaithful (range : Schema.IdentityRangeAdvance)
    (records : List JournalRecord) : Prop where
  /-- Every row of the owner entity has a scalar `Nat64` or `Nat128` key. -/
  scalar_keys : ∀ record ∈ records, ∀ primaryKey, record.rowPrimaryKey = some primaryKey →
    ∀ key, DecodedDataStoreKey.tryFromRaw primaryKey = .ok key →
      key.entityTag = range.owner.entityTag →
        ∃ value, scalarNatValue key.primaryKeyValue = some value
  /-- Its puts above the expected high water are the range, in record order. -/
  allocations_exact : allocatedValues range records =
    List.range' (range.expectedHighWater + 1) (range.newHighWater - range.expectedHighWater)
  allocations_count : (allocatedValues range records).length = range.allocationCount
  /-- Its deletes stay at or below the expected high water. -/
  deletes_below : ∀ primaryKey, .rowDelete primaryKey ∈ records →
    ∀ key, DecodedDataStoreKey.tryFromRaw primaryKey = .ok key →
      key.entityTag = range.owner.entityTag →
        ∀ value, scalarNatValue key.primaryKeyValue = some value →
          value ≤ range.expectedHighWater

/-- The batches whose row records are the allocations their ranges record. -/
structure AllocationFaithful (batch : JournalBatch) : Prop where
  owners_nodup : (batch.ranges.map (·.owner)).Nodup
  keys_decode : batch.ranges ≠ [] → RowKeysDecode batch.records
  ranges_faithful : ∀ range ∈ batch.ranges, RangeRowsFaithful range batch.records

section Accepted

variable {range : Schema.IdentityRangeAdvance}

/-- What one record asks, read declaratively: its key decodes, the owner's
key is a scalar identity value, and an owner's delete stays at or below the
expected high water. -/
theorem rowAccepted_iff {record : JournalRecord} :
    RowAccepted range record ↔
      (∀ primaryKey, record.rowPrimaryKey = some primaryKey →
        ∃ key, DecodedDataStoreKey.tryFromRaw primaryKey = .ok key) ∧
      (∀ primaryKey, record.rowPrimaryKey = some primaryKey →
        ∀ key, DecodedDataStoreKey.tryFromRaw primaryKey = .ok key →
          key.entityTag = range.owner.entityTag →
            ∃ value, scalarNatValue key.primaryKeyValue = some value) ∧
      (∀ primaryKey, record = .rowDelete primaryKey →
        ∀ key, DecodedDataStoreKey.tryFromRaw primaryKey = .ok key →
          key.entityTag = range.owner.entityTag →
            ∀ value, scalarNatValue key.primaryKeyValue = some value →
              value ≤ range.expectedHighWater) := by
  cases record with
  | rowPut primaryKey =>
    simp only [RowAccepted, ownedRowValue_eq_ok_iff, JournalRecord.rowPrimaryKey,
      Option.some.injEq, forall_eq', reduceCtorEq]
    cases hkey : DecodedDataStoreKey.tryFromRaw primaryKey with
    | error err => simp
    | ok key =>
      by_cases hentity : key.entityTag = range.owner.entityTag
      · cases hvalue : scalarNatValue key.primaryKeyValue <;> simp [hentity, hvalue]
      · simp [hentity]
  | rowDelete primaryKey =>
    simp only [RowAccepted, ownedRowValue_eq_ok_iff, JournalRecord.rowPrimaryKey,
      Option.some.injEq, forall_eq', JournalRecord.rowDelete.injEq]
    cases hkey : DecodedDataStoreKey.tryFromRaw primaryKey with
    | error err => simp
    | ok key =>
      by_cases hentity : key.entityTag = range.owner.entityTag
      · cases hvalue : scalarNatValue key.primaryKeyValue <;> simp [hentity, hvalue]
      · simp [hentity]
  | _ => simp [RowAccepted, JournalRecord.rowPrimaryKey]

/-- The records accepted one by one are those whose keys decode and whose
owner rows meet conditions (2) and (4). -/
theorem forall_rowAccepted_iff {records : List JournalRecord} :
    (∀ record ∈ records, RowAccepted range record) ↔
      RowKeysDecode records ∧
      (∀ record ∈ records, ∀ primaryKey, record.rowPrimaryKey = some primaryKey →
        ∀ key, DecodedDataStoreKey.tryFromRaw primaryKey = .ok key →
          key.entityTag = range.owner.entityTag →
            ∃ value, scalarNatValue key.primaryKeyValue = some value) ∧
      (∀ primaryKey, .rowDelete primaryKey ∈ records →
        ∀ key, DecodedDataStoreKey.tryFromRaw primaryKey = .ok key →
          key.entityTag = range.owner.entityTag →
            ∀ value, scalarNatValue key.primaryKeyValue = some value →
              value ≤ range.expectedHighWater) := by
  simp only [rowAccepted_iff, RowKeysDecode]
  constructor
  · intro h
    exact ⟨fun record hrecord => (h record hrecord).1, fun record hrecord => (h record hrecord).2.1,
      fun primaryKey hdelete => (h _ hdelete).2.2 primaryKey rfl⟩
  · rintro ⟨hdecode, hscalar, hdeletes⟩ record hrecord
    refine ⟨hdecode record hrecord, hscalar record hrecord, ?_⟩
    rintro primaryKey rfl
    exact hdeletes primaryKey hrecord

/-- One range passes exactly when the row keys decode and the owner's rows are
the range's allocation. -/
theorem validateRangeRows_eq_ok_iff_faithful (records : List JournalRecord) :
    validateRangeRows records range = .ok () ↔
      RowKeysDecode records ∧ RangeRowsFaithful range records := by
  have hcount : range.newHighWater - range.expectedHighWater = range.allocationCount := by
    have := range.expected_add_count
    omega
  rw [validateRangeRows_eq_ok_iff, forall_rowAccepted_iff]
  constructor
  · rintro ⟨⟨hdecode, hscalar, hdeletes⟩, hvalues⟩
    refine ⟨hdecode, ⟨hscalar, ?_, ?_, hdeletes⟩⟩
    · rw [hcount]
      exact hvalues
    · rw [hvalues, List.length_range']
  · rintro ⟨hdecode, ⟨hscalar, hvalues, -, hdeletes⟩⟩
    rw [hcount] at hvalues
    exact ⟨⟨hdecode, hscalar, hdeletes⟩, hvalues⟩

end Accepted

theorem identityRangeRowSets_accepted_iff_allocationFaithful (batch : JournalBatch) :
    validateIdentityRangeRowSets batch = .ok () ↔ AllocationFaithful batch := by
  rw [validateIdentityRangeRowSets, validateRanges_eq_ok_iff]
  simp only [List.map_nil, List.not_mem_nil, not_false_eq_true, implies_true, true_and,
    validateRangeRows_eq_ok_iff_faithful]
  constructor
  · rintro ⟨hnodup, hranges⟩
    refine ⟨hnodup, fun hne => ?_, fun range hrange => (hranges range hrange).2⟩
    -- every range asks that the row keys decode; one range is enough
    obtain ⟨range, hrange⟩ := List.exists_mem_of_ne_nil _ hne
    exact (hranges range hrange).1
  · rintro ⟨hnodup, hdecode, hfaithful⟩
    exact ⟨hnodup, fun range hrange =>
      ⟨hdecode (List.ne_nil_of_mem hrange), hfaithful range hrange⟩⟩

/-- A range of one value, `1`, for an owner of entity `7`. -/
def unitRange : Schema.IdentityRangeAdvance where
  owner := ⟨[1], ⟨7⟩, 0⟩
  expectedHighWater := 0
  newHighWater := 1
  allocationCount := 1
  allocationCount_ne_zero := by decide
  allocationCount_lt := by decide
  expected_add_count := by decide
  newHighWater_lt := by decide

/-- The raw key of entity `7`'s row with the `Nat64` key `1`. -/
def unitRangeRowKey : List UInt8 := [0, 0, 0, 0, 0, 0, 0, 7, 0x01, 0, 0, 0, 0, 0, 0, 0, 1]

theorem unitRange_put_allocationFaithful :
    AllocationFaithful ⟨[.identityRangeAdvance unitRange, .rowPut unitRangeRowKey]⟩ :=
  (identityRangeRowSets_accepted_iff_allocationFaithful _).mp rfl

/-- A batch that meets conditions (1)–(4) but carries a row key too short to
decode: the check rejects it. -/
theorem identityRangeRowSets_reject_undecodable_row_key :
    let batch : JournalBatch :=
      ⟨[.identityRangeAdvance unitRange, .rowPut unitRangeRowKey, .rowPut [7]]⟩
    (batch.ranges.map (·.owner)).Nodup ∧
      (∀ range ∈ batch.ranges, RangeRowsFaithful range batch.records) ∧
      validateIdentityRangeRowSets batch = .error .journalBatchCorruption := by
  intro batch
  have hkey : DecodedDataStoreKey.tryFromRaw unitRangeRowKey = .ok ⟨⟨7⟩, .scalar (.nat64 1)⟩ :=
    rfl
  have hshort : DecodedDataStoreKey.tryFromRaw [7] = .error .storeKey := rfl
  have hranges : batch.ranges = [unitRange] := rfl
  refine ⟨by simp [hranges], ?_, rfl⟩
  simp only [hranges, List.mem_singleton, forall_eq]
  refine ⟨?_, by decide, by decide, ?_⟩
  · intro record hrecord primaryKey hprimaryKey key hdecode _
    simp only [batch, List.mem_cons, List.not_mem_nil, or_false] at hrecord
    rcases hrecord with rfl | rfl | rfl
    · simp [JournalRecord.rowPrimaryKey] at hprimaryKey
    · simp only [JournalRecord.rowPrimaryKey, Option.some.injEq] at hprimaryKey
      rw [← hprimaryKey, hkey, Except.ok.injEq] at hdecode
      exact ⟨1, by rw [← hdecode]; rfl⟩
    · simp only [JournalRecord.rowPrimaryKey, Option.some.injEq] at hprimaryKey
      rw [← hprimaryKey, hshort] at hdecode
      cases hdecode
  · intro primaryKey hdelete
    simp [batch] at hdelete

end Journal

end IcyDb
