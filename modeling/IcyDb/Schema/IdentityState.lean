import IcyDb.Executor.GroupKey
import IcyDb.Control.Except

/-!
# Identity allocation state

An `Identity` field draws its values from one counter per owner.  The state
record keeps the materialized high water and the advance id of the last range
applied to it.  A statement opens a cursor on an active state and allocates
values one by one in input order, each the next number above the tentative
high water rendered as the kind's runtime value; the cursor then becomes one
contiguous `IdentityRangeAdvance`.  Commit applies the range to the state
under the advance id of its journal record, and recovery applies it again:
`range_commit_state` tells the replay of the range last applied apart from a
pending one and rejects every other range.

This file embeds `db::schema::identity_state`: owners, ranges with the checks
of `IdentityRangeAdvance::try_new`, the state record with those of
`IdentityState::try_new`, `apply_range_advance`, the statement cursor and
`identity_runtime_value`.  Owner and advance ids are compared only for
equality, so their byte arrays are lists.
-/

namespace IcyDb

namespace Schema

open Except

/-- The `InternalError` constructors identity allocation raises. -/
inductive InternalError
  | identityStateCorruption
  | storeInvariant
  | identityExhausted
  | identityCandidateCountExhausted
deriving DecidableEq, Repr

/-- `checked_add` on an unsigned integer of `width` bits. -/
def checkedAdd (width a b : Nat) : Option Nat :=
  if a + b < 2 ^ width then some (a + b) else none

theorem checkedAdd_eq_some_iff {width a b c : Nat} :
    checkedAdd width a b = some c ↔ a + b < 2 ^ width ∧ a + b = c := by
  unfold checkedAdd
  split <;> simp_all

theorem checkedAdd_eq_none_iff {width a b : Nat} :
    checkedAdd width a b = none ↔ 2 ^ width ≤ a + b := by
  unfold checkedAdd
  split <;> simp_all

/-- `identity_kind_maximum`: the largest value of each unsigned kind; the
other kinds cannot carry an identity. -/
def identityKindMaximum : AcceptedFieldKind → Option Nat
  | .nat8 => some (2 ^ 8 - 1)
  | .nat16 => some (2 ^ 16 - 1)
  | .nat32 => some (2 ^ 32 - 1)
  | .nat64 => some (2 ^ 64 - 1)
  | .nat128 => some (2 ^ 128 - 1)
  | _ => none

theorem lt_of_identityKindMaximum {kind : AcceptedFieldKind} {maximum : Nat}
    (h : identityKindMaximum kind = some maximum) : maximum < 2 ^ 128 := by
  cases kind <;> simp [identityKindMaximum] at h <;> subst h <;> norm_num

/-- `IdentityStateOwner`. -/
structure IdentityStateOwner where
  databaseIncarnationId : List UInt8
  entityTag : EntityTag
  fieldId : Nat
deriving DecidableEq

/-- `IdentityStateLifecycle`. -/
inductive IdentityStateLifecycle
  | active
  | retired
deriving DecidableEq, Repr

/-- `IdentityAdvanceId`: the journal envelope of one applied range. -/
structure IdentityAdvanceId where
  commitMarkerId : List UInt8
  journalBatchId : List UInt8
  journalSequence : Nat
  recordOrdinal : Nat
deriving DecidableEq

/-! ### Ranges -/

/-- `IdentityRangeAdvance`, built only by `try_new`: a non-empty `u32` count of
values from `expected_high_water + 1` up to `new_high_water`, within `u128`. -/
structure IdentityRangeAdvance where
  owner : IdentityStateOwner
  expectedHighWater : Nat
  newHighWater : Nat
  allocationCount : Nat
  allocationCount_ne_zero : allocationCount ≠ 0
  allocationCount_lt : allocationCount < 2 ^ 32
  expected_add_count : expectedHighWater + allocationCount = newHighWater
  newHighWater_lt : newHighWater < 2 ^ 128
deriving DecidableEq

/-- `IdentityRangeAdvance::try_new`.  The `u32` type of the count is the bound
`allocationCount < 2 ^ 32`. -/
def IdentityRangeAdvance.tryNew (owner : IdentityStateOwner)
    (expectedHighWater newHighWater allocationCount : Nat) :
    Except InternalError IdentityRangeAdvance :=
  if h : allocationCount ≠ 0 ∧ allocationCount < 2 ^ 32 ∧
      checkedAdd 128 expectedHighWater allocationCount = some newHighWater then
    .ok ⟨owner, expectedHighWater, newHighWater, allocationCount, h.1, h.2.1,
      (checkedAdd_eq_some_iff.mp h.2.2).2,
      (checkedAdd_eq_some_iff.mp h.2.2).2 ▸ (checkedAdd_eq_some_iff.mp h.2.2).1⟩
  else .error .identityStateCorruption

theorem IdentityRangeAdvance.tryNew_eq_ok (owner : IdentityStateOwner)
    {expectedHighWater count : Nat}
    (hcount : count ≠ 0) (hlt : count < 2 ^ 32) (hfits : expectedHighWater + count < 2 ^ 128) :
    ∃ range : IdentityRangeAdvance, IdentityRangeAdvance.tryNew owner expectedHighWater
        (expectedHighWater + count) count = .ok range ∧ range.owner = owner ∧
      range.expectedHighWater = expectedHighWater ∧ range.newHighWater = expectedHighWater + count ∧
      range.allocationCount = count := by
  have hadd : checkedAdd 128 expectedHighWater count = some (expectedHighWater + count) :=
    checkedAdd_eq_some_iff.mpr ⟨hfits, rfl⟩
  exact ⟨_, by rw [IdentityRangeAdvance.tryNew, dif_pos ⟨hcount, hlt, hadd⟩], rfl, rfl, rfl, rfl⟩

/-! ### The state record -/

/-- `IdentityState`, built only by `try_new`: an accepted unsigned kind, a high
water within its maximum, and an advance id exactly when the high water is
not zero. -/
structure IdentityState where
  owner : IdentityStateOwner
  acceptedKind : AcceptedFieldKind
  lifecycle : IdentityStateLifecycle
  materializedHighWater : Nat
  lastAppliedAdvance : Option IdentityAdvanceId
  highWater_le : ∃ maximum, identityKindMaximum acceptedKind = some maximum ∧
    materializedHighWater ≤ maximum
  highWater_eq_zero_iff : materializedHighWater = 0 ↔ lastAppliedAdvance = none

/-- `IdentityState::try_new`. -/
def IdentityState.tryNew (owner : IdentityStateOwner) (acceptedKind : AcceptedFieldKind)
    (lifecycle : IdentityStateLifecycle) (materializedHighWater : Nat)
    (lastAppliedAdvance : Option IdentityAdvanceId) : Except InternalError IdentityState :=
  match hmax : identityKindMaximum acceptedKind with
  | none => .error .identityStateCorruption
  | some maximum =>
    if h : materializedHighWater ≤ maximum ∧
        (materializedHighWater = 0 ↔ lastAppliedAdvance = none) then
      .ok ⟨owner, acceptedKind, lifecycle, materializedHighWater, lastAppliedAdvance,
        ⟨maximum, hmax, h.1⟩, h.2⟩
    else .error .identityStateCorruption

/-- `IdentityRangeCommitState`: whether the state record already holds a
committed range. -/
inductive IdentityRangeCommitState
  | pendingMaterialization (materializedHighWater committedHighWater : Nat)
  | materialized (highWater : Nat)
deriving DecidableEq, Repr

/-- `IdentityRangeCommitState::is_materialized`. -/
def IdentityRangeCommitState.isMaterialized : IdentityRangeCommitState → Bool
  | .materialized _ => true
  | .pendingMaterialization _ _ => false

namespace IdentityState

/-- `IdentityState::range_commit_state`: the range last applied is
materialized; a range that starts at the current high water under a new
advance id is pending; everything else is corruption. -/
def rangeCommitState (s : IdentityState) (range : IdentityRangeAdvance)
    (advanceId : IdentityAdvanceId) : Except InternalError IdentityRangeCommitState := do
  failIf (s.lifecycle ≠ .active ∨ s.owner ≠ range.owner) .identityStateCorruption
  let maximum ← okOrElse (identityKindMaximum s.acceptedKind) .identityStateCorruption
  failIf (maximum < range.newHighWater) .identityStateCorruption
  if s.materializedHighWater = range.newHighWater ∧ s.lastAppliedAdvance = some advanceId then
    pure (.materialized range.newHighWater)
  else do
    failIf (s.materializedHighWater ≠ range.expectedHighWater ∨
      s.lastAppliedAdvance = some advanceId) .identityStateCorruption
    pure (.pendingMaterialization s.materializedHighWater range.newHighWater)

/-- `IdentityState::apply_range_advance`. -/
def applyRangeAdvance (s : IdentityState) (range : IdentityRangeAdvance)
    (advanceId : IdentityAdvanceId) : Except InternalError IdentityState := do
  let commitState ← s.rangeCommitState range advanceId
  if commitState.isMaterialized then pure s
  else tryNew s.owner s.acceptedKind s.lifecycle range.newHighWater (some advanceId)

/-! ### What applying a range can do -/

theorem rangeCommitState_eq_ok_iff {s : IdentityState} {range : IdentityRangeAdvance}
    {advanceId : IdentityAdvanceId} {commitState : IdentityRangeCommitState} :
    s.rangeCommitState range advanceId = .ok commitState ↔
      s.lifecycle = .active ∧ s.owner = range.owner ∧
      (∃ maximum, identityKindMaximum s.acceptedKind = some maximum ∧ range.newHighWater ≤ maximum) ∧
      ((s.materializedHighWater = range.newHighWater ∧ s.lastAppliedAdvance = some advanceId ∧
          commitState = .materialized range.newHighWater) ∨
        (s.materializedHighWater = range.expectedHighWater ∧ s.lastAppliedAdvance ≠ some advanceId ∧
          commitState = .pendingMaterialization s.materializedHighWater range.newHighWater)) := by
  obtain ⟨maximum, hmax, -⟩ := s.highWater_le
  have hmaximum : ∀ m, identityKindMaximum s.acceptedKind = some m ∧ range.newHighWater ≤ m ↔
      m = maximum ∧ range.newHighWater ≤ maximum := by
    intro m
    rw [hmax, Option.some.injEq]
    constructor
    · rintro ⟨rfl, h⟩; exact ⟨rfl, h⟩
    · rintro ⟨rfl, h⟩; exact ⟨rfl, h⟩
  simp only [hmaximum, exists_eq_left]
  unfold rangeCommitState
  -- the guards in the order the source checks them
  by_cases hguard : s.lifecycle ≠ .active ∨ s.owner ≠ range.owner
  · rw [failIf_of_pos hguard, error_bind]
    simp only [reduceCtorEq, false_iff]
    tauto
  rw [failIf_of_not hguard, ok_bind, hmax, okOrElse_some, ok_bind]
  push Not at hguard
  by_cases hbound : maximum < range.newHighWater
  · rw [failIf_of_pos hbound, error_bind]
    simp only [reduceCtorEq, false_iff]
    omega
  rw [failIf_of_not hbound, ok_bind]
  simp only [hguard, true_and, Nat.not_lt.mp hbound]
  by_cases hmat : s.materializedHighWater = range.newHighWater ∧ s.lastAppliedAdvance = some advanceId
  · -- the range last applied
    rw [if_pos hmat]
    simp [pure, Except.pure, hmat, eq_comm]
  rw [if_neg hmat]
  by_cases hpend : s.materializedHighWater ≠ range.expectedHighWater ∨
      s.lastAppliedAdvance = some advanceId
  · rw [failIf_of_pos hpend, error_bind]
    simp only [reduceCtorEq, false_iff]
    tauto
  rw [failIf_of_not hpend, ok_bind]
  push Not at hpend
  simp [pure, Except.pure, hpend, eq_comm]

theorem tryNew_eq_ok_iff {owner : IdentityStateOwner} {acceptedKind : AcceptedFieldKind}
    {lifecycle : IdentityStateLifecycle} {highWater : Nat} {lastAppliedAdvance : Option IdentityAdvanceId}
    {s : IdentityState} :
    tryNew owner acceptedKind lifecycle highWater lastAppliedAdvance = .ok s ↔
      (∃ maximum, identityKindMaximum acceptedKind = some maximum ∧ highWater ≤ maximum) ∧
      (highWater = 0 ↔ lastAppliedAdvance = none) ∧
      s.owner = owner ∧ s.acceptedKind = acceptedKind ∧ s.lifecycle = lifecycle ∧
      s.materializedHighWater = highWater ∧ s.lastAppliedAdvance = lastAppliedAdvance := by
  unfold tryNew
  split
  · rename_i hmax
    simp [hmax]
  · rename_i maximum hmax
    split
    · rename_i h
      constructor
      · rintro ⟨⟩
        exact ⟨⟨maximum, hmax, h.1⟩, h.2, rfl, rfl, rfl, rfl, rfl⟩
      · rintro ⟨-, -, rfl, rfl, rfl, rfl, rfl⟩
        rfl
    · rename_i h
      simp only [reduceCtorEq, false_iff]
      rintro ⟨⟨m, hm, hle⟩, hzero, -⟩
      rw [hmax, Option.some.injEq] at hm
      exact h ⟨hm ▸ hle, hzero⟩

/-- What applying a range can do: return the state unchanged for the range
last applied under its own advance id, or move the high water from the
range's expected value to its new value under a new advance id.  Any other
range, owner, lifecycle or maximum is rejected. -/
theorem applyRangeAdvance_eq_ok_iff {s : IdentityState} {range : IdentityRangeAdvance}
    {advanceId : IdentityAdvanceId} {s' : IdentityState} :
    s.applyRangeAdvance range advanceId = .ok s' ↔
      s.lifecycle = .active ∧ s.owner = range.owner ∧
      (∃ maximum, identityKindMaximum s.acceptedKind = some maximum ∧ range.newHighWater ≤ maximum) ∧
      ((s.materializedHighWater = range.newHighWater ∧ s.lastAppliedAdvance = some advanceId ∧
          s' = s) ∨
        (s.materializedHighWater = range.expectedHighWater ∧ s.lastAppliedAdvance ≠ some advanceId ∧
          s'.owner = s.owner ∧ s'.acceptedKind = s.acceptedKind ∧ s'.lifecycle = s.lifecycle ∧
          s'.materializedHighWater = range.newHighWater ∧
          s'.lastAppliedAdvance = some advanceId)) := by
  have hnew : range.newHighWater ≠ 0 := by
    have := range.allocationCount_ne_zero
    have := range.expected_add_count
    omega
  unfold applyRangeAdvance
  rw [bind_eq_ok_iff]
  constructor
  · rintro ⟨commitState, hcommit, happly⟩
    obtain ⟨hactive, howner, hbound, hcase⟩ := rangeCommitState_eq_ok_iff.mp hcommit
    refine ⟨hactive, howner, hbound, ?_⟩
    rcases hcase with ⟨hhigh, hlast, rfl⟩ | ⟨hhigh, hlast, rfl⟩
    · -- materialized: the state comes back unchanged
      exact .inl ⟨hhigh, hlast, (Except.ok.inj happly).symm⟩
    · -- pending: `try_new` stamps the new high water and advance id
      obtain ⟨-, -, ho, hk, hl, hh, ha⟩ := tryNew_eq_ok_iff.mp happly
      exact .inr ⟨hhigh, hlast, ho, hk, hl, hh, ha⟩
  · rintro ⟨hactive, howner, hbound, hcase⟩
    rcases hcase with ⟨hhigh, hlast, rfl⟩ | ⟨hhigh, hlast, ho, hk, hl, hh, ha⟩
    · exact ⟨_, rangeCommitState_eq_ok_iff.mpr ⟨hactive, howner, hbound, .inl ⟨hhigh, hlast, rfl⟩⟩,
        rfl⟩
    · refine ⟨_, rangeCommitState_eq_ok_iff.mpr ⟨hactive, howner, hbound, .inr ⟨hhigh, hlast, rfl⟩⟩,
        ?_⟩
      obtain ⟨maximum, hmax, hle⟩ := hbound
      exact tryNew_eq_ok_iff.mpr ⟨⟨maximum, hmax, hle⟩, by simp [hnew], ho, hk, hl, hh, ha⟩

/-- A range that starts at the state's high water applies under a new advance
id. -/
theorem exists_applyRangeAdvance_of_pending {s : IdentityState} {range : IdentityRangeAdvance}
    {advanceId : IdentityAdvanceId} (hactive : s.lifecycle = .active) (howner : s.owner = range.owner)
    {maximum : Nat} (hmax : identityKindMaximum s.acceptedKind = some maximum)
    (hle : range.newHighWater ≤ maximum) (hexpected : s.materializedHighWater = range.expectedHighWater)
    (hfresh : s.lastAppliedAdvance ≠ some advanceId) :
    ∃ s', s.applyRangeAdvance range advanceId = .ok s' ∧ s'.owner = s.owner ∧
      s'.acceptedKind = s.acceptedKind ∧ s'.lifecycle = s.lifecycle ∧
      s'.materializedHighWater = range.newHighWater ∧ s'.lastAppliedAdvance = some advanceId := by
  have hnew : range.newHighWater ≠ 0 := by
    have := range.allocationCount_ne_zero
    have := range.expected_add_count
    omega
  let s' : IdentityState := ⟨s.owner, s.acceptedKind, s.lifecycle, range.newHighWater,
    some advanceId, ⟨maximum, hmax, hle⟩, by simp [hnew]⟩
  exact ⟨s', applyRangeAdvance_eq_ok_iff.mpr ⟨hactive, howner, ⟨maximum, hmax, hle⟩,
    .inr ⟨hexpected, hfresh, rfl, rfl, rfl, rfl, rfl⟩⟩, rfl, rfl, rfl, rfl, rfl⟩

/-- A range committed on the way, applied again to the state a run ends in,
returns that state or is rejected: the range last applied is materialized, an
earlier one starts below the high water. -/
theorem applyRangeAdvance_replay {s : IdentityState} {range : IdentityRangeAdvance}
    {advanceId : IdentityAdvanceId} (hle : range.newHighWater ≤ s.materializedHighWater)
    {s' : IdentityState} (happly : s.applyRangeAdvance range advanceId = .ok s') : s' = s := by
  obtain ⟨-, -, -, hcase⟩ := applyRangeAdvance_eq_ok_iff.mp happly
  rcases hcase with ⟨-, -, rfl⟩ | ⟨hexpected, -⟩
  · rfl
  · have := range.allocationCount_ne_zero
    have := range.expected_add_count
    omega

end IdentityState

/-! ### Statement cursors -/

/-- `AcceptedIdentityAllocation`: one tentative value for one input row. -/
structure AcceptedIdentityAllocation where
  owner : IdentityStateOwner
  fieldSlot : Nat
  inputOrdinal : Nat
  value : Value

/-- `identity_runtime_value`: a canonical identity as the kind's runtime
value, `Nat64` for the kinds up to 64 bits. -/
def identityRuntimeValue (kind : AcceptedFieldKind) (value : Nat) : Except InternalError Value := do
  let maximum ← okOrElse (identityKindMaximum kind) .identityStateCorruption
  failIf (value = 0 ∨ maximum < value) .identityExhausted
  match kind with
  | .nat8 | .nat16 | .nat32 | .nat64 =>
    if value < 2 ^ 64 then pure (.nat64 (BitVec.ofNat 64 value)) else throw .identityExhausted
  | .nat128 => pure (.nat128 (BitVec.ofNat 128 value))
  | _ => throw .identityStateCorruption

/-- What `identity_runtime_value` returns: the value as a `Nat64` below
`2 ^ 64` or as a `Nat128`. -/
theorem identityRuntimeValue_cases {kind : AcceptedFieldKind} {v : Nat} {x : Value}
    (h : identityRuntimeValue kind v = .ok x) :
    (x = .nat64 (BitVec.ofNat 64 v) ∧ v < 2 ^ 64) ∨ (x = .nat128 (BitVec.ofNat 128 v) ∧ v < 2 ^ 128) := by
  unfold identityRuntimeValue at h
  cases hmax : identityKindMaximum kind with
  | none => rw [hmax, okOrElse_none, error_bind] at h; cases h
  | some maximum =>
    rw [hmax, okOrElse_some, ok_bind] at h
    by_cases hguard : v = 0 ∨ maximum < v
    · rw [failIf_of_pos hguard, error_bind] at h; cases h
    rw [failIf_of_not hguard, ok_bind] at h
    have hlt := lt_of_identityKindMaximum hmax
    cases kind <;> simp only [identityKindMaximum, reduceCtorEq] at hmax <;> simp only at h
    all_goals first
      | (split at h
         · exact .inl ⟨(Except.ok.inj h).symm, by assumption⟩
         · cases h)
      | exact .inr ⟨(Except.ok.inj h).symm, by omega⟩

/-- Distinct identities render as distinct runtime values. -/
theorem identityRuntimeValue_injective {kind : AcceptedFieldKind} {v w : Nat} {x : Value}
    (hv : identityRuntimeValue kind v = .ok x) (hw : identityRuntimeValue kind w = .ok x) : v = w := by
  rcases identityRuntimeValue_cases hv with ⟨rfl, hvlt⟩ | ⟨rfl, hvlt⟩ <;>
    rcases identityRuntimeValue_cases hw with ⟨hx, hwlt⟩ | ⟨hx, hwlt⟩ <;>
    simp only [Value.nat64.injEq, Value.nat128.injEq, reduceCtorEq] at hx
  -- the runtime value keeps the number: both are below the width
  · have := congrArg BitVec.toNat hx
    rwa [BitVec.toNat_ofNat, BitVec.toNat_ofNat, Nat.mod_eq_of_lt hvlt, Nat.mod_eq_of_lt hwlt] at this
  · have := congrArg BitVec.toNat hx
    rwa [BitVec.toNat_ofNat, BitVec.toNat_ofNat, Nat.mod_eq_of_lt hvlt, Nat.mod_eq_of_lt hwlt] at this

theorem identityRuntimeValue_eq_ok {kind : AcceptedFieldKind} {maximum v : Nat}
    (hmax : identityKindMaximum kind = some maximum) (hpos : 0 < v) (hle : v ≤ maximum) :
    ∃ x, identityRuntimeValue kind v = .ok x := by
  unfold identityRuntimeValue
  rw [hmax, okOrElse_some, ok_bind, failIf_of_not (by omega), ok_bind]
  cases kind <;> simp only [identityKindMaximum, reduceCtorEq, Option.some.injEq] at hmax <;>
    subst hmax <;> first
      | exact ⟨_, rfl⟩
      | exact ⟨_, if_pos (show v < 2 ^ 64 by omega)⟩

theorem identityRuntimeValue_of_lt {kind : AcceptedFieldKind} {maximum v : Nat}
    (hmax : identityKindMaximum kind = some maximum) (hlt : maximum < v) :
    identityRuntimeValue kind v = .error .identityExhausted := by
  unfold identityRuntimeValue
  rw [hmax, okOrElse_some, ok_bind, failIf_of_pos (.inr hlt), error_bind]

/-- `IdentityStatementCursor`. -/
structure IdentityStatementCursor where
  owner : IdentityStateOwner
  acceptedKind : AcceptedFieldKind
  expectedHighWater : Nat
  tentativeHighWater : Nat
  allocationCount : Nat

namespace IdentityStatementCursor

/-- `IdentityStatementCursor::from_active_state`. -/
def fromActiveState (s : IdentityState) : Except InternalError IdentityStatementCursor := do
  failIf (s.lifecycle ≠ .active) .identityStateCorruption
  pure ⟨s.owner, s.acceptedKind, s.materializedHighWater, s.materializedHighWater, 0⟩

/-- `IdentityStatementCursor::allocate`: the cursor advances only when every
check passes. -/
def allocate (cursor : IdentityStatementCursor) (fieldSlot inputOrdinal : Nat) :
    Except InternalError (AcceptedIdentityAllocation × IdentityStatementCursor) := do
  failIf (inputOrdinal ≠ cursor.allocationCount) .storeInvariant
  let next ← okOrElse (checkedAdd 128 cursor.tentativeHighWater 1) .identityExhausted
  let value ← identityRuntimeValue cursor.acceptedKind next
  let allocationCount ← okOrElse (checkedAdd 32 cursor.allocationCount 1)
    .identityCandidateCountExhausted
  pure (⟨cursor.owner, fieldSlot, inputOrdinal, value⟩,
    { cursor with allocationCount := allocationCount, tentativeHighWater := next })

/-- `IdentityStatementCursor::has_allocations`. -/
def hasAllocations (cursor : IdentityStatementCursor) : Bool :=
  cursor.tentativeHighWater != cursor.expectedHighWater

/-- `IdentityStatementCursor::into_range_advance`. -/
def intoRangeAdvance (cursor : IdentityStatementCursor) :
    Except InternalError (Option IdentityRangeAdvance) :=
  if cursor.hasAllocations then
    (IdentityRangeAdvance.tryNew cursor.owner cursor.expectedHighWater cursor.tentativeHighWater
      cursor.allocationCount).map some
  else .ok none


theorem allocate_eq_ok {cursor : IdentityStatementCursor} {maximum : Nat}
    (hmax : identityKindMaximum cursor.acceptedKind = some maximum)
    (hnext : cursor.tentativeHighWater + 1 ≤ maximum) (hcount : cursor.allocationCount + 1 < 2 ^ 32)
    (fieldSlot : Nat) :
    ∃ value, identityRuntimeValue cursor.acceptedKind (cursor.tentativeHighWater + 1) = .ok value ∧
      cursor.allocate fieldSlot cursor.allocationCount =
        .ok (⟨cursor.owner, fieldSlot, cursor.allocationCount, value⟩,
          { cursor with allocationCount := cursor.allocationCount + 1,
                        tentativeHighWater := cursor.tentativeHighWater + 1 }) := by
  obtain ⟨value, hvalue⟩ := identityRuntimeValue_eq_ok hmax (Nat.succ_pos _) hnext
  have hnext128 : checkedAdd 128 cursor.tentativeHighWater 1 = some (cursor.tentativeHighWater + 1) :=
    checkedAdd_eq_some_iff.mpr ⟨by have := lt_of_identityKindMaximum hmax; omega, rfl⟩
  have hcount32 : checkedAdd 32 cursor.allocationCount 1 = some (cursor.allocationCount + 1) :=
    checkedAdd_eq_some_iff.mpr ⟨hcount, rfl⟩
  refine ⟨value, hvalue, ?_⟩
  unfold allocate
  rw [failIf_of_not (not_not.mpr rfl), ok_bind, hnext128, okOrElse_some, ok_bind, hvalue, ok_bind,
    hcount32, okOrElse_some, ok_bind]
  rfl

/-- Past the kind's maximum the cursor refuses to allocate. -/
theorem allocate_of_exhausted {cursor : IdentityStatementCursor} {maximum : Nat}
    (hmax : identityKindMaximum cursor.acceptedKind = some maximum)
    (hlt : maximum < cursor.tentativeHighWater + 1) (fieldSlot : Nat) :
    cursor.allocate fieldSlot cursor.allocationCount = .error .identityExhausted := by
  unfold allocate
  rw [failIf_of_not (not_not.mpr rfl), ok_bind]
  cases hadd : checkedAdd 128 cursor.tentativeHighWater 1 with
  | none => rfl
  | some next =>
    obtain ⟨-, rfl⟩ := checkedAdd_eq_some_iff.mp hadd
    rw [okOrElse_some, ok_bind, identityRuntimeValue_of_lt hmax hlt, error_bind]

theorem fromActiveState_eq {s : IdentityState} (hactive : s.lifecycle = .active) :
    fromActiveState s =
      .ok ⟨s.owner, s.acceptedKind, s.materializedHighWater, s.materializedHighWater, 0⟩ := by
  unfold fromActiveState
  rw [failIf_of_not (not_not.mpr hactive), ok_bind]
  rfl

/-- A cursor that allocated `k > 0` values becomes the range of those values. -/
theorem intoRangeAdvance_eq_some (owner : IdentityStateOwner) (kind : AcceptedFieldKind)
    {highWater k : Nat} (hk : k ≠ 0) (hlt : k < 2 ^ 32) (hfits : highWater + k < 2 ^ 128) :
    ∃ range : IdentityRangeAdvance,
      (⟨owner, kind, highWater, highWater + k, k⟩ : IdentityStatementCursor).intoRangeAdvance =
        .ok (some range) ∧ range.owner = owner ∧ range.expectedHighWater = highWater ∧
      range.newHighWater = highWater + k := by
  obtain ⟨range, hrange, ho, he, hn, -⟩ := IdentityRangeAdvance.tryNew_eq_ok owner hk hlt hfits
  refine ⟨range, ?_, ho, he, hn⟩
  have hhas : (⟨owner, kind, highWater, highWater + k, k⟩ : IdentityStatementCursor).hasAllocations := by
    simp [hasAllocations, hk]
  simp only [intoRangeAdvance, hhas, if_true, hrange]
  rfl

end IdentityStatementCursor

end Schema

end IcyDb
