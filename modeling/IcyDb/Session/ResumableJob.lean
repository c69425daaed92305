import IcyDb.Schema.IdentityState
import Mathlib.Logic.Function.Basic

/-!
# Resumable jobs

An application drives a long job page by page through
`compare_proof_and_advance`.  The job's durable record in the excluded
progress store holds its state (the next expected sequence, its status, the
protected-source proof, the continuation and the application's accumulator)
and the receipt of the last committed request.  A request names the sequence
it observed and an idempotency key.  Replaying the last request returns its
receipt; any other request must find the job active at its sequence.  The
proof is checked before and after the application's page, and drift on either
side commits an invalidation instead of the page.  The final write reloads the
record and repeats the replay and readiness checks, since the page may itself
have called into the progress store.

This file embeds `db::resumable_job` (the records, `apply_advance`,
`invalidate`, `validate`), the resumable part of the progress store and the
session calls of `db::session::resumable_job`.  The protected-source proof and
its revision errors stay abstract: a proof is any `π` with its `validate`, a
revision error any `ρ` with `is_source_change`, and the session's checks of a
proof against the live database are parameters, so that they may answer
differently before and after the page.  The store holds decoded records by job
id; its byte encoding, whose decoder validates the record again and checks its
id, is taken as a round trip.
-/

namespace IcyDb

namespace ResumableJob

open Except

/-! ### Bounds, identities and errors -/

/-- `MAX_RESUMABLE_JOB_STATE_BYTES`. -/
def maxResumableJobStateBytes : Nat := 256 * 1024

/-- `MAX_RESUMABLE_JOB_RECEIPT_BYTES`. -/
def maxResumableJobReceiptBytes : Nat := 64 * 1024

/-- `MAX_RESUMABLE_JOB_IDEMPOTENCY_KEY_BYTES`. -/
def maxResumableJobIdempotencyKeyBytes : Nat := 256

/-- `MAX_RESUMABLE_JOB_CONTINUATION_BYTES`. -/
def maxResumableJobContinuationBytes : Nat := 16 * 1024

/-- `MAX_PROGRESS_JOBS_NON_INTEGRITY`: the shared store's capacity for jobs
other than integrity jobs. -/
def maxProgressJobsNonIntegrity : Nat := 56

/-- `ResumableJobId`: the application's 32 identity bytes. -/
structure ResumableJobId where
  toBytes : Vector UInt8 32
deriving DecidableEq, Repr

/-- The all-zero identity, which no job may carry. -/
def zeroJobIdBytes : Vector UInt8 32 := Vector.replicate 32 0

/-- `ResumableJobIdempotencyKey`: the application's name for one request. -/
structure ResumableJobIdempotencyKey where
  value : String
deriving DecidableEq, Repr

/-- What the protocol uses of `ReadSetRevisionProof` and
`ReadSetRevisionError`: the proof's own `validate`, and whether an error
reports that the protected source changed. -/
structure ReadSetRevision (π ρ : Type) where
  validate : π → Except ρ Unit
  isSourceChange : ρ → Bool

/-- `ResumableJobError`, but for `IncompatibleProgressFormat`, which only the
byte decoder raises, and `ExecutionBudgetExceeded`, which only the budget
charge raises. -/
inductive ResumableJobError (ρ : Type)
  | invalidJobId
  | invalidIdempotencyKey
  | payloadTooLarge
  | alreadyExists
  | notFound
  | staleSequence (expected actual : Nat)
  | invalidated
  | completed
  | notTerminal
  | sourceProof (error : ρ)
  | capacityExceeded
  | corruptProgressStore
  | internal
deriving DecidableEq, Repr

/-- `ExhaustiveReadError`: a revision error of the proof, or a query failure
whose payload the protocol drops. -/
inductive ExhaustiveReadError (ρ : Type)
  | revision (error : ρ)
  | query
deriving DecidableEq, Repr

/-- `CompareProofAndAdvanceError`. -/
inductive CompareProofAndAdvanceError (ρ ε : Type)
  | protocol (error : ResumableJobError ρ)
  | operation (error : ε)
deriving DecidableEq, Repr

/-- `map_exhaustive_error`. -/
def mapExhaustiveError {ρ : Type} : ExhaustiveReadError ρ → ResumableJobError ρ
  | .revision e => .sourceProof e
  | .query => .internal

/-! ### States, requests and receipts -/

/-- `ResumableJobStatus`. -/
inductive ResumableJobStatus
  | active
  | completed
  | invalidated
deriving DecidableEq, Repr

/-- `ResumableJobAdvanceStatus`. -/
inductive ResumableJobAdvanceStatus
  | advanced
  | invalidated
deriving DecidableEq, Repr

/-- `ResumableJobState`. -/
structure ResumableJobState (π : Type) where
  jobId : ResumableJobId
  sequence : Nat
  status : ResumableJobStatus
  proof : π
  continuation : Option String
  applicationState : List UInt8

/-- `ResumableJobAdvanceRequest`. -/
structure ResumableJobAdvanceRequest where
  jobId : ResumableJobId
  expectedSequence : Nat
  idempotencyKey : ResumableJobIdempotencyKey
deriving DecidableEq, Repr

/-- `ResumableJobAdvance`: what one page hands back. -/
structure ResumableJobAdvance where
  continuation : Option String
  applicationState : List UInt8
  applicationReceipt : List UInt8
deriving DecidableEq, Repr

/-- `ResumableJobAdvanceReceipt`. -/
structure ResumableJobAdvanceReceipt where
  requestSequence : Nat
  committedSequence : Nat
  status : ResumableJobAdvanceStatus
  continuation : Option String
  applicationReceipt : List UInt8
  idempotencyKey : ResumableJobIdempotencyKey
deriving DecidableEq, Repr

/-- `ResumableJobRecord`. -/
structure ResumableJobRecord (π : Type) where
  state : ResumableJobState π
  lastReceipt : Option ResumableJobAdvanceReceipt

variable {π ρ : Type}

/-! ### Validation -/

/-- `validate_continuation`. -/
def validateContinuation (continuation : Option String) : Except (ResumableJobError ρ) Unit :=
  failIf (continuation.any fun value => value.utf8ByteSize > maxResumableJobContinuationBytes)
    .payloadTooLarge

/-- `ResumableJobIdempotencyKey::validate`. -/
def ResumableJobIdempotencyKey.validate (key : ResumableJobIdempotencyKey) :
    Except (ResumableJobError ρ) Unit :=
  failIf (key.value.isEmpty ∨ key.value.utf8ByteSize > maxResumableJobIdempotencyKeyBytes)
    .invalidIdempotencyKey

theorem ResumableJobIdempotencyKey.validate_eq_ok_iff {key : ResumableJobIdempotencyKey}
    {u : Unit} :
    (key.validate : Except (ResumableJobError ρ) Unit) = .ok u ↔
      ¬ (key.value.isEmpty ∨ key.value.utf8ByteSize > maxResumableJobIdempotencyKeyBytes) :=
  failIf_eq_ok_iff

/-- `ResumableJobAdvance::validate`. -/
def ResumableJobAdvance.validate (advance : ResumableJobAdvance) :
    Except (ResumableJobError ρ) Unit := do
  validateContinuation advance.continuation
  failIf (advance.applicationState.length > maxResumableJobStateBytes
      ∨ advance.applicationReceipt.length > maxResumableJobReceiptBytes) .payloadTooLarge

/-- The `state_matches_receipt` of `validate`: an advanced receipt leaves an
active or completed job at its continuation, an invalidation leaves no
continuation on either side. -/
def stateMatchesReceipt : ResumableJobStatus → ResumableJobAdvanceStatus →
    Option String → Option String → Bool
  | .active, .advanced, continuation, receiptContinuation
  | .completed, .advanced, continuation, receiptContinuation =>
    continuation == receiptContinuation
  | .invalidated, .invalidated, continuation, receiptContinuation =>
    continuation.isNone && receiptContinuation.isNone
  | _, _, _, _ => false

/-- `ResumableJobRecord::validate`.  A `?` on the proof's own check turns its
error into `SourceProof`. -/
def ResumableJobRecord.validate (R : ReadSetRevision π ρ) (record : ResumableJobRecord π) :
    Except (ResumableJobError ρ) Unit := do
  failIf (record.state.jobId.toBytes = zeroJobIdBytes) .invalidJobId
  (R.validate record.state.proof).mapError .sourceProof
  validateContinuation record.state.continuation
  failIf (record.state.applicationState.length > maxResumableJobStateBytes) .payloadTooLarge
  match record.lastReceipt with
  | some receipt => do
    receipt.idempotencyKey.validate
    validateContinuation receipt.continuation
    failIf (receipt.applicationReceipt.length > maxResumableJobReceiptBytes
        ∨ receipt.committedSequence ≠ record.state.sequence
        ∨ Schema.checkedAdd 64 receipt.requestSequence 1 ≠ some receipt.committedSequence
        ∨ stateMatchesReceipt record.state.status receipt.status record.state.continuation
            receipt.continuation = false) .corruptProgressStore
  | none =>
    failIf (record.state.sequence ≠ 0 ∨ record.state.status ≠ .active
        ∨ record.state.continuation.isSome) .corruptProgressStore

section Validate

variable {R : ReadSetRevision π ρ} {record : ResumableJobRecord π}

theorem ResumableJobRecord.jobId_ne_zero_of_validate (h : record.validate R = .ok ()) :
    record.state.jobId.toBytes ≠ zeroJobIdBytes := by
  intro hzero
  simp [ResumableJobRecord.validate, hzero] at h

/-- What a valid record says of its last receipt: the receipt's key is
admissible, and the receipt committed the record's sequence as the successor
of the sequence its request named. -/
theorem ResumableJobRecord.receipt_of_validate {receipt : ResumableJobAdvanceReceipt}
    (h : record.validate R = .ok ()) (hreceipt : record.lastReceipt = some receipt) :
    (receipt.idempotencyKey.validate : Except (ResumableJobError ρ) Unit) = .ok () ∧
      receipt.committedSequence = record.state.sequence ∧
      receipt.requestSequence + 1 = receipt.committedSequence ∧
      stateMatchesReceipt record.state.status receipt.status record.state.continuation
        receipt.continuation = true := by
  simp only [ResumableJobRecord.validate, hreceipt, bind_eq_ok_iff] at h
  obtain ⟨_, -, _, -, _, -, _, -, _, hkey, _, -, hcheck⟩ := h
  simp only [failIf_eq_ok_iff, not_or, not_not, Schema.checkedAdd_eq_some_iff] at hcheck
  obtain ⟨-, hcommitted, ⟨-, hrequest⟩, hmatch⟩ := hcheck
  exact ⟨hkey, hcommitted, hrequest, by simpa using hmatch⟩

/-- A valid record without a receipt is a fresh job. -/
theorem ResumableJobRecord.fresh_of_validate (h : record.validate R = .ok ())
    (hreceipt : record.lastReceipt = none) :
    record.state.sequence = 0 ∧ record.state.status = .active ∧
      record.state.continuation = none := by
  simp only [ResumableJobRecord.validate, hreceipt, bind_eq_ok_iff] at h
  obtain ⟨_, -, _, -, _, -, _, -, hcheck⟩ := h
  simp only [failIf_eq_ok_iff, not_or, not_not, Option.isSome_iff_ne_none] at hcheck
  exact hcheck

end Validate

/-! ### Building records -/

/-- `ResumableJobRecord::new`: a fresh job at sequence zero. -/
def ResumableJobRecord.new (R : ReadSetRevision π ρ) (jobId : ResumableJobId) (proof : π)
    (applicationState : List UInt8) : Except (ResumableJobError ρ) (ResumableJobRecord π) := do
  let record : ResumableJobRecord π :=
    { state := { jobId, sequence := 0, status := .active, proof, continuation := none,
                 applicationState }
      lastReceipt := none }
  record.validate R
  pure record

/-- A new record is a valid fresh job under the given id. -/
theorem ResumableJobRecord.new_eq_ok {R : ReadSetRevision π ρ} {jobId : ResumableJobId}
    {proof : π} {applicationState : List UInt8} {record : ResumableJobRecord π}
    (h : ResumableJobRecord.new R jobId proof applicationState = .ok record) :
    record.validate R = .ok () ∧ record.lastReceipt = none ∧ record.state.jobId = jobId := by
  simp only [ResumableJobRecord.new, bind_eq_ok_iff, pure_eq_ok_iff] at h
  obtain ⟨_, hvalid, rfl⟩ := h
  exact ⟨hvalid, rfl, rfl⟩

/-- `ResumableJobRecord::apply_advance`: commit one page at the next
sequence, active while the page left a continuation. -/
def ResumableJobRecord.applyAdvance (R : ReadSetRevision π ρ) (record : ResumableJobRecord π)
    (request : ResumableJobAdvanceRequest) (advance : ResumableJobAdvance) :
    Except (ResumableJobError ρ) (ResumableJobRecord π × ResumableJobAdvanceReceipt) := do
  advance.validate
  let committedSequence ←
    okOrElse (Schema.checkedAdd 64 record.state.sequence 1) .capacityExceeded
  let receipt : ResumableJobAdvanceReceipt :=
    { requestSequence := request.expectedSequence, committedSequence, status := .advanced,
      continuation := advance.continuation, applicationReceipt := advance.applicationReceipt,
      idempotencyKey := request.idempotencyKey }
  let next : ResumableJobRecord π :=
    { state := { jobId := record.state.jobId, sequence := committedSequence,
                 status := if advance.continuation.isSome then .active else .completed,
                 proof := record.state.proof, continuation := advance.continuation,
                 applicationState := advance.applicationState }
      lastReceipt := some receipt }
  next.validate R
  pure (next, receipt)

/-- `ResumableJobRecord::invalidate`: commit the invalidation at the next
sequence, keeping the proof and the application state. -/
def ResumableJobRecord.invalidate (R : ReadSetRevision π ρ) (record : ResumableJobRecord π)
    (request : ResumableJobAdvanceRequest) :
    Except (ResumableJobError ρ) (ResumableJobRecord π × ResumableJobAdvanceReceipt) := do
  let committedSequence ←
    okOrElse (Schema.checkedAdd 64 record.state.sequence 1) .capacityExceeded
  let receipt : ResumableJobAdvanceReceipt :=
    { requestSequence := request.expectedSequence, committedSequence, status := .invalidated,
      continuation := none, applicationReceipt := [],
      idempotencyKey := request.idempotencyKey }
  let next : ResumableJobRecord π :=
    { state := { record.state with sequence := committedSequence, status := .invalidated,
                                   continuation := none }
      lastReceipt := some receipt }
  next.validate R
  pure (next, receipt)

/-- What `apply_advance` and `invalidate` both promise of the record they
build for a request: a valid record of the same job at the next sequence,
whose last receipt answers the request. -/
structure Commits (R : ReadSetRevision π ρ) (record : ResumableJobRecord π)
    (request : ResumableJobAdvanceRequest) (candidate : ResumableJobRecord π)
    (receipt : ResumableJobAdvanceReceipt) : Prop where
  valid : candidate.validate R = .ok ()
  jobId : candidate.state.jobId = record.state.jobId
  sequence : candidate.state.sequence = record.state.sequence + 1
  lastReceipt : candidate.lastReceipt = some receipt
  requestSequence : receipt.requestSequence = request.expectedSequence
  idempotencyKey : receipt.idempotencyKey = request.idempotencyKey

section Commits

variable {R : ReadSetRevision π ρ} {record candidate : ResumableJobRecord π}
  {request : ResumableJobAdvanceRequest} {receipt : ResumableJobAdvanceReceipt}

theorem ResumableJobRecord.applyAdvance_commits {advance : ResumableJobAdvance}
    (h : record.applyAdvance R request advance = .ok (candidate, receipt)) :
    Commits R record request candidate receipt := by
  simp only [ResumableJobRecord.applyAdvance, bind_eq_ok_iff, okOrElse_eq_ok_iff,
    Schema.checkedAdd_eq_some_iff, pure_eq_ok_iff, Prod.mk.injEq] at h
  obtain ⟨_, -, committed, ⟨-, rfl⟩, _, hvalid, rfl, rfl⟩ := h
  exact ⟨hvalid, rfl, rfl, rfl, rfl, rfl⟩

theorem ResumableJobRecord.invalidate_commits
    (h : record.invalidate R request = .ok (candidate, receipt)) :
    Commits R record request candidate receipt := by
  simp only [ResumableJobRecord.invalidate, bind_eq_ok_iff, okOrElse_eq_ok_iff,
    Schema.checkedAdd_eq_some_iff, pure_eq_ok_iff, Prod.mk.injEq] at h
  obtain ⟨committed, ⟨-, rfl⟩, _, hvalid, rfl, rfl⟩ := h
  exact ⟨hvalid, rfl, rfl, rfl, rfl, rfl⟩

end Commits

/-! ### The progress store -/

/-- The resumable records of the excluded progress store, by job id. -/
abbrev ProgressStore (π : Type) := ResumableJobId → Option (ResumableJobRecord π)

/-- `decode_resumable_job_record` past the bytes: the decoded record validates
and names the job its key was derived from. -/
def decodeResumableJobRecord (R : ReadSetRevision π ρ) (record : ResumableJobRecord π)
    (expectedId : ResumableJobId) : Except (ResumableJobError ρ) (ResumableJobRecord π) := do
  record.validate R
  failIf (record.state.jobId ≠ expectedId) .corruptProgressStore
  pure record

/-- `load_resumable`. -/
def loadResumable (R : ReadSetRevision π ρ) (store : ProgressStore π) (jobId : ResumableJobId) :
    Except (ResumableJobError ρ) (ResumableJobRecord π) := do
  let raw ← okOrElse (store jobId) .notFound
  decodeResumableJobRecord R raw jobId

/-- `insert_resumable`.  The capacity is counted over the whole shared store,
jobs of every family, and `jobCount` is that count. -/
def insertResumable (R : ReadSetRevision π ρ) (jobCount : Nat) (record : ResumableJobRecord π)
    (store : ProgressStore π) : Except (ResumableJobError ρ) (ProgressStore π) := do
  record.validate R
  failIf (store record.state.jobId).isSome .alreadyExists
  failIf (jobCount ≥ maxProgressJobsNonIntegrity) .capacityExceeded
  pure (Function.update store record.state.jobId (some record))

/-- `replace_resumable`. -/
def replaceResumable (R : ReadSetRevision π ρ) (record : ResumableJobRecord π)
    (store : ProgressStore π) : Except (ResumableJobError ρ) (ProgressStore π) := do
  record.validate R
  failIf (store record.state.jobId).isNone .notFound
  pure (Function.update store record.state.jobId (some record))

/-- `remove_resumable`: absent is already removed; a present record must
decode before it goes. -/
def removeResumable (R : ReadSetRevision π ρ) (jobId : ResumableJobId) (store : ProgressStore π) :
    Except (ResumableJobError ρ) (ProgressStore π) :=
  match store jobId with
  | none => pure store
  | some raw => do
    let _ ← decodeResumableJobRecord R raw jobId
    pure (Function.update store jobId none)

section Store

variable {R : ReadSetRevision π ρ} {store store' : ProgressStore π} {record : ResumableJobRecord π}

@[simp] theorem loadResumable_eq_ok_iff {jobId : ResumableJobId} :
    loadResumable R store jobId = .ok record ↔
      store jobId = some record ∧ record.validate R = .ok () ∧ record.state.jobId = jobId := by
  simp only [loadResumable, decodeResumableJobRecord, bind_eq_ok_iff, okOrElse_eq_ok_iff,
    failIf_eq_ok_iff, pure_eq_ok_iff, not_not]
  constructor
  · rintro ⟨raw, hraw, ⟨⟩, hvalid, ⟨⟩, hjob, rfl⟩
    exact ⟨hraw, hvalid, hjob⟩
  · rintro ⟨hraw, hvalid, hjob⟩
    exact ⟨record, hraw, (), hvalid, (), hjob, rfl⟩

theorem insertResumable_eq_ok_iff {jobCount : Nat} :
    insertResumable R jobCount record store = .ok store' ↔
      record.validate R = .ok () ∧ store record.state.jobId = none ∧
        jobCount < maxProgressJobsNonIntegrity ∧
        store' = Function.update store record.state.jobId (some record) := by
  simp only [insertResumable, bind_eq_ok_iff, failIf_eq_ok_iff, pure_eq_ok_iff,
    Option.isSome_iff_ne_none, not_not, not_le]
  constructor
  · rintro ⟨⟨⟩, hvalid, ⟨⟩, hfresh, ⟨⟩, hcount, rfl⟩
    exact ⟨hvalid, hfresh, hcount, rfl⟩
  · rintro ⟨hvalid, hfresh, hcount, rfl⟩
    exact ⟨(), hvalid, (), hfresh, (), hcount, rfl⟩

theorem replaceResumable_eq_ok_iff :
    replaceResumable R record store = .ok store' ↔
      record.validate R = .ok () ∧ (store record.state.jobId).isSome ∧
        store' = Function.update store record.state.jobId (some record) := by
  simp only [replaceResumable, bind_eq_ok_iff, failIf_eq_ok_iff, pure_eq_ok_iff,
    Option.isNone_iff_eq_none, ← Option.isSome_iff_ne_none]
  constructor
  · rintro ⟨⟨⟩, hvalid, ⟨⟩, hpresent, rfl⟩
    exact ⟨hvalid, hpresent, rfl⟩
  · rintro ⟨hvalid, hpresent, rfl⟩
    exact ⟨(), hvalid, (), hpresent, rfl⟩

/-- Removing succeeds on an absent job, which it leaves alone, and on a job
that loads, which it deletes. -/
theorem removeResumable_eq_ok_iff {jobId : ResumableJobId} :
    removeResumable R jobId store = .ok store' ↔
      (store jobId = none ∧ store' = store) ∨
        (∃ record, loadResumable R store jobId = .ok record ∧
          store' = Function.update store jobId none) := by
  unfold removeResumable
  cases h : store jobId with
  | none => simp [loadResumable, h, eq_comm]
  | some raw =>
    simp only [loadResumable, h, okOrElse_some, ok_bind, bind_eq_ok_iff, pure_eq_ok_iff,
      reduceCtorEq, false_and, false_or]
    constructor
    · rintro ⟨record, hdecode, rfl⟩
      exact ⟨record, hdecode, rfl⟩
    · rintro ⟨record, hdecode, rfl⟩
      exact ⟨record, hdecode, rfl⟩

end Store

/-! ### Session calls -/

/-- `with_resumable_progress_store`: the closure's store operations write only
as their last, successful step, so a failed closure leaves the store as it
was. -/
def withResumableProgressStore {ε : Type} (f : ProgressStore π → Except ε (ProgressStore π))
    (store : ProgressStore π) : ProgressStore π × Except ε Unit :=
  match f store with
  | .ok store' => (store', .ok ())
  | .error e => (store, .error e)

theorem withResumableProgressStore_eq_ok_iff {ε : Type}
    {f : ProgressStore π → Except ε (ProgressStore π)} {store store' : ProgressStore π} {u : Unit} :
    withResumableProgressStore f store = (store', .ok u) ↔ f store = .ok store' := by
  unfold withResumableProgressStore
  split <;> simp_all

/-- A store closure either failed, leaving the store, or wrote what it
returned. -/
theorem withResumableProgressStore_fst {ε : Type} (f : ProgressStore π → Except ε (ProgressStore π))
    (store : ProgressStore π) :
    (withResumableProgressStore f store).1 = store ∨
      f store = .ok (withResumableProgressStore f store).1 := by
  unfold withResumableProgressStore
  split
  · exact .inr ‹_›
  · exact .inl rfl

/-- `exact_replay`: the last receipt, when the request is the one it
answered. -/
def exactReplay (record : ResumableJobRecord π) (request : ResumableJobAdvanceRequest) :
    Option ResumableJobAdvanceReceipt :=
  record.lastReceipt.filter fun receipt =>
    receipt.requestSequence == request.expectedSequence &&
      receipt.idempotencyKey == request.idempotencyKey

theorem exactReplay_eq_some_iff {record : ResumableJobRecord π}
    {request : ResumableJobAdvanceRequest} {receipt : ResumableJobAdvanceReceipt} :
    exactReplay record request = some receipt ↔
      record.lastReceipt = some receipt ∧ receipt.requestSequence = request.expectedSequence ∧
        receipt.idempotencyKey = request.idempotencyKey := by
  simp [exactReplay, Option.filter_eq_some_iff]

/-- `ensure_request_can_advance`. -/
def ensureRequestCanAdvance (record : ResumableJobRecord π)
    (request : ResumableJobAdvanceRequest) : Except (ResumableJobError ρ) Unit := do
  failIf (record.state.status = .invalidated) .invalidated
  failIf (record.state.status = .completed) .completed
  failIf (record.state.sequence ≠ request.expectedSequence)
    (.staleSequence request.expectedSequence record.state.sequence)

theorem ensureRequestCanAdvance_eq_ok_iff {record : ResumableJobRecord π}
    {request : ResumableJobAdvanceRequest} {u : Unit} :
    (ensureRequestCanAdvance record request : Except (ResumableJobError ρ) Unit) = .ok u ↔
      record.state.status = .active ∧ record.state.sequence = request.expectedSequence := by
  cases h : record.state.status <;> simp [ensureRequestCanAdvance, failIf_eq_ok_iff, h]

/-- `start_resumable_job`; `verifyDurableReadSetRevisionProof` is the
session's check of the proof against the database. -/
def startResumableJob (R : ReadSetRevision π ρ)
    (verifyDurableReadSetRevisionProof : π → Except (ExhaustiveReadError ρ) Unit)
    (jobCount : Nat) (jobId : ResumableJobId) (proof : π) (initialApplicationState : List UInt8)
    (store : ProgressStore π) : ProgressStore π × Except (ResumableJobError ρ) (ResumableJobState π) :=
  match (do
      (verifyDurableReadSetRevisionProof proof).mapError mapExhaustiveError
      ResumableJobRecord.new R jobId proof initialApplicationState) with
  | .error e => (store, .error e)
  | .ok record =>
    let (store, inserted) :=
      withResumableProgressStore (insertResumable R jobCount record) store
    (store, inserted.map fun () => record.state)

/-- `acknowledge_resumable_job`: remove a terminal job at the expected
sequence; a job already gone counts as acknowledged. -/
def acknowledgeResumableJob (R : ReadSetRevision π ρ) (jobId : ResumableJobId)
    (expectedSequence : Nat) (store : ProgressStore π) :
    ProgressStore π × Except (ResumableJobError ρ) Unit :=
  withResumableProgressStore (fun store =>
    match loadResumable R store jobId with
    | .error .notFound => pure store
    | .error e => .error e
    | .ok record => do
      failIf (record.state.sequence ≠ expectedSequence)
        (.staleSequence expectedSequence record.state.sequence)
      failIf (¬ (0 < record.state.sequence ∧ (record.state.status = .completed
          ∨ record.state.status = .invalidated))) .notTerminal
      removeResumable R jobId store) store

/-- `replace_resumable_job_if_current`: reload the record and write the
candidate only if the request is still neither replayed nor stale. -/
def replaceResumableJobIfCurrent (R : ReadSetRevision π ρ) (request : ResumableJobAdvanceRequest)
    (candidate : ResumableJobRecord π) (store : ProgressStore π) :
    ProgressStore π × Except (ResumableJobError ρ) Unit :=
  withResumableProgressStore (fun store => do
    let current ← loadResumable R store request.jobId
    failIf (exactReplay current request).isSome
      (.staleSequence request.expectedSequence current.state.sequence)
    ensureRequestCanAdvance current request
    replaceResumable R candidate store) store

/-- The end both committing paths share: `replace_resumable_job_if_current`
under `?`, then `Ok(receipt)`. -/
def commitReceipt {ε : Type} (R : ReadSetRevision π ρ) (request : ResumableJobAdvanceRequest)
    (candidate : ResumableJobRecord π) (receipt : ResumableJobAdvanceReceipt)
    (store : ProgressStore π) :
    ProgressStore π × Except (CompareProofAndAdvanceError ρ ε) ResumableJobAdvanceReceipt :=
  let (store, replaced) := replaceResumableJobIfCurrent R request candidate store
  (store, (replaced.mapError .protocol).map fun () => receipt)

/-- A committing path answers only with its own receipt, and only when the
replacement went through. -/
theorem commitReceipt_eq_ok {ε : Type} {R : ReadSetRevision π ρ}
    {request : ResumableJobAdvanceRequest} {candidate : ResumableJobRecord π}
    {receipt receipt' : ResumableJobAdvanceReceipt} {store store' : ProgressStore π}
    (h : commitReceipt (ε := ε) R request candidate receipt store = (store', .ok receipt')) :
    receipt' = receipt ∧ replaceResumableJobIfCurrent R request candidate store = (store', .ok ()) := by
  unfold commitReceipt at h
  rcases hreplace : replaceResumableJobIfCurrent R request candidate store with ⟨page, replaced⟩
  rw [hreplace] at h
  cases replaced with
  | error e => simp [Except.mapError, Except.map] at h
  | ok u =>
    simp only [mapError_ok, Except.map, Prod.mk.injEq, Except.ok.injEq] at h
    obtain ⟨rfl, rfl⟩ := h
    exact ⟨rfl, rfl⟩

/-- `persist_or_report_invalidation`, which both the pre-page and the
post-page wrappers call: a source change commits the invalidation, any other
failure is reported. -/
def persistOrReportInvalidation {ε : Type} (R : ReadSetRevision π ρ)
    (record : ResumableJobRecord π) (request : ResumableJobAdvanceRequest)
    (error : ExhaustiveReadError ρ) (store : ProgressStore π) :
    ProgressStore π × Except (CompareProofAndAdvanceError ρ ε) ResumableJobAdvanceReceipt :=
  match error with
  | .revision revision =>
    if R.isSourceChange revision then
      match record.invalidate R request with
      | .error e => (store, .error (.protocol e))
      | .ok (invalidated, receipt) => commitReceipt R request invalidated receipt store
    else (store, .error (.protocol (mapExhaustiveError error)))
  | .query => (store, .error (.protocol (mapExhaustiveError error)))

/-- The head of `compare_proof_and_advance`: admit the request's key and job
id, and load the job. -/
def loadAdvanceTarget (R : ReadSetRevision π ρ) (request : ResumableJobAdvanceRequest)
    (store : ProgressStore π) : Except (ResumableJobError ρ) (ResumableJobRecord π) := do
  request.idempotencyKey.validate
  failIf (request.jobId.toBytes = zeroJobIdBytes) .invalidJobId
  loadResumable R store request.jobId

theorem loadAdvanceTarget_eq_ok_iff {R : ReadSetRevision π ρ}
    {request : ResumableJobAdvanceRequest} {store : ProgressStore π}
    {record : ResumableJobRecord π} :
    loadAdvanceTarget R request store = .ok record ↔
      (request.idempotencyKey.validate : Except (ResumableJobError ρ) Unit) = .ok () ∧
        request.jobId.toBytes ≠ zeroJobIdBytes ∧ loadResumable R store request.jobId = .ok record := by
  simp only [loadAdvanceTarget, bind_eq_ok_iff, failIf_eq_ok_iff]
  constructor
  · rintro ⟨⟨⟩, hkey, ⟨⟩, hzero, hload⟩
    exact ⟨hkey, hzero, hload⟩
  · rintro ⟨hkey, hzero, hload⟩
    exact ⟨(), hkey, (), hzero, hload⟩

/-- The tail of `compare_proof_and_advance` once the page has returned its
advance: bound it, check the proof again, and commit it if the request is
still current. -/
def commitAdvance {ε : Type} (R : ReadSetRevision π ρ)
    (verifyAfter : π → Except (ExhaustiveReadError ρ) Unit) (record : ResumableJobRecord π)
    (request : ResumableJobAdvanceRequest) (advance : ResumableJobAdvance)
    (store : ProgressStore π) :
    ProgressStore π × Except (CompareProofAndAdvanceError ρ ε) ResumableJobAdvanceReceipt :=
  match (advance.validate : Except (ResumableJobError ρ) Unit) with
  | .error e => (store, .error (.protocol e))
  | .ok () =>
    match verifyAfter record.state.proof with
    | .error e => persistOrReportInvalidation R record request e store
    | .ok () =>
      match record.applyAdvance R request advance with
      | .error e => (store, .error (.protocol e))
      | .ok (candidate, receipt) => commitReceipt R request candidate receipt store

/-- `compare_proof_and_advance`.  `verifyBefore` and `verifyAfter` are the
session's checks of the record's proof before and after the page; the page
`operation` sees the job's state and may itself work on the progress store. -/
def compareProofAndAdvance {ε : Type} (R : ReadSetRevision π ρ)
    (verifyBefore verifyAfter : π → Except (ExhaustiveReadError ρ) Unit)
    (operation : ResumableJobState π → ProgressStore π →
      ProgressStore π × Except ε ResumableJobAdvance)
    (request : ResumableJobAdvanceRequest) (store : ProgressStore π) :
    ProgressStore π × Except (CompareProofAndAdvanceError ρ ε) ResumableJobAdvanceReceipt :=
  match loadAdvanceTarget R request store with
  | .error e => (store, .error (.protocol e))
  | .ok record =>
    match exactReplay record request with
    | some receipt => (store, .ok receipt)
    | none =>
      match ensureRequestCanAdvance record request with
      | .error e => (store, .error (.protocol e))
      | .ok () =>
        match verifyBefore record.state.proof with
        | .error e => persistOrReportInvalidation R record request e store
        | .ok () =>
          -- the page runs once, and whatever it wrote to the store stays written
          let (store, outcome) := operation record.state store
          match outcome with
          | .error e => (store, .error (.operation e))
          | .ok advance => commitAdvance R verifyAfter record request advance store

end ResumableJob

end IcyDb
