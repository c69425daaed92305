import IcyDb.Session.ResumableJob
import Mathlib.Logic.Relation

/-!
# What every run of resumable-job calls keeps

The session's resumable-job calls change the progress store by three kinds of
write only: `start_resumable_job` inserts a fresh job under an unused id, a
committed advance or invalidation replaces an active job by a record one
sequence further on that carries the receipt of the request, and
`acknowledge_resumable_job` removes a terminal job.  `compare_proof_and_advance`
makes at most one such write of its own, after the page; the page may make
any number, since it may call the session itself.

`Runs` is the relation of the store before and after any sequence of calls,
each page being admitted with every store it can leave behind from every
store.  Every run is a chain of `Write`s, each `Write` keeps the store
invariant `Stored`, and so every run does.  A replayed request and a request
that cannot advance neither reach the page nor write.
-/

namespace IcyDb

namespace ResumableJob

open Except Relation

variable {π ρ : Type}

/-! ### The store invariant and the writes -/

/-- The store invariant: every record validates and sits under its own job
id. -/
structure Stored (R : ReadSetRevision π ρ) (store : ProgressStore π) : Prop where
  valid : ∀ {jobId record}, store jobId = some record → record.validate R = .ok ()
  keyed : ∀ {jobId record}, store jobId = some record → record.state.jobId = jobId

/-- One write of the resumable-job calls to the progress store. -/
inductive Write (R : ReadSetRevision π ρ) : ProgressStore π → ProgressStore π → Prop
  /-- A fresh job goes in under its own, unused id. -/
  | insert {store : ProgressStore π} {record : ResumableJobRecord π}
      (hfresh : store record.state.jobId = none) (hvalid : record.validate R = .ok ())
      (hreceipt : record.lastReceipt = none) :
      Write R store (Function.update store record.state.jobId (some record))
  /-- An active job is replaced by a valid record one sequence further on,
  whose receipt answers a request for the replaced sequence. -/
  | commit {store : ProgressStore π} {current candidate : ResumableJobRecord π}
      {receipt : ResumableJobAdvanceReceipt}
      (hcurrent : store candidate.state.jobId = some current)
      (hactive : current.state.status = .active) (hvalid : candidate.validate R = .ok ())
      (hsequence : candidate.state.sequence = current.state.sequence + 1)
      (hreceipt : candidate.lastReceipt = some receipt)
      (hrequest : receipt.requestSequence = current.state.sequence) :
      Write R store (Function.update store candidate.state.jobId (some candidate))
  /-- A terminal job is deleted. -/
  | remove {store : ProgressStore π} {jobId : ResumableJobId} {record : ResumableJobRecord π}
      (hrecord : store jobId = some record)
      (hterminal : 0 < record.state.sequence ∧
        (record.state.status = .completed ∨ record.state.status = .invalidated)) :
      Write R store (Function.update store jobId none)

/-- What one write may do to the record of one job: leave it, bring in a fresh
job at sequence zero, move an active job on by exactly one sequence with the
receipt of that step, or delete a terminal job. -/
def JobStep (store store' : ProgressStore π) (jobId : ResumableJobId) : Prop :=
  store' jobId = store jobId ∨
    (store jobId = none ∧ ∃ record, store' jobId = some record ∧
      record.state.sequence = 0 ∧ record.lastReceipt = none) ∨
    (∃ current candidate receipt, store jobId = some current ∧
      store' jobId = some candidate ∧ current.state.status = .active ∧
      candidate.state.sequence = current.state.sequence + 1 ∧
      candidate.lastReceipt = some receipt ∧
      receipt.requestSequence = current.state.sequence ∧
      receipt.committedSequence = candidate.state.sequence) ∨
    (∃ record, store jobId = some record ∧ store' jobId = none ∧
      0 < record.state.sequence ∧
      (record.state.status = .completed ∨ record.state.status = .invalidated))

section Write

variable {R : ReadSetRevision π ρ} {store store' : ProgressStore π}

/-- Writing one job's slot keeps the invariant when what is written keeps
it. -/
theorem Stored.update {jobId : ResumableJobId} {value : Option (ResumableJobRecord π)}
    (h : Stored R store)
    (hvalue : ∀ {record}, value = some record →
      record.validate R = .ok () ∧ record.state.jobId = jobId) :
    Stored R (Function.update store jobId value) := by
  have hslot : ∀ {id record}, Function.update store jobId value id = some record →
      record.validate R = .ok () ∧ record.state.jobId = id := by
    intro id record hr
    by_cases hid : id = jobId
    · subst hid
      rw [Function.update_self] at hr
      exact hvalue hr
    · rw [Function.update_of_ne hid] at hr
      exact ⟨h.valid hr, h.keyed hr⟩
  exact ⟨fun hr => (hslot hr).1, fun hr => (hslot hr).2⟩

/-- Every write keeps the store invariant. -/
theorem Write.stored (hw : Write R store store') (h : Stored R store) : Stored R store' := by
  cases hw with
  | insert _ hvalid _ =>
    exact h.update fun hr => by cases hr; exact ⟨hvalid, rfl⟩
  | commit _ _ hvalid _ _ _ =>
    exact h.update fun hr => by cases hr; exact ⟨hvalid, rfl⟩
  | remove _ _ => exact h.update fun hr => by cases hr

/-- Each write is a `JobStep` at every job. -/
theorem Write.jobStep (hw : Write R store store') (jobId : ResumableJobId) :
    JobStep store store' jobId := by
  cases hw with
  | @insert record hfresh hvalid hreceipt =>
    by_cases hid : jobId = record.state.jobId
    · subst hid
      have hzero := (record.fresh_of_validate hvalid hreceipt).1
      exact .inr (.inl ⟨hfresh, record, Function.update_self .., hzero, hreceipt⟩)
    · exact .inl (Function.update_of_ne hid ..)
  | @commit current candidate receipt hcurrent hactive hvalid hsequence hreceipt hrequest =>
    by_cases hid : jobId = candidate.state.jobId
    · subst hid
      have hcommitted := (candidate.receipt_of_validate hvalid hreceipt).2.1
      exact .inr (.inr (.inl ⟨current, candidate, receipt, hcurrent, Function.update_self ..,
        hactive, hsequence, hreceipt, hrequest, hcommitted⟩))
    · exact .inl (Function.update_of_ne hid ..)
  | @remove id record hrecord hterminal =>
    by_cases hid : jobId = id
    · subst hid
      exact .inr (.inr (.inr ⟨record, hrecord, Function.update_self .., hterminal⟩))
    · exact .inl (Function.update_of_ne hid ..)

end Write

/-! ### The writes of each call -/

section Calls

variable {R : ReadSetRevision π ρ} {store : ProgressStore π}

/-- A store closure whose every success is at most one write makes at most
one. -/
theorem reflGen_withResumableProgressStore {ε : Type}
    {f : ProgressStore π → Except ε (ProgressStore π)}
    (hf : ∀ {store'}, f store = .ok store' → ReflGen (Write R) store store') :
    ReflGen (Write R) store (withResumableProgressStore f store).1 := by
  rcases withResumableProgressStore_fst f store with h | h
  · rw [h]
  · exact hf h

theorem startResumableJob_write (verify : π → Except (ExhaustiveReadError ρ) Unit)
    (jobCount : Nat) (jobId : ResumableJobId) (proof : π) (applicationState : List UInt8) :
    ReflGen (Write R) store
      (startResumableJob R verify jobCount jobId proof applicationState store).1 := by
  unfold startResumableJob
  split
  · exact .refl
  · rename_i record hrecord
    simp only [bind_eq_ok_iff] at hrecord
    obtain ⟨_, -, hnew⟩ := hrecord
    obtain ⟨hvalid, hreceipt, -⟩ := ResumableJobRecord.new_eq_ok hnew
    refine reflGen_withResumableProgressStore fun hinsert => ?_
    obtain ⟨-, hfresh, -, rfl⟩ := insertResumable_eq_ok_iff.mp hinsert
    exact .single (.insert hfresh hvalid hreceipt)

theorem acknowledgeResumableJob_write (jobId : ResumableJobId) (expectedSequence : Nat) :
    ReflGen (Write R) store (acknowledgeResumableJob R jobId expectedSequence store).1 := by
  refine reflGen_withResumableProgressStore fun hack => ?_
  split at hack
  · cases hack
    exact .refl
  · cases hack
  · rename_i record hload
    simp only [bind_eq_ok_iff, failIf_eq_ok_iff, not_not] at hack
    obtain ⟨_, -, _, hterminal, hremove⟩ := hack
    rcases removeResumable_eq_ok_iff.mp hremove with ⟨-, rfl⟩ | ⟨_, -, rfl⟩
    · exact .refl
    · exact .single (.remove (loadResumable_eq_ok_iff.mp hload).1 hterminal)

/-- The compare-and-replace writes only over an active job at the request's
sequence, and what it writes is the next step of a record of that job at
that sequence. -/
theorem replaceResumableJobIfCurrent_write {request : ResumableJobAdvanceRequest}
    {record candidate : ResumableJobRecord π} {receipt : ResumableJobAdvanceReceipt}
    (hcommits : Commits R record request candidate receipt)
    (hjob : record.state.jobId = request.jobId)
    (hsequence : record.state.sequence = request.expectedSequence) :
    ReflGen (Write R) store (replaceResumableJobIfCurrent R request candidate store).1 := by
  refine reflGen_withResumableProgressStore fun hreplace => .single ?_
  simp only [bind_eq_ok_iff, loadResumable_eq_ok_iff, failIf_eq_ok_iff,
    ensureRequestCanAdvance_eq_ok_iff, replaceResumable_eq_ok_iff] at hreplace
  obtain ⟨current, ⟨hcurrent, -, -⟩, _, -, _, ⟨hactive, hcurrentSequence⟩, -, -, rfl⟩ := hreplace
  have hid : candidate.state.jobId = request.jobId := hcommits.jobId.trans hjob
  refine .commit (hid ▸ hcurrent) hactive hcommits.valid ?_ hcommits.lastReceipt ?_
  · rw [hcommits.sequence, hsequence, hcurrentSequence]
  · rw [hcommits.requestSequence, hcurrentSequence]

theorem persistOrReportInvalidation_write {ε : Type} {record : ResumableJobRecord π}
    {request : ResumableJobAdvanceRequest} {error : ExhaustiveReadError ρ}
    (hjob : record.state.jobId = request.jobId)
    (hsequence : record.state.sequence = request.expectedSequence) :
    ReflGen (Write R) store
      (persistOrReportInvalidation (ε := ε) R record request error store).1 := by
  unfold persistOrReportInvalidation
  split
  · split
    · split
      · exact .refl
      · rename_i hinvalidate
        exact replaceResumableJobIfCurrent_write (record.invalidate_commits hinvalidate) hjob
          hsequence
    · exact .refl
  · exact .refl

theorem commitAdvance_write {ε : Type} {verifyAfter : π → Except (ExhaustiveReadError ρ) Unit}
    {record : ResumableJobRecord π} {request : ResumableJobAdvanceRequest}
    {advance : ResumableJobAdvance} (hjob : record.state.jobId = request.jobId)
    (hsequence : record.state.sequence = request.expectedSequence) :
    ReflGen (Write R) store
      (commitAdvance (ε := ε) R verifyAfter record request advance store).1 := by
  unfold commitAdvance
  split
  · exact .refl
  · split
    · exact persistOrReportInvalidation_write hjob hsequence
    · split
      · exact .refl
      · rename_i happly
        exact replaceResumableJobIfCurrent_write (record.applyAdvance_commits happly) hjob
          hsequence

/-- `compare_proof_and_advance` writes at most once itself, to the store as it
found it or as the page left it. -/
theorem compareProofAndAdvance_write {ε : Type}
    (verifyBefore verifyAfter : π → Except (ExhaustiveReadError ρ) Unit)
    (operation : ResumableJobState π → ProgressStore π →
      ProgressStore π × Except ε ResumableJobAdvance)
    (request : ResumableJobAdvanceRequest) (store : ProgressStore π) :
    ∃ page, (page = store ∨ ∃ state, page = (operation state store).1) ∧
      ReflGen (Write R) page
        (compareProofAndAdvance R verifyBefore verifyAfter operation request store).1 := by
  unfold compareProofAndAdvance
  split
  · exact ⟨store, .inl rfl, .refl⟩
  · rename_i record hload
    split
    · exact ⟨store, .inl rfl, .refl⟩
    · split
      · exact ⟨store, .inl rfl, .refl⟩
      · rename_i hensure
        -- past these checks the loaded record is the request's job at its sequence
        have hjob : record.state.jobId = request.jobId :=
          (loadResumable_eq_ok_iff.mp (loadAdvanceTarget_eq_ok_iff.mp hload).2.2).2.2
        have hsequence : record.state.sequence = request.expectedSequence :=
          (ensureRequestCanAdvance_eq_ok_iff.mp hensure).2
        split
        · exact ⟨store, .inl rfl, persistOrReportInvalidation_write hjob hsequence⟩
        · rcases hpage : operation record.state store with ⟨page, outcome⟩
          refine ⟨page, .inr ⟨record.state, by rw [hpage]⟩, ?_⟩
          cases outcome with
          | error e => exact .refl
          | ok advance => exact commitAdvance_write hjob hsequence

end Calls

/-! ### Runs of calls -/

/-- The stores that a sequence of the session's resumable-job calls leads
from one to another.  A page is admitted with whatever it does to the store,
as long as that is itself a run of calls, from every state and every store. -/
inductive Runs (R : ReadSetRevision π ρ) : ProgressStore π → ProgressStore π → Prop
  | nil (store : ProgressStore π) : Runs R store store
  | start {store store' : ProgressStore π} (verify : π → Except (ExhaustiveReadError ρ) Unit)
      (jobCount : Nat) (jobId : ResumableJobId) (proof : π) (applicationState : List UInt8) :
      Runs R (startResumableJob R verify jobCount jobId proof applicationState store).1 store' →
      Runs R store store'
  | acknowledge {store store' : ProgressStore π} (jobId : ResumableJobId)
      (expectedSequence : Nat) :
      Runs R (acknowledgeResumableJob R jobId expectedSequence store).1 store' →
      Runs R store store'
  | advance {ε : Type} {store store' : ProgressStore π}
      (verifyBefore verifyAfter : π → Except (ExhaustiveReadError ρ) Unit)
      (operation : ResumableJobState π → ProgressStore π →
        ProgressStore π × Except ε ResumableJobAdvance)
      (request : ResumableJobAdvanceRequest)
      (hoperation : ∀ state page, Runs R page (operation state page).1) :
      Runs R (compareProofAndAdvance R verifyBefore verifyAfter operation request store).1 store' →
      Runs R store store'

section Runs

variable {R : ReadSetRevision π ρ} {store store' : ProgressStore π}

/-- Every run, the pages' own calls included, is a chain of writes. -/
theorem Runs.write (h : Runs R store store') : ReflTransGen (Write R) store store' := by
  induction h with
  | nil => exact .refl
  | start verify jobCount jobId proof applicationState _ ih =>
    exact (startResumableJob_write verify jobCount jobId proof applicationState).to_reflTransGen.trans ih
  | acknowledge jobId expectedSequence _ ih =>
    exact (acknowledgeResumableJob_write jobId expectedSequence).to_reflTransGen.trans ih
  | @advance _ store _ verifyBefore verifyAfter operation request _ _ hpage ih =>
    obtain ⟨page, hfrom, hcall⟩ :=
      compareProofAndAdvance_write (R := R) verifyBefore verifyAfter operation request store
    -- the page's writes come first, then the call's own
    have hrun : ReflTransGen (Write R) store page := by
      rcases hfrom with rfl | ⟨state, rfl⟩
      · exact .refl
      · exact hpage state store
    exact hrun.trans (hcall.to_reflTransGen.trans ih)

/-- Chains of writes keep the store invariant. -/
theorem Stored.of_writes (hwrites : ReflTransGen (Write R) store store') (h : Stored R store) :
    Stored R store' := by
  induction hwrites with
  | refl => exact h
  | tail _ hw ih => exact hw.stored ih

end Runs

/-! ### Replays, stale requests and answers -/

section Answers

variable {R : ReadSetRevision π ρ} {store : ProgressStore π} {request : ResumableJobAdvanceRequest}
  {record : ResumableJobRecord π}

/-- A stored record loads for a request naming its job exactly when the
request's key is admissible. -/
theorem loadAdvanceTarget_of_stored (hstored : Stored R store)
    (hrecord : store request.jobId = some record)
    (hkey : (request.idempotencyKey.validate : Except (ResumableJobError ρ) Unit) = .ok ()) :
    loadAdvanceTarget R request store = .ok record := by
  have hvalid := hstored.valid hrecord
  have hjob := hstored.keyed hrecord
  refine loadAdvanceTarget_eq_ok_iff.mpr ⟨hkey, ?_, ?_⟩
  · rw [← hjob]
    exact record.jobId_ne_zero_of_validate hvalid
  · exact loadResumable_eq_ok_iff.mpr ⟨hrecord, hvalid, hjob⟩

/-- Replaying the last request of a stored job returns its receipt and
touches nothing, whatever the page and the proof checks. -/
theorem compareProofAndAdvance_of_exactReplay {ε : Type} {receipt : ResumableJobAdvanceReceipt}
    (hstored : Stored R store) (hrecord : store request.jobId = some record)
    (hreplay : exactReplay record request = some receipt)
    (verifyBefore verifyAfter : π → Except (ExhaustiveReadError ρ) Unit)
    (operation : ResumableJobState π → ProgressStore π →
      ProgressStore π × Except ε ResumableJobAdvance) :
    compareProofAndAdvance R verifyBefore verifyAfter operation request store =
      (store, .ok receipt) := by
  obtain ⟨hlast, -, hkey⟩ := exactReplay_eq_some_iff.mp hreplay
  -- the request carries the receipt's key, which the stored record admitted
  have hadmitted := (record.receipt_of_validate (hstored.valid hrecord) hlast).1
  rw [hkey] at hadmitted
  simp only [compareProofAndAdvance, loadAdvanceTarget_of_stored hstored hrecord hadmitted,
    hreplay]

/-- A request for a stored job that is not active at the request's sequence
never reaches the page: the call's answer is fixed before it, and the store
is left alone. -/
theorem compareProofAndAdvance_of_not_current {ε : Type}
    (hrecord : store request.jobId = some record)
    (hnotCurrent : record.state.sequence ≠ request.expectedSequence ∨
      record.state.status = .completed ∨ record.state.status = .invalidated) :
    ∃ result, ∀ (verifyBefore verifyAfter : π → Except (ExhaustiveReadError ρ) Unit)
      (operation : ResumableJobState π → ProgressStore π →
        ProgressStore π × Except ε ResumableJobAdvance),
      compareProofAndAdvance R verifyBefore verifyAfter operation request store =
        (store, result) := by
  cases hload : loadAdvanceTarget R request store with
  | error e =>
    exact ⟨.error (.protocol e), fun _ _ _ => by simp only [compareProofAndAdvance, hload]⟩
  | ok loaded =>
    -- what loads for the request is the stored record
    have hloaded : loaded = record := by
      have hfound := (loadResumable_eq_ok_iff.mp (loadAdvanceTarget_eq_ok_iff.mp hload).2.2).1
      rw [hrecord] at hfound
      exact (Option.some.inj hfound).symm
    subst hloaded
    cases hreplay : exactReplay loaded request with
    | some receipt =>
      exact ⟨.ok receipt, fun _ _ _ => by simp only [compareProofAndAdvance, hload, hreplay]⟩
    | none =>
      cases hensure : (ensureRequestCanAdvance loaded request : Except (ResumableJobError ρ) Unit) with
      | error e =>
        exact ⟨.error (.protocol e), fun _ _ _ => by
          simp only [compareProofAndAdvance, hload, hreplay, hensure]⟩
      | ok u =>
        -- a request that passes the readiness check finds the job active at its sequence
        obtain ⟨hactive, hsequence⟩ := ensureRequestCanAdvance_eq_ok_iff.mp hensure
        rw [hactive] at hnotCurrent
        simp [hsequence] at hnotCurrent

/-- The store answers `request` with `receipt`: the request's job holds it as
its last receipt, for the request's sequence and key, and stands one sequence
past the request. -/
def Answered (request : ResumableJobAdvanceRequest) (receipt : ResumableJobAdvanceReceipt)
    (store : ProgressStore π) : Prop :=
  ∃ record, store request.jobId = some record ∧ record.lastReceipt = some receipt ∧
    receipt.requestSequence = request.expectedSequence ∧
    receipt.idempotencyKey = request.idempotencyKey ∧
    receipt.committedSequence = record.state.sequence ∧
    record.state.sequence = request.expectedSequence + 1

theorem answered_of_record {receipt : ResumableJobAdvanceReceipt}
    (hrecord : store request.jobId = some record) (hvalid : record.validate R = .ok ())
    (hlast : record.lastReceipt = some receipt)
    (hrequest : receipt.requestSequence = request.expectedSequence)
    (hkey : receipt.idempotencyKey = request.idempotencyKey) :
    Answered request receipt store := by
  obtain ⟨-, hcommitted, hnext, -⟩ := record.receipt_of_validate hvalid hlast
  exact ⟨record, hrecord, hlast, hrequest, hkey, hcommitted, by omega⟩

/-- A committing path that answers has stored its candidate, whose receipt is
the answer. -/
theorem commitReceipt_answered {ε : Type} {candidate : ResumableJobRecord π}
    {receipt receipt' : ResumableJobAdvanceReceipt} {store' : ProgressStore π}
    (hcommits : Commits R record request candidate receipt)
    (hjob : record.state.jobId = request.jobId)
    (h : commitReceipt (ε := ε) R request candidate receipt store = (store', .ok receipt')) :
    Answered request receipt' store' := by
  obtain ⟨rfl, hreplace⟩ := commitReceipt_eq_ok h
  have hclosure := withResumableProgressStore_eq_ok_iff.mp hreplace
  simp only [bind_eq_ok_iff, replaceResumable_eq_ok_iff] at hclosure
  obtain ⟨_, -, _, -, _, -, -, -, rfl⟩ := hclosure
  have hid : candidate.state.jobId = request.jobId := hcommits.jobId.trans hjob
  refine answered_of_record ?_ hcommits.valid hcommits.lastReceipt hcommits.requestSequence
    hcommits.idempotencyKey
  rw [← hid, Function.update_self]

theorem persistOrReportInvalidation_answered {ε : Type} {error : ExhaustiveReadError ρ}
    {receipt : ResumableJobAdvanceReceipt} {store' : ProgressStore π}
    (hjob : record.state.jobId = request.jobId)
    (h : persistOrReportInvalidation (ε := ε) R record request error store =
      (store', .ok receipt)) :
    Answered request receipt store' := by
  unfold persistOrReportInvalidation at h
  split at h
  · split at h
    · split at h
      · cases h
      · rename_i hinvalidate
        exact commitReceipt_answered (record.invalidate_commits hinvalidate) hjob h
    · cases h
  · cases h

theorem commitAdvance_answered {ε : Type} {verifyAfter : π → Except (ExhaustiveReadError ρ) Unit}
    {advance : ResumableJobAdvance} {receipt : ResumableJobAdvanceReceipt}
    {store' : ProgressStore π} (hjob : record.state.jobId = request.jobId)
    (h : commitAdvance (ε := ε) R verifyAfter record request advance store =
      (store', .ok receipt)) :
    Answered request receipt store' := by
  unfold commitAdvance at h
  split at h
  · cases h
  · split at h
    · exact persistOrReportInvalidation_answered hjob h
    · split at h
      · cases h
      · rename_i happly
        exact commitReceipt_answered (record.applyAdvance_commits happly) hjob h

/-- An answer of `compare_proof_and_advance` is durable: the store it leaves
holds the receipt it returned as the last receipt of the request's job, one
sequence past the request. -/
theorem compareProofAndAdvance_answered {ε : Type}
    {verifyBefore verifyAfter : π → Except (ExhaustiveReadError ρ) Unit}
    {operation : ResumableJobState π → ProgressStore π →
      ProgressStore π × Except ε ResumableJobAdvance}
    {receipt : ResumableJobAdvanceReceipt} {store' : ProgressStore π}
    (h : compareProofAndAdvance R verifyBefore verifyAfter operation request store =
      (store', .ok receipt)) :
    Answered request receipt store' := by
  unfold compareProofAndAdvance at h
  split at h
  · cases h
  · rename_i loaded hload
    obtain ⟨hfound, hvalid, hjob⟩ := loadResumable_eq_ok_iff.mp (loadAdvanceTarget_eq_ok_iff.mp hload).2.2
    split at h
    · -- the replayed receipt is the one the store holds
      rename_i replayed hreplay
      cases h
      obtain ⟨hlast, hrequest, hkey⟩ := exactReplay_eq_some_iff.mp hreplay
      exact answered_of_record hfound hvalid hlast hrequest hkey
    · split at h
      · cases h
      · split at h
        · exact persistOrReportInvalidation_answered hjob h
        · rcases hpage : operation loaded.state store with ⟨page, outcome⟩
          rw [hpage] at h
          cases outcome with
          | error e => cases h
          | ok advance => exact commitAdvance_answered hjob h

end Answers

/-! ### Exactly once per committed step -/

/-- Over every run of the session's resumable-job calls from a store whose
records validate, pages that call the session themselves included: every
record the store ever holds validates, so its receipt committed its sequence
as the successor of the request's and agrees with its status; every run is a
chain of writes, each of which leaves a job alone, starts it at sequence zero,
moves it on by exactly one sequence with the receipt of that step, or deletes
it once terminal; `compare_proof_and_advance` itself writes at most once, after
the page, and every receipt it returns is the one the store holds for the
request; a replay of the last request returns its receipt without running the
page or writing; and a request that finds its job at another sequence, or
completed, or invalidated, neither runs the page nor writes. -/
theorem resumableJob_advance_exactly_once (R : ReadSetRevision π ρ) (ε : Type) :
    (∀ store store', Runs R store store' → Stored R store →
      ∀ jobId record, store' jobId = some record →
        record.validate R = .ok () ∧ record.state.jobId = jobId ∧
        ∀ receipt, record.lastReceipt = some receipt →
          receipt.committedSequence = record.state.sequence ∧
          receipt.requestSequence + 1 = receipt.committedSequence ∧
          stateMatchesReceipt record.state.status receipt.status record.state.continuation
            receipt.continuation = true) ∧
    (∀ store store', Runs R store store' → ReflTransGen (Write R) store store') ∧
    (∀ store store', Write R store store' → ∀ jobId, JobStep store store' jobId) ∧
    (∀ (verifyBefore verifyAfter : π → Except (ExhaustiveReadError ρ) Unit)
      (operation : ResumableJobState π → ProgressStore π →
        ProgressStore π × Except ε ResumableJobAdvance) request store,
      (∃ page, (page = store ∨ ∃ state, page = (operation state store).1) ∧
        ReflGen (Write R) page
          (compareProofAndAdvance R verifyBefore verifyAfter operation request store).1) ∧
      ∀ store' receipt,
        compareProofAndAdvance R verifyBefore verifyAfter operation request store =
          (store', .ok receipt) → Answered request receipt store') ∧
    (∀ store request record receipt, Stored R store → store request.jobId = some record →
      exactReplay record request = some receipt →
      ∀ (verifyBefore verifyAfter : π → Except (ExhaustiveReadError ρ) Unit)
        (operation : ResumableJobState π → ProgressStore π →
          ProgressStore π × Except ε ResumableJobAdvance),
        compareProofAndAdvance R verifyBefore verifyAfter operation request store =
          (store, .ok receipt)) ∧
    (∀ (store : ProgressStore π) request record, store request.jobId = some record →
      (record.state.sequence ≠ request.expectedSequence ∨
        record.state.status = .completed ∨ record.state.status = .invalidated) →
      ∃ result, ∀ (verifyBefore verifyAfter : π → Except (ExhaustiveReadError ρ) Unit)
        (operation : ResumableJobState π → ProgressStore π →
          ProgressStore π × Except ε ResumableJobAdvance),
        compareProofAndAdvance R verifyBefore verifyAfter operation request store =
          (store, result)) := by
  refine ⟨?_, fun _ _ h => h.write, fun _ _ hw => hw.jobStep, ?_, ?_, ?_⟩
  · intro store store' hrun hstored jobId record hrecord
    have hstored' := hstored.of_writes hrun.write
    have hvalid := hstored'.valid hrecord
    refine ⟨hvalid, hstored'.keyed hrecord, fun receipt hlast => ?_⟩
    obtain ⟨-, hcommitted, hnext, hmatch⟩ := record.receipt_of_validate hvalid hlast
    exact ⟨hcommitted, hnext, hmatch⟩
  · intro verifyBefore verifyAfter operation request store
    exact ⟨compareProofAndAdvance_write verifyBefore verifyAfter operation request store,
      fun _ _ h => compareProofAndAdvance_answered h⟩
  · intro store request record receipt hstored hrecord hreplay
    exact compareProofAndAdvance_of_exactReplay hstored hrecord hreplay
  · intro store request record hrecord hnotCurrent
    exact compareProofAndAdvance_of_not_current hrecord hnotCurrent

end ResumableJob

end IcyDb
