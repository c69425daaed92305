import IcyDb.Store.Journaled
import IcyDb.Control.Except

/-!
# Positioned overlays

A journaled store publishes each live value or tombstone with the position of
the journal batch it came from (`PositionedOverlayMetadata`): the store
allocation of the journal and the batch's sequence in its tail.  A
publication is admitted only when it is no older than the position its key
already has (`preflight_publish`), so the overlay holds the newest batch's
effect.  Folding a batch into the canonical map retires the overlay of a key
only where that batch still owns it (`Exact`); a key a later batch wrote keeps
its overlay (`Superseded`).

The positioned operations of the journaled backends of `DataStore` and
`IndexStore` are the same on the maps a read consults; they are embedded
once, over any key and value type.  Both backends also keep cardinality
counters and a generation, which no read consults and which are left out, and
both answer `store_invariant` on the heap backend, which has no overlay.
-/

namespace IcyDb

/-- `StoreAllocationIdentity`: the stable memory and key of one store. -/
structure StoreAllocationIdentity where
  memoryId : UInt8
  stableKey : String
deriving DecidableEq, Repr

/-- `JournalSequence`: a batch's place in its journal tail. -/
structure JournalSequence where
  value : Nat
deriving DecidableEq, Repr

/-- `JournalOverlayPosition`: the store and the batch that own one live
effect. -/
structure JournalOverlayPosition where
  storeAllocation : StoreAllocationIdentity
  journalSequence : JournalSequence
deriving DecidableEq, Repr

/-- `PositionedOverlayRetirement`. -/
inductive PositionedOverlayRetirement
  | exact
  | superseded
deriving DecidableEq, Repr

namespace Store

/-- The `InternalError` the positioned operations raise: `store_invariant`. -/
inductive InternalError
  | storeInvariant
deriving DecidableEq, Repr

end Store

/-- `PositionedOverlayMetadata`: the position of each key's live effect. -/
structure PositionedOverlayMetadata (κ : Type) [LinearOrder κ] where
  positions : SortedMap κ JournalOverlayPosition

namespace PositionedOverlayMetadata

variable {κ : Type} [LinearOrder κ] (metadata : PositionedOverlayMetadata κ)

/-- `PositionedOverlayMetadata::new`. -/
def new : PositionedOverlayMetadata κ := ⟨⟨[], List.Pairwise.nil⟩⟩

/-- `preflight_publish`: a key's position may only move forward within its
store allocation. -/
def preflightPublish (key : κ) (position : JournalOverlayPosition) : Except Store.InternalError Unit :=
  match metadata.positions.get key with
  | none => .ok ()
  | some current =>
    Except.failIf (current.storeAllocation ≠ position.storeAllocation ∨
      current.journalSequence.value > position.journalSequence.value) .storeInvariant

/-- `publish_preflighted`. -/
def publishPreflighted (key : κ) (position : JournalOverlayPosition) : PositionedOverlayMetadata κ :=
  ⟨metadata.positions.insert key position⟩

/-- `preflight_retirement`: the key must have a position in the same
allocation, no older than the batch retiring it; the batch still owns the
key exactly when that position is the batch's. -/
def preflightRetirement (key : κ) (position : JournalOverlayPosition) :
    Except Store.InternalError PositionedOverlayRetirement := do
  let current ← Except.okOrElse (metadata.positions.get key) .storeInvariant
  Except.failIf (current.storeAllocation ≠ position.storeAllocation ∨
    current.journalSequence.value < position.journalSequence.value) .storeInvariant
  pure (if current = position then .exact else .superseded)

/-- `retire_preflighted`. -/
def retirePreflighted (key : κ) (retirement : PositionedOverlayRetirement) :
    PositionedOverlayMetadata κ :=
  if retirement = .exact then ⟨metadata.positions.erase key⟩ else metadata

theorem preflightPublish_eq_ok {key : κ} {position : JournalOverlayPosition}
    (h : ∀ current, metadata.positions.get key = some current →
      current.storeAllocation = position.storeAllocation ∧
        current.journalSequence.value ≤ position.journalSequence.value) :
    metadata.preflightPublish key position = .ok () := by
  unfold preflightPublish
  split
  · rfl
  · rename_i current hcurrent
    obtain ⟨halloc, hseq⟩ := h current hcurrent
    exact Except.failIf_of_not (by simp only [halloc, ne_eq, not_true_eq_false, false_or]; omega)

theorem preflightRetirement_eq_ok {key : κ} {position current : JournalOverlayPosition}
    (hcurrent : metadata.positions.get key = some current)
    (halloc : current.storeAllocation = position.storeAllocation)
    (hseq : position.journalSequence.value ≤ current.journalSequence.value) :
    metadata.preflightRetirement key position =
      .ok (if current = position then .exact else .superseded) := by
  rw [preflightRetirement, hcurrent, Except.okOrElse_some, Except.ok_bind,
    Except.failIf_of_not (by simp only [halloc, ne_eq, not_true_eq_false, false_or]; omega)]
  rfl

theorem get_publishPreflighted {key k : κ} {position : JournalOverlayPosition} :
    (metadata.publishPreflighted key position).positions.get k =
      if k = key then some position else metadata.positions.get k :=
  SortedMap.get_insert

theorem get_retirePreflighted {key k : κ} {retirement : PositionedOverlayRetirement} :
    (metadata.retirePreflighted key retirement).positions.get k =
      if retirement = .exact ∧ k = key then none else metadata.positions.get k := by
  unfold retirePreflighted
  by_cases hexact : retirement = .exact
  · simp only [hexact, if_true, true_and]
    exact SortedMap.get_erase
  · simp [hexact]

end PositionedOverlayMetadata

/-! ### The journaled backend -/

/-- `DataStoreBackend::Journaled` and `IndexStoreBackend::Journaled`: the
canonical map, the live overlay, the tombstones and the overlay positions. -/
structure JournaledBackend (κ V : Type) [LinearOrder κ] extends JournaledMaps κ V where
  positions : PositionedOverlayMetadata κ

namespace JournaledBackend

variable {κ V : Type} [LinearOrder κ] (store : JournaledBackend κ V)

/-- `preflight_positioned_journal_entry`. -/
def preflightPositionedJournalEntry (key : κ) (position : JournalOverlayPosition) :
    Except Store.InternalError Unit :=
  store.positions.preflightPublish key position

/-- `publish_preflighted_journal_entry`: a value replaces the key's
tombstone, a tombstone its live value, and the key takes the position; the
second component is what a read found before. -/
def publishPreflightedJournalEntry (key : κ) (row : Option V) (position : JournalOverlayPosition) :
    JournaledBackend κ V × Option V :=
  let previous := store.toJournaledMaps.read key
  let maps : JournaledMaps κ V :=
    match row with
    | some row =>
      { store.toJournaledMaps with
        tombstones := store.tombstones.erase key, live := store.live.insert key row }
    | none =>
      { store.toJournaledMaps with
        live := store.live.erase key, tombstones := insert key store.tombstones }
  ({ maps with positions := store.positions.publishPreflighted key position }, previous)

/-- `prepare_position_retirement`: each key of the batch, once and in key
order, with its retirement; the first key that fails fails the whole. -/
def preparePositionRetirement (keys : List κ) (position : JournalOverlayPosition) :
    Except Store.InternalError (List (κ × PositionedOverlayRetirement)) :=
  (sortedKeySet keys).mapM fun key =>
    (store.positions.preflightRetirement key position).map (key, ·)

/-- One entry of `apply_prepared_position_retirement`: an exact retirement
drops the key's live value, tombstone and position. -/
def retireEntry (entry : κ × PositionedOverlayRetirement) : JournaledBackend κ V :=
  if entry.2 = .exact then
    { store with
      live := store.live.erase entry.1
      tombstones := store.tombstones.erase entry.1
      positions := store.positions.retirePreflighted entry.1 entry.2 }
  else store

/-- `apply_prepared_position_retirement`. -/
def applyPreparedPositionRetirement (entries : List (κ × PositionedOverlayRetirement)) :
    JournaledBackend κ V :=
  entries.foldl retireEntry store

/-- `fold_recovered_journal_put`: the canonical map takes the value; the
second component is the canonical value it replaced. -/
def foldRecoveredJournalPut (key : κ) (row : V) : JournaledBackend κ V × Option V :=
  ({ store with canonical := store.canonical.insert key row }, store.canonical.get key)

/-- `fold_recovered_journal_delete`. -/
def foldRecoveredJournalDelete (key : κ) : JournaledBackend κ V × Option V :=
  ({ store with canonical := store.canonical.erase key }, store.canonical.get key)

/-- `IndexStore::fold_recovered_journal_entry`, and the choice between the
two row folds that `PreparedRowCommitOp::fold_recovered` makes. -/
def foldRecoveredJournalEntry (key : κ) (value : Option V) : JournaledBackend κ V :=
  match value with
  | some row => (store.foldRecoveredJournalPut key row).1
  | none => (store.foldRecoveredJournalDelete key).1

/-! #### What each operation does to one key -/

variable {store}

section Publish

variable {key k : κ} {row : Option V} {position : JournalOverlayPosition}

theorem live_publishPreflightedJournalEntry :
    (store.publishPreflightedJournalEntry key row position).1.live.get k =
      if k = key then row else store.live.get k := by
  unfold publishPreflightedJournalEntry
  cases row with
  | some row => exact SortedMap.get_insert
  | none => exact SortedMap.get_erase

theorem mem_tombstones_publishPreflightedJournalEntry :
    k ∈ (store.publishPreflightedJournalEntry key row position).1.tombstones ↔
      if k = key then row = none else k ∈ store.tombstones := by
  unfold publishPreflightedJournalEntry
  cases row with
  | some row =>
    by_cases hk : k = key <;> simp [hk]
  | none =>
    by_cases hk : k = key <;> simp [hk]

@[simp] theorem snd_publishPreflightedJournalEntry :
    (store.publishPreflightedJournalEntry key row position).2 = store.toJournaledMaps.read key := rfl

theorem canonical_publishPreflightedJournalEntry :
    (store.publishPreflightedJournalEntry key row position).1.canonical = store.canonical := by
  unfold publishPreflightedJournalEntry
  cases row <;> rfl

theorem positions_publishPreflightedJournalEntry :
    (store.publishPreflightedJournalEntry key row position).1.positions.positions.get k =
      if k = key then some position else store.positions.positions.get k := by
  unfold publishPreflightedJournalEntry
  cases row <;> exact PositionedOverlayMetadata.get_publishPreflighted _

/-- A read after the publication finds the published effect on its key and
what it found before on every other key. -/
theorem read_publishPreflightedJournalEntry :
    (store.publishPreflightedJournalEntry key row position).1.toJournaledMaps.read k =
      if k = key then row else store.toJournaledMaps.read k := by
  have hlive := @live_publishPreflightedJournalEntry _ _ _ store key k row position
  have htomb := @mem_tombstones_publishPreflightedJournalEntry _ _ _ store key k row position
  have hcanon := @canonical_publishPreflightedJournalEntry _ _ _ store key row position
  unfold JournaledMaps.read
  rw [hlive, hcanon]
  by_cases hk : k = key
  · simp only [hk, if_true] at htomb ⊢
    cases row with
    | some row => simp [htomb]
    | none => simp [htomb]
  · simp only [hk, if_false] at htomb ⊢
    simp only [htomb]

end Publish

section Fold

variable {key k : κ} {value : Option V}

theorem canonical_foldRecoveredJournalEntry :
    (store.foldRecoveredJournalEntry key value).canonical.get k =
      if k = key then value else store.canonical.get k := by
  unfold foldRecoveredJournalEntry
  cases value with
  | some row => exact SortedMap.get_insert
  | none => exact SortedMap.get_erase

@[simp] theorem live_foldRecoveredJournalEntry :
    (store.foldRecoveredJournalEntry key value).live = store.live := by
  unfold foldRecoveredJournalEntry
  cases value <;> rfl

@[simp] theorem tombstones_foldRecoveredJournalEntry :
    (store.foldRecoveredJournalEntry key value).tombstones = store.tombstones := by
  unfold foldRecoveredJournalEntry
  cases value <;> rfl

@[simp] theorem positions_foldRecoveredJournalEntry :
    (store.foldRecoveredJournalEntry key value).positions = store.positions := by
  unfold foldRecoveredJournalEntry
  cases value <;> rfl

/-- A read after a fold finds the folded value on its key where the overlay
does not shadow the key, and what it found before everywhere else. -/
theorem read_foldRecoveredJournalEntry :
    (store.foldRecoveredJournalEntry key value).toJournaledMaps.read k =
      if k = key ∧ k ∉ store.tombstones ∧ store.live.get k = none then value
      else store.toJournaledMaps.read k := by
  have hcanon := @canonical_foldRecoveredJournalEntry _ _ _ store key k value
  unfold JournaledMaps.read
  rw [tombstones_foldRecoveredJournalEntry, live_foldRecoveredJournalEntry, hcanon]
  by_cases hk : k = key
  · subst hk
    by_cases htomb : k ∈ store.tombstones
    · simp [htomb]
    · cases store.live.get k <;> simp [htomb]
  · simp [hk]

end Fold

section Retire

variable {k : κ}

/-- Whether a prepared retirement drops the overlay of a key. -/
def RetiresExactly (entries : List (κ × PositionedOverlayRetirement)) (k : κ) : Prop :=
  (k, PositionedOverlayRetirement.exact) ∈ entries

instance (entries : List (κ × PositionedOverlayRetirement)) (k : κ) :
    Decidable (RetiresExactly entries k) :=
  inferInstanceAs (Decidable (_ ∈ entries))

theorem retireEntry_spec (entry : κ × PositionedOverlayRetirement) :
    (store.retireEntry entry).live.get k =
        (if entry = (k, .exact) then none else store.live.get k) ∧
      (k ∈ (store.retireEntry entry).tombstones ↔ entry ≠ (k, .exact) ∧ k ∈ store.tombstones) ∧
      (store.retireEntry entry).positions.positions.get k =
        (if entry = (k, .exact) then none else store.positions.positions.get k) ∧
      (store.retireEntry entry).canonical = store.canonical := by
  obtain ⟨key, retirement⟩ := entry
  unfold retireEntry
  by_cases hexact : retirement = .exact
  · subst hexact
    by_cases hk : k = key
    · subst hk
      simp [SortedMap.get_erase, PositionedOverlayMetadata.get_retirePreflighted]
    · have hne : ∀ r, (key, r) ≠ (k, PositionedOverlayRetirement.exact) := fun r h => hk (congrArg Prod.fst h).symm
      simp [SortedMap.get_erase, PositionedOverlayMetadata.get_retirePreflighted, hk, hne]
  · have hne : (key, retirement) ≠ (k, PositionedOverlayRetirement.exact) := fun h => hexact (congrArg Prod.snd h)
    simp [hexact, hne]

@[simp] theorem canonical_applyPreparedPositionRetirement
    (entries : List (κ × PositionedOverlayRetirement)) :
    (store.applyPreparedPositionRetirement entries).canonical = store.canonical := by
  induction entries generalizing store with
  | nil => rfl
  | cons entry entries ih =>
    rw [applyPreparedPositionRetirement, List.foldl_cons, ← applyPreparedPositionRetirement, ih]
    unfold retireEntry
    split_ifs <;> rfl

/-- After the retirement a key keeps its overlay and position unless the
retirement drops them exactly; the canonical map is untouched. -/
theorem applyPreparedPositionRetirement_spec (entries : List (κ × PositionedOverlayRetirement)) :
    (store.applyPreparedPositionRetirement entries).live.get k =
        (if RetiresExactly entries k then none else store.live.get k) ∧
      (k ∈ (store.applyPreparedPositionRetirement entries).tombstones ↔
        ¬ RetiresExactly entries k ∧ k ∈ store.tombstones) ∧
      (store.applyPreparedPositionRetirement entries).positions.positions.get k =
        (if RetiresExactly entries k then none else store.positions.positions.get k) ∧
      (store.applyPreparedPositionRetirement entries).canonical = store.canonical := by
  induction entries generalizing store with
  | nil => simp [applyPreparedPositionRetirement, RetiresExactly]
  | cons entry entries ih =>
    -- the first entry retires, then the rest of the loop runs on its result
    obtain ⟨hlive, htomb, hpos, hcanon⟩ := @ih (store.retireEntry entry)
    obtain ⟨hlive₀, htomb₀, hpos₀, hcanon₀⟩ := @retireEntry_spec _ _ _ store k entry
    simp only [applyPreparedPositionRetirement, List.foldl_cons] at hlive htomb hpos hcanon ⊢
    simp only [RetiresExactly, List.mem_cons] at hlive htomb hpos ⊢
    refine ⟨?_, ?_, ?_, hcanon.trans hcanon₀⟩
    · rw [hlive, hlive₀]
      by_cases h₁ : entry = (k, .exact) <;> by_cases h₂ : (k, PositionedOverlayRetirement.exact) ∈ entries <;>
        simp [h₁, h₂, eq_comm]
    · rw [htomb, htomb₀]
      by_cases h₁ : entry = (k, .exact) <;> by_cases h₂ : (k, PositionedOverlayRetirement.exact) ∈ entries <;>
        simp [h₁, h₂, eq_comm]
    · rw [hpos, hpos₀]
      by_cases h₁ : entry = (k, .exact) <;> by_cases h₂ : (k, PositionedOverlayRetirement.exact) ∈ entries <;>
        simp [h₁, h₂, eq_comm]

end Retire

end JournaledBackend

end IcyDb
