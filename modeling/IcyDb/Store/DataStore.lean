import IcyDb.Store.EntityCardinality

/-!
# The journaled data store and its entity counters

`DataStore` over the journaled backend (`data/store.rs`): the backend's maps
and positions, the entity cardinality, and the cardinality delta of the
overlay (which the source keeps inside the backend).  Each operation of the
store is the backend's operation on the maps, with the counters moved by the
rule `data/store.rs` gives it; the generation counter, which only index
freshness checks read, is left out.

`DataStore.Counted` says the counters count the reads; every operation keeps
it (the publication and a fold without condition, save that no count passes
`u64::MAX`; a retirement where it leaves every read as it was).
An operation on a key with an entity prefix leaves each counter as available
as it was, the delta while it stays within `i64`.  `DataStore.Within` bounds
the keys the store reads or holds by a fixed finite set; with fewer than
`2^63` keys there, no count passes `u64::MAX` and no delta leaves `i64`.
-/

namespace IcyDb

/-- `DataStore` over the journaled backend: the backend's maps and
positions, the entity cardinality and the overlay's cardinality delta. -/
structure DataStore (κ V E : Type) [LinearOrder κ] [LinearOrder E] extends JournaledBackend κ V where
  entityCardinality : EntityCardinality E
  entityCardinalityDelta : EntityCardinalityDelta E

namespace DataStore

variable {κ V E : Type} [LinearOrder κ] [LinearOrder E] (entityTagPrefix : κ → Option E)
  (store : DataStore κ V E)

/-- `DataStore::init_journaled`: an empty overlay over the canonical map; the
cardinality is known, as zero, only where the canonical map is empty. -/
def initJournaled (canonical : SortedMap κ V) : DataStore κ V E where
  canonical := canonical
  live := SortedMap.empty
  tombstones := ∅
  positions := PositionedOverlayMetadata.new
  entityCardinality :=
    if canonical.isEmpty then EntityCardinality.empty else EntityCardinality.unavailable
  entityCardinalityDelta := EntityCardinalityDelta.empty

/-- `exact_entity_count`. -/
def exactEntityCount (entity : E) : Option Nat := store.entityCardinality.exactCount entity

/-- `exact_entity_cardinality_delta` on the journaled backend. -/
def exactEntityCardinalityDelta (entity : E) : Option Int :=
  store.entityCardinalityDelta.exactDelta entity

/-- `publish_preflighted_journal_entry`: the backend's publication; the
cardinality counts a row that appears and uncounts one that disappears, and
the delta moves with the read. -/
def publishPreflightedJournalEntry (key : κ) (row : Option V) (position : JournalOverlayPosition) :
    DataStore κ V E × Option V :=
  let published := store.toJournaledBackend.publishPreflightedJournalEntry key row position
  let previous := published.2
  ({ toJournaledBackend := published.1
     entityCardinality :=
       match row with
       | some _ => store.entityCardinality.applyInsert entityTagPrefix key previous
       | none => store.entityCardinality.applyRemove entityTagPrefix key previous
     entityCardinalityDelta :=
       store.entityCardinalityDelta.applyPresenceTransition entityTagPrefix key previous.isSome
         row.isSome },
    previous)

/-- `fold_recovered_journal_put`: the canonical map takes the row; where the
overlay does not shadow the key the cardinality moves with it, where it does
and the key had no canonical row the delta loses one. -/
def foldRecoveredJournalPut (key : κ) (row : V) : DataStore κ V E × Option V :=
  let visible := !store.live.containsKey key && decide (key ∉ store.tombstones)
  let folded := store.toJournaledBackend.foldRecoveredJournalPut key row
  let previous := folded.2
  ({ toJournaledBackend := folded.1
     entityCardinality :=
       if visible then store.entityCardinality.applyInsert entityTagPrefix key previous
       else store.entityCardinality
     entityCardinalityDelta :=
       if !visible && previous.isNone then
         store.entityCardinalityDelta.applyPresenceTransition entityTagPrefix key true false
       else store.entityCardinalityDelta },
    previous)

/-- `fold_recovered_journal_delete`: the canonical map loses the key; where
the overlay does not shadow it the cardinality moves with it, where it does
and the key had a canonical row the delta gains one. -/
def foldRecoveredJournalDelete (key : κ) : DataStore κ V E × Option V :=
  let visible := !store.live.containsKey key && decide (key ∉ store.tombstones)
  let folded := store.toJournaledBackend.foldRecoveredJournalDelete key
  let previous := folded.2
  ({ toJournaledBackend := folded.1
     entityCardinality :=
       if visible then store.entityCardinality.applyRemove entityTagPrefix key previous
       else store.entityCardinality
     entityCardinalityDelta :=
       if !visible && previous.isSome then
         store.entityCardinalityDelta.applyPresenceTransition entityTagPrefix key false true
       else store.entityCardinalityDelta },
    previous)

/-- The row fold `PreparedRowCommitOp::fold_recovered` makes of one effect. -/
def foldRecoveredJournalEntry (key : κ) (value : Option V) : DataStore κ V E :=
  match value with
  | some row => (store.foldRecoveredJournalPut entityTagPrefix key row).1
  | none => (store.foldRecoveredJournalDelete entityTagPrefix key).1

/-- `apply_prepared_position_retirement`: the counters stay as they are. -/
def applyPreparedPositionRetirement (entries : List (κ × PositionedOverlayRetirement)) :
    DataStore κ V E :=
  { store with toJournaledBackend := store.toJournaledBackend.applyPreparedPositionRetirement entries }

/-- `reset_journaled_live_projection` on the journaled backend: the live
projection, its tombstones and positions and the delta are dropped, and the
cardinality is known again only over an empty canonical map. -/
def resetJournaledLiveProjection : DataStore κ V E :=
  { store with
    live := SortedMap.empty
    tombstones := ∅
    positions := PositionedOverlayMetadata.new
    entityCardinalityDelta := EntityCardinalityDelta.empty
    entityCardinality :=
      if store.canonical.isEmpty then EntityCardinality.empty else EntityCardinality.unavailable }

/-- The journaled arm that `insert`, `remove` and the recovered replays
share: the row, or its absence, goes to the live projection, the cardinality
counts a row that appears and uncounts one that disappears, and the delta
moves with the read.  `previous` is the visible row the caller read first. -/
def writeLiveProjection (key : κ) (row previous : Option V) : DataStore κ V E × Option V :=
  ({ store with
      live :=
        match row with
        | some row => store.live.insert key row
        | none => store.live.erase key
      tombstones :=
        match row with
        | some _ => store.tombstones.erase key
        | none => Insert.insert key store.tombstones
      entityCardinality :=
        match row with
        | some _ => store.entityCardinality.applyInsert entityTagPrefix key previous
        | none => store.entityCardinality.applyRemove entityTagPrefix key previous
      entityCardinalityDelta :=
        store.entityCardinalityDelta.applyPresenceTransition entityTagPrefix key previous.isSome
          row.isSome },
    previous)

/-- `DataStore::insert` on the journaled backend: the previous row is the
visible read. -/
def insert (key : κ) (row : V) : DataStore κ V E × Option V :=
  store.writeLiveProjection entityTagPrefix key (some row) (store.toJournaledMaps.read key)

/-- `DataStore::remove` on the journaled backend. -/
def remove (key : κ) : DataStore κ V E × Option V :=
  store.writeLiveProjection entityTagPrefix key none (store.toJournaledMaps.read key)

/-- The row the recovered replays read first: none under a tombstone, else
the live row, else the canonical one. -/
def recoveredPrevious (key : κ) : Option V :=
  if key ∈ store.tombstones then none else (store.live.get key).or (store.canonical.get key)

/-- `apply_recovered_journal_put` on the journaled backend. -/
def applyRecoveredJournalPut (key : κ) (row : V) : DataStore κ V E × Option V :=
  store.writeLiveProjection entityTagPrefix key (some row) (store.recoveredPrevious key)

/-- `apply_recovered_journal_delete` on the journaled backend. -/
def applyRecoveredJournalDelete (key : κ) : DataStore κ V E × Option V :=
  store.writeLiveProjection entityTagPrefix key none (store.recoveredPrevious key)

/-! ### The maps are the backend's -/

variable {entityTagPrefix store} {key : κ}

@[simp] theorem toJournaledBackend_publishPreflightedJournalEntry {row : Option V}
    {position : JournalOverlayPosition} :
    (store.publishPreflightedJournalEntry entityTagPrefix key row position).1.toJournaledBackend =
      (store.toJournaledBackend.publishPreflightedJournalEntry key row position).1 := rfl

@[simp] theorem toJournaledBackend_foldRecoveredJournalEntry {value : Option V} :
    (store.foldRecoveredJournalEntry entityTagPrefix key value).toJournaledBackend =
      store.toJournaledBackend.foldRecoveredJournalEntry key value := by
  cases value <;> rfl

@[simp] theorem toJournaledBackend_applyPreparedPositionRetirement
    {entries : List (κ × PositionedOverlayRetirement)} :
    (store.applyPreparedPositionRetirement entries).toJournaledBackend =
      store.toJournaledBackend.applyPreparedPositionRetirement entries := rfl

/-! ### The counters count the reads -/

variable (entityTagPrefix store)

/-- The cardinality counts the rows a read finds, the delta those less the
rows of the canonical map, wherever each is available. -/
structure Counted : Prop where
  cardinality : store.entityCardinality.Tracks (store.toJournaledMaps.visibleCount entityTagPrefix)
  delta : store.entityCardinalityDelta.Tracks fun entity =>
    (store.toJournaledMaps.visibleCount entityTagPrefix entity : Int) -
      store.toJournaledMaps.canonicalCount entityTagPrefix entity

/-- Every key the store reads a row for or holds canonically is one of
`keys`. -/
structure Within (keys : Finset κ) : Prop where
  visible : store.toJournaledMaps.visibleKeys ⊆ keys
  canonical : store.toJournaledMaps.canonicalKeys ⊆ keys

variable {entityTagPrefix store}

theorem Counted.exactEntityCount_eq (h : store.Counted entityTagPrefix) {entity : E} {count : Nat}
    (hcount : store.exactEntityCount entity = some count) :
    count = store.toJournaledMaps.visibleCount entityTagPrefix entity :=
  h.cardinality.exactCount_eq hcount

theorem Counted.exactEntityCardinalityDelta_eq (h : store.Counted entityTagPrefix) {entity : E}
    {value : Int} (hvalue : store.exactEntityCardinalityDelta entity = some value) :
    value = store.toJournaledMaps.visibleCount entityTagPrefix entity -
      store.toJournaledMaps.canonicalCount entityTagPrefix entity :=
  h.delta.exactDelta_eq hvalue

/-! #### The initial store -/

section Init

variable {canonical : SortedMap κ V}

theorem read_initJournaled (k : κ) :
    (initJournaled canonical : DataStore κ V E).toJournaledMaps.read k = canonical.get k := by
  simp [initJournaled, JournaledMaps.read]

theorem visibleKeys_initJournaled :
    (initJournaled canonical : DataStore κ V E).toJournaledMaps.visibleKeys =
      (initJournaled canonical : DataStore κ V E).toJournaledMaps.canonicalKeys := by
  ext k
  rw [JournaledMaps.mem_visibleKeys, JournaledMaps.mem_canonicalKeys, read_initJournaled]
  rfl

theorem counted_initJournaled : (initJournaled canonical : DataStore κ V E).Counted entityTagPrefix := by
  have hvisible := @visibleKeys_initJournaled κ V E _ _ canonical
  refine ⟨?_, fun _ entity => ?_⟩
  · -- the cardinality starts known only over an empty canonical map, at zero
    by_cases hempty : canonical.isEmpty = true
    · intro _ entity
      have hkeys : (initJournaled canonical : DataStore κ V E).toJournaledMaps.visibleKeys = ∅ := by
        rw [hvisible]
        ext k
        simp [JournaledMaps.canonicalKeys, initJournaled, SortedMap.keys,
          SortedMap.isEmpty_iff.mp hempty]
      rw [JournaledMaps.visibleCount, hkeys, Finset.filter_empty, Finset.card_empty]
      simp [initJournaled, hempty, EntityCardinality.empty]
    · exact EntityCardinality.tracks_of_not_decodable (by simp [initJournaled, hempty,
        EntityCardinality.unavailable])
  · -- no overlay: the reads are the canonical rows
    simp only [JournaledMaps.visibleCount, hvisible]
    simp [initJournaled, EntityCardinalityDelta.empty, JournaledMaps.canonicalCount]

theorem within_initJournaled {keys : Finset κ} (hkeys : canonical.keys.toFinset ⊆ keys) :
    (initJournaled canonical : DataStore κ V E).Within keys :=
  ⟨by rw [visibleKeys_initJournaled]; exact hkeys, hkeys⟩

/-- A reset store is the store a restart initializes over the same
canonical map. -/
theorem resetJournaledLiveProjection_eq_initJournaled :
    store.resetJournaledLiveProjection = initJournaled store.canonical := rfl

/-- Whatever the counters were, a reset leaves them counting. -/
theorem counted_resetJournaledLiveProjection :
    store.resetJournaledLiveProjection.Counted entityTagPrefix := by
  rw [resetJournaledLiveProjection_eq_initJournaled]
  exact counted_initJournaled

theorem Within.resetJournaledLiveProjection {keys : Finset κ} (h : store.Within keys) :
    store.resetJournaledLiveProjection.Within keys := by
  rw [resetJournaledLiveProjection_eq_initJournaled]
  exact within_initJournaled h.canonical

end Init

/-! #### A write of one key

Publication, `insert`, `remove` and the recovered replays all write one key
over the same canonical map and move both counters by the read they replace.
The argument that this keeps the counters counting is made once here. -/

section OneKey

variable {s : DataStore κ V E} {row : Option V}

/-- A step that changes the read at `key` alone, to `row`, moves the visible
rows by that change. -/
theorem moves_of_read_eq (entityTagPrefix : κ → Option E)
    (hread : ∀ k, s.toJournaledMaps.read k =
      if k = key then row else store.toJournaledMaps.read k) :
    Moves entityTagPrefix key (store.toJournaledMaps.visibleCount entityTagPrefix)
      (s.toJournaledMaps.visibleCount entityTagPrefix) (store.toJournaledMaps.read key).isSome
      row.isSome := by
  have hmoves : Moves entityTagPrefix key (store.toJournaledMaps.visibleCount entityTagPrefix)
      (s.toJournaledMaps.visibleCount entityTagPrefix) (store.toJournaledMaps.read key).isSome
      (s.toJournaledMaps.read key).isSome :=
    JournaledMaps.visibleCount_moves entityTagPrefix fun k hk => by rw [hread k, if_neg hk]
  rwa [hread, if_pos rfl] at hmoves

/-- Over the same canonical map, the visible rows less the canonical ones move
by the change of the key's read. -/
theorem delta_moves_of_write (entityTagPrefix : κ → Option E)
    (hread : ∀ k, s.toJournaledMaps.read k = if k = key then row else store.toJournaledMaps.read k)
    (hcanonical : s.canonical = store.canonical) (entity : E) :
    (s.toJournaledMaps.visibleCount entityTagPrefix entity : Int) -
        s.toJournaledMaps.canonicalCount entityTagPrefix entity =
      (store.toJournaledMaps.visibleCount entityTagPrefix entity : Int) -
          store.toJournaledMaps.canonicalCount entityTagPrefix entity +
        if entityTagPrefix key = some entity then
          (row.isSome.toNat : Int) - (store.toJournaledMaps.read key).isSome.toNat
        else 0 := by
  have hcount : s.toJournaledMaps.canonicalCount entityTagPrefix entity =
      store.toJournaledMaps.canonicalCount entityTagPrefix entity := by
    simp only [JournaledMaps.canonicalCount, JournaledMaps.canonicalKeys, hcanonical]
  rw [hcount, (moves_of_read_eq entityTagPrefix hread).cast_eq entity]
  omega

/-- A step that writes `row` at `key`, keeps the canonical map and moves both
counters by the read it replaced keeps them counting. -/
theorem Counted.of_write (h : store.Counted entityTagPrefix)
    (hcard : s.entityCardinality =
      match row with
      | some _ =>
        store.entityCardinality.applyInsert entityTagPrefix key (store.toJournaledMaps.read key)
      | none =>
        store.entityCardinality.applyRemove entityTagPrefix key (store.toJournaledMaps.read key))
    (hdelta : s.entityCardinalityDelta = store.entityCardinalityDelta.applyPresenceTransition
      entityTagPrefix key (store.toJournaledMaps.read key).isSome row.isSome)
    (hread : ∀ k, s.toJournaledMaps.read k = if k = key then row else store.toJournaledMaps.read k)
    (hcanonical : s.canonical = store.canonical)
    (hbound : ∀ entity, s.toJournaledMaps.visibleCount entityTagPrefix entity ≤ u64Max) :
    s.Counted entityTagPrefix := by
  have hmoves := moves_of_read_eq entityTagPrefix hread
  refine ⟨?_, ?_⟩
  · rw [hcard]
    cases row with
    | some row => exact EntityCardinality.tracks_applyInsert h.cardinality hmoves hbound
    | none => exact EntityCardinality.tracks_applyRemove h.cardinality hmoves
  · rw [hdelta]
    exact EntityCardinalityDelta.tracks_applyPresenceTransition h.delta
      (delta_moves_of_write entityTagPrefix hread hcanonical)

end OneKey

/-! #### Publication -/

section Publish

variable {row : Option V} {position : JournalOverlayPosition}

theorem read_publishPreflightedJournalEntry (k : κ) :
    (store.publishPreflightedJournalEntry entityTagPrefix key row position).1.toJournaledMaps.read k =
      if k = key then row else store.toJournaledMaps.read k :=
  JournaledBackend.read_publishPreflightedJournalEntry

theorem Counted.publishPreflightedJournalEntry (h : store.Counted entityTagPrefix)
    (hbound : ∀ entity, (store.publishPreflightedJournalEntry entityTagPrefix key row
      position).1.toJournaledMaps.visibleCount entityTagPrefix entity ≤ u64Max) :
    (store.publishPreflightedJournalEntry entityTagPrefix key row position).1.Counted
      entityTagPrefix :=
  h.of_write rfl rfl read_publishPreflightedJournalEntry
    JournaledBackend.canonical_publishPreflightedJournalEntry hbound

theorem within_publishPreflightedJournalEntry {keys : Finset κ} (h : store.Within keys)
    (hkey : key ∈ keys) :
    (store.publishPreflightedJournalEntry entityTagPrefix key row position).1.Within keys := by
  refine ⟨fun k hk => ?_, ?_⟩
  · rw [JournaledMaps.mem_visibleKeys, read_publishPreflightedJournalEntry] at hk
    split_ifs at hk with hkk
    · exact hkk ▸ hkey
    · exact h.visible (JournaledMaps.mem_visibleKeys.mpr hk)
  · have hcanon := @JournaledBackend.canonical_publishPreflightedJournalEntry _ _ _
      store.toJournaledBackend key row position
    simpa only [JournaledMaps.canonicalKeys, toJournaledBackend_publishPreflightedJournalEntry,
      hcanon] using h.canonical

end Publish

/-! #### Direct writes -/

section Write

variable {row previous : Option V}

theorem read_writeLiveProjection (k : κ) :
    (store.writeLiveProjection entityTagPrefix key row previous).1.toJournaledMaps.read k =
      if k = key then row else store.toJournaledMaps.read k := by
  unfold writeLiveProjection JournaledMaps.read
  by_cases hk : k = key <;> cases row <;> simp [hk, SortedMap.get_insert, SortedMap.get_erase]

/-- The recovered replays read what a reader reads. -/
theorem recoveredPrevious_eq_read :
    store.recoveredPrevious key = store.toJournaledMaps.read key := by
  unfold recoveredPrevious JournaledMaps.read
  split_ifs <;> cases store.live.get key <;> rfl

theorem Counted.writeLiveProjection (h : store.Counted entityTagPrefix)
    (hbound : ∀ entity, (store.writeLiveProjection entityTagPrefix key row
      (store.toJournaledMaps.read key)).1.toJournaledMaps.visibleCount entityTagPrefix entity ≤
        u64Max) :
    (store.writeLiveProjection entityTagPrefix key row (store.toJournaledMaps.read key)).1.Counted
      entityTagPrefix :=
  h.of_write rfl rfl read_writeLiveProjection rfl hbound

theorem within_writeLiveProjection {keys : Finset κ} (h : store.Within keys) (hkey : key ∈ keys) :
    (store.writeLiveProjection entityTagPrefix key row previous).1.Within keys := by
  refine ⟨fun k hk => ?_, h.canonical⟩
  rw [JournaledMaps.mem_visibleKeys, read_writeLiveProjection] at hk
  split_ifs at hk with hkk
  · exact hkk ▸ hkey
  · exact h.visible (JournaledMaps.mem_visibleKeys.mpr hk)

end Write

/-! #### Folds -/

section Fold

variable {value : Option V}

/-- The fold's test of whether the overlay leaves the key to the canonical
map. -/
theorem visible_eq_true_iff :
    (!store.live.containsKey key && decide (key ∉ store.tombstones)) = true ↔
      key ∉ store.tombstones ∧ store.live.get key = none := by
  simp [SortedMap.containsKey, and_comm]

theorem read_foldRecoveredJournalEntry (k : κ) :
    (store.foldRecoveredJournalEntry entityTagPrefix key value).toJournaledMaps.read k =
      if k = key ∧ k ∉ store.tombstones ∧ store.live.get k = none then value
      else store.toJournaledMaps.read k := by
  rw [toJournaledBackend_foldRecoveredJournalEntry]
  exact JournaledBackend.read_foldRecoveredJournalEntry

theorem canonical_get_foldRecoveredJournalEntry (k : κ) :
    (store.foldRecoveredJournalEntry entityTagPrefix key value).canonical.get k =
      if k = key then value else store.canonical.get k := by
  rw [toJournaledBackend_foldRecoveredJournalEntry]
  exact JournaledBackend.canonical_foldRecoveredJournalEntry

/-- Where the overlay leaves the key to the canonical map, a fold moves the
cardinality by the canonical change; elsewhere it leaves it. -/
theorem entityCardinality_foldRecoveredJournalEntry :
    (store.foldRecoveredJournalEntry entityTagPrefix key value).entityCardinality =
      if key ∉ store.tombstones ∧ store.live.get key = none then
        match value with
        | some _ => store.entityCardinality.applyInsert entityTagPrefix key (store.canonical.get key)
        | none => store.entityCardinality.applyRemove entityTagPrefix key (store.canonical.get key)
      else store.entityCardinality := by
  cases value <;>
  · simp only [foldRecoveredJournalEntry, foldRecoveredJournalPut, foldRecoveredJournalDelete,
      visible_eq_true_iff]
    rfl

/-- Where the overlay shadows the key, a fold moves the delta against the
canonical change; elsewhere it leaves it. -/
theorem entityCardinalityDelta_foldRecoveredJournalEntry :
    (store.foldRecoveredJournalEntry entityTagPrefix key value).entityCardinalityDelta =
      if key ∉ store.tombstones ∧ store.live.get key = none then store.entityCardinalityDelta
      else store.entityCardinalityDelta.applyPresenceTransition entityTagPrefix key value.isSome
        (store.canonical.get key).isSome := by
  have hvisible := @visible_eq_true_iff κ V E _ _ store key
  cases value with
  | some row =>
    unfold foldRecoveredJournalEntry foldRecoveredJournalPut JournaledBackend.foldRecoveredJournalPut
    dsimp only
    by_cases h : key ∉ store.tombstones ∧ store.live.get key = none
    · rw [if_pos h, hvisible.mpr h]
      rfl
    · rw [if_neg h, Bool.eq_false_iff.mpr (mt hvisible.mp h)]
      cases store.canonical.get key <;> simp
  | none =>
    unfold foldRecoveredJournalEntry foldRecoveredJournalDelete
      JournaledBackend.foldRecoveredJournalDelete
    dsimp only
    by_cases h : key ∉ store.tombstones ∧ store.live.get key = none
    · rw [if_pos h, hvisible.mpr h]
      rfl
    · rw [if_neg h, Bool.eq_false_iff.mpr (mt hvisible.mp h)]
      cases store.canonical.get key <;> simp

theorem visibleMoves_foldRecoveredJournalEntry :
    Moves entityTagPrefix key (store.toJournaledMaps.visibleCount entityTagPrefix)
      ((store.foldRecoveredJournalEntry entityTagPrefix key value).toJournaledMaps.visibleCount
        entityTagPrefix) (store.toJournaledMaps.read key).isSome
      ((store.foldRecoveredJournalEntry entityTagPrefix key value).toJournaledMaps.read key).isSome :=
  JournaledMaps.visibleCount_moves entityTagPrefix fun k hk => by
    rw [read_foldRecoveredJournalEntry, if_neg fun h => hk h.1]

theorem canonicalMoves_foldRecoveredJournalEntry :
    Moves entityTagPrefix key (store.toJournaledMaps.canonicalCount entityTagPrefix)
      ((store.foldRecoveredJournalEntry entityTagPrefix key value).toJournaledMaps.canonicalCount
        entityTagPrefix) (store.canonical.get key).isSome value.isSome := by
  have hmoves : Moves entityTagPrefix key (store.toJournaledMaps.canonicalCount entityTagPrefix)
      ((store.foldRecoveredJournalEntry entityTagPrefix key value).toJournaledMaps.canonicalCount
        entityTagPrefix) (store.canonical.get key).isSome
      ((store.foldRecoveredJournalEntry entityTagPrefix key value).canonical.get key).isSome :=
    JournaledMaps.canonicalCount_moves entityTagPrefix fun k hk => by
      rw [canonical_get_foldRecoveredJournalEntry, if_neg hk]
  rwa [canonical_get_foldRecoveredJournalEntry, if_pos rfl] at hmoves

theorem Counted.foldRecoveredJournalEntry (h : store.Counted entityTagPrefix)
    (hbound : ∀ entity, (store.foldRecoveredJournalEntry entityTagPrefix key
      value).toJournaledMaps.visibleCount entityTagPrefix entity ≤ u64Max) :
    (store.foldRecoveredJournalEntry entityTagPrefix key value).Counted entityTagPrefix := by
  have hvis := @visibleMoves_foldRecoveredJournalEntry κ V E _ _ entityTagPrefix store key value
  have hcan := @canonicalMoves_foldRecoveredJournalEntry κ V E _ _ entityTagPrefix store key value
  rw [read_foldRecoveredJournalEntry, if_congr (and_iff_right rfl) rfl rfl] at hvis
  refine ⟨?_, ?_⟩
  · rw [entityCardinality_foldRecoveredJournalEntry]
    split_ifs at hvis ⊢ with hvisible
    · -- the read is the canonical row, before and after
      have hbefore : store.toJournaledMaps.read key = store.canonical.get key := by
        simp [JournaledMaps.read, hvisible.1, hvisible.2]
      rw [hbefore] at hvis
      cases value with
      | some row => exact EntityCardinality.tracks_applyInsert h.cardinality hvis hbound
      | none => exact EntityCardinality.tracks_applyRemove h.cardinality hvis
    · -- the overlay shadows the key: no read changes
      exact h.cardinality.congr fun entity => by rw [hvis.eq_of_same]
  · rw [entityCardinalityDelta_foldRecoveredJournalEntry]
    split_ifs at hvis ⊢ with hvisible
    · -- the reads and the canonical map move together
      have hbefore : store.toJournaledMaps.read key = store.canonical.get key := by
        simp [JournaledMaps.read, hvisible.1, hvisible.2]
      rw [hbefore] at hvis
      exact h.delta.congr fun entity => by
        rw [hvis.cast_eq entity, hcan.cast_eq entity]
        omega
    · -- only the canonical map moves
      apply EntityCardinalityDelta.tracks_applyPresenceTransition h.delta
      intro entity
      rw [hvis.eq_of_same, hcan.cast_eq entity]
      split_ifs <;> omega

theorem within_foldRecoveredJournalEntry {keys : Finset κ} (h : store.Within keys)
    (hkey : key ∈ keys) :
    (store.foldRecoveredJournalEntry entityTagPrefix key value).Within keys := by
  refine ⟨fun k hk => ?_, fun k hk => ?_⟩
  · rw [JournaledMaps.mem_visibleKeys, read_foldRecoveredJournalEntry] at hk
    split_ifs at hk with hkk
    · exact hkk.1 ▸ hkey
    · exact h.visible (JournaledMaps.mem_visibleKeys.mpr hk)
  · rw [JournaledMaps.mem_canonicalKeys, canonical_get_foldRecoveredJournalEntry] at hk
    split_ifs at hk with hkk
    · exact hkk ▸ hkey
    · exact h.canonical (JournaledMaps.mem_canonicalKeys.mpr hk)

end Fold

/-! #### Retirement -/

section Retire

variable {entries : List (κ × PositionedOverlayRetirement)}

theorem canonicalKeys_applyPreparedPositionRetirement :
    (store.applyPreparedPositionRetirement entries).toJournaledMaps.canonicalKeys =
      store.toJournaledMaps.canonicalKeys := by
  simp only [JournaledMaps.canonicalKeys, toJournaledBackend_applyPreparedPositionRetirement,
    JournaledBackend.canonical_applyPreparedPositionRetirement]

theorem visibleKeys_applyPreparedPositionRetirement
    (hread : ∀ k, (store.applyPreparedPositionRetirement entries).toJournaledMaps.read k =
      store.toJournaledMaps.read k) :
    (store.applyPreparedPositionRetirement entries).toJournaledMaps.visibleKeys =
      store.toJournaledMaps.visibleKeys :=
  Finset.ext fun k => by rw [JournaledMaps.mem_visibleKeys, JournaledMaps.mem_visibleKeys, hread]

/-- A retirement that leaves every read as it was keeps the counters
counting: it drops only overlays the canonical map agrees with. -/
theorem Counted.applyPreparedPositionRetirement (h : store.Counted entityTagPrefix)
    (hread : ∀ k, (store.applyPreparedPositionRetirement entries).toJournaledMaps.read k =
      store.toJournaledMaps.read k) :
    (store.applyPreparedPositionRetirement entries).Counted entityTagPrefix := by
  have hvisible := visibleKeys_applyPreparedPositionRetirement hread
  have hcanonical := @canonicalKeys_applyPreparedPositionRetirement κ V E _ _ store entries
  refine ⟨h.cardinality.congr fun entity => ?_, h.delta.congr fun entity => ?_⟩
  · simp only [JournaledMaps.visibleCount, hvisible]
  · simp only [JournaledMaps.visibleCount, JournaledMaps.canonicalCount, hvisible, hcanonical]

theorem within_applyPreparedPositionRetirement {keys : Finset κ} (h : store.Within keys)
    (hread : ∀ k, (store.applyPreparedPositionRetirement entries).toJournaledMaps.read k =
      store.toJournaledMaps.read k) :
    (store.applyPreparedPositionRetirement entries).Within keys :=
  ⟨(visibleKeys_applyPreparedPositionRetirement hread).symm ▸ h.visible,
    (@canonicalKeys_applyPreparedPositionRetirement κ V E _ _ store entries).symm ▸ h.canonical⟩

end Retire

/-! #### Bounds and availability -/

section Bounds

variable {keys : Finset κ}

/-- Within fewer than `2^63` keys no count passes `u64::MAX`. -/
theorem Within.visibleCount_le (entityTagPrefix : κ → Option E) (h : store.Within keys)
    (hcard : keys.card < 2 ^ 63) (entity : E) :
    store.toJournaledMaps.visibleCount entityTagPrefix entity ≤ u64Max := by
  have := JournaledMaps.visibleCount_le entityTagPrefix h.visible entity
  unfold u64Max
  omega

/-- Within fewer than `2^63` keys no delta leaves `i64`. -/
theorem Within.delta_range (entityTagPrefix : κ → Option E) (h : store.Within keys)
    (hcard : keys.card < 2 ^ 63) (entity : E) :
    i64Min ≤ (store.toJournaledMaps.visibleCount entityTagPrefix entity : Int) -
        store.toJournaledMaps.canonicalCount entityTagPrefix entity ∧
      (store.toJournaledMaps.visibleCount entityTagPrefix entity : Int) -
        store.toJournaledMaps.canonicalCount entityTagPrefix entity ≤ i64Max := by
  have hvisible := JournaledMaps.visibleCount_le entityTagPrefix h.visible entity
  have hcanonical := JournaledMaps.canonicalCount_le entityTagPrefix h.canonical entity
  unfold i64Min i64Max
  omega

variable {row value : Option V} {position : JournalOverlayPosition}

/-- A write of one key (`Counted.of_write`) with an entity prefix keeps the delta as available
as it was, while the keys stay within fewer than `2^63`. -/
theorem deltaDecodable_of_write {s : DataStore κ V E} (h : store.Counted entityTagPrefix)
    (hdelta : s.entityCardinalityDelta = store.entityCardinalityDelta.applyPresenceTransition
      entityTagPrefix key (store.toJournaledMaps.read key).isSome row.isSome)
    (hread : ∀ k, s.toJournaledMaps.read k = if k = key then row else store.toJournaledMaps.read k)
    (hcanonical : s.canonical = store.canonical) (hwithin : s.Within keys)
    (hcard : keys.card < 2 ^ 63) (hkey : (entityTagPrefix key).isSome = true) :
    s.entityCardinalityDelta.decodable = store.entityCardinalityDelta.decodable := by
  rw [hdelta]
  exact EntityCardinalityDelta.decodable_applyPresenceTransition h.delta
    (delta_moves_of_write entityTagPrefix hread hcanonical) hkey
    (hwithin.delta_range entityTagPrefix hcard)

/-- A write of one key with an entity prefix keeps the cardinality as
available as it was, whatever row it took as the previous one. -/
theorem decodable_of_write {s : DataStore κ V E} {previous : Option V}
    (hcard : s.entityCardinality =
      match row with
      | some _ => store.entityCardinality.applyInsert entityTagPrefix key previous
      | none => store.entityCardinality.applyRemove entityTagPrefix key previous)
    (hkey : (entityTagPrefix key).isSome = true) :
    s.entityCardinality.decodable = store.entityCardinality.decodable := by
  rw [hcard]
  cases row with
  | some row => exact EntityCardinality.decodable_applyInsert hkey
  | none => exact EntityCardinality.decodable_applyRemove hkey

theorem decodable_publishPreflightedJournalEntry (hkey : (entityTagPrefix key).isSome = true) :
    (store.publishPreflightedJournalEntry entityTagPrefix key row
      position).1.entityCardinality.decodable = store.entityCardinality.decodable :=
  decodable_of_write rfl hkey

/-- A key with an entity prefix keeps the delta as available as it was, while
the keys stay within fewer than `2^63`. -/
theorem deltaDecodable_publishPreflightedJournalEntry (h : store.Counted entityTagPrefix)
    (hwithin :
      (store.publishPreflightedJournalEntry entityTagPrefix key row position).1.Within keys)
    (hcard : keys.card < 2 ^ 63) (hkey : (entityTagPrefix key).isSome = true) :
    (store.publishPreflightedJournalEntry entityTagPrefix key row
      position).1.entityCardinalityDelta.decodable = store.entityCardinalityDelta.decodable :=
  deltaDecodable_of_write h rfl read_publishPreflightedJournalEntry
    JournaledBackend.canonical_publishPreflightedJournalEntry hwithin hcard hkey

theorem deltaDecodable_writeLiveProjection (h : store.Counted entityTagPrefix)
    (hwithin : (store.writeLiveProjection entityTagPrefix key row
      (store.toJournaledMaps.read key)).1.Within keys)
    (hcard : keys.card < 2 ^ 63) (hkey : (entityTagPrefix key).isSome = true) :
    (store.writeLiveProjection entityTagPrefix key row
      (store.toJournaledMaps.read key)).1.entityCardinalityDelta.decodable =
      store.entityCardinalityDelta.decodable :=
  deltaDecodable_of_write h rfl read_writeLiveProjection rfl hwithin hcard hkey

theorem decodable_foldRecoveredJournalEntry (hkey : (entityTagPrefix key).isSome = true) :
    (store.foldRecoveredJournalEntry entityTagPrefix key value).entityCardinality.decodable =
      store.entityCardinality.decodable := by
  rw [entityCardinality_foldRecoveredJournalEntry]
  split_ifs
  · cases value with
    | some row => exact EntityCardinality.decodable_applyInsert hkey
    | none => exact EntityCardinality.decodable_applyRemove hkey
  · rfl

theorem deltaDecodable_foldRecoveredJournalEntry (h : store.Counted entityTagPrefix)
    (hwithin : (store.foldRecoveredJournalEntry entityTagPrefix key value).Within keys)
    (hcard : keys.card < 2 ^ 63) (hkey : (entityTagPrefix key).isSome = true) :
    (store.foldRecoveredJournalEntry entityTagPrefix key value).entityCardinalityDelta.decodable =
      store.entityCardinalityDelta.decodable := by
  have hvis := @visibleMoves_foldRecoveredJournalEntry κ V E _ _ entityTagPrefix store key value
  have hcan := @canonicalMoves_foldRecoveredJournalEntry κ V E _ _ entityTagPrefix store key value
  rw [read_foldRecoveredJournalEntry, if_congr (and_iff_right rfl) rfl rfl] at hvis
  rw [entityCardinalityDelta_foldRecoveredJournalEntry]
  split_ifs at hvis ⊢ with hvisible
  · rfl
  · refine EntityCardinalityDelta.decodable_applyPresenceTransition h.delta ?_ hkey
      (hwithin.delta_range entityTagPrefix hcard)
    intro entity
    rw [hvis.eq_of_same, hcan.cast_eq entity]
    split_ifs <;> omega

end Bounds

end DataStore

end IcyDb
