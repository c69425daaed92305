import IcyDb.Store.DataStore

/-!
# The data store's mutating calls in any order

`DataStore` keeps its entity counters by moving them at every call that
changes a read: `insert` and `remove`, the recovered replays
`apply_recovered_journal_put` and `apply_recovered_journal_delete`, the
positioned publication, the recovered fold into the canonical map, and the
reset of the live projection at startup.  Nothing in the store orders these
calls, so this file runs them in any order (`runOperations`) and shows that
the counters never go wrong: an available `exact_entity_count` is the number
of the entity's visible rows, and `exact_entity_cardinality_delta` stays
available and equal to the visible rows less the canonical ones, as long as
every key has an entity prefix and fewer than `2^63` keys are touched.

The same calls refine an abstract two-layer map (`Layers`): a canonical layer
and an overlay that holds a row or a deletion for a key.  The writes set the
overlay, a fold writes the canonical layer under it, a reset empties it, and
every read of the store is the read of its layers (`DataStore.layers`).

`apply_prepared_position_retirement` is not one of the calls: it keeps the
counters only where the retired overlays agree with the reads, which the
online protocol guarantees (`OnlineCounters`) and a free order does not.
-/

namespace IcyDb

/-- One mutating call of the journaled `DataStore`. -/
inductive DataStoreOperation (κ V : Type) where
  | insert (key : κ) (row : V)
  | remove (key : κ)
  | applyRecoveredJournalPut (key : κ) (row : V)
  | applyRecoveredJournalDelete (key : κ)
  | publishPreflightedJournalEntry (key : κ) (row : Option V) (position : JournalOverlayPosition)
  | foldRecoveredJournalEntry (key : κ) (value : Option V)
  | resetJournaledLiveProjection
deriving Repr

namespace DataStoreOperation

variable {κ V : Type}

/-- The keys a call writes. -/
def keys : DataStoreOperation κ V → List κ
  | insert key _ | remove key | applyRecoveredJournalPut key _ | applyRecoveredJournalDelete key
  | publishPreflightedJournalEntry key _ _ | foldRecoveredJournalEntry key _ => [key]
  | resetJournaledLiveProjection => []

end DataStoreOperation

/-! ### The two layers a reader sees -/

/-- What a reader of a journaled store sees, stated abstractly: a canonical
layer, and over it an overlay that holds a row or a deletion for some keys and
hides the canonical layer there. -/
@[ext]
structure Layers (κ V : Type) where
  canonical : κ → Option V
  overlay : κ → Option (Option V)

namespace Layers

variable {κ V : Type} [DecidableEq κ]

/-- The overlay's row or deletion where it holds the key, else the canonical
row. -/
def read (layers : Layers κ V) (key : κ) : Option V :=
  (layers.overlay key).getD (layers.canonical key)

/-- A write puts its row, or its deletion, in the overlay. -/
def write (layers : Layers κ V) (key : κ) (row : Option V) : Layers κ V :=
  { layers with overlay := Function.update layers.overlay key (some row) }

/-- Each call on the two layers: the writes go to the overlay, a fold writes
the canonical layer under it, and a reset empties the overlay. -/
def apply (layers : Layers κ V) : DataStoreOperation κ V → Layers κ V
  | .insert key row | .applyRecoveredJournalPut key row => layers.write key (some row)
  | .remove key | .applyRecoveredJournalDelete key => layers.write key none
  | .publishPreflightedJournalEntry key row _ => layers.write key row
  | .foldRecoveredJournalEntry key value =>
    { layers with canonical := Function.update layers.canonical key value }
  | .resetJournaledLiveProjection => { layers with overlay := fun _ => none }

end Layers

namespace DataStore

variable {κ V E : Type} [LinearOrder κ] [LinearOrder E] (entityTagPrefix : κ → Option E)

/-- One call: the store after it and the row it returns. -/
def applyOperation (store : DataStore κ V E) :
    DataStoreOperation κ V → DataStore κ V E × Option V
  | .insert key row => store.insert entityTagPrefix key row
  | .remove key => store.remove entityTagPrefix key
  | .applyRecoveredJournalPut key row => store.applyRecoveredJournalPut entityTagPrefix key row
  | .applyRecoveredJournalDelete key => store.applyRecoveredJournalDelete entityTagPrefix key
  | .publishPreflightedJournalEntry key row position =>
    store.publishPreflightedJournalEntry entityTagPrefix key row position
  | .foldRecoveredJournalEntry key value =>
    (store.foldRecoveredJournalEntry entityTagPrefix key value, none)
  | .resetJournaledLiveProjection => (store.resetJournaledLiveProjection, none)

/-- The store after the calls, in order. -/
def runOperations (operations : List (DataStoreOperation κ V)) (store : DataStore κ V E) :
    DataStore κ V E :=
  operations.foldl (fun store operation => (store.applyOperation entityTagPrefix operation).1) store

variable {entityTagPrefix} {store : DataStore κ V E}

/-! ### The counters over any order of calls -/

variable (entityTagPrefix) in
/-- What every call keeps: the counters count, the keys stay within `keys`,
and where every key has an entity prefix the delta stays available. -/
structure Sound (keys : Finset κ) (store : DataStore κ V E) : Prop where
  counted : store.Counted entityTagPrefix
  within : store.Within keys
  delta : (∀ k ∈ keys, (entityTagPrefix k).isSome = true) →
    store.entityCardinalityDelta.decodable = true

variable {keys : Finset κ}

theorem sound_initJournaled {canonical : SortedMap κ V}
    (hkeys : canonical.keys.toFinset ⊆ keys) :
    (initJournaled canonical : DataStore κ V E).Sound entityTagPrefix keys :=
  ⟨counted_initJournaled, within_initJournaled hkeys, fun _ => rfl⟩

/-- What one write-like step must show: it stays within `keys`, it keeps the
counters counting while no count passes `u64::MAX`, and for tagged keys it
keeps the delta as available as it was. -/
theorem Sound.of_step {s : DataStore κ V E} (h : store.Sound entityTagPrefix keys)
    (hcard : keys.card < 2 ^ 63) (hwithin : s.Within keys)
    (hcounted : (∀ entity, s.toJournaledMaps.visibleCount entityTagPrefix entity ≤ u64Max) →
      s.Counted entityTagPrefix)
    (hdelta : (∀ k ∈ keys, (entityTagPrefix k).isSome = true) →
      s.entityCardinalityDelta.decodable = store.entityCardinalityDelta.decodable) :
    s.Sound entityTagPrefix keys :=
  ⟨hcounted (hwithin.visibleCount_le entityTagPrefix hcard), hwithin,
    fun htagged => (hdelta htagged).trans (h.delta htagged)⟩

/-- A write of one key through `writeLiveProjection` with the visible read as
the previous row keeps the store sound. -/
theorem Sound.writeLiveProjection (h : store.Sound entityTagPrefix keys)
    (hcard : keys.card < 2 ^ 63) {key : κ} {row : Option V} (hkey : key ∈ keys) :
    (store.writeLiveProjection entityTagPrefix key row
      (store.toJournaledMaps.read key)).1.Sound entityTagPrefix keys := by
  have hwithin : (store.writeLiveProjection entityTagPrefix key row
      (store.toJournaledMaps.read key)).1.Within keys := within_writeLiveProjection h.within hkey
  exact h.of_step hcard hwithin h.counted.writeLiveProjection fun htagged =>
    deltaDecodable_writeLiveProjection h.counted hwithin hcard (htagged key hkey)

/-- The step lemma: every call keeps the store sound. -/
theorem Sound.applyOperation (h : store.Sound entityTagPrefix keys)
    (hcard : keys.card < 2 ^ 63) (operation : DataStoreOperation κ V)
    (hkeys : ∀ k ∈ operation.keys, k ∈ keys) :
    (store.applyOperation entityTagPrefix operation).1.Sound entityTagPrefix keys := by
  cases operation with
  | insert key row | remove key =>
    exact h.writeLiveProjection hcard (hkeys key (List.mem_singleton_self key))
  | applyRecoveredJournalPut key row | applyRecoveredJournalDelete key =>
    -- the replays read the previous row themselves, and read what a reader reads
    simp only [DataStore.applyOperation, DataStore.applyRecoveredJournalPut,
      DataStore.applyRecoveredJournalDelete, recoveredPrevious_eq_read]
    exact h.writeLiveProjection hcard (hkeys key (List.mem_singleton_self key))
  | publishPreflightedJournalEntry key row position =>
    have hkey := hkeys key (List.mem_singleton_self key)
    have hwithin : (store.publishPreflightedJournalEntry entityTagPrefix key row
        position).1.Within keys := within_publishPreflightedJournalEntry h.within hkey
    exact h.of_step hcard hwithin h.counted.publishPreflightedJournalEntry fun htagged =>
      deltaDecodable_publishPreflightedJournalEntry h.counted hwithin hcard (htagged key hkey)
  | foldRecoveredJournalEntry key value =>
    have hkey := hkeys key (List.mem_singleton_self key)
    have hwithin : (store.foldRecoveredJournalEntry entityTagPrefix key value).Within keys :=
      within_foldRecoveredJournalEntry h.within hkey
    exact h.of_step hcard hwithin h.counted.foldRecoveredJournalEntry fun htagged =>
      deltaDecodable_foldRecoveredJournalEntry h.counted hwithin hcard (htagged key hkey)
  | resetJournaledLiveProjection =>
    exact ⟨counted_resetJournaledLiveProjection, h.within.resetJournaledLiveProjection,
      fun _ => rfl⟩

/-- The run lemma, by induction on the calls with the store generalized. -/
theorem Sound.runOperations (hcard : keys.card < 2 ^ 63) :
    ∀ (operations : List (DataStoreOperation κ V)) {store : DataStore κ V E},
      store.Sound entityTagPrefix keys →
      (∀ operation ∈ operations, ∀ k ∈ operation.keys, k ∈ keys) →
      (store.runOperations entityTagPrefix operations).Sound entityTagPrefix keys
  | [], _, h, _ => h
  | operation :: operations, _, h, hkeys =>
    Sound.runOperations hcard operations
      (h.applyOperation hcard operation (hkeys operation List.mem_cons_self))
      fun operation' hmem => hkeys operation' (List.mem_cons_of_mem _ hmem)

/-- Every sequence of the store's mutating calls, from a journaled store over
any canonical map, keeps the counters exact: an available entity count is the
number of the entity's visible rows, and while every key has an entity prefix
the delta is available and is the visible rows less the canonical ones. -/
theorem store_operations_keep_entity_counts (canonical : SortedMap κ V)
    (operations : List (DataStoreOperation κ V))
    (hbound :
      (canonical.keys ++ operations.flatMap DataStoreOperation.keys).toFinset.card < 2 ^ 63) :
    (∀ entity count,
      ((initJournaled canonical).runOperations entityTagPrefix operations).exactEntityCount entity =
        some count →
      count = ((initJournaled canonical).runOperations entityTagPrefix
        operations).toJournaledMaps.visibleCount entityTagPrefix entity) ∧
    ((∀ k ∈ canonical.keys ++ operations.flatMap DataStoreOperation.keys,
        (entityTagPrefix k).isSome = true) →
      ∀ entity,
        ((initJournaled canonical).runOperations entityTagPrefix
            operations).exactEntityCardinalityDelta entity =
          some ((((initJournaled canonical).runOperations entityTagPrefix
            operations).toJournaledMaps.visibleCount entityTagPrefix entity : Int) -
            ((initJournaled canonical).runOperations entityTagPrefix
              operations).toJournaledMaps.canonicalCount entityTagPrefix entity)) := by
  have hcanonical : canonical.keys.toFinset ⊆
      (canonical.keys ++ operations.flatMap DataStoreOperation.keys).toFinset :=
    fun k hk => List.mem_toFinset.mpr (List.mem_append_left _ (List.mem_toFinset.mp hk))
  have hkeys : ∀ operation ∈ operations, ∀ k ∈ operation.keys,
      k ∈ (canonical.keys ++ operations.flatMap DataStoreOperation.keys).toFinset :=
    fun operation hmem k hk => List.mem_toFinset.mpr
      (List.mem_append_right _ (List.mem_flatMap.mpr ⟨operation, hmem, hk⟩))
  have hsound := Sound.runOperations hbound operations
    (@sound_initJournaled κ V E _ _ entityTagPrefix _ canonical hcanonical) hkeys
  refine ⟨fun entity count hcount => hsound.counted.exactEntityCount_eq hcount,
    fun htagged entity => ?_⟩
  exact hsound.counted.delta.exactDelta_of_decodable
    (hsound.delta fun k hk => htagged k (List.mem_toFinset.mp hk)) entity

/-- Direct writes, replays, a publication, a fold and a reset over an empty
canonical map. -/
theorem store_operations_keep_entity_counts_mixed :
    ((SortedMap.empty : SortedMap Nat Nat).keys ++
        ([.insert 1 10, .insert 2 20,
          .publishPreflightedJournalEntry 3 (some 30) ⟨⟨0, "rows"⟩, ⟨7⟩⟩, .remove 1,
          .applyRecoveredJournalPut 4 40, .foldRecoveredJournalEntry 2 (some 21),
          .applyRecoveredJournalDelete 3, .resetJournaledLiveProjection,
          .insert 5 50] : List (DataStoreOperation Nat Nat)).flatMap
          DataStoreOperation.keys).toFinset.card < 2 ^ 63 ∧
      (∀ entity count,
        ((initJournaled SortedMap.empty : DataStore Nat Nat Nat).runOperations
          (fun key => some (key % 2))
          [.insert 1 10, .insert 2 20,
            .publishPreflightedJournalEntry 3 (some 30) ⟨⟨0, "rows"⟩, ⟨7⟩⟩, .remove 1,
            .applyRecoveredJournalPut 4 40, .foldRecoveredJournalEntry 2 (some 21),
            .applyRecoveredJournalDelete 3, .resetJournaledLiveProjection,
            .insert 5 50]).exactEntityCount entity = some count →
        count = ((initJournaled SortedMap.empty : DataStore Nat Nat Nat).runOperations
            (fun key => some (key % 2))
            [.insert 1 10, .insert 2 20,
              .publishPreflightedJournalEntry 3 (some 30) ⟨⟨0, "rows"⟩, ⟨7⟩⟩, .remove 1,
              .applyRecoveredJournalPut 4 40, .foldRecoveredJournalEntry 2 (some 21),
              .applyRecoveredJournalDelete 3, .resetJournaledLiveProjection,
              .insert 5 50]).toJournaledMaps.visibleCount
            (fun key => some (key % 2)) entity) ∧
      ((∀ k ∈ (SortedMap.empty : SortedMap Nat Nat).keys ++
          ([.insert 1 10, .insert 2 20,
            .publishPreflightedJournalEntry 3 (some 30) ⟨⟨0, "rows"⟩, ⟨7⟩⟩, .remove 1,
            .applyRecoveredJournalPut 4 40, .foldRecoveredJournalEntry 2 (some 21),
            .applyRecoveredJournalDelete 3, .resetJournaledLiveProjection,
            .insert 5 50] : List (DataStoreOperation Nat Nat)).flatMap
            DataStoreOperation.keys, (some (k % 2)).isSome = true) →
        ∀ entity,
          ((initJournaled SortedMap.empty : DataStore Nat Nat Nat).runOperations
            (fun key => some (key % 2))
            [.insert 1 10, .insert 2 20,
              .publishPreflightedJournalEntry 3 (some 30) ⟨⟨0, "rows"⟩, ⟨7⟩⟩, .remove 1,
              .applyRecoveredJournalPut 4 40, .foldRecoveredJournalEntry 2 (some 21),
              .applyRecoveredJournalDelete 3, .resetJournaledLiveProjection,
              .insert 5 50]).exactEntityCardinalityDelta entity =
            some ((((initJournaled SortedMap.empty : DataStore Nat Nat Nat).runOperations
                (fun key => some (key % 2))
                [.insert 1 10, .insert 2 20,
                  .publishPreflightedJournalEntry 3 (some 30) ⟨⟨0, "rows"⟩, ⟨7⟩⟩, .remove 1,
                  .applyRecoveredJournalPut 4 40, .foldRecoveredJournalEntry 2 (some 21),
                  .applyRecoveredJournalDelete 3, .resetJournaledLiveProjection,
                  .insert 5 50]).toJournaledMaps.visibleCount
                (fun key => some (key % 2)) entity : Int) -
              ((initJournaled SortedMap.empty : DataStore Nat Nat Nat).runOperations
                (fun key => some (key % 2))
                [.insert 1 10, .insert 2 20,
                  .publishPreflightedJournalEntry 3 (some 30) ⟨⟨0, "rows"⟩, ⟨7⟩⟩, .remove 1,
                  .applyRecoveredJournalPut 4 40, .foldRecoveredJournalEntry 2 (some 21),
                  .applyRecoveredJournalDelete 3, .resetJournaledLiveProjection,
                  .insert 5 50]).toJournaledMaps.canonicalCount
                (fun key => some (key % 2)) entity)) :=
  ⟨by decide, store_operations_keep_entity_counts _ _ (by decide)⟩

/-! ### The store refines the two layers -/

variable (store) in
/-- The two layers of a journaled store: the canonical map, and over it a
tombstone as a deletion and a live row as a row. -/
def layers : Layers κ V where
  canonical := store.canonical.get
  overlay key := if key ∈ store.tombstones then some none else (store.live.get key).map some

/-- A read is the read of the store's two layers. -/
theorem read_eq_layers_read (key : κ) :
    store.toJournaledMaps.read key = store.layers.read key := by
  unfold JournaledMaps.read layers Layers.read
  by_cases htomb : key ∈ store.tombstones
  · simp [htomb]
  · cases hlive : store.live.get key <;> simp [htomb, hlive]

theorem layers_writeLiveProjection {key : κ} {row previous : Option V} :
    (store.writeLiveProjection entityTagPrefix key row previous).1.layers =
      store.layers.write key row := by
  refine Layers.ext rfl (funext fun k => ?_)
  by_cases hk : k = key <;> cases row <;>
    simp [layers, Layers.write, writeLiveProjection, hk, SortedMap.get_insert, SortedMap.get_erase]

/-- A publication changes the maps as the direct write does; only the
positions differ. -/
theorem layers_publishPreflightedJournalEntry {key : κ} {row : Option V}
    {position : JournalOverlayPosition} :
    (store.publishPreflightedJournalEntry entityTagPrefix key row position).1.layers =
      store.layers.write key row := by
  have hmaps : (store.publishPreflightedJournalEntry entityTagPrefix key row position).1.layers =
      (store.writeLiveProjection entityTagPrefix key row none).1.layers := by
    cases row <;> rfl
  rw [hmaps, layers_writeLiveProjection]

/-- A fold writes the canonical layer and leaves the overlay. -/
theorem layers_foldRecoveredJournalEntry {key : κ} {value : Option V} :
    (store.foldRecoveredJournalEntry entityTagPrefix key value).layers =
      { store.layers with canonical := Function.update store.layers.canonical key value } := by
  refine Layers.ext (funext fun k => ?_) ?_
  · show (store.foldRecoveredJournalEntry entityTagPrefix key value).canonical.get k =
      Function.update store.canonical.get key value k
    rw [Function.update_apply]
    exact canonical_get_foldRecoveredJournalEntry k
  · cases value <;> rfl

theorem layers_resetJournaledLiveProjection :
    store.resetJournaledLiveProjection.layers = { store.layers with overlay := fun _ => none } :=
  Layers.ext rfl (funext fun k => by simp [layers, resetJournaledLiveProjection])

/-- The step lemma of the refinement: every call moves the two layers as the
abstract call does. -/
theorem layers_applyOperation (operation : DataStoreOperation κ V) :
    (store.applyOperation entityTagPrefix operation).1.layers = store.layers.apply operation := by
  cases operation with
  | insert key row | remove key | applyRecoveredJournalPut key row
  | applyRecoveredJournalDelete key => exact layers_writeLiveProjection
  | publishPreflightedJournalEntry key row position => exact layers_publishPreflightedJournalEntry
  | foldRecoveredJournalEntry key value => exact layers_foldRecoveredJournalEntry
  | resetJournaledLiveProjection => exact layers_resetJournaledLiveProjection

/-- The run lemma of the refinement, by induction on the calls with the store
generalized. -/
theorem layers_runOperations :
    ∀ (operations : List (DataStoreOperation κ V)) (store : DataStore κ V E),
      (store.runOperations entityTagPrefix operations).layers =
        operations.foldl Layers.apply store.layers
  | [], _ => rfl
  | operation :: operations, store => by
    have hrest := layers_runOperations operations (store.applyOperation entityTagPrefix operation).1
    rw [layers_applyOperation] at hrest
    exact hrest

/-- Every sequence of the store's mutating calls, from a journaled store over
any canonical map, refines the two-layer map: each read, and each row of the
canonical map, is that of the abstract layers after the same calls. -/
theorem store_operations_refine_layers (canonical : SortedMap κ V)
    (operations : List (DataStoreOperation κ V)) (key : κ) :
    ((initJournaled canonical : DataStore κ V E).runOperations entityTagPrefix
        operations).toJournaledMaps.read key =
      (operations.foldl Layers.apply ⟨canonical.get, fun _ => none⟩).read key ∧
    ((initJournaled canonical : DataStore κ V E).runOperations entityTagPrefix
        operations).canonical.get key =
      (operations.foldl Layers.apply ⟨canonical.get, fun _ => none⟩).canonical key := by
  have hinit :
      (initJournaled canonical : DataStore κ V E).layers = ⟨canonical.get, fun _ => none⟩ :=
    Layers.ext rfl (funext fun k => by simp [layers, initJournaled])
  have hrun := @layers_runOperations κ V E _ _ entityTagPrefix operations (initJournaled canonical)
  rw [hinit] at hrun
  constructor
  · rw [read_eq_layers_read, hrun]
  · rw [← hrun]
    rfl

end DataStore

end IcyDb
