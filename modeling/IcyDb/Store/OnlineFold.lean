import IcyDb.Store.DataStore

/-!
# Online journal folding never changes what readers see

A journaled store takes the effects of each committed journal batch into its
live overlay at the batch's position (`PreparedRowCommitOp::preflight_positioned`
for every key, then `apply_positioned`), and later folds the oldest unfolded
batch into its canonical map (`fold_selected_journal_head` under
`OnlinePositioned`): it prepares the retirement of the batch's keys against
their positions, writes the batch's effects into the canonical map, and then
retires the overlays the batch still owns.

`OnlineStore` is one store with the journal of its unfolded batches, the
journal's allocation and the sequence the next batch takes.  Over every
sequence of publications and folds, with each batch writing a key at most
once (`Action.Accepted`):

* no step fails: every preflight the code makes passes;
* a read finds the most recent published effect on its key, or the canonical
  value the store started with, so a fold never changes what a read finds;
* once every batch is folded, the canonical map alone holds that view.

The invariant that carries this (`OnlineStore.Inv`) ties the overlay to the
journal: a key's live value, tombstone and position are those of the newest
unfolded batch that writes it (`newestEffect`), and a key no unfolded batch
writes has none of them.
-/

namespace IcyDb

/-- A journal batch as one store sees it: its position and its effects, a
value or a tombstone for each key it writes. -/
structure JournalBatch (κ V : Type) where
  position : JournalOverlayPosition
  effects : List (κ × Option V)

namespace JournalBatch

variable {κ V : Type} [DecidableEq κ] (batch : JournalBatch κ V)

/-- The keys the batch writes. -/
def keys : List κ := batch.effects.map Prod.fst

/-- The batch's effect on a key, if it writes the key. -/
def effect (key : κ) : Option (Option V) := batch.effects.lookup key

end JournalBatch

section Batches

variable {κ V E : Type} [LinearOrder κ] [LinearOrder E] (entityTagPrefix : κ → Option E)

/-- The publication of a batch: every key's position is preflighted before
any effect is published. -/
def publishBatch (store : DataStore κ V E) (batch : JournalBatch κ V) :
    Except Store.InternalError (DataStore κ V E) := do
  batch.effects.forM fun effect => store.preflightPositionedJournalEntry effect.1 batch.position
  pure (batch.effects.foldl
    (fun store effect =>
      (store.publishPreflightedJournalEntry entityTagPrefix effect.1 effect.2 batch.position).1)
    store)

/-- The fold of the oldest unfolded batch into one store: the retirement is
prepared before the canonical map changes, and applied after. -/
def foldBatch (store : DataStore κ V E) (batch : JournalBatch κ V) :
    Except Store.InternalError (DataStore κ V E) := do
  let retirement ← store.preparePositionRetirement batch.keys batch.position
  let folded := batch.effects.foldl
    (fun store effect => store.foldRecoveredJournalEntry entityTagPrefix effect.1 effect.2) store
  pure (folded.applyPreparedPositionRetirement retirement)

end Batches

/-! ### The store with its journal -/

/-- One journaled store, the journal of its unfolded batches (oldest first),
the journal's allocation, and the sequence the next batch takes. -/
structure OnlineStore (κ V E : Type) [LinearOrder κ] [LinearOrder E] where
  store : DataStore κ V E
  journal : List (JournalBatch κ V)
  allocation : StoreAllocationIdentity
  nextSequence : Nat

/-- A step of the store: a committed batch's publication, or a fold of the
oldest unfolded batch. -/
inductive OnlineAction (κ V : Type)
  | publish (effects : List (κ × Option V))
  | fold

namespace OnlineAction

variable {κ V : Type} [DecidableEq κ]

/-- The batches the journal accepts write each key at most once. -/
def Accepted : OnlineAction κ V → Prop
  | .publish effects => (effects.map Prod.fst).Nodup
  | .fold => True

instance : DecidablePred (Accepted : OnlineAction κ V → Prop)
  | .publish effects => inferInstanceAs (Decidable (effects.map Prod.fst).Nodup)
  | .fold => inferInstanceAs (Decidable True)

/-- What a step does to the view a reader should see: a publication sets the
keys it writes, a fold changes nothing. -/
def applyView : OnlineAction κ V → (κ → Option V) → κ → Option V
  | .publish effects, view, key =>
    match effects.lookup key with
    | some row => row
    | none => view key
  | .fold, view, key => view key

end OnlineAction

namespace OnlineStore

variable {κ V E : Type} [LinearOrder κ] [LinearOrder E] (entityTagPrefix : κ → Option E)

/-- A store over a canonical map, with an empty overlay and journal. -/
def init (canonical : SortedMap κ V) (allocation : StoreAllocationIdentity) (nextSequence : Nat) :
    OnlineStore κ V E where
  store := DataStore.initJournaled canonical
  journal := []
  allocation := allocation
  nextSequence := nextSequence

/-- One step.  A publication appends the batch at the next sequence of the
journal's allocation; a fold with an empty journal has nothing to do
(`fold_oldest_journal_batch` finds no head). -/
def step (s : OnlineStore κ V E) :
    OnlineAction κ V → Except Store.InternalError (OnlineStore κ V E)
  | .publish effects => do
    let batch : JournalBatch κ V := ⟨⟨s.allocation, ⟨s.nextSequence⟩⟩, effects⟩
    let store ← publishBatch entityTagPrefix s.store batch
    pure { s with store, journal := s.journal ++ [batch], nextSequence := s.nextSequence + 1 }
  | .fold =>
    match s.journal with
    | [] => pure s
    | batch :: rest => do
      let store ← foldBatch entityTagPrefix s.store batch
      pure { s with store, journal := rest }

/-- A sequence of steps, stopping at the first error. -/
def run (s : OnlineStore κ V E) :
    List (OnlineAction κ V) → Except Store.InternalError (OnlineStore κ V E)
  | [] => pure s
  | action :: actions => do
    let s ← s.step entityTagPrefix action
    run s actions

end OnlineStore


/-! ### The newest unfolded effect on a key -/

section Newest

variable {κ V : Type} [LinearOrder κ]

theorem lookup_cons_eq_ite {key k : κ} {row : Option V} {rest : List (κ × Option V)} :
    ((key, row) :: rest).lookup k = if k = key then some row else rest.lookup k := by
  rw [List.lookup_cons]
  by_cases h : k = key
  · rw [if_pos h, h, beq_self_eq_true]
  · rw [if_neg h, beq_false_of_ne h]

theorem lookup_eq_none_of_not_mem {k : κ} {effects : List (κ × Option V)}
    (h : k ∉ effects.map Prod.fst) : effects.lookup k = none := by
  rw [List.lookup_eq_none_iff]
  intro p hp
  have : p.1 ≠ k := fun hk => h (List.mem_map.mpr ⟨p, hp, hk⟩)
  simpa [bne_iff_ne, ne_comm] using this

/-- The position and effect of the newest batch of the journal that writes
a key. -/
def newestEffect (journal : List (JournalBatch κ V)) (key : κ) :
    Option (JournalOverlayPosition × Option V) :=
  journal.foldl (fun newest batch => ((batch.effect key).map (batch.position, ·)).or newest) none

theorem foldl_newest_eq_or (journal : List (JournalBatch κ V)) (key : κ)
    (acc : Option (JournalOverlayPosition × Option V)) :
    journal.foldl (fun newest batch => ((batch.effect key).map (batch.position, ·)).or newest) acc =
      (newestEffect journal key).or acc := by
  induction journal generalizing acc with
  | nil => rfl
  | cons batch rest ih =>
    simp only [newestEffect, List.foldl_cons] at ih ⊢
    rw [ih, ih (((batch.effect key).map (batch.position, ·)).or none), Option.or_assoc,
      Option.or_none]

theorem newestEffect_cons (batch : JournalBatch κ V) (rest : List (JournalBatch κ V)) (key : κ) :
    newestEffect (batch :: rest) key =
      (newestEffect rest key).or ((batch.effect key).map (batch.position, ·)) := by
  rw [newestEffect, List.foldl_cons, foldl_newest_eq_or, Option.or_none]

theorem newestEffect_append_singleton (journal : List (JournalBatch κ V)) (batch : JournalBatch κ V)
    (key : κ) :
    newestEffect (journal ++ [batch]) key =
      ((batch.effect key).map (batch.position, ·)).or (newestEffect journal key) := by
  rw [newestEffect, List.foldl_append]
  rfl

/-- The newest effect on a key is the effect of a batch of the journal. -/
theorem exists_of_newestEffect_eq_some {journal : List (JournalBatch κ V)} {key : κ}
    {position : JournalOverlayPosition} {row : Option V}
    (h : newestEffect journal key = some (position, row)) :
    ∃ batch ∈ journal, batch.position = position ∧ batch.effect key = some row := by
  induction journal with
  | nil => cases h
  | cons batch rest ih =>
    rw [newestEffect_cons] at h
    cases hrest : newestEffect rest key with
    | some newest =>
      rw [hrest, Option.some_or] at h
      obtain ⟨b, hb, hpos, heffect⟩ := ih (hrest.trans h)
      exact ⟨b, List.mem_cons_of_mem _ hb, hpos, heffect⟩
    | none =>
      rw [hrest, Option.none_or] at h
      obtain ⟨e, he, hpe⟩ := Option.map_eq_some_iff.mp h
      simp only [Prod.mk.injEq] at hpe
      obtain ⟨rfl, rfl⟩ := hpe
      exact ⟨batch, List.mem_cons_self, rfl, he⟩

/-- A key some unfolded batch writes has a newest effect. -/
theorem newestEffect_ne_none_of_mem {journal : List (JournalBatch κ V)} {batch : JournalBatch κ V}
    (hbatch : batch ∈ journal) {k : κ} {row : Option V} (hrow : batch.effect k = some row) :
    newestEffect journal k ≠ none := by
  induction journal with
  | nil => cases hbatch
  | cons head rest ih =>
    rw [newestEffect_cons, Ne, Option.or_eq_none_iff, not_and_or]
    rcases List.mem_cons.mp hbatch with rfl | hrest
    · exact .inr (by simp [hrow])
    · exact .inl (ih hrest)

/-- A key the batch writes has an effect in it. -/
theorem exists_effect_of_mem_keys {batch : JournalBatch κ V} {k : κ} (hk : k ∈ batch.keys) :
    ∃ row, batch.effect k = some row := by
  cases h : batch.effect k with
  | some row => exact ⟨row, rfl⟩
  | none =>
    obtain ⟨p, hp, rfl⟩ := List.mem_map.mp hk
    have := List.lookup_eq_none_iff.mp h p hp
    simp at this

/-- Dropping the oldest batch leaves a key's newest effect alone unless the
batch is the only one that writes the key. -/
theorem newestEffect_cons_of_not_only {batch : JournalBatch κ V} {rest : List (JournalBatch κ V)}
    {k : κ} (h : ¬ (k ∈ batch.keys ∧ newestEffect rest k = none)) :
    newestEffect (batch :: rest) k = newestEffect rest k := by
  rw [newestEffect_cons]
  cases hrest : newestEffect rest k with
  | some newest => rfl
  | none =>
    have hk : k ∉ batch.keys := fun hk => h ⟨hk, hrest⟩
    rw [Option.none_or, JournalBatch.effect, lookup_eq_none_of_not_mem hk]
    rfl

end Newest

/-! ### Publishing and folding the effects of one batch -/

section Effects

variable {κ V E : Type} [LinearOrder κ] [LinearOrder E] (entityTagPrefix : κ → Option E)

/-- Publishing the effects of a batch, each key once: a key takes its effect
and the batch's position, every other key keeps what it had. -/
theorem publishAll_spec (position : JournalOverlayPosition) (k : κ) :
    ∀ (effects : List (κ × Option V)) (store : DataStore κ V E), (effects.map Prod.fst).Nodup →
      let published := effects.foldl (fun store effect =>
        (store.publishPreflightedJournalEntry entityTagPrefix effect.1 effect.2 position).1) store
      published.live.get k = (effects.lookup k).elim (store.live.get k) id ∧
        (k ∈ published.tombstones ↔ (effects.lookup k).elim (k ∈ store.tombstones) (· = none)) ∧
        published.positions.positions.get k =
          (effects.lookup k).elim (store.positions.positions.get k) (fun _ => some position) ∧
        published.toJournaledMaps.read k = (effects.lookup k).elim (store.toJournaledMaps.read k) id
  | [], store, _ => by simp
  | (key, row) :: rest, store, hnodup => by
    obtain ⟨hkey, hrest⟩ := List.nodup_cons.mp hnodup
    obtain ⟨hlive, htomb, hpos, hread⟩ :=
      publishAll_spec position k rest
        (store.publishPreflightedJournalEntry entityTagPrefix key row position).1 hrest
    simp only [List.foldl_cons, lookup_cons_eq_ite]
    simp only [DataStore.toJournaledBackend_publishPreflightedJournalEntry] at hlive htomb hpos hread
    refine ⟨?_, ?_, ?_, ?_⟩
    · rw [hlive, JournaledBackend.live_publishPreflightedJournalEntry]
      by_cases hk : k = key
      · -- the batch writes the key once, here
        subst hk
        simp [lookup_eq_none_of_not_mem hkey]
      · simp [hk]
    · rw [htomb, JournaledBackend.mem_tombstones_publishPreflightedJournalEntry]
      by_cases hk : k = key
      · subst hk
        simp [lookup_eq_none_of_not_mem hkey]
      · simp [hk]
    · rw [hpos, JournaledBackend.positions_publishPreflightedJournalEntry]
      by_cases hk : k = key
      · subst hk
        simp [lookup_eq_none_of_not_mem hkey]
      · simp [hk]
    · rw [hread, JournaledBackend.read_publishPreflightedJournalEntry]
      by_cases hk : k = key
      · subst hk
        simp [lookup_eq_none_of_not_mem hkey]
      · simp [hk]

/-- Folding the effects of a batch into the canonical map, each key once. -/
theorem foldAll_spec (k : κ) :
    ∀ (effects : List (κ × Option V)) (store : DataStore κ V E), (effects.map Prod.fst).Nodup →
      let folded := effects.foldl
        (fun store effect => store.foldRecoveredJournalEntry entityTagPrefix effect.1 effect.2) store
      folded.canonical.get k = (effects.lookup k).elim (store.canonical.get k) id ∧
        folded.live = store.live ∧ folded.tombstones = store.tombstones ∧
        folded.positions = store.positions
  | [], store, _ => by simp
  | (key, row) :: rest, store, hnodup => by
    obtain ⟨hkey, hrest⟩ := List.nodup_cons.mp hnodup
    obtain ⟨hcanon, hlive, htomb, hpos⟩ :=
      foldAll_spec k rest (store.foldRecoveredJournalEntry entityTagPrefix key row) hrest
    simp only [List.foldl_cons, lookup_cons_eq_ite]
    simp only [DataStore.toJournaledBackend_foldRecoveredJournalEntry] at hcanon hlive htomb hpos
    refine ⟨?_, by simp [hlive], by simp [htomb], by simp [hpos]⟩
    rw [hcanon, JournaledBackend.canonical_foldRecoveredJournalEntry]
    by_cases hk : k = key
    · subst hk
      simp [lookup_eq_none_of_not_mem hkey]
    · simp [hk]

end Effects


/-! ### The invariant -/

namespace OnlineStore

variable {κ V E : Type} [LinearOrder κ] [LinearOrder E] (entityTagPrefix : κ → Option E)

/-- The overlay of the store is the newest effect of its unfolded batches:
every key's position, live value and tombstone are those of the newest
unfolded batch that writes it.  The batches sit in the journal's allocation,
below the next sequence and in increasing order, and write each key once. -/
structure Inv (s : OnlineStore κ V E) : Prop where
  allocation : ∀ batch ∈ s.journal, batch.position.storeAllocation = s.allocation
  sequence_lt : ∀ batch ∈ s.journal, batch.position.journalSequence.value < s.nextSequence
  sequence_sorted : s.journal.Pairwise fun a b =>
    a.position.journalSequence.value < b.position.journalSequence.value
  keys_nodup : ∀ batch ∈ s.journal, batch.keys.Nodup
  positions : ∀ k, s.store.positions.positions.get k = (newestEffect s.journal k).map Prod.fst
  live : ∀ k, s.store.live.get k = (newestEffect s.journal k).bind Prod.snd
  tombstones : ∀ k, k ∈ s.store.tombstones ↔ (newestEffect s.journal k).map Prod.snd = some none

variable {s : OnlineStore κ V E}

theorem inv_init (canonical : SortedMap κ V) (allocation : StoreAllocationIdentity)
    (nextSequence : Nat) : (init canonical allocation nextSequence : OnlineStore κ V E).Inv where
  allocation := by simp [init]
  sequence_lt := by simp [init]
  sequence_sorted := List.Pairwise.nil
  keys_nodup := by simp [init]
  positions k := rfl
  live k := rfl
  tombstones k := by simp [init, DataStore.initJournaled, newestEffect]

/-- A read finds the newest unfolded effect on its key, or the canonical
value where no unfolded batch writes the key. -/
theorem Inv.read_eq (h : s.Inv) (k : κ) :
    s.store.toJournaledMaps.read k = (newestEffect s.journal k).elim (s.store.canonical.get k) Prod.snd := by
  have hlive := h.live k
  have htomb := h.tombstones k
  unfold JournaledMaps.read
  cases hnew : newestEffect s.journal k with
  | none =>
    rw [hnew] at hlive htomb
    have hk : k ∉ s.store.tombstones := by simpa using htomb
    simp only [hk, if_false]
    rw [hlive]
    rfl
  | some newest =>
    obtain ⟨position, row⟩ := newest
    rw [hnew] at hlive htomb
    cases row with
    | none =>
      have hk : k ∈ s.store.tombstones := by simpa using htomb
      simp only [hk, if_true]
      rfl
    | some row =>
      have hk : k ∉ s.store.tombstones := by simpa using htomb
      simp only [hk, if_false]
      rw [hlive]
      rfl

/-! #### Publication -/

/-- The store after publishing the effects at the next position. -/
def published (s : OnlineStore κ V E) (effects : List (κ × Option V)) : OnlineStore κ V E where
  store := effects.foldl (fun store effect =>
    (store.publishPreflightedJournalEntry entityTagPrefix effect.1 effect.2
      ⟨s.allocation, ⟨s.nextSequence⟩⟩).1) s.store
  journal := s.journal ++ [⟨⟨s.allocation, ⟨s.nextSequence⟩⟩, effects⟩]
  allocation := s.allocation
  nextSequence := s.nextSequence + 1

/-- Under the invariant a publication passes its preflight: the position of
every key it writes is an unfolded batch's, in the same allocation and below
the next sequence. -/
theorem step_publish (h : s.Inv) (effects : List (κ × Option V)) :
    s.step entityTagPrefix (.publish effects) = .ok (s.published entityTagPrefix effects) := by
  have hpre : effects.forM (fun effect =>
      s.store.preflightPositionedJournalEntry effect.1 ⟨s.allocation, ⟨s.nextSequence⟩⟩) = .ok () := by
    rw [Except.forM_eq_ok_iff]
    intro effect _
    apply PositionedOverlayMetadata.preflightPublish_eq_ok
    intro current hcurrent
    rw [h.positions] at hcurrent
    obtain ⟨⟨position, row⟩, hnew, rfl⟩ := Option.map_eq_some_iff.mp hcurrent
    obtain ⟨batch, hbatch, rfl, -⟩ := exists_of_newestEffect_eq_some hnew
    exact ⟨h.allocation batch hbatch, Nat.le_of_lt (h.sequence_lt batch hbatch)⟩
  simp only [step, publishBatch, hpre]
  rfl

theorem newestEffect_published (effects : List (κ × Option V)) (k : κ) :
    newestEffect (s.published entityTagPrefix effects).journal k =
      ((effects.lookup k).map (⟨s.allocation, ⟨s.nextSequence⟩⟩, ·)).or (newestEffect s.journal k) :=
  newestEffect_append_singleton _ _ _

theorem Inv.published (h : s.Inv) {effects : List (κ × Option V)}
    (hnodup : (effects.map Prod.fst).Nodup) : (s.published entityTagPrefix effects).Inv := by
  have hspec := fun k =>
    publishAll_spec entityTagPrefix ⟨s.allocation, ⟨s.nextSequence⟩⟩ k effects s.store hnodup
  refine ⟨?_, ?_, ?_, ?_, ?_, ?_, ?_⟩
  · intro batch hbatch
    rcases List.mem_append.mp hbatch with hbatch | hbatch
    · exact h.allocation batch hbatch
    · rw [List.mem_singleton.mp hbatch]
      rfl
  · intro batch hbatch
    rcases List.mem_append.mp hbatch with hbatch | hbatch
    · exact Nat.lt_succ_of_lt (h.sequence_lt batch hbatch)
    · rw [List.mem_singleton.mp hbatch]
      exact Nat.lt_succ_self _
  · -- the new batch takes the next sequence, above every unfolded one
    refine List.pairwise_append.mpr ⟨h.sequence_sorted, List.pairwise_singleton _ _, ?_⟩
    intro a ha b hb
    rw [List.mem_singleton.mp hb]
    exact h.sequence_lt a ha
  · intro batch hbatch
    rcases List.mem_append.mp hbatch with hbatch | hbatch
    · exact h.keys_nodup batch hbatch
    · rw [List.mem_singleton.mp hbatch]
      exact hnodup
  · intro k
    rw [newestEffect_published]
    dsimp only [OnlineStore.published]
    rw [(hspec k).2.2.1, h.positions]
    cases effects.lookup k <;> rfl
  · intro k
    rw [newestEffect_published]
    dsimp only [OnlineStore.published]
    rw [(hspec k).1, h.live]
    cases effects.lookup k <;> rfl
  · intro k
    rw [newestEffect_published]
    dsimp only [OnlineStore.published]
    rw [(hspec k).2.1, h.tombstones]
    cases effects.lookup k <;> simp

/-- A read after a publication finds the published effect on the keys the
batch writes, and what it found before elsewhere. -/
theorem read_published (effects : List (κ × Option V)) (hnodup : (effects.map Prod.fst).Nodup)
    (k : κ) :
    (s.published entityTagPrefix effects).store.toJournaledMaps.read k =
      (OnlineAction.publish effects).applyView s.store.toJournaledMaps.read k := by
  rw [published, (publishAll_spec entityTagPrefix _ k effects s.store hnodup).2.2.2,
    OnlineAction.applyView]
  cases effects.lookup k <;> rfl

/-! #### Folding the oldest batch -/

/-- The retirement the fold of the oldest batch prepares: each key of the
batch in key order, retired exactly when no later unfolded batch writes it. -/
def foldRetirement (batch : JournalBatch κ V) (rest : List (JournalBatch κ V)) :
    List (κ × PositionedOverlayRetirement) :=
  (sortedKeySet batch.keys).map fun key =>
    (key, if newestEffect rest key = none then .exact else .superseded)

theorem retiresExactly_foldRetirement {batch : JournalBatch κ V} {rest : List (JournalBatch κ V)}
    {k : κ} :
    JournaledBackend.RetiresExactly (foldRetirement batch rest) k ↔
      k ∈ batch.keys ∧ newestEffect rest k = none := by
  simp [JournaledBackend.RetiresExactly, foldRetirement]

/-- Dropping the oldest batch changes a key's newest effect only where the
fold retires the key exactly, and there the key has none left. -/
theorem newestEffect_eq_ite_retiresExactly (batch : JournalBatch κ V) (rest : List (JournalBatch κ V))
    (k : κ) :
    newestEffect rest k =
      if JournaledBackend.RetiresExactly (foldRetirement batch rest) k then none
      else newestEffect (batch :: rest) k := by
  by_cases hret : JournaledBackend.RetiresExactly (foldRetirement batch rest) k
  · rw [if_pos hret, (retiresExactly_foldRetirement.mp hret).2]
  · rw [if_neg hret, newestEffect_cons_of_not_only (mt retiresExactly_foldRetirement.mpr hret)]

/-- Under the invariant the retirement of the oldest batch passes its
preflight: a key whose newest writer is the batch is retired exactly, a key a
later batch writes again has that later, greater position. -/
theorem preparePositionRetirement_eq_ok (h : s.Inv) {batch : JournalBatch κ V}
    {rest : List (JournalBatch κ V)} (hjournal : s.journal = batch :: rest) :
    s.store.preparePositionRetirement batch.keys batch.position = .ok (foldRetirement batch rest) := by
  apply Except.mapM_eq_ok_of_forall
  intro k hk
  have hk : k ∈ batch.keys := mem_sortedKeySet.mp hk
  obtain ⟨row, hrow⟩ := exists_effect_of_mem_keys hk
  have hpositions := h.positions k
  have hallocation := h.allocation
  have hsorted := h.sequence_sorted
  rw [hjournal, newestEffect_cons] at hpositions
  rw [hjournal] at hallocation hsorted
  cases hrest : newestEffect rest k with
  | none =>
    -- the batch is the newest writer of the key: the position is the batch's
    have hcurrent : s.store.positions.positions.get k = some batch.position := by
      rw [hpositions, hrest, Option.none_or, hrow]
      rfl
    rw [PositionedOverlayMetadata.preflightRetirement_eq_ok _ hcurrent rfl le_rfl, if_pos rfl]
    rfl
  | some newest =>
    obtain ⟨position, row'⟩ := newest
    obtain ⟨later, hlater, rfl, -⟩ := exists_of_newestEffect_eq_some hrest
    have hcurrent : s.store.positions.positions.get k = some later.position := by
      rw [hpositions, hrest, Option.some_or]
      rfl
    have hlt := List.rel_of_pairwise_cons hsorted hlater
    have halloc : later.position.storeAllocation = batch.position.storeAllocation := by
      rw [hallocation later (List.mem_cons_of_mem _ hlater), hallocation batch List.mem_cons_self]
    have hne : later.position ≠ batch.position := by
      intro heq
      rw [heq] at hlt
      exact lt_irrefl _ hlt
    rw [PositionedOverlayMetadata.preflightRetirement_eq_ok _ hcurrent halloc hlt.le, if_neg hne]
    rfl

/-- The store after the fold of its oldest batch. -/
def folded (s : OnlineStore κ V E) (batch : JournalBatch κ V) (rest : List (JournalBatch κ V)) :
    OnlineStore κ V E where
  store := (batch.effects.foldl
    (fun store effect => store.foldRecoveredJournalEntry entityTagPrefix effect.1 effect.2) s.store).applyPreparedPositionRetirement (foldRetirement batch rest)
  journal := rest
  allocation := s.allocation
  nextSequence := s.nextSequence

theorem step_fold (h : s.Inv) {batch : JournalBatch κ V} {rest : List (JournalBatch κ V)}
    (hjournal : s.journal = batch :: rest) : s.step entityTagPrefix .fold = .ok (s.folded entityTagPrefix batch rest) := by
  simp only [step, hjournal, foldBatch, preparePositionRetirement_eq_ok h hjournal, Except.ok_bind]
  rfl

theorem Inv.folded (h : s.Inv) {batch : JournalBatch κ V} {rest : List (JournalBatch κ V)}
    (hjournal : s.journal = batch :: rest) : (s.folded entityTagPrefix batch rest).Inv := by
  have hnodup : batch.keys.Nodup := h.keys_nodup batch (hjournal ▸ List.mem_cons_self)
  have hmem : ∀ b ∈ rest, b ∈ s.journal := fun b hb => hjournal ▸ List.mem_cons_of_mem _ hb
  have hfold := fun k => foldAll_spec entityTagPrefix k batch.effects s.store hnodup
  have hretire := fun k => @JournaledBackend.applyPreparedPositionRetirement_spec _ _ _
    (batch.effects.foldl
      (fun store effect => store.foldRecoveredJournalEntry entityTagPrefix effect.1 effect.2)
      s.store).toJournaledBackend
    k (foldRetirement batch rest)
  refine ⟨fun b hb => h.allocation b (hmem b hb), fun b hb => h.sequence_lt b (hmem b hb), ?_,
    fun b hb => h.keys_nodup b (hmem b hb), ?_, ?_, ?_⟩
  · have hsorted := h.sequence_sorted
    rw [hjournal] at hsorted
    exact hsorted.of_cons
  -- each part of the overlay is dropped exactly where the newest effect goes
  · intro k
    dsimp only [OnlineStore.folded]
    rw [DataStore.toJournaledBackend_applyPreparedPositionRetirement, (hretire k).2.2.1, (hfold k).2.2.2, h.positions, hjournal,
      newestEffect_eq_ite_retiresExactly batch rest k]
    split_ifs <;> rfl
  · intro k
    dsimp only [OnlineStore.folded]
    rw [DataStore.toJournaledBackend_applyPreparedPositionRetirement, (hretire k).1, (hfold k).2.1, h.live, hjournal, newestEffect_eq_ite_retiresExactly batch rest k]
    split_ifs <;> rfl
  · intro k
    dsimp only [OnlineStore.folded]
    rw [DataStore.toJournaledBackend_applyPreparedPositionRetirement, (hretire k).2.1, (hfold k).2.2.1, h.tombstones, hjournal,
      newestEffect_eq_ite_retiresExactly batch rest k]
    split_ifs with hret <;> simp [hret]

/-- A fold never changes what a read finds: the canonical map takes the
batch's effect on each key it writes, which is what a read found there unless
a later batch overrides it. -/
theorem read_folded (h : s.Inv) {batch : JournalBatch κ V} {rest : List (JournalBatch κ V)}
    (hjournal : s.journal = batch :: rest) (k : κ) :
    (s.folded entityTagPrefix batch rest).store.toJournaledMaps.read k = s.store.toJournaledMaps.read k := by
  have hnodup : batch.keys.Nodup := h.keys_nodup batch (hjournal ▸ List.mem_cons_self)
  rw [(h.folded entityTagPrefix hjournal).read_eq, h.read_eq, hjournal, newestEffect_cons]
  dsimp only [OnlineStore.folded]
  rw [DataStore.toJournaledBackend_applyPreparedPositionRetirement,
    JournaledBackend.canonical_applyPreparedPositionRetirement,
    (foldAll_spec entityTagPrefix k batch.effects s.store hnodup).1, JournalBatch.effect]
  cases newestEffect rest k with
  | some newest => rfl
  | none => cases batch.effects.lookup k <;> rfl

/-! #### Whole runs -/

/-- One accepted step succeeds, keeps the invariant, and moves the reads as
the view moves. -/
theorem Inv.step (h : s.Inv) {action : OnlineAction κ V} (haccepted : action.Accepted) :
    ∃ s', s.step entityTagPrefix action = .ok s' ∧ s'.Inv ∧
      ∀ k, s'.store.toJournaledMaps.read k = action.applyView s.store.toJournaledMaps.read k := by
  cases action with
  | publish effects =>
    exact ⟨s.published entityTagPrefix effects, step_publish entityTagPrefix h effects,
      h.published entityTagPrefix haccepted, read_published entityTagPrefix effects haccepted⟩
  | fold =>
    cases hjournal : s.journal with
    | nil =>
      -- nothing to fold
      refine ⟨s, ?_, h, fun k => rfl⟩
      simp only [OnlineStore.step, hjournal]
      rfl
    | cons batch rest =>
      exact ⟨s.folded entityTagPrefix batch rest, step_fold entityTagPrefix h hjournal,
        h.folded entityTagPrefix hjournal, fun k => read_folded entityTagPrefix h hjournal k⟩

/-- Over every sequence of accepted steps from a state with the invariant,
the run succeeds, keeps the invariant, and reads find the view the steps
build.  The induction is on the steps, one step lemma each. -/
theorem Inv.run (h : s.Inv) (actions : List (OnlineAction κ V))
    (haccepted : ∀ a ∈ actions, a.Accepted) :
    ∃ s', s.run entityTagPrefix actions = .ok s' ∧ s'.Inv ∧
      ∀ k, s'.store.toJournaledMaps.read k =
        actions.foldl (fun view a => a.applyView view) s.store.toJournaledMaps.read k := by
  induction actions generalizing s with
  | nil => exact ⟨s, rfl, h, fun k => rfl⟩
  | cons action actions ih =>
    obtain ⟨s₁, hstep, h₁, hread₁⟩ := h.step entityTagPrefix (haccepted action List.mem_cons_self)
    obtain ⟨s₂, hrun, h₂, hread₂⟩ := ih h₁ fun a ha => haccepted a (List.mem_cons_of_mem _ ha)
    refine ⟨s₂, ?_, h₂, fun k => ?_⟩
    · rw [OnlineStore.run, hstep, Except.ok_bind, hrun]
    · rw [hread₂, List.foldl_cons, funext hread₁]

/-- Online folding never changes what readers see.  From a store over a
canonical map, every sequence of publications and folds whose batches write
each key once succeeds; a read then finds the value the publications build
over the canonical map (the newest published effect on the key, or the value
it started with), whatever the folds did in between; and once every batch is
folded the canonical map alone holds that view. -/
theorem online_fold_keeps_reads (canonical : SortedMap κ V) (allocation : StoreAllocationIdentity)
    (nextSequence : Nat) (actions : List (OnlineAction κ V))
    (haccepted : ∀ a ∈ actions, a.Accepted) :
    ∃ s, (init canonical allocation nextSequence).run entityTagPrefix actions = .ok s ∧
      (∀ k, s.store.toJournaledMaps.read k =
        actions.foldl (fun view a => a.applyView view) canonical.get k) ∧
      (s.journal = [] → ∀ k, s.store.canonical.get k =
        actions.foldl (fun view a => a.applyView view) canonical.get k) := by
  have hinit := inv_init (E := E) canonical allocation nextSequence
  obtain ⟨s, hrun, hinv, hread⟩ := hinit.run entityTagPrefix actions haccepted
  -- the store starts with an empty overlay, so it reads the canonical map
  have hview : (init canonical allocation nextSequence : OnlineStore κ V E).store.toJournaledMaps.read =
      canonical.get :=
    funext fun k => hinit.read_eq k
  refine ⟨s, hrun, fun k => by rw [hread, hview], fun hnil k => ?_⟩
  rw [← hview, ← hread k, hinv.read_eq k, hnil]
  rfl

/-- Two publications over a two-key map and a fold of the first. -/
theorem online_fold_keeps_reads_two_batches :
    (∀ a ∈ ([.publish [(1, none), (3, some 30)], .publish [(2, some 21)], .fold] :
        List (OnlineAction Nat Nat)), a.Accepted) ∧
      ∃ s, (init ⟨[(1, 10), (2, 20)], by decide⟩ ⟨0, "rows"⟩ 7 : OnlineStore Nat Nat Nat).run
          (fun key => some (key % 2))
          [.publish [(1, none), (3, some 30)], .publish [(2, some 21)], .fold] = .ok s ∧
        (∀ k, s.store.toJournaledMaps.read k =
          ([.publish [(1, none), (3, some 30)], .publish [(2, some 21)], .fold] :
            List (OnlineAction Nat Nat)).foldl (fun view a => a.applyView view)
            (SortedMap.get ⟨[(1, 10), (2, 20)], by decide⟩) k) ∧
        (s.journal = [] → ∀ k, s.store.canonical.get k =
          ([.publish [(1, none), (3, some 30)], .publish [(2, some 21)], .fold] :
            List (OnlineAction Nat Nat)).foldl (fun view a => a.applyView view)
            (SortedMap.get ⟨[(1, 10), (2, 20)], by decide⟩) k) :=
  ⟨by decide, online_fold_keeps_reads _ _ _ _ _ (by decide)⟩

end OnlineStore

end IcyDb
