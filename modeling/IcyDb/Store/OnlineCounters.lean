import IcyDb.Store.OnlineFold

/-!
# The entity counters over whole online runs

Over every sequence of publications and folds of the online store
(`OnlineFold`), the data store's counters count its reads: an available
`exact_entity_count` is the number of rows of the entity a read finds, and an
available `exact_entity_cardinality_delta` is that number less the entity's
canonical rows.  Each counter also stays as available as it started, as long
as every key written has an entity prefix and fewer than `2^63` keys are ever
written.

A fold moves the canonical map under the overlay and then retires overlays
without touching the counters.  That is sound because, under the journal
invariant, the overlay shadows every key the fold writes until the
retirement, so neither the fold of the effects nor the retirement changes a
read (`CountsWithin.folded`).
-/

namespace IcyDb

namespace OnlineAction

variable {κ V : Type}

/-- The keys a step writes. -/
def keys : OnlineAction κ V → List κ
  | .publish effects => effects.map Prod.fst
  | .fold => []

end OnlineAction

/-! ### The effects of one batch -/

namespace DataStore

variable {κ V E : Type} [LinearOrder κ] [LinearOrder E] (entityTagPrefix : κ → Option E)
  {keys : Finset κ}

/-- Publishing effects on keys within `keys` keeps the counters counting, the
store within `keys` and, where every key has an entity prefix, each counter
as available as it was. -/
theorem counts_publishAll (position : JournalOverlayPosition) (hcard : keys.card < 2 ^ 63) :
    ∀ (effects : List (κ × Option V)) (store : DataStore κ V E),
      store.Counted entityTagPrefix → store.Within keys → (∀ effect ∈ effects, effect.1 ∈ keys) →
      let published := effects.foldl (fun store effect =>
        (store.publishPreflightedJournalEntry entityTagPrefix effect.1 effect.2 position).1) store
      published.Counted entityTagPrefix ∧ published.Within keys ∧
        ((∀ k ∈ keys, (entityTagPrefix k).isSome = true) →
          published.entityCardinality.decodable = store.entityCardinality.decodable ∧
          published.entityCardinalityDelta.decodable = store.entityCardinalityDelta.decodable)
  | [], _, hcounted, hwithin, _ => ⟨hcounted, hwithin, fun _ => ⟨rfl, rfl⟩⟩
  | (key, row) :: rest, store, hcounted, hwithin, hkeys => by
    have hkey : key ∈ keys := hkeys (key, row) List.mem_cons_self
    have hwithin' : (store.publishPreflightedJournalEntry entityTagPrefix key row position).1.Within
        keys := within_publishPreflightedJournalEntry hwithin hkey
    have hcounted' := hcounted.publishPreflightedJournalEntry
      (hwithin'.visibleCount_le entityTagPrefix hcard)
    obtain ⟨hcounted'', hwithin'', hdecodable⟩ := counts_publishAll position hcard rest _
      hcounted' hwithin' fun effect heffect => hkeys effect (List.mem_cons_of_mem _ heffect)
    refine ⟨hcounted'', hwithin'', fun htagged => ?_⟩
    obtain ⟨hcardinality, hdelta⟩ := hdecodable htagged
    exact ⟨hcardinality.trans (decodable_publishPreflightedJournalEntry (htagged key hkey)),
      hdelta.trans
        (deltaDecodable_publishPreflightedJournalEntry hcounted hwithin' hcard (htagged key hkey))⟩

/-- Folding effects on keys within `keys` keeps the counters counting, the
store within `keys` and, where every key has an entity prefix, each counter
as available as it was. -/
theorem counts_foldAll (hcard : keys.card < 2 ^ 63) :
    ∀ (effects : List (κ × Option V)) (store : DataStore κ V E),
      store.Counted entityTagPrefix → store.Within keys → (∀ effect ∈ effects, effect.1 ∈ keys) →
      let folded := effects.foldl
        (fun store effect => store.foldRecoveredJournalEntry entityTagPrefix effect.1 effect.2) store
      folded.Counted entityTagPrefix ∧ folded.Within keys ∧
        ((∀ k ∈ keys, (entityTagPrefix k).isSome = true) →
          folded.entityCardinality.decodable = store.entityCardinality.decodable ∧
          folded.entityCardinalityDelta.decodable = store.entityCardinalityDelta.decodable)
  | [], _, hcounted, hwithin, _ => ⟨hcounted, hwithin, fun _ => ⟨rfl, rfl⟩⟩
  | (key, value) :: rest, store, hcounted, hwithin, hkeys => by
    have hkey : key ∈ keys := hkeys (key, value) List.mem_cons_self
    have hwithin' : (store.foldRecoveredJournalEntry entityTagPrefix key value).Within keys :=
      within_foldRecoveredJournalEntry hwithin hkey
    have hcounted' := hcounted.foldRecoveredJournalEntry
      (hwithin'.visibleCount_le entityTagPrefix hcard)
    obtain ⟨hcounted'', hwithin'', hdecodable⟩ := counts_foldAll hcard rest _
      hcounted' hwithin' fun effect heffect => hkeys effect (List.mem_cons_of_mem _ heffect)
    refine ⟨hcounted'', hwithin'', fun htagged => ?_⟩
    obtain ⟨hcardinality, hdelta⟩ := hdecodable htagged
    exact ⟨hcardinality.trans (decodable_foldRecoveredJournalEntry (htagged key hkey)),
      hdelta.trans
        (deltaDecodable_foldRecoveredJournalEntry hcounted hwithin' hcard (htagged key hkey))⟩

/-- Folding effects on keys the overlay shadows changes no read. -/
theorem read_foldAll_of_shadowed :
    ∀ (effects : List (κ × Option V)) (store : DataStore κ V E),
      (∀ effect ∈ effects, store.live.get effect.1 ≠ none ∨ effect.1 ∈ store.tombstones) →
      ∀ k, (effects.foldl (fun store effect =>
        store.foldRecoveredJournalEntry entityTagPrefix effect.1 effect.2) store).toJournaledMaps.read k =
          store.toJournaledMaps.read k
  | [], _, _, _ => rfl
  | (key, value) :: rest, store, hshadowed, k => by
    have hread : ∀ k, (store.foldRecoveredJournalEntry entityTagPrefix key value).toJournaledMaps.read k =
        store.toJournaledMaps.read k := by
      intro k
      rw [read_foldRecoveredJournalEntry, if_neg]
      rintro ⟨rfl, htomb, hlive⟩
      rcases hshadowed (k, value) List.mem_cons_self with hshadow | hshadow
      · exact hshadow hlive
      · exact htomb hshadow
    -- the fold leaves the overlay, so the rest of the keys stay shadowed
    have hrest := read_foldAll_of_shadowed rest (store.foldRecoveredJournalEntry entityTagPrefix key value)
      (fun effect heffect => by
        simpa using hshadowed effect (List.mem_cons_of_mem _ heffect)) k
    rw [List.foldl_cons, hrest, hread]

end DataStore

/-! ### The online store -/

namespace OnlineStore

variable {κ V E : Type} [LinearOrder κ] [LinearOrder E] (entityTagPrefix : κ → Option E)
  {keys : Finset κ} {s : OnlineStore κ V E}

/-- The counters count the reads, and the reads, the canonical rows and the
unfolded batches keep within `keys`. -/
structure CountsWithin (keys : Finset κ) (s : OnlineStore κ V E) : Prop where
  counted : s.store.Counted entityTagPrefix
  within : s.store.Within keys
  journal : ∀ batch ∈ s.journal, ∀ k ∈ batch.keys, k ∈ keys

theorem countsWithin_init {canonical : SortedMap κ V} {allocation : StoreAllocationIdentity}
    {nextSequence : Nat} (hkeys : canonical.keys.toFinset ⊆ keys) :
    (init canonical allocation nextSequence : OnlineStore κ V E).CountsWithin entityTagPrefix keys :=
  ⟨DataStore.counted_initJournaled, DataStore.within_initJournaled hkeys, by simp [init]⟩

/-- Under the invariant the overlay shadows every key an unfolded batch
writes. -/
theorem Inv.shadowed (h : s.Inv) {batch : JournalBatch κ V} (hbatch : batch ∈ s.journal)
    {k : κ} (hk : k ∈ batch.keys) : s.store.live.get k ≠ none ∨ k ∈ s.store.tombstones := by
  obtain ⟨row, hrow⟩ := exists_effect_of_mem_keys hk
  obtain ⟨⟨position, newest⟩, hnewest⟩ :=
    Option.ne_none_iff_exists'.mp (newestEffect_ne_none_of_mem hbatch hrow)
  -- the newest effect is a live row or a tombstone
  cases newest with
  | some value => exact .inl (by simp [h.live, hnewest])
  | none => exact .inr ((h.tombstones k).mpr (by simp [hnewest]))

/-- The counters as available after a step as before, where every key has an
entity prefix. -/
def KeepsAvailable (keys : Finset κ) (s s' : OnlineStore κ V E) : Prop :=
  (∀ k ∈ keys, (entityTagPrefix k).isSome = true) →
    s'.store.entityCardinality.decodable = s.store.entityCardinality.decodable ∧
      s'.store.entityCardinalityDelta.decodable = s.store.entityCardinalityDelta.decodable

theorem KeepsAvailable.trans {s₁ s₂ : OnlineStore κ V E}
    (h₁ : KeepsAvailable entityTagPrefix keys s s₁) (h₂ : KeepsAvailable entityTagPrefix keys s₁ s₂) :
    KeepsAvailable entityTagPrefix keys s s₂ := fun htagged =>
  ⟨(h₂ htagged).1.trans (h₁ htagged).1, (h₂ htagged).2.trans (h₁ htagged).2⟩

theorem CountsWithin.published (h : s.CountsWithin entityTagPrefix keys) (hcard : keys.card < 2 ^ 63)
    {effects : List (κ × Option V)} (heffects : ∀ effect ∈ effects, effect.1 ∈ keys) :
    (s.published entityTagPrefix effects).CountsWithin entityTagPrefix keys ∧
      KeepsAvailable entityTagPrefix keys s (s.published entityTagPrefix effects) := by
  obtain ⟨hcounted, hwithin, hdecodable⟩ := DataStore.counts_publishAll entityTagPrefix
    ⟨s.allocation, ⟨s.nextSequence⟩⟩ hcard effects s.store h.counted h.within heffects
  refine ⟨⟨hcounted, hwithin, fun batch hbatch => ?_⟩, hdecodable⟩
  rcases List.mem_append.mp hbatch with hbatch | hbatch
  · exact h.journal batch hbatch
  · -- the new batch writes the published keys
    rw [List.mem_singleton.mp hbatch]
    intro k hk
    obtain ⟨effect, heffect, rfl⟩ := List.mem_map.mp hk
    exact heffects effect heffect

/-- The fold of the oldest batch keeps the counters counting: the fold of its
effects moves only the canonical map under the overlay, and the retirement,
which leaves every read as it was, only drops overlays. -/
theorem CountsWithin.folded (hinv : s.Inv) (h : s.CountsWithin entityTagPrefix keys)
    (hcard : keys.card < 2 ^ 63) {batch : JournalBatch κ V} {rest : List (JournalBatch κ V)}
    (hjournal : s.journal = batch :: rest) :
    (s.folded entityTagPrefix batch rest).CountsWithin entityTagPrefix keys ∧
      KeepsAvailable entityTagPrefix keys s (s.folded entityTagPrefix batch rest) := by
  have hbatch : batch ∈ s.journal := hjournal ▸ List.mem_cons_self
  have heffects : ∀ effect ∈ batch.effects, effect.1 ∈ keys := fun effect heffect =>
    h.journal batch hbatch effect.1 (List.mem_map_of_mem heffect)
  obtain ⟨hcounted, hwithin, hdecodable⟩ := DataStore.counts_foldAll entityTagPrefix hcard
    batch.effects s.store h.counted h.within heffects
  -- the overlay shadows the batch's keys, so folding its effects changes no read
  have hshadowed := DataStore.read_foldAll_of_shadowed entityTagPrefix batch.effects s.store
    fun effect heffect => hinv.shadowed hbatch (List.mem_map_of_mem heffect)
  have hread : ∀ k, (s.folded entityTagPrefix batch rest).store.toJournaledMaps.read k =
      (batch.effects.foldl (fun store effect =>
        store.foldRecoveredJournalEntry entityTagPrefix effect.1 effect.2) s.store).toJournaledMaps.read k :=
    fun k => (read_folded entityTagPrefix hinv hjournal k).trans (hshadowed k).symm
  refine ⟨⟨hcounted.applyPreparedPositionRetirement hread,
    DataStore.within_applyPreparedPositionRetirement hwithin hread, fun b hb => ?_⟩, hdecodable⟩
  exact h.journal b (hjournal ▸ List.mem_cons_of_mem _ hb)

/-- One accepted step on keys within `keys` keeps the counters counting. -/
theorem CountsWithin.step (hinv : s.Inv) (h : s.CountsWithin entityTagPrefix keys)
    (hcard : keys.card < 2 ^ 63) {action : OnlineAction κ V} (haccepted : action.Accepted)
    (hkeys : ∀ k ∈ action.keys, k ∈ keys) {s' : OnlineStore κ V E}
    (hstep : s.step entityTagPrefix action = .ok s') :
    s'.CountsWithin entityTagPrefix keys ∧ KeepsAvailable entityTagPrefix keys s s' := by
  cases action with
  | publish effects =>
    rw [step_publish entityTagPrefix hinv effects] at hstep
    cases hstep
    exact h.published entityTagPrefix hcard fun effect heffect =>
      hkeys effect.1 (List.mem_map_of_mem heffect)
  | fold =>
    cases hjournal : s.journal with
    | nil =>
      -- nothing to fold
      have hnil : s.step entityTagPrefix .fold = .ok s := by
        simp only [OnlineStore.step, hjournal]
        rfl
      rw [hnil] at hstep
      cases hstep
      exact ⟨h, fun _ => ⟨rfl, rfl⟩⟩
    | cons batch rest =>
      rw [step_fold entityTagPrefix hinv hjournal] at hstep
      cases hstep
      exact h.folded entityTagPrefix hinv hcard hjournal

/-- Over every run of accepted steps on keys within `keys`, the counters
keep counting.  The induction is on the steps, with the journal invariant
carried beside. -/
theorem CountsWithin.run (hinv : s.Inv) (h : s.CountsWithin entityTagPrefix keys)
    (hcard : keys.card < 2 ^ 63) (actions : List (OnlineAction κ V))
    (haccepted : ∀ a ∈ actions, a.Accepted) (hkeys : ∀ a ∈ actions, ∀ k ∈ a.keys, k ∈ keys)
    {s' : OnlineStore κ V E} (hrun : s.run entityTagPrefix actions = .ok s') :
    s'.CountsWithin entityTagPrefix keys ∧ KeepsAvailable entityTagPrefix keys s s' := by
  induction actions generalizing s with
  | nil =>
    cases hrun
    exact ⟨h, fun _ => ⟨rfl, rfl⟩⟩
  | cons action actions ih =>
    obtain ⟨s₁, hstep, hrest⟩ := Except.bind_eq_ok_iff.mp hrun
    obtain ⟨s₁', hstep', hinv₁, -⟩ := hinv.step entityTagPrefix (haccepted action List.mem_cons_self)
    rw [hstep] at hstep'
    cases hstep'
    obtain ⟨h₁, havailable₁⟩ := h.step entityTagPrefix hinv hcard
      (haccepted action List.mem_cons_self) (hkeys action List.mem_cons_self) hstep
    obtain ⟨h₂, havailable₂⟩ := ih hinv₁ h₁ (fun a ha => haccepted a (List.mem_cons_of_mem _ ha))
      (fun a ha => hkeys a (List.mem_cons_of_mem _ ha)) hrest
    exact ⟨h₂, havailable₁.trans entityTagPrefix havailable₂⟩

/-- A run from a store over `canonical` stays within the canonical keys and
the keys its publications write. -/
theorem countsWithin_run_init {canonical : SortedMap κ V} {allocation : StoreAllocationIdentity}
    {nextSequence : Nat} {actions : List (OnlineAction κ V)}
    (haccepted : ∀ a ∈ actions, a.Accepted)
    (hbound : (canonical.keys ++ actions.flatMap OnlineAction.keys).toFinset.card < 2 ^ 63)
    {s' : OnlineStore κ V E}
    (hrun : (init canonical allocation nextSequence).run entityTagPrefix actions = .ok s') :
    s'.CountsWithin entityTagPrefix (canonical.keys ++ actions.flatMap OnlineAction.keys).toFinset ∧
      KeepsAvailable entityTagPrefix (canonical.keys ++ actions.flatMap OnlineAction.keys).toFinset
        (init canonical allocation nextSequence) s' := by
  have hcanonical : canonical.keys.toFinset ⊆
      (canonical.keys ++ actions.flatMap OnlineAction.keys).toFinset :=
    fun k hk => List.mem_toFinset.mpr (List.mem_append_left _ (List.mem_toFinset.mp hk))
  have hkeys : ∀ a ∈ actions, ∀ k ∈ a.keys,
      k ∈ (canonical.keys ++ actions.flatMap OnlineAction.keys).toFinset := fun a ha k hk =>
    List.mem_toFinset.mpr (List.mem_append_right _ (List.mem_flatMap.mpr ⟨a, ha, hk⟩))
  exact (countsWithin_init entityTagPrefix hcanonical).run entityTagPrefix (inv_init _ _ _) hbound
    actions haccepted hkeys hrun

/-- The entity counters stay exact over online folding.  From a store over a
canonical map, every run of publications and folds whose batches write each
key once, over fewer than `2^63` keys, succeeds; at its end an available
entity count is the number of rows of the entity a read finds, and an
available delta is that number less the entity's canonical rows.  Where every
key has an entity prefix the delta is available, and so is the count when
the canonical map started empty. -/
theorem online_fold_keeps_entity_counts (canonical : SortedMap κ V)
    (allocation : StoreAllocationIdentity) (nextSequence : Nat) (actions : List (OnlineAction κ V))
    (haccepted : ∀ a ∈ actions, a.Accepted)
    (hbound : (canonical.keys ++ actions.flatMap OnlineAction.keys).toFinset.card < 2 ^ 63) :
    ∃ s, (init canonical allocation nextSequence).run entityTagPrefix actions = .ok s ∧
      ∀ entity,
        (∀ count, s.store.exactEntityCount entity = some count →
          count = s.store.toJournaledMaps.visibleCount entityTagPrefix entity) ∧
        (∀ delta, s.store.exactEntityCardinalityDelta entity = some delta →
          delta = (s.store.toJournaledMaps.visibleCount entityTagPrefix entity : Int) -
            s.store.toJournaledMaps.canonicalCount entityTagPrefix entity) ∧
        ((∀ k ∈ canonical.keys ++ actions.flatMap OnlineAction.keys,
            (entityTagPrefix k).isSome = true) →
          s.store.exactEntityCardinalityDelta entity =
              some ((s.store.toJournaledMaps.visibleCount entityTagPrefix entity : Int) -
                s.store.toJournaledMaps.canonicalCount entityTagPrefix entity) ∧
            (canonical.isEmpty = true → s.store.exactEntityCount entity =
              some (s.store.toJournaledMaps.visibleCount entityTagPrefix entity))) := by
  obtain ⟨s, hrun, -, -⟩ := (inv_init (E := E) canonical allocation nextSequence).run
    entityTagPrefix actions haccepted
  obtain ⟨hcounts, havailable⟩ := countsWithin_run_init entityTagPrefix haccepted hbound hrun
  refine ⟨s, hrun, fun entity => ⟨fun count hcount => hcounts.counted.exactEntityCount_eq hcount,
    fun delta hdelta => hcounts.counted.exactEntityCardinalityDelta_eq hdelta, fun htagged => ?_⟩⟩
  obtain ⟨hcardinality, hdelta⟩ := havailable fun k hk => htagged k (List.mem_toFinset.mp hk)
  refine ⟨hcounts.counted.delta.exactDelta_of_decodable (hdelta.trans rfl) entity, fun hempty => ?_⟩
  -- over an empty canonical map the cardinality starts available
  refine hcounts.counted.cardinality.exactCount_of_decodable (hcardinality.trans ?_) entity
  simp [init, DataStore.initJournaled, hempty, EntityCardinality.empty]

theorem online_fold_keeps_entity_counts_from_empty :
    (∀ a ∈ ([.publish [(1, some 10), (2, some 20)], .publish [(1, none), (3, some 30)], .fold] :
        List (OnlineAction Nat Nat)), a.Accepted) ∧
      ((SortedMap.empty : SortedMap Nat Nat).keys ++ ([.publish [(1, some 10), (2, some 20)],
        .publish [(1, none), (3, some 30)], .fold] : List (OnlineAction Nat Nat)).flatMap
          OnlineAction.keys).toFinset.card < 2 ^ 63 ∧
      ∃ s, (init SortedMap.empty ⟨0, "rows"⟩ 7 : OnlineStore Nat Nat Nat).run
          (fun key => some (key % 2))
          [.publish [(1, some 10), (2, some 20)], .publish [(1, none), (3, some 30)], .fold] =
            .ok s ∧
        ∀ entity,
          (∀ count, s.store.exactEntityCount entity = some count →
            count = s.store.toJournaledMaps.visibleCount (fun key => some (key % 2)) entity) ∧
          (∀ delta, s.store.exactEntityCardinalityDelta entity = some delta →
            delta = (s.store.toJournaledMaps.visibleCount (fun key => some (key % 2)) entity : Int) -
              s.store.toJournaledMaps.canonicalCount (fun key => some (key % 2)) entity) ∧
          ((∀ k ∈ (SortedMap.empty : SortedMap Nat Nat).keys ++ ([.publish [(1, some 10), (2, some 20)],
              .publish [(1, none), (3, some 30)], .fold] : List (OnlineAction Nat Nat)).flatMap
                OnlineAction.keys, (some (k % 2)).isSome = true) →
            s.store.exactEntityCardinalityDelta entity = some
                ((s.store.toJournaledMaps.visibleCount (fun key => some (key % 2)) entity : Int) -
                  s.store.toJournaledMaps.canonicalCount (fun key => some (key % 2)) entity) ∧
              ((SortedMap.empty : SortedMap Nat Nat).isEmpty = true →
                s.store.exactEntityCount entity =
                  some (s.store.toJournaledMaps.visibleCount (fun key => some (key % 2)) entity))) :=
  ⟨by decide, by decide, online_fold_keeps_entity_counts _ _ _ _ _ (by decide) (by decide)⟩

end OnlineStore

end IcyDb
