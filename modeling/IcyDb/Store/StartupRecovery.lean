import IcyDb.Store.OnlineCounters

/-!
# Startup recovery of a journaled store

A journaled data store keeps its canonical map in stable memory and its live
projection (live rows, tombstones, positions and the entity counters) on the
heap.  A restart loses the projection: `DataStore::init_journaled` rebuilds
the store over the canonical map, and the retained journal tail is all that
is left of the batches the online fold had not yet folded.  Startup recovery
then calls `continue_recovery` page by page; each page
(`perform_recovery_page`) resets the disposable projection
(`reset_journaled_live_projection`), folds the oldest retained batch into
canonical storage with no overlay to retire (`JournalFoldProjection::
StartupUnpositioned`) and retires it from the tail, and the page completes
once the tail is empty.

The results: recovery completes within one page per retained batch (one page
for an empty tail), and from any state an online run reaches, what readers
then see is exactly what they saw before the restart.  The counters, whatever
they were, come out of every page counting the rows again.

This file models one journaled store: the selection of the oldest head across
stores (`select_oldest_journal_head`), the marker, schema and index work of a
page, and the journal tail's own bookkeeping are not modelled; the tail is the
list of retained batches, oldest first, and retiring a batch drops its head.
-/

namespace IcyDb

/-- `RecoveryProgress`. -/
inductive RecoveryProgress
  | complete
  | pending
deriving DecidableEq, Repr

/-- What a restart keeps of one journaled store: the store over its canonical
map and the retained journal tail, oldest batch first. -/
structure StartupRecovery (κ V E : Type) [LinearOrder κ] [LinearOrder E] where
  store : DataStore κ V E
  journal : List (JournalBatch κ V)

namespace StartupRecovery

variable {κ V E : Type} [LinearOrder κ] [LinearOrder E] (entityTagPrefix : κ → Option E)

/-- `perform_recovery_page` on one journaled store: reset the projection,
fold the oldest retained batch into canonical storage and retire it from the
tail; the page completes once the tail is empty. -/
def recoveryPage (r : StartupRecovery κ V E) : RecoveryProgress × StartupRecovery κ V E :=
  let store := r.store.resetJournaledLiveProjection
  match r.journal with
  | [] => (.complete, ⟨store, []⟩)
  | batch :: rest =>
    let folded := batch.effects.foldl
      (fun store effect => store.foldRecoveredJournalEntry entityTagPrefix effect.1 effect.2) store
    (if rest.isEmpty then .complete else .pending, ⟨folded, rest⟩)

/-- Successive calls of `continue_recovery`, at most `fuel` of them, up to the
first that completes. -/
def recover : Nat → StartupRecovery κ V E → Option (StartupRecovery κ V E)
  | 0, _ => none
  | fuel + 1, r =>
    match recoveryPage entityTagPrefix r with
    | (.complete, r') => some r'
    | (.pending, r') => recover fuel r'

/-! ### One page -/

variable {entityTagPrefix}

theorem recoveryPage_nil (store : DataStore κ V E) :
    recoveryPage entityTagPrefix ⟨store, []⟩ =
      (.complete, ⟨store.resetJournaledLiveProjection, []⟩) :=
  rfl

theorem recoveryPage_cons (store : DataStore κ V E) (batch : JournalBatch κ V)
    (rest : List (JournalBatch κ V)) :
    recoveryPage entityTagPrefix ⟨store, batch :: rest⟩ =
      (if rest.isEmpty then .complete else .pending,
        ⟨batch.effects.foldl (fun store effect =>
          store.foldRecoveredJournalEntry entityTagPrefix effect.1 effect.2)
          store.resetJournaledLiveProjection, rest⟩) :=
  rfl

/-- After a page a read finds the canonical row: the reset emptied the
projection and the fold writes only canonical storage. -/
theorem read_recoveryPage (r : StartupRecovery κ V E)
    (hnodup : ∀ batch ∈ r.journal, batch.keys.Nodup) (k : κ) :
    (recoveryPage entityTagPrefix r).2.store.toJournaledMaps.read k =
      (recoveryPage entityTagPrefix r).2.store.canonical.get k := by
  obtain ⟨store, journal⟩ := r
  cases journal with
  | nil =>
    rw [recoveryPage_nil, DataStore.resetJournaledLiveProjection_eq_initJournaled]
    exact DataStore.read_initJournaled k
  | cons batch rest =>
    obtain ⟨-, hlive, htomb, -⟩ := foldAll_spec entityTagPrefix k batch.effects
      store.resetJournaledLiveProjection (hnodup batch List.mem_cons_self)
    rw [recoveryPage_cons]
    simp only [JournaledMaps.read, hlive, htomb]
    simp [DataStore.resetJournaledLiveProjection]

/-- The canonical map after a page that folds a batch: each key the batch
writes takes its effect. -/
theorem canonical_recoveryPage_cons (store : DataStore κ V E) (batch : JournalBatch κ V)
    (rest : List (JournalBatch κ V)) (hnodup : batch.keys.Nodup) (k : κ) :
    (recoveryPage entityTagPrefix ⟨store, batch :: rest⟩).2.store.canonical.get k =
      (batch.effect k).elim (store.canonical.get k) id :=
  (foldAll_spec entityTagPrefix k batch.effects store.resetJournaledLiveProjection hnodup).1

theorem recover_cons_cons (fuel : Nat) (store : DataStore κ V E) (batch next : JournalBatch κ V)
    (rest : List (JournalBatch κ V)) :
    recover entityTagPrefix (fuel + 1) ⟨store, batch :: next :: rest⟩ =
      recover entityTagPrefix fuel
        (recoveryPage entityTagPrefix ⟨store, batch :: next :: rest⟩).2 :=
  rfl

/-- Folding the oldest batch and then the newer ones finds, at each key, the
newest effect of them all. -/
theorem elim_newestEffect_cons (batch : JournalBatch κ V) (rest : List (JournalBatch κ V)) (k : κ)
    (row : Option V) :
    (newestEffect (batch :: rest) k).elim row Prod.snd =
      (newestEffect rest k).elim ((batch.effect k).elim row id) Prod.snd := by
  rw [newestEffect_cons]
  cases newestEffect rest k <;> cases batch.effect k <;> rfl

/-! ### Every page -/

/-- Recovery folds the retained batches, oldest first, one page each: within
one page per batch (one for an empty tail) it completes, with the tail empty,
reads finding the canonical rows, and the canonical map holding at each key
the newest retained effect, or its row from before.  The induction is on the
tail, with the store it is folded into generalized. -/
theorem recover_spec : ∀ (journal : List (JournalBatch κ V)) (store : DataStore κ V E),
    (∀ batch ∈ journal, batch.keys.Nodup) →
    ∃ r, recover entityTagPrefix (max 1 journal.length) ⟨store, journal⟩ = some r ∧
      r.journal = [] ∧
      ∀ k, r.store.toJournaledMaps.read k = r.store.canonical.get k ∧
        r.store.canonical.get k = (newestEffect journal k).elim (store.canonical.get k) Prod.snd
  | [], store, hnodup => ⟨_, rfl, rfl, fun k =>
      ⟨@read_recoveryPage _ _ _ _ _ entityTagPrefix ⟨store, []⟩ hnodup k, rfl⟩⟩
  | batch :: rest, store, hnodup => by
    have hbatch : batch.keys.Nodup := hnodup batch List.mem_cons_self
    -- the first page folds the oldest batch; the rest of the tail is recovered from there
    obtain ⟨r, hrec, hjournal, hr⟩ : ∃ r, recover entityTagPrefix (max 1 (batch :: rest).length)
        ⟨store, batch :: rest⟩ = some r ∧ r.journal = [] ∧
        ∀ k, r.store.toJournaledMaps.read k = r.store.canonical.get k ∧
          r.store.canonical.get k = (newestEffect rest k).elim
            ((recoveryPage entityTagPrefix ⟨store, batch :: rest⟩).2.store.canonical.get k)
            Prod.snd := by
      cases rest with
      | nil =>
        exact ⟨_, rfl, rfl, fun k =>
          ⟨@read_recoveryPage _ _ _ _ _ entityTagPrefix ⟨store, [batch]⟩ hnodup k, rfl⟩⟩
      | cons next rest =>
        -- a page per batch: the first page leaves one page fewer for the rest
        have hpages : max 1 (batch :: next :: rest).length = max 1 (next :: rest).length + 1 := by
          simp only [List.length_cons]
          omega
        rw [hpages, recover_cons_cons]
        exact recover_spec (next :: rest) _ fun b hb => hnodup b (List.mem_cons_of_mem _ hb)
    refine ⟨r, hrec, hjournal, fun k => ⟨(hr k).1, ?_⟩⟩
    rw [(hr k).2, canonical_recoveryPage_cons store batch rest hbatch, elim_newestEffect_cons]

/-- Every page leaves the counters counting and the store within `keys`,
whatever the counters were: the reset makes them count again and the folds,
on keys within `keys`, keep them counting. -/
theorem counted_recover {keys : Finset κ} (hcard : keys.card < 2 ^ 63) :
    ∀ (fuel : Nat) (r : StartupRecovery κ V E) {r' : StartupRecovery κ V E},
      r.store.Within keys → (∀ batch ∈ r.journal, ∀ k ∈ batch.keys, k ∈ keys) →
      recover entityTagPrefix fuel r = some r' →
      r'.store.Counted entityTagPrefix ∧ r'.store.Within keys
  | 0, _, _, _, _, hrec => by cases hrec
  | fuel + 1, ⟨store, journal⟩, r', hwithin, hkeys, hrec => by
    have hreset := @DataStore.counted_resetJournaledLiveProjection _ _ _ _ _ entityTagPrefix store
    have hwithin' := hwithin.resetJournaledLiveProjection
    cases journal with
    | nil =>
      cases hrec
      exact ⟨hreset, hwithin'⟩
    | cons batch rest =>
      obtain ⟨hcounted, hfolded, -⟩ :=
        DataStore.counts_foldAll entityTagPrefix hcard batch.effects _
          hreset hwithin' fun effect heffect =>
            hkeys batch List.mem_cons_self effect.1 (List.mem_map_of_mem heffect)
      -- the page completes with the folded store, or recovery goes on from it
      unfold recover at hrec
      rw [recoveryPage_cons] at hrec
      cases hrest : rest.isEmpty
      · simp only [hrest, Bool.false_eq_true, if_false] at hrec
        exact counted_recover hcard fuel _ hfolded
          (fun b hb => hkeys b (List.mem_cons_of_mem _ hb)) hrec
      · simp only [hrest, if_true, Option.some.injEq] at hrec
        subst hrec
        exact ⟨hcounted, hfolded⟩

end StartupRecovery

namespace OnlineStore

variable {κ V E : Type} [LinearOrder κ] [LinearOrder E] (entityTagPrefix : κ → Option E)

/-- What a restart leaves of an online store: `DataStore::init_journaled`
over the canonical map in stable memory, and the retained journal tail. -/
def restart (s : OnlineStore κ V E) : StartupRecovery κ V E :=
  ⟨DataStore.initJournaled s.store.canonical, s.journal⟩

/-- A restart loses nothing readers saw.  From a store over a canonical map,
take any run of publications and oldest-batch folds whose batches write each
key once, over fewer than `2^63` keys, and restart after it: startup recovery
completes within one page per retained batch (one page for an empty tail),
with the tail empty, and every key then reads, and holds canonically, the row
it read before the restart.  An available entity count afterwards is the
number of the entity's rows a read finds. -/
theorem startup_recovery_restores_reads (canonical : SortedMap κ V)
    (allocation : StoreAllocationIdentity) (nextSequence : Nat) (actions : List (OnlineAction κ V))
    (haccepted : ∀ a ∈ actions, a.Accepted)
    (hbound : (canonical.keys ++ actions.flatMap OnlineAction.keys).toFinset.card < 2 ^ 63) :
    ∃ s, (init canonical allocation nextSequence).run entityTagPrefix actions = .ok s ∧
      ∃ r, StartupRecovery.recover entityTagPrefix (max 1 s.journal.length) s.restart = some r ∧
        r.journal = [] ∧
        (∀ k, r.store.toJournaledMaps.read k = s.store.toJournaledMaps.read k ∧
          r.store.canonical.get k = s.store.toJournaledMaps.read k) ∧
        ∀ entity count, r.store.exactEntityCount entity = some count →
          count = r.store.toJournaledMaps.visibleCount entityTagPrefix entity := by
  obtain ⟨s, hrun, hinv, -⟩ := (inv_init (E := E) canonical allocation nextSequence).run
    entityTagPrefix actions haccepted
  obtain ⟨hcounts, -⟩ := countsWithin_run_init entityTagPrefix haccepted hbound hrun
  obtain ⟨r, hrec, hjournal, hr⟩ := @StartupRecovery.recover_spec _ _ _ _ _ entityTagPrefix
    s.journal (DataStore.initJournaled s.store.canonical) hinv.keys_nodup
  -- the recovered canonical map folds the retained tail over the canonical map
  -- the restart kept, which is what a read found before the restart
  have hcanonical : ∀ k, r.store.canonical.get k = s.store.toJournaledMaps.read k := fun k =>
    (hr k).2.trans (hinv.read_eq k).symm
  have hcounted := @StartupRecovery.counted_recover _ _ _ _ _ entityTagPrefix _ hbound _ s.restart _
    (DataStore.within_initJournaled hcounts.within.canonical) hcounts.journal hrec
  exact ⟨s, hrun, r, hrec, hjournal, fun k => ⟨(hr k).1.trans (hcanonical k), hcanonical k⟩,
    fun _ _ hcount => hcounted.1.exactEntityCount_eq hcount⟩

theorem startup_recovery_restores_reads_after_fold :
    (∀ a ∈ ([.publish [(1, none), (3, some 30)], .publish [(2, some 21)], .fold] :
        List (OnlineAction Nat Nat)), a.Accepted) ∧
      ((⟨[(1, 10), (2, 20)], by decide⟩ : SortedMap Nat Nat).keys ++
        ([.publish [(1, none), (3, some 30)], .publish [(2, some 21)], .fold] :
          List (OnlineAction Nat Nat)).flatMap OnlineAction.keys).toFinset.card < 2 ^ 63 ∧
      ∃ s, (init ⟨[(1, 10), (2, 20)], by decide⟩ ⟨0, "rows"⟩ 7 : OnlineStore Nat Nat Nat).run
          (fun key => some (key % 2))
          [.publish [(1, none), (3, some 30)], .publish [(2, some 21)], .fold] = .ok s ∧
        ∃ r, StartupRecovery.recover (fun key => some (key % 2)) (max 1 s.journal.length) s.restart =
            some r ∧
          r.journal = [] ∧
          (∀ k, r.store.toJournaledMaps.read k = s.store.toJournaledMaps.read k ∧
            r.store.canonical.get k = s.store.toJournaledMaps.read k) ∧
          ∀ entity count, r.store.exactEntityCount entity = some count →
            count = r.store.toJournaledMaps.visibleCount (fun key => some (key % 2)) entity :=
  ⟨by decide, by decide, startup_recovery_restores_reads _ _ _ _ _ (by decide) (by decide)⟩

end OnlineStore

end IcyDb
