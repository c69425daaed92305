import IcyDb.Store.OrderedOverlay
import IcyDb.Order.SortedMap
import Mathlib.Data.Finset.Sort

/-!
# Journaled stores and their range traversal

A journaled data store or index store (`DataStoreBackend::Journaled`,
`IndexStoreBackend::Journaled`) keeps a canonical map in stable memory, a
live overlay of newer entries, and tombstones for keys deleted above the
canonical map.  A read (`DataStore::read`) consults the tombstones, then the
overlay, then the canonical map.

A range traversal (`visit_journaled_entries_in_bounds`,
`visit_journaled_entries_in_range`) walks the canonical range under the live
range with `visit_ordered_overlay`, or takes a shortcut when the canonical
map is empty or the overlay and the tombstones are.  Whichever path runs, it
visits the visible entries of the range in key order, each once, with the
value a read returns, and stops right after the visitor says so
(`journaledTraversal_visits_visibleView`), as long as no tombstone hides a
live key, which the stores keep.

Range iteration is the in-bounds filter.  `BTreeMap::range` panics on an
inverted bound pair and on a pair that excludes the same key at both ends, so
the traversal is stated for the bound pairs it accepts (`rangeBoundsValid`).
-/

namespace IcyDb

/-- The three maps of a journaled backend: the canonical map, the live
overlay and the tombstones. -/
structure JournaledMaps (κ V : Type) [LinearOrder κ] where
  canonical : SortedMap κ V
  live : SortedMap κ V
  tombstones : Finset κ

/-- The order a traversal in a direction visits a key-sorted list in. -/
def Direction.orient {α : Type} : Direction → List α → List α
  | .asc, entries => entries
  | .desc, entries => entries.reverse

/-- `StoreVisit`. -/
inductive StoreVisit
  | continue
  | stop
deriving DecidableEq, Repr

/-- `StoreVisit::should_stop`. -/
def StoreVisit.shouldStop : StoreVisit → Bool
  | .continue => false
  | .stop => true

section Loop

variable {κ V R σ ε : Type}

/-- `for (key, value) in entries { if visitor(key, value)?.should_stop() { return Ok(()) } }`:
the loop of the shortcut paths, for a visitor result read by `shouldStop`. -/
def visitEntriesUntil (shouldStop : R → Bool) (visitor : σ → κ → V → Except ε (R × σ)) :
    List (κ × V) → σ → Except ε σ
  | [], state => .ok state
  | (key, value) :: rest, state =>
    match visitor state key value with
    | .error e => .error e
    | .ok (result, state) =>
      if shouldStop result then .ok state else visitEntriesUntil shouldStop visitor rest state

/-- The visitor as the body of a `forIn` over key-value pairs. -/
def entryBody (shouldStop : R → Bool) (visitor : σ → κ → V → Except ε (R × σ))
    (entry : κ × V) (state : σ) : Except ε (ForInStep σ) :=
  match visitor state entry.1 entry.2 with
  | .error e => .error e
  | .ok (result, state) => .ok (if shouldStop result then .done state else .yield state)

theorem visitEntriesUntil_eq_forIn (shouldStop : R → Bool)
    (visitor : σ → κ → V → Except ε (R × σ)) (entries : List (κ × V)) (state : σ) :
    visitEntriesUntil shouldStop visitor entries state =
      forIn entries state (entryBody shouldStop visitor) := by
  induction entries generalizing state with
  | nil => rfl
  | cons entry rest ih =>
    obtain ⟨key, value⟩ := entry
    rw [visitEntriesUntil, List.forIn_cons]
    cases hvisit : visitor state key value with
    | error e => simp only [entryBody, hvisit]; rfl
    | ok result =>
      obtain ⟨result, state'⟩ := result
      cases hstop : shouldStop result
      · simp only [entryBody, hvisit, hstop, Bool.false_eq_true, if_false]
        exact ih state'
      · simp only [entryBody, hvisit, hstop, if_true]
        rfl

end Loop

namespace JournaledMaps

variable {κ V : Type} [LinearOrder κ] (store : JournaledMaps κ V)

/-- `DataStore::read` on the journaled backend. -/
def read (key : κ) : Option V :=
  if key ∈ store.tombstones then none
  else
    match store.live.get key with
    | some row => some row
    | none => store.canonical.get key

/-- `DataStore::contains` on the journaled backend. -/
def contains (key : κ) : Bool :=
  decide (key ∉ store.tombstones) &&
    (store.live.containsKey key || (store.canonical.get key).isSome)

/-- The visible entries within a pair of bounds, in key order: every key in
the bounds that a read finds, with the value the read returns. -/
def visibleView (bounds : Bound κ × Bound κ) : List (κ × V) :=
  (((store.canonical.keys ++ store.live.keys).toFinset.filter
      fun key => rangeContains bounds key = true).sort (· ≤ ·)).filterMap
    fun key => (store.read key).map (key, ·)

section Traversal

variable {σ ε : Type}

/-- The overlay visitor of the two stores: the store's visitor on the entry's
key and value, its answer read as `Stop` or `Continue`. -/
def overlayVisitor {R : Type} (shouldStop : R → Bool) (visitor : σ → κ → V → Except ε (R × σ))
    (state : σ) : OrderedOverlayEntry (κ × V) (κ × V) → Except ε (OrderedOverlayVisit × σ)
  | .canonical (key, value) | .live (key, value) =>
    match visitor state key value with
    | .error e => .error e
    | .ok (result, state) => .ok (if shouldStop result then .stop else .continue, state)

/-- `DataStore::visit_journaled_entries_in_bounds`. -/
def visitJournaledEntriesInBounds (bounds : Bound κ × Bound κ)
    (visitor : σ → κ → V → Except ε (StoreVisit × σ)) (state : σ) : Except ε σ :=
  if store.canonical.isEmpty then
    visitEntriesUntil StoreVisit.shouldStop visitor (store.live.range bounds) state
  else if store.live.isEmpty && decide (store.tombstones = ∅) then
    visitEntriesUntil StoreVisit.shouldStop visitor (store.canonical.range bounds) state
  else
    visitOrderedOverlay .asc (fun canonicalEntry liveEntry => compare canonicalEntry.1 liveEntry.1)
      (fun canonicalEntry => decide (canonicalEntry.1 ∉ store.tombstones))
      (fun liveEntry => decide (liveEntry.1 ∉ store.tombstones))
      (overlayVisitor StoreVisit.shouldStop visitor)
      (store.canonical.range bounds) (store.live.range bounds) state

/-- `IndexStore::visit_journaled_entries_in_range`: the visitor answers
whether to stop. -/
def visitJournaledEntriesInRange (bounds : Bound κ × Bound κ) (direction : Direction)
    (visit : σ → κ → V → Except ε (Bool × σ)) (state : σ) : Except ε σ :=
  match direction with
  | .asc =>
    if store.canonical.isEmpty then visitEntriesUntil id visit (store.live.range bounds) state
    else if store.live.isEmpty && decide (store.tombstones = ∅) then
      visitEntriesUntil id visit (store.canonical.range bounds) state
    else
      visitOrderedOverlay .asc (fun canonicalEntry liveEntry => compare canonicalEntry.1 liveEntry.1)
        (fun canonicalEntry => decide (canonicalEntry.1 ∉ store.tombstones))
        (fun liveEntry => decide (liveEntry.1 ∉ store.tombstones))
        (overlayVisitor id visit) (store.canonical.range bounds) (store.live.range bounds) state
  | .desc =>
    if store.canonical.isEmpty then visitEntriesUntil id visit (store.live.range bounds).reverse state
    else if store.live.isEmpty && decide (store.tombstones = ∅) then
      visitEntriesUntil id visit (store.canonical.range bounds).reverse state
    else
      visitOrderedOverlay .desc
        (fun canonicalEntry liveEntry => compare canonicalEntry.1 liveEntry.1)
        (fun canonicalEntry => decide (canonicalEntry.1 ∉ store.tombstones))
        (fun liveEntry => decide (liveEntry.1 ∉ store.tombstones))
        (overlayVisitor id visit) (store.canonical.range bounds).reverse
        (store.live.range bounds).reverse state

end Traversal

/-! ### The visible view -/

variable {store}

theorem read_eq_some_iff {key : κ} {value : V} :
    store.read key = some value ↔
      key ∉ store.tombstones ∧
        (store.live.get key = some value ∨
          store.live.get key = none ∧ store.canonical.get key = some value) := by
  unfold read
  by_cases htomb : key ∈ store.tombstones
  · simp [htomb]
  · rw [if_neg htomb]
    cases hlive : store.live.get key <;> simp [htomb]

theorem visibleView_sorted (bounds : Bound κ × Bound κ) :
    (store.visibleView bounds).Pairwise fun a b => a.1 < b.1 := by
  refine List.Pairwise.filterMap _ ?_ (Finset.sortedLT_sort _).pairwise
  intro a a' hlt b hb b' hb'
  obtain ⟨_, -, rfl⟩ := Option.map_eq_some_iff.mp hb
  obtain ⟨_, -, rfl⟩ := Option.map_eq_some_iff.mp hb'
  exact hlt

theorem mem_visibleView {bounds : Bound κ × Bound κ} {key : κ} {value : V} :
    (key, value) ∈ store.visibleView bounds ↔
      rangeContains bounds key = true ∧ store.read key = some value := by
  simp only [visibleView, List.mem_filterMap, Finset.mem_sort, Finset.mem_filter,
    List.mem_toFinset, List.mem_append, Option.map_eq_some_iff, Prod.mk.injEq]
  constructor
  · rintro ⟨key', ⟨-, hrange⟩, value', hread, rfl, rfl⟩
    exact ⟨hrange, hread⟩
  · rintro ⟨hrange, hread⟩
    -- a key a read finds is a key of the overlay or of the canonical map
    have hkey : key ∈ store.canonical.keys ∨ key ∈ store.live.keys := by
      rcases (read_eq_some_iff.mp hread).2 with hlive | ⟨-, hcanonical⟩
      · exact .inr (List.mem_map.mpr ⟨_, SortedMap.get_eq_some_iff.mp hlive, rfl⟩)
      · exact .inl (List.mem_map.mpr ⟨_, SortedMap.get_eq_some_iff.mp hcanonical, rfl⟩)
    exact ⟨key, ⟨hkey, hrange⟩, value, hread, rfl, rfl⟩

/-- No tombstone hides a live key: the stores drop a key's tombstone when
they write it to the overlay. -/
def TombstonesDisjoint (store : JournaledMaps κ V) : Prop :=
  ∀ key ∈ store.tombstones, store.live.get key = none

/-- With an empty canonical map, the live range is the visible view. -/
theorem live_range_eq_visibleView (hdisjoint : store.TombstonesDisjoint)
    (hempty : store.canonical.isEmpty = true) (bounds : Bound κ × Bound κ) :
    store.live.range bounds = store.visibleView bounds := by
  have hcanonical : ∀ key, store.canonical.get key = none := fun key =>
    SortedMap.get_eq_none_iff.mpr fun value => by
      rw [SortedMap.isEmpty_iff.mp hempty]
      exact List.not_mem_nil
  refine eq_of_key_sorted_of_mem_iff (SortedMap.range_sorted bounds) (visibleView_sorted bounds) ?_
  rintro ⟨key, value⟩
  rw [SortedMap.mem_range, mem_visibleView, read_eq_some_iff, hcanonical key,
    ← SortedMap.get_eq_some_iff]
  constructor
  · rintro ⟨hlive, hrange⟩
    refine ⟨hrange, fun htomb => ?_, .inl hlive⟩
    rw [hdisjoint key htomb] at hlive
    cases hlive
  · rintro ⟨hrange, -, hlive | ⟨-, hnone⟩⟩
    · exact ⟨hlive, hrange⟩
    · cases hnone

/-- With no overlay and no tombstones, the canonical range is the visible
view. -/
theorem canonical_range_eq_visibleView (hlive : store.live.isEmpty = true)
    (htombstones : store.tombstones = ∅) (bounds : Bound κ × Bound κ) :
    store.canonical.range bounds = store.visibleView bounds := by
  have hnone : ∀ key, store.live.get key = none := fun key =>
    SortedMap.get_eq_none_iff.mpr fun value => by
      rw [SortedMap.isEmpty_iff.mp hlive]
      exact List.not_mem_nil
  refine eq_of_key_sorted_of_mem_iff (SortedMap.range_sorted bounds) (visibleView_sorted bounds) ?_
  rintro ⟨key, value⟩
  rw [SortedMap.mem_range, mem_visibleView, read_eq_some_iff, hnone key, htombstones,
    ← SortedMap.get_eq_some_iff]
  simp only [Finset.notMem_empty, not_false_eq_true, reduceCtorEq, false_or, true_and]
  exact and_comm

/-! ### The overlay path -/

/-- A live key in range shadows the canonical entry of its key, and only
such a key does. -/
theorem forall_live_range_key_ne_iff {bounds : Bound κ × Bound κ} {key : κ}
    (hrange : rangeContains bounds key = true) :
    (∀ l ∈ store.live.range bounds, l.1 ≠ key) ↔ store.live.get key = none := by
  constructor
  · intro hfresh
    cases hget : store.live.get key with
    | none => rfl
    | some w =>
      exact absurd rfl (hfresh (key, w)
        (SortedMap.mem_range.mpr ⟨SortedMap.get_eq_some_iff.mp hget, hrange⟩))
  · rintro hnone ⟨k, w⟩ hl rfl
    obtain ⟨hmem, -⟩ := SortedMap.mem_range.mp hl
    rw [SortedMap.get_eq_some_iff.mpr hmem] at hnone
    cases hnone

/-- An entry the overlay walk keeps (live and not tombstoned, or canonical,
not tombstoned and not shadowed) is exactly a visible entry of the range. -/
theorem overlayEntry_iff_visible {bounds : Bound κ × Bound κ} {key : κ} {value : V} :
    ((key, value) ∈ store.live.range bounds ∧ decide (key ∉ store.tombstones) = true) ∨
        ((key, value) ∈ store.canonical.range bounds ∧ decide (key ∉ store.tombstones) = true ∧
          ∀ l ∈ store.live.range bounds, l.1 ≠ key) ↔
      rangeContains bounds key = true ∧ store.read key = some value := by
  rw [read_eq_some_iff, decide_eq_true_eq]
  constructor
  · rintro (⟨hl, htomb⟩ | ⟨hc, htomb, hfresh⟩)
    · obtain ⟨hlive, hrange⟩ := SortedMap.mem_range.mp hl
      exact ⟨hrange, htomb, .inl (SortedMap.get_eq_some_iff.mpr hlive)⟩
    · obtain ⟨hcanonical, hrange⟩ := SortedMap.mem_range.mp hc
      exact ⟨hrange, htomb, .inr ⟨(forall_live_range_key_ne_iff hrange).mp hfresh,
        SortedMap.get_eq_some_iff.mpr hcanonical⟩⟩
  · rintro ⟨hrange, htomb, hlive | ⟨hnone, hcanonical⟩⟩
    · exact .inl ⟨SortedMap.mem_range.mpr ⟨SortedMap.get_eq_some_iff.mp hlive, hrange⟩, htomb⟩
    · exact .inr ⟨SortedMap.mem_range.mpr ⟨SortedMap.get_eq_some_iff.mp hcanonical, hrange⟩,
        htomb, (forall_live_range_key_ne_iff hrange).mpr hnone⟩

/-- Ascending, the overlay walk visits the visible view. -/
theorem overlayItems_asc_eq_visibleView (bounds : Bound κ × Bound κ) :
    (overlayVisits .asc (fun canonicalEntry liveEntry => compare canonicalEntry.1 liveEntry.1)
        (fun canonicalEntry => decide (canonicalEntry.1 ∉ store.tombstones))
        (fun liveEntry => decide (liveEntry.1 ∉ store.tombstones))
        (store.canonical.range bounds) (store.live.range bounds)).map
      OrderedOverlayEntry.item = store.visibleView bounds := by
  have hcanonical : (store.canonical.range bounds).Pairwise fun a b => a.1 < b.1 :=
    SortedMap.range_sorted bounds
  have hlive : (store.live.range bounds).Pairwise fun a b => a.1 < b.1 :=
    SortedMap.range_sorted bounds
  refine eq_of_key_sorted_of_mem_iff (overlayItems_sorted id hcanonical hlive)
    (visibleView_sorted bounds) ?_
  rintro ⟨key, value⟩
  exact (mem_overlayItems id Function.injective_id hcanonical hlive).trans
    (overlayEntry_iff_visible.trans mem_visibleView.symm)

/-- Descending reverses the comparison, which is the ascending comparison of
the dual order. -/
theorem overlayVisits_desc_eq (cs ls : List (κ × V)) (cv lv : κ × V → Bool) :
    overlayVisits .desc (fun canonicalEntry liveEntry => compare canonicalEntry.1 liveEntry.1)
        cv lv cs ls =
      overlayVisits .asc (fun canonicalEntry liveEntry =>
        compare (OrderDual.toDual canonicalEntry.1) (OrderDual.toDual liveEntry.1)) cv lv cs ls := by
  have hswap : overlayCompare .desc (fun (c : κ × V) (l : κ × V) => compare c.1 l.1) =
      overlayCompare .asc fun (c : κ × V) (l : κ × V) =>
        compare (OrderDual.toDual c.1) (OrderDual.toDual l.1) := by
    funext c l
    exact Std.OrientedOrd.eq_swap.symm
  unfold overlayVisits
  rw [hswap]

/-- A list reversed is sorted by the dual order exactly when it was sorted. -/
theorem reverse_sorted_toDual {l : List (κ × V)} (h : l.Pairwise fun a b => a.1 < b.1) :
    l.reverse.Pairwise fun a b => OrderDual.toDual a.1 < OrderDual.toDual b.1 :=
  List.pairwise_reverse.mpr (h.imp fun hlt => OrderDual.toDual_lt_toDual.mpr hlt)

/-- Descending over the reversed ranges, the overlay walk visits the visible
view backwards. -/
theorem overlayItems_desc_eq_visibleView (bounds : Bound κ × Bound κ) :
    (overlayVisits .desc (fun canonicalEntry liveEntry => compare canonicalEntry.1 liveEntry.1)
        (fun canonicalEntry => decide (canonicalEntry.1 ∉ store.tombstones))
        (fun liveEntry => decide (liveEntry.1 ∉ store.tombstones))
        (store.canonical.range bounds).reverse (store.live.range bounds).reverse).map
      OrderedOverlayEntry.item = (store.visibleView bounds).reverse := by
  have hcanonical := reverse_sorted_toDual (store.canonical.range_sorted bounds)
  have hlive := reverse_sorted_toDual (store.live.range_sorted bounds)
  rw [overlayVisits_desc_eq]
  refine eq_of_key_sorted_desc_of_mem_iff
    (overlayItems_sorted OrderDual.toDual hcanonical hlive)
    (List.pairwise_reverse.mpr (visibleView_sorted bounds)) ?_
  rintro ⟨key, value⟩
  rw [List.mem_reverse]
  refine (mem_overlayItems OrderDual.toDual OrderDual.toDual.injective hcanonical hlive).trans ?_
  simp only [List.mem_reverse]
  exact overlayEntry_iff_visible.trans mem_visibleView.symm

/-! ### The traversals -/

section Traversal

variable {σ ε R : Type}

omit [LinearOrder κ] in
/-- The overlay visitor over overlay entries is the store's visitor over the
entries they carry. -/
theorem forIn_overlayVisitor (shouldStop : R → Bool) (visitor : σ → κ → V → Except ε (R × σ))
    (entries : List (OrderedOverlayEntry (κ × V) (κ × V))) (state : σ) :
    forIn entries state (visitBody (overlayVisitor shouldStop visitor)) =
      forIn (entries.map OrderedOverlayEntry.item) state (entryBody shouldStop visitor) := by
  rw [List.forIn_map]
  congr
  funext entry state
  -- both sides call the visitor once and stop on the same answer
  obtain ⟨key, value⟩ | ⟨key, value⟩ := entry <;>
    simp only [visitBody, overlayVisitor, entryBody, OrderedOverlayEntry.item] <;>
    cases visitor state key value with
    | error e => rfl
    | ok result =>
      obtain ⟨result, state'⟩ := result
      cases hstop : shouldStop result <;>
        simp only [hstop, Bool.false_eq_true, if_false, if_true, OrderedOverlayVisit.shouldStop]

variable (hdisjoint : store.TombstonesDisjoint)
include hdisjoint

/-- `visit_journaled_entries_in_bounds` visits the visible view, ascending,
on each of its three paths. -/
theorem visitJournaledEntriesInBounds_eq_forIn (bounds : Bound κ × Bound κ)
    (visitor : σ → κ → V → Except ε (StoreVisit × σ)) (state : σ) :
    store.visitJournaledEntriesInBounds bounds visitor state =
      forIn (store.visibleView bounds) state (entryBody StoreVisit.shouldStop visitor) := by
  unfold visitJournaledEntriesInBounds
  split
  · next hcanonical =>
    rw [visitEntriesUntil_eq_forIn, live_range_eq_visibleView hdisjoint hcanonical]
  split
  · next hshortcut =>
    obtain ⟨hlive, htombstones⟩ := Bool.and_eq_true_iff.mp hshortcut
    rw [visitEntriesUntil_eq_forIn,
      canonical_range_eq_visibleView hlive (of_decide_eq_true htombstones)]
  · rw [visitOrderedOverlay_eq_forIn, forIn_overlayVisitor, overlayItems_asc_eq_visibleView]

/-- `visit_journaled_entries_in_range` visits the visible view in the
requested direction, on each of its paths. -/
theorem visitJournaledEntriesInRange_eq_forIn (bounds : Bound κ × Bound κ)
    (direction : Direction) (visit : σ → κ → V → Except ε (Bool × σ)) (state : σ) :
    store.visitJournaledEntriesInRange bounds direction visit state =
      forIn (direction.orient (store.visibleView bounds)) state (entryBody id visit) := by
  cases direction with
  | asc =>
    simp only [visitJournaledEntriesInRange]
    split
    · next hcanonical =>
      rw [visitEntriesUntil_eq_forIn, live_range_eq_visibleView hdisjoint hcanonical]
      rfl
    split
    · next hshortcut =>
      obtain ⟨hlive, htombstones⟩ := Bool.and_eq_true_iff.mp hshortcut
      rw [visitEntriesUntil_eq_forIn,
        canonical_range_eq_visibleView hlive (of_decide_eq_true htombstones)]
      rfl
    · rw [visitOrderedOverlay_eq_forIn, forIn_overlayVisitor, overlayItems_asc_eq_visibleView]
      rfl
  | desc =>
    simp only [visitJournaledEntriesInRange]
    split
    · next hcanonical =>
      rw [visitEntriesUntil_eq_forIn, live_range_eq_visibleView hdisjoint hcanonical]
      rfl
    split
    · next hshortcut =>
      obtain ⟨hlive, htombstones⟩ := Bool.and_eq_true_iff.mp hshortcut
      rw [visitEntriesUntil_eq_forIn,
        canonical_range_eq_visibleView hlive (of_decide_eq_true htombstones)]
      rfl
    · rw [visitOrderedOverlay_eq_forIn, forIn_overlayVisitor, overlayItems_desc_eq_visibleView]
      rfl

end Traversal

end JournaledMaps

/-- Journaled range traversal equals the visible view: for stores whose
tombstones hide no live key, the data store's traversal and the index store's
in either direction hand their visitor exactly the visible entries of the
range (each key once, in strictly increasing key order, reversed when
descending, with the value a read returns) as a `forIn` loop, so the walk
ends right after the visitor stops it.  On the bound pairs `BTreeMap::range`
rejects, the source panics before visiting anything. -/
theorem journaledTraversal_visits_visibleView {κ V σ ε : Type} [LinearOrder κ]
    (store : JournaledMaps κ V) (hdisjoint : store.TombstonesDisjoint)
    (bounds : Bound κ × Bound κ) (_hbounds : rangeBoundsValid bounds = true) :
    (∀ (visitor : σ → κ → V → Except ε (StoreVisit × σ)) (state : σ),
      store.visitJournaledEntriesInBounds bounds visitor state =
        forIn (store.visibleView bounds) state (entryBody StoreVisit.shouldStop visitor)) ∧
    (∀ (direction : Direction) (visit : σ → κ → V → Except ε (Bool × σ)) (state : σ),
      store.visitJournaledEntriesInRange bounds direction visit state =
        forIn (direction.orient (store.visibleView bounds)) state (entryBody id visit)) ∧
    (store.visibleView bounds).Pairwise (fun a b => a.1 < b.1) ∧
    ∀ key value, (key, value) ∈ store.visibleView bounds ↔
      rangeContains bounds key = true ∧ store.read key = some value := by
  refine ⟨fun visitor state => ?_, fun direction visit state => ?_,
    JournaledMaps.visibleView_sorted bounds, fun key value => JournaledMaps.mem_visibleView⟩
  · exact JournaledMaps.visitJournaledEntriesInBounds_eq_forIn hdisjoint bounds visitor state
  · exact JournaledMaps.visitJournaledEntriesInRange_eq_forIn hdisjoint bounds direction visit state

/-- The overlay of the source's own test: canonical `{1: 10, 3: 30, 5: 50}`,
live `{0: 100, 3: 300, 4: 400, 5: 500}`, key `1` deleted. -/
def overlayTestStore : JournaledMaps Nat Nat where
  canonical := ⟨[(1, 10), (3, 30), (5, 50)], by decide⟩
  live := ⟨[(0, 100), (3, 300), (4, 400), (5, 500)], by decide⟩
  tombstones := {1}

theorem overlayTestStore_traversal_visits_visibleView :
    overlayTestStore.TombstonesDisjoint ∧
      rangeBoundsValid ((.unbounded, .unbounded) : Bound Nat × Bound Nat) = true ∧
      ((∀ (visitor : List Nat → Nat → Nat → Except Unit (StoreVisit × List Nat))
          (state : List Nat),
        overlayTestStore.visitJournaledEntriesInBounds (.unbounded, .unbounded) visitor state =
          forIn (overlayTestStore.visibleView (.unbounded, .unbounded)) state
            (entryBody StoreVisit.shouldStop visitor)) ∧
      (∀ (direction : Direction) (visit : List Nat → Nat → Nat → Except Unit (Bool × List Nat))
          (state : List Nat),
        overlayTestStore.visitJournaledEntriesInRange (.unbounded, .unbounded) direction visit
            state =
          forIn (direction.orient (overlayTestStore.visibleView (.unbounded, .unbounded))) state
            (entryBody id visit)) ∧
      (overlayTestStore.visibleView (.unbounded, .unbounded)).Pairwise (fun a b => a.1 < b.1) ∧
      ∀ key value, (key, value) ∈ overlayTestStore.visibleView (.unbounded, .unbounded) ↔
        rangeContains (.unbounded, .unbounded) key = true ∧
          overlayTestStore.read key = some value) := by
  have hdisjoint : overlayTestStore.TombstonesDisjoint := by
    unfold JournaledMaps.TombstonesDisjoint
    decide
  exact ⟨hdisjoint, rfl, journaledTraversal_visits_visibleView overlayTestStore hdisjoint _ rfl⟩

end IcyDb
