import IcyDb.Order.SortedMerge

/-!
# Ordered traversal of a canonical map under a live overlay

`visit_ordered_overlay` (`db::ordered_overlay`) walks a canonical iterator
and a live overlay iterator together, both already in the requested
direction, peeking at their heads: the smaller head (the larger one when
descending) is visited first, and on equal keys both are consumed and only
the live entry is visited.  Each side has its own visibility test, and the
visitor may stop the walk or fail.

The walk is a loop over the merge of the two iterators, filtered by
visibility: `visitOrderedOverlay_eq_forIn` says so, with the visitor read as
the body of a `forIn` whose `done` is the visitor's `Stop`.  On inputs
strictly sorted by key the merge is the right-biased union of the two
(`Order.SortedMerge`); descending is ascending for the reversed order.
-/

namespace IcyDb

/-- `Direction`. -/
inductive Direction
  | asc
  | desc
deriving DecidableEq, Repr

/-- `OrderedOverlayVisit`. -/
inductive OrderedOverlayVisit
  | continue
  | stop
deriving DecidableEq, Repr

/-- `OrderedOverlayVisit::should_stop`. -/
def OrderedOverlayVisit.shouldStop : OrderedOverlayVisit → Bool
  | .continue => false
  | .stop => true

/-- `OrderedOverlayEntry`. -/
inductive OrderedOverlayEntry (Canonical Live : Type)
  | canonical (entry : Canonical)
  | live (entry : Live)

/-- `MergeStep`. -/
inductive MergeStep
  | canonical
  | live
  | both
  | done

section Visit

variable {CE LE σ ε : Type}

/-- The step of the loop, from the two peeked entries. -/
def mergeStep (direction : Direction) (compareEntries : CE → LE → Ordering) :
    Option CE → Option LE → MergeStep
  | none, none => .done
  | some _, none => .canonical
  | none, some _ => .live
  | some canonicalEntry, some liveEntry =>
    match direction, compareEntries canonicalEntry liveEntry with
    | _, .eq => .both
    | .asc, .lt | .desc, .gt => .canonical
    | .asc, .gt | .desc, .lt => .live

/-- `visit_ordered_overlay`, with the two peekable iterators as the lists of
what they have left and the visitor's captured state threaded through. -/
def visitOrderedOverlay (direction : Direction) (compareEntries : CE → LE → Ordering)
    (canonicalIsVisible : CE → Bool) (liveIsVisible : LE → Bool)
    (visit : σ → OrderedOverlayEntry CE LE → Except ε (OrderedOverlayVisit × σ))
    (canonicalIter : List CE) (liveIter : List LE) (state : σ) : Except ε σ :=
  match mergeStep direction compareEntries canonicalIter.head? liveIter.head? with
  | .canonical =>
    match canonicalIter with
    | [] => .ok state
    | entry :: canonicalRest =>
      if canonicalIsVisible entry then
        match visit state (.canonical entry) with
        | .error e => .error e
        | .ok (visitResult, state) =>
          if visitResult.shouldStop then .ok state
          else visitOrderedOverlay direction compareEntries canonicalIsVisible liveIsVisible visit
            canonicalRest liveIter state
      else
        visitOrderedOverlay direction compareEntries canonicalIsVisible liveIsVisible visit
          canonicalRest liveIter state
  | .live =>
    match liveIter with
    | [] => .ok state
    | entry :: liveRest =>
      if liveIsVisible entry then
        match visit state (.live entry) with
        | .error e => .error e
        | .ok (visitResult, state) =>
          if visitResult.shouldStop then .ok state
          else visitOrderedOverlay direction compareEntries canonicalIsVisible liveIsVisible visit
            canonicalIter liveRest state
      else
        visitOrderedOverlay direction compareEntries canonicalIsVisible liveIsVisible visit
          canonicalIter liveRest state
  | .both =>
    match canonicalIter, liveIter with
    | _ :: canonicalRest, liveEntry :: liveRest =>
      if liveIsVisible liveEntry then
        match visit state (.live liveEntry) with
        | .error e => .error e
        | .ok (visitResult, state) =>
          if visitResult.shouldStop then .ok state
          else visitOrderedOverlay direction compareEntries canonicalIsVisible liveIsVisible visit
            canonicalRest liveRest state
      else
        visitOrderedOverlay direction compareEntries canonicalIsVisible liveIsVisible visit
          canonicalRest liveRest state
    | _, _ => .ok state
  | .done => .ok state
termination_by canonicalIter.length + liveIter.length

/-! ### The walk is a loop over the merged sequence -/

/-- The comparison the merge sees: descending reverses it. -/
def overlayCompare (direction : Direction) (compareEntries : CE → LE → Ordering) :
    CE → LE → Ordering :=
  match direction with
  | .asc => compareEntries
  | .desc => fun canonicalEntry liveEntry => (compareEntries canonicalEntry liveEntry).swap

theorem mergeStep_some_some (direction : Direction) (compareEntries : CE → LE → Ordering)
    (canonicalEntry : CE) (liveEntry : LE) :
    mergeStep direction compareEntries (some canonicalEntry) (some liveEntry) =
      match overlayCompare direction compareEntries canonicalEntry liveEntry with
      | .lt => .canonical
      | .gt => .live
      | .eq => .both := by
  cases direction <;> simp only [mergeStep, overlayCompare] <;>
    cases compareEntries canonicalEntry liveEntry <;> rfl

/-- An element of the merge as the visitor receives it. -/
def OrderedOverlayEntry.ofSum : CE ⊕ LE → OrderedOverlayEntry CE LE
  | .inl canonicalEntry => .canonical canonicalEntry
  | .inr liveEntry => .live liveEntry

/-- The visibility test of the entry's side. -/
def OrderedOverlayEntry.isVisible (canonicalIsVisible : CE → Bool) (liveIsVisible : LE → Bool) :
    OrderedOverlayEntry CE LE → Bool
  | .canonical entry => canonicalIsVisible entry
  | .live entry => liveIsVisible entry

/-- The entries the walk hands to its visitor when it is never stopped: the
merge of the two iterators, each entry kept if its side shows it. -/
def overlayVisits (direction : Direction) (compareEntries : CE → LE → Ordering)
    (canonicalIsVisible : CE → Bool) (liveIsVisible : LE → Bool)
    (canonicalIter : List CE) (liveIter : List LE) : List (OrderedOverlayEntry CE LE) :=
  ((mergeUnion (overlayCompare direction compareEntries) canonicalIter liveIter).map
    OrderedOverlayEntry.ofSum).filter (·.isVisible canonicalIsVisible liveIsVisible)

/-- The visitor as the body of a `forIn` loop: `Stop` ends the loop, an
error ends it with that error. -/
def visitBody (visit : σ → OrderedOverlayEntry CE LE → Except ε (OrderedOverlayVisit × σ))
    (entry : OrderedOverlayEntry CE LE) (state : σ) : Except ε (ForInStep σ) :=
  match visit state entry with
  | .error e => .error e
  | .ok (visitResult, state) => .ok (if visitResult.shouldStop then .done state else .yield state)

/-- One step of the walk: an entry shown to the visitor, then the rest, is a
`forIn` over the entry and the rest; a hidden entry is skipped. -/
theorem visitStep_eq_forIn
    (visit : σ → OrderedOverlayEntry CE LE → Except ε (OrderedOverlayVisit × σ))
    (entry : OrderedOverlayEntry CE LE) (visible : Bool) (rest : List (OrderedOverlayEntry CE LE))
    (continuation : σ → Except ε σ)
    (hcont : ∀ state, continuation state = forIn rest state (visitBody visit)) (state : σ) :
    (if visible then
        match visit state entry with
        | .error e => .error e
        | .ok (visitResult, state) =>
          if visitResult.shouldStop then .ok state else continuation state
      else continuation state) =
      forIn (if visible then entry :: rest else rest) state (visitBody visit) := by
  cases visible with
  | false => exact hcont state
  | true =>
    rw [if_pos rfl, if_pos rfl, List.forIn_cons]
    cases hvisit : visit state entry with
    | error e => simp only [visitBody, hvisit]; rfl
    | ok result =>
      obtain ⟨visitResult, state'⟩ := result
      cases visitResult with
      | stop => simp only [visitBody, hvisit]; rfl
      | «continue» =>
        simp only [visitBody, hvisit, OrderedOverlayVisit.shouldStop]
        exact hcont state'

variable (direction : Direction) (compareEntries : CE → LE → Ordering)
  (canonicalIsVisible : CE → Bool) (liveIsVisible : LE → Bool)
  (visit : σ → OrderedOverlayEntry CE LE → Except ε (OrderedOverlayVisit × σ))

/-- The walk is a `forIn` over the merged, visible entries: the visitor sees
them in that order, and the walk ends right after a `Stop` or an error. -/
theorem visitOrderedOverlay_eq_forIn (canonicalIter : List CE) (liveIter : List LE) (state : σ) :
    visitOrderedOverlay direction compareEntries canonicalIsVisible liveIsVisible visit
        canonicalIter liveIter state =
      forIn (overlayVisits direction compareEntries canonicalIsVisible liveIsVisible
        canonicalIter liveIter) state (visitBody visit) := by
  -- one case per step of the merge; the walk takes the same step
  induction canonicalIter, liveIter using
    mergeUnion.induct (overlayCompare direction compareEntries) generalizing state with
  | case1 =>
    rw [visitOrderedOverlay]
    simp only [overlayVisits, mergeUnion, List.map_nil, List.filter_nil, List.forIn_nil]
    rfl
  | case2 canonicalEntry canonicalRest ih =>
    rw [visitOrderedOverlay]
    simp only [overlayVisits, mergeUnion, List.map_cons, List.filter_cons]
    exact visitStep_eq_forIn visit _ (canonicalIsVisible canonicalEntry) _ _ ih state
  | case3 liveEntry liveRest ih =>
    rw [visitOrderedOverlay]
    simp only [overlayVisits, mergeUnion, List.map_cons, List.filter_cons]
    exact visitStep_eq_forIn visit _ (liveIsVisible liveEntry) _ _ ih state
  | case4 canonicalEntry canonicalRest liveEntry liveRest hlt ih =>
    rw [visitOrderedOverlay, List.head?_cons, List.head?_cons, mergeStep_some_some, hlt]
    simp only [overlayVisits, mergeUnion_cons_cons, hlt, List.map_cons, List.filter_cons]
    exact visitStep_eq_forIn visit _ (canonicalIsVisible canonicalEntry) _ _ ih state
  | case5 canonicalEntry canonicalRest liveEntry liveRest hgt ih =>
    rw [visitOrderedOverlay, List.head?_cons, List.head?_cons, mergeStep_some_some, hgt]
    simp only [overlayVisits, mergeUnion_cons_cons, hgt, List.map_cons, List.filter_cons]
    exact visitStep_eq_forIn visit _ (liveIsVisible liveEntry) _ _ ih state
  | case6 canonicalEntry canonicalRest liveEntry liveRest heq ih =>
    -- equal keys: both are consumed and only the live entry is visited
    rw [visitOrderedOverlay, List.head?_cons, List.head?_cons, mergeStep_some_some, heq]
    simp only [overlayVisits, mergeUnion_cons_cons, heq, List.map_cons, List.filter_cons]
    exact visitStep_eq_forIn visit _ (liveIsVisible liveEntry) _ _ ih state

end Visit

/-! ### Entries ordered by key -/

section Keyed

variable {CE LE κ : Type} [LinearOrder κ] (canonicalKey : CE → κ) (liveKey : LE → κ)
  (canonicalIsVisible : CE → Bool) (liveIsVisible : LE → Bool)

/-- The key of an entry. -/
def OrderedOverlayEntry.key : OrderedOverlayEntry CE LE → κ
  | .canonical entry => canonicalKey entry
  | .live entry => liveKey entry

variable {canonicalKey liveKey} {canonicalIter : List CE} {liveIter : List LE}

/-- Ascending over key-sorted iterators, the visited keys strictly increase. -/
theorem overlayVisits_sorted
    (hcanonical : canonicalIter.Pairwise fun a b => canonicalKey a < canonicalKey b)
    (hlive : liveIter.Pairwise fun a b => liveKey a < liveKey b) :
    (overlayVisits .asc (fun c l => compare (canonicalKey c) (liveKey l)) canonicalIsVisible
        liveIsVisible canonicalIter liveIter).Pairwise
      fun a b => a.key canonicalKey liveKey < b.key canonicalKey liveKey := by
  have hmerge := mergeUnion_sorted hcanonical hlive
  refine (List.Pairwise.map OrderedOverlayEntry.ofSum ?_ hmerge).filter _
  rintro (a | a) (b | b) h <;> exact h

/-- A live entry is visited exactly when it is in the live iterator and
visible. -/
theorem live_mem_overlayVisits {liveEntry : LE} :
    .live liveEntry ∈ overlayVisits .asc (fun c l => compare (canonicalKey c) (liveKey l))
        canonicalIsVisible liveIsVisible canonicalIter liveIter ↔
      liveEntry ∈ liveIter ∧ liveIsVisible liveEntry = true := by
  simp only [overlayVisits, List.mem_filter, List.mem_map]
  constructor
  · rintro ⟨⟨e, he, hentry⟩, hvisible⟩
    rcases mem_mergeUnion_of _ he with ⟨c, _, rfl⟩ | ⟨l, hl, rfl⟩
    · cases hentry
    · cases hentry
      exact ⟨hl, hvisible⟩
  · rintro ⟨hl, hvisible⟩
    exact ⟨⟨.inr liveEntry, inr_mem_mergeUnion _ hl, rfl⟩, hvisible⟩

/-- A canonical entry is visited exactly when it is in the canonical iterator,
visible, and no live entry has its key. -/
theorem canonical_mem_overlayVisits
    (hcanonical : canonicalIter.Pairwise fun a b => canonicalKey a < canonicalKey b)
    (hlive : liveIter.Pairwise fun a b => liveKey a < liveKey b) {canonicalEntry : CE} :
    .canonical canonicalEntry ∈ overlayVisits .asc
        (fun c l => compare (canonicalKey c) (liveKey l)) canonicalIsVisible liveIsVisible
        canonicalIter liveIter ↔
      canonicalEntry ∈ canonicalIter ∧ canonicalIsVisible canonicalEntry = true ∧
        ∀ l ∈ liveIter, liveKey l ≠ canonicalKey canonicalEntry := by
  simp only [overlayVisits, List.mem_filter, List.mem_map]
  constructor
  · rintro ⟨⟨e, he, hentry⟩, hvisible⟩
    rcases e with c | l
    · cases hentry
      obtain ⟨hmem, hfresh⟩ := key_ne_of_inl_mem_mergeUnion hcanonical hlive he
      exact ⟨hmem, hvisible, hfresh⟩
    · cases hentry
  · rintro ⟨hmem, hvisible, hfresh⟩
    exact ⟨⟨.inl canonicalEntry, inl_mem_mergeUnion canonicalKey liveKey hmem hfresh, rfl⟩,
      hvisible⟩

end Keyed

/-! ### Both sides of one entry type -/

section Items

variable {κ V τ : Type} [LinearOrder τ] (key : κ → τ)

/-- The entry an overlay entry carries, on either side. -/
def OrderedOverlayEntry.item {α : Type} : OrderedOverlayEntry α α → α
  | .canonical entry | .live entry => entry

variable {canonicalIter liveIter : List (κ × V)} {canonicalIsVisible liveIsVisible : κ × V → Bool}

/-- The entries visited over two iterators of one entry type, ordered by an
injective key of their first component: the visible live ones, and the
visible canonical ones no live entry shadows. -/
theorem mem_overlayItems (hkey : Function.Injective key)
    (hcanonical : canonicalIter.Pairwise fun a b => key a.1 < key b.1)
    (hlive : liveIter.Pairwise fun a b => key a.1 < key b.1) {e : κ × V} :
    e ∈ (overlayVisits .asc (fun c l => compare (key c.1) (key l.1)) canonicalIsVisible
        liveIsVisible canonicalIter liveIter).map OrderedOverlayEntry.item ↔
      (e ∈ liveIter ∧ liveIsVisible e = true) ∨
        (e ∈ canonicalIter ∧ canonicalIsVisible e = true ∧ ∀ l ∈ liveIter, l.1 ≠ e.1) := by
  rw [List.mem_map]
  constructor
  · rintro ⟨entry, hentry, rfl⟩
    cases entry with
    | canonical c =>
      obtain ⟨hmem, hvisible, hfresh⟩ :=
        (canonical_mem_overlayVisits canonicalIsVisible liveIsVisible hcanonical hlive).mp hentry
      exact .inr ⟨hmem, hvisible, fun l hl heq => hfresh l hl (congrArg key heq)⟩
    | live l =>
      exact .inl ((live_mem_overlayVisits canonicalIsVisible liveIsVisible).mp hentry)
  · rintro (⟨hmem, hvisible⟩ | ⟨hmem, hvisible, hfresh⟩)
    · exact ⟨.live e, (live_mem_overlayVisits canonicalIsVisible liveIsVisible).mpr
        ⟨hmem, hvisible⟩, rfl⟩
    · exact ⟨.canonical e, (canonical_mem_overlayVisits canonicalIsVisible liveIsVisible
        hcanonical hlive).mpr ⟨hmem, hvisible, fun l hl heq => hfresh l hl (hkey heq)⟩, rfl⟩

/-- The visited entries' keys strictly increase. -/
theorem overlayItems_sorted
    (hcanonical : canonicalIter.Pairwise fun a b => key a.1 < key b.1)
    (hlive : liveIter.Pairwise fun a b => key a.1 < key b.1) :
    ((overlayVisits .asc (fun c l => compare (key c.1) (key l.1)) canonicalIsVisible
        liveIsVisible canonicalIter liveIter).map OrderedOverlayEntry.item).Pairwise
      fun a b => key a.1 < key b.1 := by
  refine List.Pairwise.map _ ?_
    (overlayVisits_sorted canonicalIsVisible liveIsVisible hcanonical hlive)
  rintro (a | a) (b | b) h <;> exact h

end Items

end IcyDb
