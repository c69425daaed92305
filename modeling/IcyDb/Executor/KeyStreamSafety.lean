import IcyDb.Executor.FlatMergeOrder

/-!
# No key out of order, whatever the children give

The combinators check every key a side pulls against the key that side gave
up last, and the distinct adapter every key against the key it gave last.
These checks keep the output in order when a child does not: along every run
of calls from a newly built combinator, over any children, each key given is
strictly after the one given before it.

A side is read through a bound (`Above`): its lookahead key is not before the
bound, and a side that still has to pull has given up a key not before it,
so that the check lets no key before the bound through.  Each combinator's
invariant bounds its sides (for the flat merge, its heap and its children) by
the key it gave last, and a pass yields a key only past that bound.
-/

namespace IcyDb

open Pull Comparator

namespace StreamSideState

variable {σ : Type} {P : KeyStream σ}

/-- Nothing the side holds or may still pull is before `e`: its lookahead key
is not, and a side that still has to pull has given up a key not before `e`,
against which the pull is checked. -/
def Above (e : DecodedDataStoreKey) (side : StreamSideState) : Prop :=
  (∀ y, side.item = some y → side.comparator.compareDataKeys e y ≠ .gt) ∧
    (side.item = none → side.done = false →
      ∃ l, side.lastKey = some l ∧ side.comparator.compareDataKeys e l ≠ .gt)

/-- After ensuring, a side holds a lookahead key unless its stream has ended. -/
theorem ensureItem_settled {side side' : StreamSideState} {stream stream' : σ}
    (h : side.ensureItem P stream = .ok (side', stream')) :
    side'.comparator = side.comparator ∧ (side'.item = none → side'.done = true) := by
  unfold ensureItem at h
  split at h
  · rename_i hready
    cases h
    refine ⟨rfl, fun hnone => ?_⟩
    simpa [hnone] using hready
  · rw [Except.bind_eq_ok_iff] at h
    obtain ⟨⟨next, pulled⟩, -, h⟩ := h
    cases next with
    | some key =>
      rw [Except.bind_eq_ok_iff] at h
      obtain ⟨pushed, hpush, h⟩ := h
      simp only [pushKey, Except.bind_eq_ok_iff, Except.pure_eq_ok_iff] at hpush h
      obtain ⟨-, -, rfl⟩ := hpush
      cases h
      exact ⟨rfl, fun hnone => by cases hnone⟩
    | none =>
      simp only [Except.pure_eq_ok_iff] at h
      cases h
      exact ⟨rfl, fun _ => rfl⟩

/-- Ensuring keeps the bound: a pulled key passed the check against a key not
before it. -/
theorem ensureItem_above {side side' : StreamSideState} {stream stream' : σ}
    {e : DecodedDataStoreKey} (habove : side.Above e)
    (h : side.ensureItem P stream = .ok (side', stream')) : side'.Above e := by
  unfold ensureItem at h
  split at h
  · cases h
    exact habove
  · rename_i hpull
    simp only [Bool.or_eq_true, not_or, Bool.not_eq_true, Option.isSome_eq_false_iff,
      Option.isNone_iff_eq_none] at hpull
    rw [Except.bind_eq_ok_iff] at h
    obtain ⟨⟨next, pulled⟩, -, h⟩ := h
    cases next with
    | some key =>
      rw [Except.bind_eq_ok_iff] at h
      obtain ⟨pushed, hpush, h⟩ := h
      simp only [pushKey, Except.bind_eq_ok_iff, Except.pure_eq_ok_iff] at hpush h
      obtain ⟨u, hvalid, rfl⟩ := hpush
      cases h
      -- the pulled key follows on from a key given up at or after the bound
      obtain ⟨l, hlast, hel⟩ := habove.2 hpull.2 hpull.1
      have hfollows := validateMonotonicity_eq_ok_iff.mp hvalid l hlast
      refine ⟨fun y hy => ?_, fun hnone => by cases hnone⟩
      cases hy
      exact side.comparator.totalOrderOn.le_trans _ _ _ trivial trivial trivial hel hfollows.2
    | none =>
      simp only [Except.pure_eq_ok_iff] at h
      cases h
      exact ⟨fun y hy => by simp [hpull.2] at hy, fun _ hdone => by cases hdone⟩

/-- Giving up the lookahead key keeps the bound. -/
theorem Above.clearItem {side : StreamSideState} {e : DecodedDataStoreKey} (h : side.Above e) :
    side.clearItem.Above e := by
  cases hit : side.item with
  | none => simpa [StreamSideState.clearItem, hit] using h
  | some y =>
    refine ⟨fun _ hy => by simp [StreamSideState.clearItem, hit] at hy, fun _ _ => ⟨y, ?_, ?_⟩⟩
    · simp [StreamSideState.clearItem, hit]
    · simpa [StreamSideState.clearItem, hit] using h.1 y hit

/-- A side that gives up its lookahead key `m` is bounded by `m`. -/
theorem above_clearItem_self {side : StreamSideState} {m : DecodedDataStoreKey}
    (hitem : side.item = some m) : side.clearItem.Above m := by
  refine ⟨fun _ hy => by simp [StreamSideState.clearItem, hitem] at hy, fun _ _ => ⟨m, ?_, ?_⟩⟩
  · simp [StreamSideState.clearItem, hitem]
  · rw [clearItem_comparator, side.comparator.totalOrderOn.refl m trivial]
    decide

/-- After a merge picks `m`, first among the lookahead keys, a side holding a
lookahead key or ended is bounded by `m`. -/
theorem above_giveUpIf {side : StreamSideState} {m : DecodedDataStoreKey}
    (hsettled : side.item = none → side.done = true)
    (hle : ∀ y, side.item = some y → side.comparator.compareDataKeys m y ≠ .gt) :
    (side.giveUpIf m).Above m := by
  unfold giveUpIf
  split_ifs with hm
  · exact above_clearItem_self hm
  · refine ⟨hle, fun hnone hdone => ?_⟩
    rw [hsettled hnone] at hdone
    cases hdone

/-- A side holding a lookahead key has that key first among the keys it still
has to give. -/
theorem eq_cons_of_holds {side : StreamSideState} {stream : σ} {keys : List DecodedDataStoreKey}
    {key : DecodedDataStoreKey} (h : side.Holds P stream keys) (hitem : side.item = some key) :
    ∃ rest, keys = key :: rest := by
  unfold Holds at h
  split_ifs at h
  · rw [hitem] at h
    cases h.1
  · obtain ⟨rest, -, rfl⟩ := h
    exact ⟨rest, by simp [hitem]⟩

end StreamSideState

/-! ### Merge -/

namespace MergeOrderedKeyStream

variable {α β : Type} {A : KeyStream α} {B : KeyStream β}

/-- The merge's safety invariant: it records the key it gave last, and both
sides are bounded by that key. -/
structure Safe (c : KeyOrderComparator) (s : MergeOrderedKeyStream α β)
    (last : Option DecodedDataStoreKey) : Prop where
  comparator : s.comparator = c
  leftComparator : s.pair.left.comparator = c
  rightComparator : s.pair.right.comparator = c
  lastEmitted : s.lastEmitted = last
  leftAbove : ∀ e, last = some e → s.pair.left.Above e
  rightAbove : ∀ e, last = some e → s.pair.right.Above e

theorem safe_newWithComparator (a : α) (b : β) (c : KeyOrderComparator) :
    Safe c (newWithComparator a b c) none :=
  ⟨rfl, rfl, rfl, rfl, fun _ h => (by cases h), fun _ h => (by cases h)⟩

/-- One pass keeps the invariant, and yields a key only strictly after the key
given last. -/
theorem loopBody_safe {c : KeyOrderComparator} {s : MergeOrderedKeyStream α β}
    {last : Option DecodedDataStoreKey} {step : Step (MergeOrderedKeyStream α β) DecodedDataStoreKey}
    (h : Safe c s last) (hbody : loopBody A B s = .ok step) :
    match step with
    | .stop s' | .skip s' => Safe c s' last
    | .yield k s' => (∀ e, last = some e → c.compareDataKeys e k = .lt) ∧ Safe c s' (some k) := by
  simp only [loopBody, Except.bind_eq_ok_iff] at hbody
  obtain ⟨⟨leftSide, left⟩, hl, ⟨rightSide, right⟩, hr, hbody⟩ := hbody
  obtain ⟨hlc, hls⟩ := StreamSideState.ensureItem_settled hl
  obtain ⟨hrc, hrs⟩ := StreamSideState.ensureItem_settled hr
  rw [h.leftComparator] at hlc
  rw [h.rightComparator] at hrc
  have hla : ∀ e, last = some e → leftSide.Above e := fun e he =>
    StreamSideState.ensureItem_above (h.leftAbove e he) hl
  have hra : ∀ e, last = some e → rightSide.Above e := fun e he =>
    StreamSideState.ensureItem_above (h.rightAbove e he) hr
  split_ifs at hbody with hnone
  · cases hbody
    exact ⟨h.comparator, hlc, hrc, h.lastEmitted, hla, hra⟩
  -- the choice is the pick over the two lookahead keys, first among them
  obtain ⟨m, keysL', keysR', hpick⟩ : ∃ m keysL' keysR',
      mergePick c.compareDataKeys leftSide.item.toList rightSide.item.toList =
        some (m, keysL', keysR') := by
    cases hp : mergePick c.compareDataKeys leftSide.item.toList rightSide.item.toList with
    | none =>
      obtain ⟨hL, hR⟩ := mergePick_eq_none_iff.mp hp
      simp_all
    | some r => exact ⟨r.1, r.2.1, r.2.2, rfl⟩
  have hchoice := OrderedPairState.mergeChoice_of_pick Option.head?_toList.symm
    Option.head?_toList.symm hpick
  have hle := mergePick_le c.totalOrderOn (by cases leftSide.item <;> simp)
    (by cases rightSide.item <;> simp) hpick
  have hleft : (leftSide.giveUpIf m).Above m :=
    StreamSideState.above_giveUpIf hls fun y hy => by
      rw [hlc]
      exact hle y (.inl (by simp [hy]))
  have hright : (rightSide.giveUpIf m).Above m :=
    StreamSideState.above_giveUpIf hrs fun y hy => by
      rw [hrc]
      exact hle y (.inr (by simp [hy]))
  -- the pick is not before the bound, since both lookahead keys are not
  have hem : ∀ e, last = some e → c.compareDataKeys e m ≠ .gt := by
    intro e he
    rcases (mergePick_spec hpick).1 with hm | hm
    · rw [Option.head?_toList] at hm
      simpa [hlc] using (hla e he).1 m hm
    · rw [Option.head?_toList] at hm
      simpa [hrc] using (hra e he).1 m hm
  rw [h.comparator, hchoice] at hbody
  dsimp only at hbody
  split_ifs at hbody with hlast
  · cases hbody
    rw [h.lastEmitted] at hlast
    subst hlast
    refine ⟨rfl, by simp [hlc], by simp [hrc], h.lastEmitted,
      fun e he => ?_, fun e he => ?_⟩ <;> cases he
    · exact hleft
    · exact hright
  · cases hbody
    refine ⟨fun e he => c.totalOrderOn.lt_of_ne_gt trivial trivial (hem e he) fun hme => ?_,
      rfl, by simp [hlc], by simp [hrc], rfl,
      fun e he => ?_, fun e he => ?_⟩
    · rw [h.lastEmitted, he, hme] at hlast
      exact hlast rfl
    all_goals cases he
    · exact hleft
    · exact hright

/-- Along every run of a new merge, whatever its children give, each key is
strictly after the one before. -/
theorem run_isChain_lt {a : α} {b : β} {c : KeyOrderComparator} {keys : List DecodedDataStoreKey}
    {s' : MergeOrderedKeyStream α β} (h : (stream A B).Run (newWithComparator a b c) keys s') :
    keys.IsChain fun x y => c.compareDataKeys x y = .lt :=
  LoopStream.run_isChain (L := loop A B) (I := fun last s => Safe c s last)
    (fun hinv hbody => loopBody_safe hinv hbody) (fun hinv hbody => loopBody_safe hinv hbody)
    (fun hinv hbody => loopBody_safe hinv hbody) h (safe_newWithComparator a b c)

end MergeOrderedKeyStream

/-! ### Intersection -/

namespace IntersectOrderedKeyStream

variable {α β : Type} {A : KeyStream α} {B : KeyStream β}

/-- The intersection's safety invariant: it records the key it gave last, and
both sides are bounded by that key. -/
structure Safe (c : KeyOrderComparator) (s : IntersectOrderedKeyStream α β)
    (last : Option DecodedDataStoreKey) : Prop where
  comparator : s.comparator = c
  leftComparator : s.pair.left.comparator = c
  rightComparator : s.pair.right.comparator = c
  lastEmitted : s.lastEmitted = last
  leftAbove : ∀ e, last = some e → s.pair.left.Above e
  rightAbove : ∀ e, last = some e → s.pair.right.Above e

theorem safe_newWithComparator (a : α) (b : β) (c : KeyOrderComparator) :
    Safe c (newWithComparator a b c) none :=
  ⟨rfl, rfl, rfl, rfl, fun _ h => (by cases h), fun _ h => (by cases h)⟩

/-- One pass keeps the invariant, and yields a key only strictly after the key
given last. -/
theorem loopBody_safe {c : KeyOrderComparator} {s : IntersectOrderedKeyStream α β}
    {last : Option DecodedDataStoreKey}
    {step : Step (IntersectOrderedKeyStream α β) DecodedDataStoreKey}
    (h : Safe c s last) (hbody : loopBody A B s = .ok step) :
    match step with
    | .stop s' | .skip s' => Safe c s' last
    | .yield k s' => (∀ e, last = some e → c.compareDataKeys e k = .lt) ∧ Safe c s' (some k) := by
  unfold loopBody at hbody
  split_ifs at hbody with hdone
  · cases hbody
    exact h
  simp only [Except.bind_eq_ok_iff] at hbody
  obtain ⟨⟨leftSide, left⟩, hl, ⟨rightSide, right⟩, hr, hbody⟩ := hbody
  obtain ⟨hlc, -⟩ := StreamSideState.ensureItem_settled hl
  obtain ⟨hrc, -⟩ := StreamSideState.ensureItem_settled hr
  rw [h.leftComparator] at hlc
  rw [h.rightComparator] at hrc
  have hla : ∀ e, last = some e → leftSide.Above e := fun e he =>
    StreamSideState.ensureItem_above (h.leftAbove e he) hl
  have hra : ∀ e, last = some e → rightSide.Above e := fun e he =>
    StreamSideState.ensureItem_above (h.rightAbove e he) hr
  -- without both lookahead keys the pass stops
  rcases hleft : leftSide.item with _ | x <;> rcases hright : rightSide.item with _ | y <;>
    simp only [hleft, hright] at hbody
  all_goals try (cases hbody; exact ⟨h.comparator, hlc, hrc, h.lastEmitted, hla, hra⟩)
  split_ifs at hbody with hxy hlt
  · -- equal keys: given up on both sides, and yielded unless given last
    subst hxy
    simp only [StreamSideState.takeItem_eq, hleft] at hbody
    have hleft' := StreamSideState.above_clearItem_self hleft
    have hright' := StreamSideState.above_clearItem_self hright
    split_ifs at hbody with hlast
    · cases hbody
      rw [h.lastEmitted] at hlast
      subst hlast
      refine ⟨h.comparator, by simp [hlc], by simp [hrc], h.lastEmitted,
        fun e he => ?_, fun e he => ?_⟩ <;> cases he
      · exact hleft'
      · exact hright'
    · cases hbody
      refine ⟨fun e he => c.totalOrderOn.lt_of_ne_gt trivial trivial ?_ fun hex => ?_,
        h.comparator, by simp [hlc], by simp [hrc], rfl,
        fun e he => ?_, fun e he => ?_⟩
      · simpa [hlc] using (hla e he).1 x hleft
      · rw [h.lastEmitted, he, hex] at hlast
        exact hlast rfl
      all_goals cases he
      · exact hleft'
      · exact hright'
  · -- the lesser key is given up, and the bound stays
    cases hbody
    exact ⟨h.comparator, by simp [hlc], hrc, h.lastEmitted,
      fun e he => (hla e he).clearItem, hra⟩
  · cases hbody
    exact ⟨h.comparator, hlc, by simp [hrc], h.lastEmitted,
      hla, fun e he => (hra e he).clearItem⟩

/-- Along every run of a new intersection, whatever its children give, each
key is strictly after the one before. -/
theorem run_isChain_lt {a : α} {b : β} {c : KeyOrderComparator} {keys : List DecodedDataStoreKey}
    {s' : IntersectOrderedKeyStream α β} (h : (stream A B).Run (newWithComparator a b c) keys s') :
    keys.IsChain fun x y => c.compareDataKeys x y = .lt :=
  LoopStream.run_isChain (L := loop A B) (I := fun last s => Safe c s last)
    (fun hinv hbody => loopBody_safe hinv hbody) (fun hinv hbody => loopBody_safe hinv hbody)
    (fun hinv hbody => loopBody_safe hinv hbody) h (safe_newWithComparator a b c)

end IntersectOrderedKeyStream

/-! ### Distinct -/

namespace DistinctOrderedKeyStream

variable {σ : Type} {P : KeyStream σ}

/-- One pass yields a key only strictly after the key given last, which it
records. -/
theorem loopBody_safe {c : KeyOrderComparator} {s : DistinctOrderedKeyStream σ}
    {last : Option DecodedDataStoreKey} {step : Step (DistinctOrderedKeyStream σ) DecodedDataStoreKey}
    (h : s.comparator = c ∧ s.lastEmitted = last) (hbody : loopBody P s = .ok step) :
    match step with
    | .stop s' | .skip s' => s'.comparator = c ∧ s'.lastEmitted = last
    | .yield k s' => (∀ e, last = some e → c.compareDataKeys e k = .lt) ∧
        s'.comparator = c ∧ s'.lastEmitted = some k := by
  simp only [loopBody, Except.bind_eq_ok_iff] at hbody
  obtain ⟨⟨next, inner⟩, -, hbody⟩ := hbody
  obtain ⟨hc, hlast⟩ := h
  cases next with
  | none =>
    cases hbody
    exact ⟨hc, hlast⟩
  | some k =>
    cases hl : s.lastEmitted with
    | none =>
      simp only [hl, Except.pure_eq_ok_iff] at hbody
      subst hbody
      refine ⟨fun e he => ?_, hc, rfl⟩
      rw [← hlast, hl] at he
      cases he
    | some l =>
      simp only [hl] at hbody
      split_ifs at hbody with hgt hlk
      · cases hbody
        exact ⟨hc, hl.symm.trans hlast⟩
      · cases hbody
        refine ⟨fun e he => ?_, hc, rfl⟩
        rw [← hlast, hl, Option.some.injEq] at he
        subst he
        rw [← hc]
        exact s.comparator.totalOrderOn.lt_of_ne_gt trivial trivial hgt hlk

/-- Along every run of a new distinct adapter, whatever its input gives, each
key is strictly after the one before. -/
theorem run_isChain_lt {inner : σ} {c : KeyOrderComparator} {keys : List DecodedDataStoreKey}
    {s' : DistinctOrderedKeyStream σ} (h : (stream P).Run (new inner c) keys s') :
    keys.IsChain fun x y => c.compareDataKeys x y = .lt :=
  LoopStream.run_isChain (L := loop P) (I := fun last s => s.comparator = c ∧ s.lastEmitted = last)
    (fun hinv hbody => loopBody_safe hinv hbody) (fun hinv hbody => loopBody_safe hinv hbody)
    (fun hinv hbody => (loopBody_safe hinv hbody).imp_right fun h => h) h ⟨rfl, rfl⟩

end DistinctOrderedKeyStream

/-! ### Flat merge -/

namespace FlatMergeOrderedKeyStream

variable {σ : Type} {P : KeyStream σ}

/-- The flat merge while it takes keys not before `b`: every entry and every
child is of the comparator `c` and bounded by `b`, every lookahead key has an
entry, and every child not `pending` a refresh holds a lookahead key unless
its stream has ended. -/
structure Bounded (c : KeyOrderComparator) (s : FlatMergeOrderedKeyStream σ)
    (b : Option DecodedDataStoreKey) (pending : Nat → Prop) : Prop where
  comparator : s.comparator = c
  heapComparator : ∀ e ∈ s.heap.items, e.comparator = c
  heapAbove : ∀ e ∈ s.heap.items, ∀ m, b = some m → c.compareDataKeys m e.key ≠ .gt
  childComparator : ∀ child ∈ s.children, child.state.comparator = c
  childAbove : ∀ child ∈ s.children, ∀ m, b = some m → child.state.Above m
  childHeap : ∀ {i child y}, s.children[i]? = some child → child.state.item = some y →
    (⟨y, i, c⟩ : KeyFlatMergeHeapEntry) ∈ s.heap.items
  settled : ∀ {i child}, s.children[i]? = some child → ¬ pending i →
    child.state.item = none → child.state.done = true

theorem Bounded.mono_pending {c : KeyOrderComparator} {s : FlatMergeOrderedKeyStream σ}
    {b : Option DecodedDataStoreKey} {pending pending' : Nat → Prop} (h : Bounded c s b pending)
    (hp : ∀ j, j < s.children.length → pending j → pending' j) : Bounded c s b pending' :=
  ⟨h.comparator, h.heapComparator, h.heapAbove, h.childComparator, h.childAbove, h.childHeap,
    fun hch hn => h.settled hch fun hj => hn (hp _ (List.getElem?_eq_some_iff.mp hch).1 hj)⟩

/-- Refreshing a child keeps the bound and settles the child. -/
theorem refreshChild_bounded {c : KeyOrderComparator} {s s' : FlatMergeOrderedKeyStream σ}
    {b : Option DecodedDataStoreKey} {pending : Nat → Prop} {i : Nat}
    (h : Bounded c s b pending) (hrefresh : refreshChild P s i = .ok s') :
    Bounded c s' b fun j => j ≠ i ∧ pending j := by
  unfold refreshChild at hrefresh
  rcases hchild : s.children[i]? with _ | child
  · rw [hchild] at hrefresh
    cases hrefresh
  rw [hchild] at hrefresh
  simp only [Except.bind_eq_ok_iff] at hrefresh
  obtain ⟨⟨state, stream⟩, hensure, hrefresh⟩ := hrefresh
  have hmem : child ∈ s.children := List.mem_of_getElem? hchild
  have hi : i < s.children.length := (List.getElem?_eq_some_iff.mp hchild).1
  obtain ⟨hsc, hss⟩ := StreamSideState.ensureItem_settled hensure
  rw [h.childComparator child hmem] at hsc
  have hsa : ∀ m, b = some m → state.Above m := fun m hm =>
    StreamSideState.ensureItem_above (h.childAbove child hmem m hm) hensure
  -- child `i` is replaced, the others are as they were
  have hchildren : ∀ {j ch}, (s.children.set i ⟨stream, state⟩)[j]? = some ch →
      (j = i ∧ ch = ⟨stream, state⟩) ∨ (j ≠ i ∧ s.children[j]? = some ch) := by
    intro j ch hch
    by_cases hj : j = i
    · subst hj
      rw [List.getElem?_set_self hi, Option.some.injEq] at hch
      exact .inl ⟨rfl, hch.symm⟩
    · rw [List.getElem?_set_ne (Ne.symm hj)] at hch
      exact .inr ⟨hj, hch⟩
  have hcomp : ∀ ch ∈ s.children.set i ⟨stream, state⟩, ch.state.comparator = c := by
    intro ch hch
    rcases List.mem_or_eq_of_mem_set hch with hch | rfl
    · exact h.childComparator ch hch
    · exact hsc
  have habove : ∀ ch ∈ s.children.set i ⟨stream, state⟩, ∀ m, b = some m → ch.state.Above m := by
    intro ch hch
    rcases List.mem_or_eq_of_mem_set hch with hch | rfl
    · exact h.childAbove ch hch
    · exact hsa
  have hsettled : ∀ {j ch}, (s.children.set i ⟨stream, state⟩)[j]? = some ch →
      ¬ (j ≠ i ∧ pending j) → ch.state.item = none → ch.state.done = true := by
    intro j ch hch hn hnone
    rcases hchildren hch with ⟨-, rfl⟩ | ⟨hj, hch⟩
    · exact hss hnone
    · exact h.settled hch (fun hp => hn ⟨hj, hp⟩) hnone
  cases hitem : state.item with
  | none =>
    rw [hitem] at hrefresh
    simp only [Except.pure_eq_ok_iff] at hrefresh
    subst hrefresh
    refine ⟨h.comparator, h.heapComparator, h.heapAbove, hcomp, habove,
      fun {j ch y} hch hy => ?_, hsettled⟩
    rcases hchildren hch with ⟨-, rfl⟩ | ⟨-, hch⟩
    · rw [hitem] at hy
      cases hy
    · exact h.childHeap hch hy
  | some key =>
    rw [hitem] at hrefresh
    simp only [Except.pure_eq_ok_iff] at hrefresh
    subst hrefresh
    -- the lookahead key ensured gets its entry
    refine ⟨h.comparator, fun e he => ?_, fun e he m hm => ?_, hcomp, habove,
      fun {j ch y} hch hy => ?_, hsettled⟩
    · rcases List.mem_cons.mp he with rfl | he
      · exact h.comparator
      · exact h.heapComparator e he
    · rcases List.mem_cons.mp he with rfl | he
      · rw [← hsc]
        exact (hsa m hm).1 key hitem
      · exact h.heapAbove e he m hm
    · rcases hchildren hch with ⟨rfl, rfl⟩ | ⟨-, hch⟩
      · rw [hitem, Option.some.injEq] at hy
        subst hy
        rw [← h.comparator]
        exact List.mem_cons_self
      · exact List.mem_cons_of_mem _ (h.childHeap hch hy)

/-- Consuming an entry takes its key from its child and keeps the bound. -/
theorem consumeEntry_bounded {c : KeyOrderComparator} {s s' : FlatMergeOrderedKeyStream σ}
    {b : Option DecodedDataStoreKey} {e : KeyFlatMergeHeapEntry} {k : DecodedDataStoreKey}
    (h : Bounded c s b fun _ => False)
    (hconsume : consumeEntry P { s with heap := ⟨s.heap.items.erase e⟩ } e = .ok (k, s')) :
    k = e.key ∧ Bounded c s' b fun _ => False := by
  unfold consumeEntry at hconsume
  dsimp only at hconsume
  rcases hchild : s.children[e.childIndex]? with _ | child
  · rw [hchild] at hconsume
    cases hconsume
  rw [hchild] at hconsume
  simp only [Except.bind_eq_ok_iff] at hconsume
  obtain ⟨u, hfail, hconsume⟩ := hconsume
  have hitem : child.state.item = some e.key := by
    by_contra hne
    rw [Except.failIf_of_pos hne] at hfail
    cases hfail
  rw [StreamSideState.takeItem_eq, hitem] at hconsume
  simp only [Except.bind_eq_ok_iff, Except.pure_eq_ok_iff, Prod.mk.injEq] at hconsume
  obtain ⟨refreshed, hrefresh, rfl, rfl⟩ := hconsume
  have hmem : child ∈ s.children := List.mem_of_getElem? hchild
  have hi : e.childIndex < s.children.length := (List.getElem?_eq_some_iff.mp hchild).1
  let cleared : KeyFlatMergeChild σ := ⟨child.stream, child.state.clearItem⟩
  -- the child gives up the entry's key and waits for its refresh
  let s₁ : FlatMergeOrderedKeyStream σ :=
    { s with heap := ⟨s.heap.items.erase e⟩, children := s.children.set e.childIndex cleared }
  have h₁ : Bounded c s₁ b fun j => j = e.childIndex := by
    refine ⟨h.comparator, fun e' he' => h.heapComparator e' (List.mem_of_mem_erase he'),
      fun e' he' => h.heapAbove e' (List.mem_of_mem_erase he'), fun ch hch => ?_,
      fun ch hch => ?_, fun {j ch y} hch hy => ?_, fun {j ch} hch hn hnone => ?_⟩
    · rcases List.mem_or_eq_of_mem_set hch with hch | rfl
      · exact h.childComparator ch hch
      · simpa [cleared] using h.childComparator child hmem
    · rcases List.mem_or_eq_of_mem_set hch with hch | rfl
      · exact h.childAbove ch hch
      · exact fun m hm => (h.childAbove child hmem m hm).clearItem
    · by_cases hj : j = e.childIndex
      · subst hj
        rw [List.getElem?_set_self hi, Option.some.injEq] at hch
        subst hch
        simp [cleared] at hy
      · rw [List.getElem?_set_ne (Ne.symm hj)] at hch
        refine (List.mem_erase_of_ne fun heq => hj ?_).mpr (h.childHeap hch hy)
        rw [← heq]
    · rw [List.getElem?_set_ne (Ne.symm hn)] at hch
      exact h.settled hch id hnone
  exact ⟨rfl, (refreshChild_bounded h₁ hrefresh).mono_pending fun j _ hj => hj.1 hj.2⟩

/-- The duplicate loop keeps the bound and leaves no entry holding the key
emitted on top. -/
theorem dedup_bounded {c : KeyOrderComparator} {s s' : FlatMergeOrderedKeyStream σ}
    {m : DecodedDataStoreKey} (h : Bounded c s (some m) fun _ => False)
    (hdedup : dedup P s m = .ok s') :
    Bounded c s' (some m) (fun _ => False) ∧
      ¬ (s'.heap.peek KeyFlatMergeHeapEntry.cmp).any (fun entry => decide (entry.key = m)) := by
  induction s using dedup.induct P m with
  | case1 s hpeek hpop =>
    rw [dedup, if_pos hpeek] at hdedup
    split at hdedup
    · cases hdedup
    · simp_all
  | case2 s hpeek duplicate heap hpop e hconsume =>
    rw [dedup_of_pop hpeek hpop, hconsume] at hdedup
    cases hdedup
  | case3 s hpeek duplicate heap hpop item mid hconsume ih =>
    rw [dedup_of_pop hpeek hpop, hconsume] at hdedup
    obtain ⟨-, rfl⟩ := BinaryHeap.pop_eq_some_iff.mp hpop
    exact ih (consumeEntry_bounded h hconsume).2 hdedup
  | case4 s hpeek =>
    rw [dedup_of_not_peek hpeek] at hdedup
    cases hdedup
    exact ⟨h, hpeek⟩

/-- The flat merge's safety invariant, indexed by the key it gave last: it
takes keys not before that key, its heap is strictly past it, and before
its children are refreshed it has given none. -/
structure Safe (c : KeyOrderComparator) (s : FlatMergeOrderedKeyStream σ)
    (last : Option DecodedDataStoreKey) : Prop where
  bounded : Bounded c s last fun _ => s.initialized = false
  heapPast : ∀ e ∈ s.heap.items, ∀ l, last = some l → c.compareDataKeys l e.key = .lt
  fresh : s.initialized = false → last = none

theorem safe_tryNewWithComparator {streams : List σ} {c : KeyOrderComparator}
    {s : FlatMergeOrderedKeyStream σ} (h : tryNewWithComparator streams c = .ok s) :
    Safe c s none := by
  simp only [tryNewWithComparator, Except.pure_eq_ok_iff] at h
  subst h
  refine ⟨⟨rfl, fun _ he => (by cases he), fun _ he => (by cases he), fun ch hch => ?_,
    fun _ _ _ hm => (by cases hm), fun {i ch y} hch hy => ?_, fun _ hn => absurd rfl hn⟩,
    fun _ he => (by cases he), fun _ => rfl⟩
  · obtain ⟨stream, -, rfl⟩ := List.mem_map.mp hch
    rfl
  · obtain ⟨stream, -, rfl⟩ := List.mem_map.mp (List.mem_of_getElem? hch)
    cases hy

/-- Refreshing every child keeps the invariant and settles every child. -/
theorem foldlM_refreshChild_bounded {c : KeyOrderComparator} {b : Option DecodedDataStoreKey} :
    ∀ (indices : List Nat) {s s' : FlatMergeOrderedKeyStream σ} {pending : Nat → Prop},
      Bounded c s b pending → indices.foldlM (refreshChild P) s = .ok s' →
      Bounded c s' b fun j => j ∉ indices ∧ pending j
  | [], s, s', pending, h, hfold => by
    simp only [List.foldlM_nil, Except.pure_eq_ok_iff] at hfold
    subst hfold
    exact h.mono_pending fun j _ hj => ⟨List.not_mem_nil, hj⟩
  | i :: indices, s, s', pending, h, hfold => by
    simp only [List.foldlM_cons, Except.bind_eq_ok_iff] at hfold
    obtain ⟨mid, hmid, hrest⟩ := hfold
    exact (foldlM_refreshChild_bounded indices (refreshChild_bounded h hmid) hrest).mono_pending
      fun j _ hj => ⟨by simp [hj.1, hj.2.1], hj.2.2⟩

theorem initializeHeads_safe {c : KeyOrderComparator} {s s' : FlatMergeOrderedKeyStream σ}
    {last : Option DecodedDataStoreKey} (h : Safe c s last) (hinit : initializeHeads P s = .ok s') :
    Safe c s' last ∧ s'.initialized = true := by
  unfold initializeHeads at hinit
  split_ifs at hinit with hready
  · simp only [Except.pure_eq_ok_iff] at hinit
    subst hinit
    exact ⟨h, hready⟩
  simp only [Except.bind_eq_ok_iff, Except.pure_eq_ok_iff] at hinit
  obtain ⟨mid, hmid, rfl⟩ := hinit
  simp only [Bool.not_eq_true] at hready
  obtain rfl := h.fresh hready
  obtain ⟨hlen, -, -⟩ := foldlM_refreshChild_measure _ hmid
  -- every child has been refreshed once
  have hb : Bounded c mid none fun _ => False :=
    (foldlM_refreshChild_bounded _ h.bounded hmid).mono_pending fun j hj hp =>
      hp.1 (List.mem_range.mpr (hlen ▸ hj))
  exact ⟨⟨⟨hb.comparator, hb.heapComparator, hb.heapAbove, hb.childComparator, hb.childAbove,
    hb.childHeap, fun hch _ => hb.settled hch id⟩, fun _ _ _ hl => (by cases hl),
    fun _ => rfl⟩, rfl⟩

/-- Once refreshed, the merge takes keys not before its top entry. -/
theorem bounded_top {c : KeyOrderComparator} {s : FlatMergeOrderedKeyStream σ}
    {last : Option DecodedDataStoreKey} {top : KeyFlatMergeHeapEntry} (h : Safe c s last)
    (hinit : s.initialized = true) (htop : s.heap.peek KeyFlatMergeHeapEntry.cmp = some top) :
    Bounded c s (some top.key) fun _ => False := by
  have hb := h.bounded
  have hle : ∀ e ∈ s.heap.items, c.compareDataKeys top.key e.key ≠ .gt := fun e he => by
    have := KeyFlatMergeHeapEntry.compareDataKeys_ne_gt_of_cmp
      (le_maxBy (KeyFlatMergeHeapEntry.cmp_totalOrderOn c) hb.heapComparator htop e he)
    rwa [hb.heapComparator e he] at this
  have hsettled : ∀ {j : Nat} {ch : KeyFlatMergeChild σ}, s.children[j]? = some ch →
      ch.state.item = none → ch.state.done = true := fun hch hnone => hb.settled hch (by simp [hinit]) hnone
  refine ⟨hb.comparator, hb.heapComparator, fun e he m hm => ?_, hb.childComparator,
    fun child hchild m hm => ?_, hb.childHeap, fun hch _ => hsettled hch⟩
  · cases hm
    exact hle e he
  · cases hm
    obtain ⟨j, hj⟩ := List.mem_iff_getElem?.mp hchild
    refine ⟨fun y hy => ?_, fun hnone hdone => ?_⟩
    · rw [hb.childComparator child hchild]
      exact hle _ (hb.childHeap hj hy)
    · rw [hsettled hj hnone] at hdone
      cases hdone

/-- With no entry holding `m` on top, every entry is strictly past `m`. -/
theorem safe_of_dedup {c : KeyOrderComparator} {s : FlatMergeOrderedKeyStream σ}
    {m : DecodedDataStoreKey} (h : Bounded c s (some m) fun _ => False)
    (hpeek : ¬ (s.heap.peek KeyFlatMergeHeapEntry.cmp).any (fun entry => decide (entry.key = m)))
    (hinit : s.initialized = true) : Safe c s (some m) := by
  refine ⟨h.mono_pending fun _ _ hp => hp.elim, fun e he l hl => ?_,
    fun hf => (by rw [hinit] at hf; cases hf)⟩
  cases hl
  obtain ⟨top, htop⟩ : ∃ top, s.heap.peek KeyFlatMergeHeapEntry.cmp = some top := by
    cases hp : s.heap.peek KeyFlatMergeHeapEntry.cmp with
    | none =>
      rw [BinaryHeap.peek, maxBy_eq_none_iff] at hp
      rw [hp] at he
      cases he
    | some top => exact ⟨top, rfl⟩
  have htopMem := BinaryHeap.mem_of_peek htop
  have hne : top.key ≠ m := fun heq => hpeek (by simp [htop, heq])
  -- the top is strictly past `m` and at or before every entry
  have hlt : c.compareDataKeys m top.key = .lt :=
    c.totalOrderOn.lt_of_ne_gt trivial trivial (h.heapAbove top htopMem m rfl) (Ne.symm hne)
  have hle : c.compareDataKeys top.key e.key ≠ .gt := by
    have := KeyFlatMergeHeapEntry.compareDataKeys_ne_gt_of_cmp
      (le_maxBy (KeyFlatMergeHeapEntry.cmp_totalOrderOn c) h.heapComparator htop e he)
    rwa [h.heapComparator e he] at this
  exact c.totalOrderOn.lt_of_lt_of_ne_gt trivial trivial trivial hlt hle

/-- One call keeps the invariant, and yields a key only strictly after the key
given last. -/
theorem nextKey_safe {c : KeyOrderComparator} {s s' : FlatMergeOrderedKeyStream σ}
    {last o : Option DecodedDataStoreKey} (h : Safe c s last) (hnext : nextKey P s = .ok (o, s')) :
    match o with
    | none => Safe c s' last
    | some k => (∀ l, last = some l → c.compareDataKeys l k = .lt) ∧ Safe c s' (some k) := by
  simp only [nextKey, Except.bind_eq_ok_iff] at hnext
  obtain ⟨ready, hready, hnext⟩ := hnext
  obtain ⟨hsafe, hinit⟩ := initializeHeads_safe h hready
  split at hnext
  · simp only [Except.pure_eq_ok_iff, Prod.mk.injEq] at hnext
    obtain ⟨rfl, rfl⟩ := hnext
    exact hsafe
  rename_i entry heap hpop
  simp only [Except.bind_eq_ok_iff, Except.pure_eq_ok_iff, Prod.mk.injEq] at hnext
  obtain ⟨⟨item, consumed⟩, hconsume, deduped, hdedup, rfl, rfl⟩ := hnext
  obtain ⟨hpeek, rfl⟩ := BinaryHeap.pop_eq_some_iff.mp hpop
  have hmem := BinaryHeap.mem_of_peek hpeek
  -- the top entry's key is taken, then every other entry holding it
  obtain ⟨rfl, hb⟩ := consumeEntry_bounded (bounded_top hsafe hinit hpeek) hconsume
  obtain ⟨hb', hpeek'⟩ := dedup_bounded hb hdedup
  obtain ⟨-, hinit₁, -⟩ := consumeEntry_measure hconsume
  obtain ⟨-, hinit₂, -⟩ := dedup_measure hdedup
  exact ⟨fun l hl => hsafe.heapPast entry hmem l hl,
    safe_of_dedup hb' hpeek' (hinit₂.trans (hinit₁.trans hinit))⟩

/-- Along every run of a new flat merge, whatever its children give, each key
is strictly after the one before. -/
theorem run_isChain_lt {streams : List σ} {c : KeyOrderComparator}
    {s s' : FlatMergeOrderedKeyStream σ} {keys : List DecodedDataStoreKey}
    (hnew : tryNewWithComparator streams c = .ok s) (h : (stream P).Run s keys s') :
    keys.IsChain fun x y => c.compareDataKeys x y = .lt :=
  PullStream.Run.isChain (I := fun last s => Safe c s last)
    (fun hinv hnext => nextKey_safe hinv hnext) (fun hinv hnext => nextKey_safe hinv hnext) h
    (safe_tryNewWithComparator hnew)

/-! ### A child out of order fails the flat merge

Every key of every child is pulled before the merge reports its end, and
each pull is checked against the key its child gave up before.  The merge is
read through the keys each child still has to give (`Tracks`), with no
assumption on their order: whenever the keys a child still has to give follow
on from its last, all of its keys did.  At the end nothing is left, so a
merge that drains without failing had children whose keys all followed on.
-/

/-- The flat merge read through the keys `rems` its children still have to give,
out of the keys `keyss` they had. -/
structure Tracks (P : KeyStream σ) (c : KeyOrderComparator)
    (keyss : List (List DecodedDataStoreKey)) (s : FlatMergeOrderedKeyStream σ)
    (rems : List (List DecodedDataStoreKey)) : Prop where
  length : s.children.length = rems.length
  keysLength : rems.length = keyss.length
  child : ∀ {i : Nat} {child rem}, s.children[i]? = some child → rems[i]? = some rem →
    child.state.Holds P child.stream rem ∧ child.state.ItemFollows
  chain : ∀ {i : Nat} {child rem keys}, s.children[i]? = some child → rems[i]? = some rem →
    keyss[i]? = some keys → child.state.Continues rem → keys.IsChain c.Follows

/-- Replacing one child by one that holds `rem'` and keeps the chain. -/
theorem Tracks.set {c : KeyOrderComparator} {keyss rems : List (List DecodedDataStoreKey)}
    {s s' : FlatMergeOrderedKeyStream σ} {i : Nat} {child' : KeyFlatMergeChild σ}
    {rem' : List DecodedDataStoreKey} (h : Tracks P c keyss s rems) (hi : i < s.children.length)
    (hchild : child'.state.Holds P child'.stream rem' ∧ child'.state.ItemFollows)
    (hchain : ∀ keys, keyss[i]? = some keys → child'.state.Continues rem' → keys.IsChain c.Follows)
    (hs' : s'.children = s.children.set i child') : Tracks P c keyss s' (rems.set i rem') := by
  have hi' : i < rems.length := h.length ▸ hi
  refine ⟨by simp [hs', h.length], by simp [h.keysLength], fun {j ch rem} hch hrem => ?_,
    fun {j ch rem keys} hch hrem hkeys hc => ?_⟩
  all_goals
    rw [hs'] at hch
    by_cases hj : j = i
  · subst hj
    rw [List.getElem?_set_self hi, Option.some.injEq] at hch
    rw [List.getElem?_set_self hi', Option.some.injEq] at hrem
    subst hch hrem
    exact hchild
  · rw [List.getElem?_set_ne (Ne.symm hj)] at hch hrem
    exact h.child hch hrem
  · subst hj
    rw [List.getElem?_set_self hi, Option.some.injEq] at hch
    rw [List.getElem?_set_self hi', Option.some.injEq] at hrem
    subst hch hrem
    exact hchain keys hkeys hc
  · rw [List.getElem?_set_ne (Ne.symm hj)] at hch hrem
    exact h.chain hch hrem hkeys hc

/-- A refresh that does not fail has pulled a key that follows on. -/
theorem refreshChild_tracks {c : KeyOrderComparator} {keyss rems : List (List DecodedDataStoreKey)}
    {s s' : FlatMergeOrderedKeyStream σ} {i : Nat} (h : Tracks P c keyss s rems)
    (hrefresh : refreshChild P s i = .ok s') : Tracks P c keyss s' rems := by
  unfold refreshChild at hrefresh
  rcases hchild : s.children[i]? with _ | child
  · rw [hchild] at hrefresh
    cases hrefresh
  rw [hchild] at hrefresh
  simp only [Except.bind_eq_ok_iff] at hrefresh
  obtain ⟨⟨state, stream⟩, hensure, hrefresh⟩ := hrefresh
  have hi : i < s.children.length := (List.getElem?_eq_some_iff.mp hchild).1
  obtain ⟨rem, hrem⟩ : ∃ rem, rems[i]? = some rem :=
    ⟨_, List.getElem?_eq_getElem (h.length ▸ hi)⟩
  obtain ⟨hholds, hfollows⟩ := h.child hchild hrem
  -- the pull did not fail, so the child holds the first of its keys
  have hstate : state = child.state.ensured rem ∧ state.Holds P stream rem ∧ state.ItemFollows := by
    rcases StreamSideState.ensureItem_cases hholds hfollows with ⟨e, herr, -⟩ |
      ⟨stream', hok, hh, hf⟩
    · rw [herr] at hensure
      cases hensure
    · rw [hok] at hensure
      simp only [Except.ok.injEq, Prod.mk.injEq] at hensure
      obtain ⟨rfl, rfl⟩ := hensure
      exact ⟨rfl, hh, hf⟩
  obtain ⟨hstate, hh, hf⟩ := hstate
  have h' : ∀ {s'' : FlatMergeOrderedKeyStream σ}, s''.children = s.children.set i ⟨stream, state⟩ →
      Tracks P c keyss s'' rems := fun hs'' => by
    have := h.set hi ⟨hh, hf⟩
      (fun keys hkeys hc => h.chain hchild hrem hkeys (by rw [hstate] at hc; exact hc)) hs''
    rwa [set_of_getElem?_eq hrem] at this
  split at hrefresh <;>
    · simp only [Except.pure_eq_ok_iff] at hrefresh
      subst hrefresh
      exact h' rfl

/-- Consuming an entry gives up the first key of its child. -/
theorem consumeEntry_tracks {c : KeyOrderComparator} {keyss rems : List (List DecodedDataStoreKey)}
    {s s' : FlatMergeOrderedKeyStream σ} {heap : BinaryHeap KeyFlatMergeHeapEntry}
    {e : KeyFlatMergeHeapEntry} {k : DecodedDataStoreKey} (h : Tracks P c keyss s rems)
    (hconsume : consumeEntry P { s with heap } e = .ok (k, s')) :
    ∃ rems', Tracks P c keyss s' rems' := by
  unfold consumeEntry at hconsume
  dsimp only at hconsume
  rcases hchild : s.children[e.childIndex]? with _ | child
  · rw [hchild] at hconsume
    cases hconsume
  rw [hchild] at hconsume
  simp only [Except.bind_eq_ok_iff] at hconsume
  obtain ⟨u, hfail, hconsume⟩ := hconsume
  have hitem : child.state.item = some e.key := by
    by_contra hne
    rw [Except.failIf_of_pos hne] at hfail
    cases hfail
  rw [StreamSideState.takeItem_eq, hitem] at hconsume
  simp only [Except.bind_eq_ok_iff, Except.pure_eq_ok_iff, Prod.mk.injEq] at hconsume
  obtain ⟨refreshed, hrefresh, -, rfl⟩ := hconsume
  have hi : e.childIndex < s.children.length := (List.getElem?_eq_some_iff.mp hchild).1
  obtain ⟨rem, hrem⟩ : ∃ rem, rems[e.childIndex]? = some rem :=
    ⟨_, List.getElem?_eq_getElem (h.length ▸ hi)⟩
  obtain ⟨hholds, hfollows⟩ := h.child hchild hrem
  obtain ⟨rest, rfl⟩ := StreamSideState.eq_cons_of_holds hholds hitem
  -- the child gives up its first key, which followed on when it was pulled
  let cleared : KeyFlatMergeChild σ := ⟨child.stream, child.state.clearItem⟩
  have h₁ : Tracks P c keyss { s with heap, children := s.children.set e.childIndex cleared }
      (rems.set e.childIndex rest) :=
    h.set hi ⟨StreamSideState.holds_clearItem hholds hitem, StreamSideState.itemFollows_clearItem _⟩
      (fun keys hkeys hc => h.chain hchild hrem hkeys
        ((StreamSideState.continues_clearItem_iff hfollows hitem).mp hc)) rfl
  exact ⟨_, refreshChild_tracks h₁ hrefresh⟩

theorem dedup_tracks {c : KeyOrderComparator} {keyss rems : List (List DecodedDataStoreKey)}
    {s s' : FlatMergeOrderedKeyStream σ} {m : DecodedDataStoreKey} (h : Tracks P c keyss s rems)
    (hdedup : dedup P s m = .ok s') : ∃ rems', Tracks P c keyss s' rems' := by
  induction s using dedup.induct P m generalizing rems with
  | case1 s hpeek hpop =>
    rw [dedup, if_pos hpeek] at hdedup
    split at hdedup
    · cases hdedup
    · simp_all
  | case2 s hpeek duplicate heap hpop e hconsume =>
    rw [dedup_of_pop hpeek hpop, hconsume] at hdedup
    cases hdedup
  | case3 s hpeek duplicate heap hpop item mid hconsume ih =>
    rw [dedup_of_pop hpeek hpop, hconsume] at hdedup
    obtain ⟨rems₁, h₁⟩ := consumeEntry_tracks h hconsume
    exact ih h₁ hdedup
  | case4 s hpeek =>
    rw [dedup_of_not_peek hpeek] at hdedup
    cases hdedup
    exact ⟨rems, h⟩

theorem foldlM_refreshChild_tracks {c : KeyOrderComparator}
    {keyss rems : List (List DecodedDataStoreKey)} :
    ∀ (indices : List Nat) {s s' : FlatMergeOrderedKeyStream σ}, Tracks P c keyss s rems →
      indices.foldlM (refreshChild P) s = .ok s' → Tracks P c keyss s' rems
  | [], s, s', h, hfold => by
    simp only [List.foldlM_nil, Except.pure_eq_ok_iff] at hfold
    exact hfold ▸ h
  | i :: indices, s, s', h, hfold => by
    simp only [List.foldlM_cons, Except.bind_eq_ok_iff] at hfold
    obtain ⟨mid, hmid, hrest⟩ := hfold
    exact foldlM_refreshChild_tracks indices (refreshChild_tracks h hmid) hrest

theorem initializeHeads_tracks {c : KeyOrderComparator} {keyss rems : List (List DecodedDataStoreKey)}
    {s s' : FlatMergeOrderedKeyStream σ} (h : Tracks P c keyss s rems)
    (hinit : initializeHeads P s = .ok s') : Tracks P c keyss s' rems := by
  unfold initializeHeads at hinit
  split_ifs at hinit
  · simp only [Except.pure_eq_ok_iff] at hinit
    exact hinit ▸ h
  simp only [Except.bind_eq_ok_iff, Except.pure_eq_ok_iff] at hinit
  obtain ⟨mid, hmid, rfl⟩ := hinit
  have h' := foldlM_refreshChild_tracks _ h hmid
  exact ⟨h'.length, h'.keysLength, h'.child, h'.chain⟩

/-- One call keeps the merge tracked, and a call that reports the end leaves
no child any key to give. -/
theorem nextKey_tracks {c : KeyOrderComparator} {keyss rems : List (List DecodedDataStoreKey)}
    {s s' : FlatMergeOrderedKeyStream σ} {last o : Option DecodedDataStoreKey}
    (h : Tracks P c keyss s rems) (hsafe : Safe c s last) (hnext : nextKey P s = .ok (o, s')) :
    ∃ rems', Tracks P c keyss s' rems' ∧ (o = none → ∀ rem ∈ rems', rem = []) := by
  simp only [nextKey, Except.bind_eq_ok_iff] at hnext
  obtain ⟨ready, hready, hnext⟩ := hnext
  have h₁ := initializeHeads_tracks h hready
  obtain ⟨hsafe₁, hinit⟩ := initializeHeads_safe hsafe hready
  split at hnext
  · -- an empty heap: every child has ended
    rename_i hpop
    simp only [Except.pure_eq_ok_iff, Prod.mk.injEq] at hnext
    obtain ⟨rfl, rfl⟩ := hnext
    refine ⟨rems, h₁, fun _ rem hrem => ?_⟩
    obtain ⟨i, hi⟩ := List.mem_iff_getElem?.mp hrem
    obtain ⟨child, hchild⟩ : ∃ child, ready.children[i]? = some child :=
      ⟨_, List.getElem?_eq_getElem (h₁.length ▸ (List.getElem?_eq_some_iff.mp hi).1)⟩
    have hempty := BinaryHeap.pop_eq_none_iff.mp hpop
    have hnone : child.state.item = none := by
      cases hitem : child.state.item with
      | none => rfl
      | some y =>
        have := hsafe₁.bounded.childHeap hchild hitem
        rw [hempty] at this
        cases this
    have hdone := hsafe₁.bounded.settled hchild (by simp [hinit]) hnone
    have hholds := (h₁.child hchild hi).1
    simp only [StreamSideState.Holds, hdone, if_true] at hholds
    exact hholds.2
  rename_i entry heap hpop
  simp only [Except.bind_eq_ok_iff, Except.pure_eq_ok_iff, Prod.mk.injEq] at hnext
  obtain ⟨⟨item, consumed⟩, hconsume, deduped, hdedup, rfl, rfl⟩ := hnext
  obtain ⟨rems₂, h₂⟩ := consumeEntry_tracks h₁ hconsume
  obtain ⟨rems₃, h₃⟩ := dedup_tracks h₂ hdedup
  exact ⟨rems₃, h₃, fun h => by cases h⟩

/-- A flat merge that drains without failing had children whose keys all
followed on. -/
theorem chain_of_drain {c : KeyOrderComparator} {keyss : List (List DecodedDataStoreKey)}
    {s : FlatMergeOrderedKeyStream σ} {zs : List DecodedDataStoreKey} :
    ∀ {rems last}, Tracks P c keyss s rems → Safe c s last → (stream P).drain s = .ok zs →
      ∀ keys ∈ keyss, keys.IsChain c.Follows := by
  induction s using PullStream.drain.induct (stream P) generalizing zs with
  | case1 s e hnext =>
    intro _ _ _ _ hdrain
    rw [PullStream.drain_of_next_error hnext] at hdrain
    cases hdrain
  | case2 s s' hnext =>
    intro rems last h hsafe _ keys hkeys
    obtain ⟨rems', h', hend⟩ := nextKey_tracks h hsafe hnext
    obtain ⟨i, hi⟩ := List.mem_iff_getElem?.mp hkeys
    have hlt : i < rems'.length := h'.keysLength ▸ (List.getElem?_eq_some_iff.mp hi).1
    obtain ⟨child, hchild⟩ : ∃ child, s'.children[i]? = some child :=
      ⟨_, List.getElem?_eq_getElem (h'.length ▸ hlt)⟩
    have hrem : rems'[i]? = some [] := by
      rw [List.getElem?_eq_getElem hlt, hend rfl _ (List.getElem_mem hlt)]
    exact h'.chain hchild hrem hi StreamSideState.continues_nil
  | case3 s k s' hnext ih =>
    intro rems last h hsafe hdrain
    rw [PullStream.drain_of_next_some hnext, Except.map_eq_ok_iff] at hdrain
    obtain ⟨rest, hrest, -⟩ := hdrain
    obtain ⟨rems', h', -⟩ := nextKey_tracks h hsafe hnext
    exact ih h' (nextKey_safe hsafe hnext).2 hrest

/-- A new flat merge is tracked through what its children drain to. -/
theorem tracks_new {streams : List σ} {keyss : List (List DecodedDataStoreKey)}
    (c : KeyOrderComparator) (hdrain : List.Forall₂ (fun t keys => P.drain t = .ok keys) streams keyss) :
    Tracks P c keyss ⟨streams.map (KeyFlatMergeChild.new · c), .new, c, false⟩ keyss where
  length := by simpa using hdrain.length_eq
  keysLength := rfl
  child {i} {child} {keys} hch hk := by
    obtain ⟨t, ht, rfl⟩ : ∃ t, streams[i]? = some t ∧ KeyFlatMergeChild.new t c = child := by
      simpa using hch
    exact ⟨⟨keys, forall₂_of_getElem? hdrain ht hk, rfl⟩, fun _ _ h => (by cases h)⟩
  chain {i} {child} {rem} {keys} hch hrem hk hc := by
    obtain ⟨t, -, rfl⟩ : ∃ t, streams[i]? = some t ∧ KeyFlatMergeChild.new t c = child := by
      simpa using hch
    rw [hrem, Option.some.injEq] at hk
    subst hk
    simpa [StreamSideState.Continues, KeyFlatMergeChild.new, StreamSideState.new] using hc

/-- A new flat merge one of whose children gives keys that do not follow on
fails. -/
theorem drain_error_of_not_chain {streams : List σ} {keyss : List (List DecodedDataStoreKey)}
    {c : KeyOrderComparator} {s : FlatMergeOrderedKeyStream σ}
    (hnew : tryNewWithComparator streams c = .ok s)
    (hdrain : List.Forall₂ (fun t keys => P.drain t = .ok keys) streams keyss)
    (hbad : ∃ keys ∈ keyss, ¬ keys.IsChain c.Follows) : ∃ e, (stream P).drain s = .error e := by
  cases hd : (stream P).drain s with
  | error e => exact ⟨e, rfl⟩
  | ok zs =>
    obtain ⟨keys, hkeys, hnc⟩ := hbad
    simp only [tryNewWithComparator, Except.pure_eq_ok_iff] at hnew
    subst hnew
    exact absurd (chain_of_drain (tracks_new c hdrain) (safe_tryNewWithComparator rfl) hd keys hkeys) hnc

end FlatMergeOrderedKeyStream

end IcyDb
