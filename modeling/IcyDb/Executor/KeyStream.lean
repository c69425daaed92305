import IcyDb.Key.DecodedKey
import IcyDb.Stream.Pull
import IcyDb.Store.OrderedOverlay
import IcyDb.Executor.GroupKey
import IcyDb.Order.BinaryHeap

/-!
# Ordered key streams

The executor combines streams of decoded data keys that each come in one
direction's order.  A binary merge and an intersection keep one lookahead key
per side in a `StreamSideState`, which checks every key it pulls against the
key it gave up last: a key of another entity, or one that moves against the
direction, is an invariant error.  The merge takes the smaller lookahead key,
drops the right one on a tie and suppresses a key equal to the last it
emitted; the intersection emits a key both sides hold and advances the
lagging side otherwise.  `DistinctOrderedKeyStream` drops a key equal to the
last it emitted and fails on one that moves backwards.

Each combinator is a pull stream over a state that holds its children's
states; its `next_key` loop is recursion on the pull-stream measures of the
children plus the number of lookahead keys held.  The execution-budget
charges, the count hints and the dedup counter of `DistinctOrderedKeyStream`
are not modelled; `strict_monotonicity` is set on construction and never
cleared, so the check is always made.

This file embeds `KeyOrderComparator` of `executor::stream::key::order`,
`StreamSideState`, `MergeOrderedKeyStream` and `IntersectOrderedKeyStream` of
`executor::stream::key::composite`, and `DistinctOrderedKeyStream` of
`executor::stream::key::distinct`.
-/

namespace IcyDb

open Pull

/-! ### The comparator -/

/-- `KeyOrderComparator`. -/
structure KeyOrderComparator where
  direction : Direction
deriving DecidableEq

namespace KeyOrderComparator

/-- `KeyOrderComparator::compare_data_keys`.  `compare_key_witnesses` makes the
same comparison on the `(entity, key)` witnesses, which are the decoded keys
themselves here. -/
def compareDataKeys (self : KeyOrderComparator) (left right : DecodedDataStoreKey) : Ordering :=
  match self.direction with
  | .asc => left.cmp right
  | .desc => right.cmp left

/-- `KeyOrderComparator::violates_monotonicity`. -/
def violatesMonotonicity (self : KeyOrderComparator) (previous current : PrimaryKeyValue) : Bool :=
  match self.direction with
  | .asc => previous.cmp current == .gt
  | .desc => current.cmp previous == .gt

end KeyOrderComparator

/-- The streams the combinators take: pull streams of decoded keys. -/
abbrev KeyStream (σ : Type) := PullStream σ InternalError DecodedDataStoreKey

/-! ### One side's lookahead -/

/-- `StreamSideState`: the lookahead key, whether the side's stream has ended,
and the witness of the key the side gave up last. -/
structure StreamSideState where
  item : Option DecodedDataStoreKey
  done : Bool
  lastKey : Option DecodedDataStoreKey
  comparator : KeyOrderComparator

namespace StreamSideState

/-- `StreamSideState::new`. -/
def new (comparator : KeyOrderComparator) : StreamSideState := ⟨none, false, none, comparator⟩

/-- `StreamSideState::validate_monotonicity`. -/
def validateMonotonicity (self : StreamSideState) (current : DecodedDataStoreKey) :
    Except InternalError Unit :=
  match self.lastKey with
  | none => pure ()
  | some previous =>
    if previous.entityTag ≠ current.entityTag then .error .queryExecutorInvariant
    else if self.comparator.violatesMonotonicity previous.primaryKeyValue current.primaryKeyValue
    then .error .queryExecutorInvariant
    else pure ()

/-- `StreamSideState::push_key`. -/
def pushKey (self : StreamSideState) (key : DecodedDataStoreKey) :
    Except InternalError StreamSideState := do
  self.validateMonotonicity key
  pure { self with item := some key }

/-- `StreamSideState::ensure_item`: pull when the side holds no key and its
stream has not ended. -/
def ensureItem {σ : Type} (P : KeyStream σ) (self : StreamSideState) (stream : σ) :
    Except InternalError (StreamSideState × σ) :=
  if self.done || self.item.isSome then pure (self, stream)
  else do
    let (next, stream) ← P.next stream
    match next with
    | some key => pure (← self.pushKey key, stream)
    | none => pure ({ self with done := true }, stream)

/-- `StreamSideState::take_item`. -/
def takeItem (self : StreamSideState) : Option DecodedDataStoreKey × StreamSideState :=
  match self.item with
  | none => (none, self)
  | some key => (some key, { self with item := none, lastKey := some key })

/-- `StreamSideState::clear_item`. -/
def clearItem (self : StreamSideState) : StreamSideState :=
  match self.item with
  | none => self
  | some key => { self with item := none, lastKey := some key }

/-- How many lookahead keys the side holds. -/
def pendingCount (self : StreamSideState) : Nat := self.item.toList.length

section Measure

variable {σ : Type} {P : KeyStream σ}

/-- Ensuring a lookahead key moves at most one key from the stream to the side. -/
theorem ensureItem_measure {side side' : StreamSideState} {stream stream' : σ}
    (h : side.ensureItem P stream = .ok (side', stream')) :
    P.measure stream' + side'.pendingCount ≤ P.measure stream + side.pendingCount := by
  unfold ensureItem at h
  split at h
  · cases h
    exact le_rfl
  · rename_i hpull
    simp only [Bool.or_eq_true, not_or, Bool.not_eq_true, Option.isSome_eq_false_iff,
      Option.isNone_iff_eq_none] at hpull
    rw [Except.bind_eq_ok_iff] at h
    obtain ⟨⟨next, pulled⟩, hnext, h⟩ := h
    cases next with
    | some key =>
      rw [Except.bind_eq_ok_iff] at h
      obtain ⟨pushed, hpush, h⟩ := h
      simp only [pushKey, Except.bind_eq_ok_iff, Except.pure_eq_ok_iff] at hpush h
      obtain ⟨-, -, rfl⟩ := hpush
      cases h
      have := P.measure_lt_of_some hnext
      simp only [pendingCount, hpull.2, Option.toList_some, Option.toList_none, List.length_cons,
        List.length_nil]
      omega
    | none =>
      simp only [Except.pure_eq_ok_iff] at h
      cases h
      have := P.measure_le_of_none hnext
      simp only [pendingCount, hpull.2, Option.toList_none, List.length_nil]
      omega

/-- Taking the lookahead key leaves the side as clearing it does. -/
theorem takeItem_eq (side : StreamSideState) : side.takeItem = (side.item, side.clearItem) := by
  unfold takeItem clearItem
  split <;> simp_all

@[simp] theorem clearItem_item (side : StreamSideState) : side.clearItem.item = none := by
  unfold clearItem
  split <;> simp_all

@[simp] theorem pendingCount_clearItem (side : StreamSideState) :
    side.clearItem.pendingCount = 0 := by
  simp [pendingCount]

theorem pendingCount_of_item {side : StreamSideState} {key : DecodedDataStoreKey}
    (h : side.item = some key) : side.pendingCount = 1 := by
  simp [pendingCount, h]

end Measure

end StreamSideState

/-- `OrderedPairState`: the lookahead of both sides. -/
structure OrderedPairState where
  left : StreamSideState
  right : StreamSideState

namespace OrderedPairState

/-- `OrderedPairState::new`. -/
def new (comparator : KeyOrderComparator) : OrderedPairState :=
  ⟨.new comparator, .new comparator⟩

/-- How many lookahead keys the pair holds. -/
def pendingCount (pair : OrderedPairState) : Nat :=
  pair.left.pendingCount + pair.right.pendingCount

/-- The choice of `MergeOrderedKeyStream::next_key` between the lookahead
keys: on equal keys the right one is dropped and the left one taken,
otherwise the one first in the direction is taken. -/
def mergeChoice (comparator : KeyOrderComparator) (pair : OrderedPairState) :
    Option DecodedDataStoreKey × OrderedPairState :=
  match pair.left.item, pair.right.item with
  | some leftKey, some rightKey =>
    if leftKey = rightKey then
      (pair.left.takeItem.1, ⟨pair.left.takeItem.2, pair.right.clearItem⟩)
    else if comparator.compareDataKeys leftKey rightKey = .lt then
      (pair.left.takeItem.1, ⟨pair.left.takeItem.2, pair.right⟩)
    else (pair.right.takeItem.1, ⟨pair.left, pair.right.takeItem.2⟩)
  | some _, none => (pair.left.takeItem.1, ⟨pair.left.takeItem.2, pair.right⟩)
  | none, some _ => (pair.right.takeItem.1, ⟨pair.left, pair.right.takeItem.2⟩)
  | none, none => (none, pair)

/-- A choice never adds a lookahead key, and one that yields a key gives one
up. -/
theorem mergeChoice_pendingCount {comparator : KeyOrderComparator}
    {pair pair' : OrderedPairState} {next : Option DecodedDataStoreKey}
    (h : pair.mergeChoice comparator = (next, pair')) :
    pair'.pendingCount + next.toList.length ≤ pair.pendingCount := by
  unfold mergeChoice at h
  rcases hl : pair.left.item with _ | l <;> rcases hr : pair.right.item with _ | r <;>
    simp only [hl, hr] at h
  · cases h
    simp
  all_goals
    (try split_ifs at h) <;>
      simp only [StreamSideState.takeItem_eq, Prod.mk.injEq] at h <;>
      obtain ⟨rfl, rfl⟩ := h <;>
      simp [pendingCount, StreamSideState.pendingCount, hl, hr]

end OrderedPairState

/-! ### Merge -/

/-- `MergeOrderedKeyStream`. -/
structure MergeOrderedKeyStream (α β : Type) where
  left : α
  right : β
  pair : OrderedPairState
  comparator : KeyOrderComparator
  lastEmitted : Option DecodedDataStoreKey

namespace MergeOrderedKeyStream

variable {α β : Type} (A : KeyStream α) (B : KeyStream β)

/-- `MergeOrderedKeyStream::new_with_comparator`. -/
def newWithComparator (left : α) (right : β) (comparator : KeyOrderComparator) :
    MergeOrderedKeyStream α β :=
  ⟨left, right, .new comparator, comparator, none⟩

/-- One pass of the `next_key` loop. -/
def loopBody (s : MergeOrderedKeyStream α β) :
    Except InternalError (Step (MergeOrderedKeyStream α β) DecodedDataStoreKey) := do
  -- maintain one lookahead key on each side
  let (leftSide, left) ← s.pair.left.ensureItem A s.left
  let (rightSide, right) ← s.pair.right.ensureItem B s.right
  if leftSide.item.isNone && rightSide.item.isNone then
    pure (.stop { s with left, right, pair := ⟨leftSide, rightSide⟩ })
  else
    match OrderedPairState.mergeChoice s.comparator ⟨leftSide, rightSide⟩ with
    | (none, pair) => pure (.stop { s with left, right, pair })
    | (some next, pair) =>
      -- suppress duplicate output keys from overlapping streams
      if s.lastEmitted = some next then pure (.skip { s with left, right, pair })
      else pure (.yield next { s with left, right, pair, lastEmitted := some next })

/-- What bounds the loop: the children's measures and the lookahead keys held. -/
def measure (s : MergeOrderedKeyStream α β) : Nat :=
  A.measure s.left + B.measure s.right + s.pair.pendingCount

/-- Both ensures together move keys from the children to the lookahead without
raising the measure. -/
theorem ensureItems_measure {s : MergeOrderedKeyStream α β} {leftSide rightSide : StreamSideState}
    {left : α} {right : β} (hl : s.pair.left.ensureItem A s.left = .ok (leftSide, left))
    (hr : s.pair.right.ensureItem B s.right = .ok (rightSide, right)) :
    A.measure left + B.measure right + leftSide.pendingCount + rightSide.pendingCount ≤
      measure A B s := by
  have := StreamSideState.ensureItem_measure hl
  have := StreamSideState.ensureItem_measure hr
  simp only [measure, OrderedPairState.pendingCount]
  omega

/-- A pass that stops does not raise the measure, and one that goes round again
or yields lowers it. -/
theorem loopBody_measure {s : MergeOrderedKeyStream α β}
    {step : Step (MergeOrderedKeyStream α β) DecodedDataStoreKey}
    (h : loopBody A B s = .ok step) :
    match step with
    | .stop s' => measure A B s' ≤ measure A B s
    | .yield _ s' | .skip s' => measure A B s' < measure A B s := by
  simp only [loopBody, Except.bind_eq_ok_iff] at h
  obtain ⟨⟨leftSide, left⟩, hl, ⟨rightSide, right⟩, hr, h⟩ := h
  have hensure := ensureItems_measure A B hl hr
  simp only [measure, OrderedPairState.pendingCount] at hensure
  split_ifs at h with hnone
  · cases h
    simp only [measure, OrderedPairState.pendingCount]
    omega
  · split at h <;> rename_i hchoice
    · cases h
      have := OrderedPairState.mergeChoice_pendingCount hchoice
      simp only [measure, OrderedPairState.pendingCount, Option.toList_none, List.length_nil]
        at this ⊢
      omega
    · have := OrderedPairState.mergeChoice_pendingCount hchoice
      simp only [OrderedPairState.pendingCount, Option.toList_some, List.length_singleton]
        at this
      split_ifs at h <;> cases h <;> simp only [measure, OrderedPairState.pendingCount] <;> omega

/-- The merge as a loop. -/
def loop : LoopStream (MergeOrderedKeyStream α β) InternalError DecodedDataStoreKey where
  body := loopBody A B
  measure := measure A B
  skip_lt h := loopBody_measure A B h
  yield_lt h := loopBody_measure A B h
  stop_le h := loopBody_measure A B h

/-- `MergeOrderedKeyStream::next_key`. -/
def nextKey (s : MergeOrderedKeyStream α β) :
    Except InternalError (Option DecodedDataStoreKey × MergeOrderedKeyStream α β) :=
  (loop A B).next s

/-- The merge as a key stream. -/
def stream : KeyStream (MergeOrderedKeyStream α β) := (loop A B).stream

end MergeOrderedKeyStream

/-! ### Flat merge -/

/-- `KeyFlatMergeChild`: one child stream and its lookahead. -/
structure KeyFlatMergeChild (σ : Type) where
  stream : σ
  state : StreamSideState

/-- `KeyFlatMergeChild::new`. -/
def KeyFlatMergeChild.new {σ : Type} (stream : σ) (comparator : KeyOrderComparator) :
    KeyFlatMergeChild σ :=
  ⟨stream, .new comparator⟩

/-- `KeyFlatMergeHeapEntry`: a child's lookahead key, as its witness, and the
child's index. -/
structure KeyFlatMergeHeapEntry where
  key : DecodedDataStoreKey
  childIndex : Nat
  comparator : KeyOrderComparator
deriving DecidableEq

/-- `Ord for KeyFlatMergeHeapEntry`: both parts reversed, so that the greatest
entry holds the key first in the direction and, among equal keys, the lowest
child index. -/
def KeyFlatMergeHeapEntry.cmp (self other : KeyFlatMergeHeapEntry) : Ordering :=
  (self.comparator.compareDataKeys other.key self.key).then (compare other.childIndex self.childIndex)

/-- `FlatMergeOrderedKeyStream`: the children, a heap of their lookahead keys,
and whether the first lookahead of every child has been pulled. -/
structure FlatMergeOrderedKeyStream (σ : Type) where
  children : List (KeyFlatMergeChild σ)
  heap : Comparator.BinaryHeap KeyFlatMergeHeapEntry
  comparator : KeyOrderComparator
  initialized : Bool

/-- A sum of measures over a list after one member is replaced. -/
theorem sum_map_set {β : Type} (f : β → Nat) :
    ∀ {l : List β} {i : Nat} {x y : β}, l[i]? = some y →
      ((l.set i x).map f).sum + f y = (l.map f).sum + f x
  | [], _, _, _, h => by cases h
  | _ :: _, 0, _, _, h => by
    simp only [List.getElem?_cons_zero, Option.some.injEq] at h
    subst h
    simp only [List.set_cons_zero, List.map_cons, List.sum_cons]
    omega
  | _ :: _, i + 1, x, _, h => by
    simp only [List.getElem?_cons_succ] at h
    have := sum_map_set f (x := x) h
    simp only [List.set_cons_succ, List.map_cons, List.sum_cons]
    omega

namespace FlatMergeOrderedKeyStream

open Comparator

variable {σ : Type} (P : KeyStream σ)

/-- `FlatMergeOrderedKeyStream::try_new_with_comparator`.  Its budget charge
and allocations are not modelled, so it does not fail here. -/
def tryNewWithComparator (streams : List σ) (comparator : KeyOrderComparator) :
    Except InternalError (FlatMergeOrderedKeyStream σ) :=
  pure ⟨streams.map (KeyFlatMergeChild.new · comparator), .new, comparator, false⟩

/-- `FlatMergeOrderedKeyStream::refresh_child`: ensure the child's lookahead and
push it. -/
def refreshChild (self : FlatMergeOrderedKeyStream σ) (childIndex : Nat) :
    Except InternalError (FlatMergeOrderedKeyStream σ) :=
  match self.children[childIndex]? with
  | none => .error .executorInvariant
  | some child => do
    let (state, stream) ← child.state.ensureItem P child.stream
    let self := { self with children := self.children.set childIndex ⟨stream, state⟩ }
    match state.item with
    | none => pure self
    | some key => pure { self with heap := self.heap.push ⟨key, childIndex, self.comparator⟩ }

/-- `FlatMergeOrderedKeyStream::initialize`: refresh every child once. -/
def initializeHeads (self : FlatMergeOrderedKeyStream σ) :
    Except InternalError (FlatMergeOrderedKeyStream σ) :=
  if self.initialized then pure self
  else do
    let self ← (List.range self.children.length).foldlM (refreshChild P) self
    pure { self with initialized := true }

/-- `FlatMergeOrderedKeyStream::consume_entry`: take the key of a popped entry
from its child, which must hold it, and refresh the child. -/
def consumeEntry (self : FlatMergeOrderedKeyStream σ) (entry : KeyFlatMergeHeapEntry) :
    Except InternalError (DecodedDataStoreKey × FlatMergeOrderedKeyStream σ) :=
  match self.children[entry.childIndex]? with
  | none => .error .executorInvariant
  | some child => do
    Except.failIf (child.state.item ≠ some entry.key) .executorInvariant
    match child.state.takeItem with
    | (none, _) => .error .executorInvariant
    | (some item, state) =>
      let self ← refreshChild P
        { self with children := self.children.set entry.childIndex ⟨child.stream, state⟩ }
        entry.childIndex
      pure (item, self)

/-- What bounds the loops: the children's measures and the entries held. -/
def measureCore (self : FlatMergeOrderedKeyStream σ) : Nat :=
  (self.children.map fun child => P.measure child.stream).sum + self.heap.items.length

/-- What bounds the stream: before initialization each child may still push
one entry. -/
def measure (self : FlatMergeOrderedKeyStream σ) : Nat :=
  measureCore P self + if self.initialized then 0 else self.children.length

section Measure

variable {P}

/-- Refreshing a child pushes at most one entry, and none beyond the key it
pulls when the child held none. -/
theorem refreshChild_measure {self self' : FlatMergeOrderedKeyStream σ} {childIndex : Nat}
    (h : refreshChild P self childIndex = .ok self') :
    self'.children.length = self.children.length ∧ self'.initialized = self.initialized ∧
      measureCore P self' ≤ measureCore P self + 1 ∧
      ((∀ child, self.children[childIndex]? = some child → child.state.item = none) →
        measureCore P self' ≤ measureCore P self) := by
  unfold refreshChild at h
  rcases hchild : self.children[childIndex]? with _ | child
  · rw [hchild] at h
    cases h
  rw [hchild] at h
  simp only [Except.bind_eq_ok_iff] at h
  obtain ⟨⟨state, stream⟩, hensure, h⟩ := h
  have hm := StreamSideState.ensureItem_measure hensure
  have hsum := sum_map_set (fun child : KeyFlatMergeChild σ => P.measure child.stream)
    (x := ⟨stream, state⟩) hchild
  simp only [StreamSideState.pendingCount] at hm
  have hone : child.state.item.toList.length ≤ 1 := by cases child.state.item <;> simp
  -- the entry pushed is the lookahead ensured, counted by the side's pending count
  cases hitem : state.item with
  | none =>
    rw [hitem] at h
    simp only [Except.pure_eq_ok_iff] at h
    subst h
    simp only [hitem, Option.toList_none, List.length_nil, Nat.add_zero] at hm
    refine ⟨List.length_set, rfl, ?_, fun hnone => ?_⟩
    · simp only [measureCore] at hsum ⊢
      omega
    · simp only [hnone child rfl, Option.toList_none, List.length_nil, Nat.add_zero] at hm
      simp only [measureCore] at hsum ⊢
      omega
  | some key =>
    rw [hitem] at h
    simp only [Except.pure_eq_ok_iff] at h
    subst h
    simp only [hitem, Option.toList_some, List.length_singleton] at hm
    refine ⟨List.length_set, rfl, ?_, fun hnone => ?_⟩
    · simp only [measureCore, BinaryHeap.push, List.length_cons] at hsum ⊢
      omega
    · simp only [hnone child rfl, Option.toList_none, List.length_nil, Nat.add_zero] at hm
      simp only [measureCore, BinaryHeap.push, List.length_cons] at hsum ⊢
      omega

/-- Consuming an entry never raises the measure: the key taken leaves room for
the one pulled after it. -/
theorem consumeEntry_measure {self self' : FlatMergeOrderedKeyStream σ}
    {entry : KeyFlatMergeHeapEntry} {item : DecodedDataStoreKey}
    (h : consumeEntry P self entry = .ok (item, self')) :
    self'.children.length = self.children.length ∧ self'.initialized = self.initialized ∧
      measureCore P self' ≤ measureCore P self := by
  unfold consumeEntry at h
  rcases hchild : self.children[entry.childIndex]? with _ | child
  · rw [hchild] at h
    cases h
  rw [hchild] at h
  simp only [Except.bind_eq_ok_iff] at h
  obtain ⟨-, -, h⟩ := h
  rw [StreamSideState.takeItem_eq] at h
  rcases hitem : child.state.item with _ | key
  · rw [hitem] at h
    cases h
  rw [hitem] at h
  simp only [Except.bind_eq_ok_iff, Except.pure_eq_ok_iff] at h
  obtain ⟨cleared, hrefresh, -, rfl⟩ := h
  obtain ⟨hlen, hinit, -, hle⟩ := refreshChild_measure hrefresh
  have hsum := sum_map_set (fun child : KeyFlatMergeChild σ => P.measure child.stream)
    (x := ⟨child.stream, child.state.clearItem⟩) hchild
  refine ⟨by simpa using hlen, hinit, ?_⟩
  have := hle fun child' hchild' => by
    rw [List.getElem?_set_self (List.getElem?_eq_some_iff.mp hchild).1, Option.some.injEq] at hchild'
    subst hchild'
    exact StreamSideState.clearItem_item child.state
  simp only [measureCore] at hsum this ⊢
  omega

end Measure

set_option linter.unusedVariables false in
/-- The duplicate loop of `next_key`: pop and consume every entry whose key is
the key emitted. -/
def dedup (self : FlatMergeOrderedKeyStream σ) (emitted : DecodedDataStoreKey) :
    Except InternalError (FlatMergeOrderedKeyStream σ) :=
  if (self.heap.peek KeyFlatMergeHeapEntry.cmp).any (fun entry => decide (entry.key = emitted)) then
    match hpop : self.heap.pop KeyFlatMergeHeapEntry.cmp with
    | none => .error .executorInvariant
    | some (duplicate, heap) =>
      match hconsume : consumeEntry P { self with heap } duplicate with
      | .error e => .error e
      | .ok (_, self') => dedup self' emitted
  else pure self
termination_by measureCore P self
decreasing_by
  obtain ⟨-, -, hle⟩ := consumeEntry_measure hconsume
  obtain ⟨hpeek, rfl⟩ := BinaryHeap.pop_eq_some_iff.mp hpop
  have hmem := BinaryHeap.mem_of_peek hpeek
  have hlen := List.length_erase_of_mem hmem
  have hpos := List.length_pos_of_mem hmem
  simp only [measureCore] at hle ⊢
  omega

/-- `FlatMergeOrderedKeyStream::next_key`: pop the entry first in the
direction, take its key from its child, and consume every other entry holding
the same key. -/
def nextKey (self : FlatMergeOrderedKeyStream σ) :
    Except InternalError (Option DecodedDataStoreKey × FlatMergeOrderedKeyStream σ) := do
  let self ← initializeHeads P self
  match self.heap.pop KeyFlatMergeHeapEntry.cmp with
  | none => pure (none, self)
  | some (entry, heap) =>
    let (next, self) ← consumeEntry P { self with heap } entry
    let self ← dedup P self next
    pure (some next, self)

section Measure

variable {P}

theorem foldlM_refreshChild_measure :
    ∀ (indices : List Nat) {self self' : FlatMergeOrderedKeyStream σ},
      indices.foldlM (refreshChild P) self = .ok self' →
      self'.children.length = self.children.length ∧ self'.initialized = self.initialized ∧
        measureCore P self' ≤ measureCore P self + indices.length
  | [], self, self', h => by
    simp only [List.foldlM_nil, Except.pure_eq_ok_iff] at h
    subst h
    exact ⟨rfl, rfl, Nat.le_add_right _ _⟩
  | i :: indices, self, self', h => by
    simp only [List.foldlM_cons, Except.bind_eq_ok_iff] at h
    obtain ⟨mid, hmid, hrest⟩ := h
    obtain ⟨hlen, hinit, hle, -⟩ := refreshChild_measure hmid
    obtain ⟨hlen', hinit', hle'⟩ := foldlM_refreshChild_measure indices hrest
    refine ⟨hlen'.trans hlen, hinit'.trans hinit, ?_⟩
    simp only [List.length_cons]
    omega

/-- Initializing pushes at most one entry per child, which the flag had
counted. -/
theorem initializeHeads_measure {self self' : FlatMergeOrderedKeyStream σ}
    (h : initializeHeads P self = .ok self') :
    self'.initialized = true ∧ self'.children.length = self.children.length ∧
      measure P self' ≤ measure P self := by
  unfold initializeHeads at h
  split_ifs at h with hinit
  · simp only [Except.pure_eq_ok_iff] at h
    subst h
    exact ⟨hinit, rfl, le_rfl⟩
  · simp only [Except.bind_eq_ok_iff, Except.pure_eq_ok_iff] at h
    obtain ⟨mid, hmid, rfl⟩ := h
    obtain ⟨hlen, -, hle⟩ := foldlM_refreshChild_measure _ hmid
    refine ⟨rfl, hlen, ?_⟩
    simp only [Bool.not_eq_true] at hinit
    simp only [measure, measureCore, List.length_range, hinit, Bool.false_eq_true, if_true,
      if_false, Nat.add_zero] at hle ⊢
    omega

theorem dedup_of_not_peek {self : FlatMergeOrderedKeyStream σ} {emitted : DecodedDataStoreKey}
    (h : ¬ (self.heap.peek KeyFlatMergeHeapEntry.cmp).any (fun entry => decide (entry.key = emitted))) :
    dedup P self emitted = .ok self := by
  rw [dedup, if_neg h]
  rfl

theorem dedup_of_pop {self : FlatMergeOrderedKeyStream σ} {emitted : DecodedDataStoreKey}
    {duplicate : KeyFlatMergeHeapEntry} {heap : BinaryHeap KeyFlatMergeHeapEntry}
    (hpeek : (self.heap.peek KeyFlatMergeHeapEntry.cmp).any (fun entry => decide (entry.key = emitted)))
    (hpop : self.heap.pop KeyFlatMergeHeapEntry.cmp = some (duplicate, heap)) :
    dedup P self emitted = (consumeEntry P { self with heap } duplicate).bind fun r => dedup P r.2 emitted := by
  rw [dedup, if_pos hpeek]
  split
  · simp_all
  · rename_i duplicate' heap' hpop'
    rw [hpop] at hpop'
    obtain ⟨rfl, rfl⟩ := Prod.mk.inj (Option.some.inj hpop')
    split <;> simp_all [Except.bind]

theorem dedup_measure {self self' : FlatMergeOrderedKeyStream σ} {emitted : DecodedDataStoreKey}
    (h : dedup P self emitted = .ok self') :
    self'.children.length = self.children.length ∧ self'.initialized = self.initialized ∧
      measureCore P self' ≤ measureCore P self := by
  induction self using dedup.induct P emitted with
  | case1 self hpeek hpop =>
    rw [dedup, if_pos hpeek] at h
    split at h
    · cases h
    · simp_all
  | case2 self hpeek duplicate heap hpop e hconsume =>
    rw [dedup_of_pop hpeek hpop, hconsume] at h
    cases h
  | case3 self hpeek duplicate heap hpop item mid hconsume ih =>
    rw [dedup_of_pop hpeek hpop, hconsume] at h
    obtain ⟨hlen, hinit, hle⟩ := ih h
    obtain ⟨hlen', hinit', hle'⟩ := consumeEntry_measure hconsume
    obtain ⟨hpeek', rfl⟩ := BinaryHeap.pop_eq_some_iff.mp hpop
    have hmem := BinaryHeap.mem_of_peek hpeek'
    have hlenHeap := List.length_erase_of_mem hmem
    refine ⟨hlen.trans hlen', hinit.trans hinit', ?_⟩
    simp only [measureCore] at hle hle' ⊢
    omega
  | case4 self hpeek =>
    rw [dedup_of_not_peek hpeek] at h
    cases h
    exact ⟨rfl, rfl, le_rfl⟩

/-- A call that yields a key lowers the measure, and one that reports the end
does not raise it. -/
theorem nextKey_measure {self self' : FlatMergeOrderedKeyStream σ} {next : Option DecodedDataStoreKey}
    (h : nextKey P self = .ok (next, self')) :
    measure P self' + next.toList.length ≤ measure P self := by
  simp only [nextKey, Except.bind_eq_ok_iff] at h
  obtain ⟨ready, hready, h⟩ := h
  obtain ⟨hinit, -, hle⟩ := initializeHeads_measure hready
  split at h
  · simp only [Except.pure_eq_ok_iff, Prod.mk.injEq] at h
    obtain ⟨rfl, rfl⟩ := h
    simpa using hle
  · rename_i entry heap hpop
    simp only [Except.bind_eq_ok_iff, Except.pure_eq_ok_iff, Prod.mk.injEq] at h
    obtain ⟨⟨item, consumed⟩, hconsume, deduped, hdedup, rfl, rfl⟩ := h
    obtain ⟨-, hinit₁, hle₁⟩ := consumeEntry_measure hconsume
    obtain ⟨-, hinit₂, hle₂⟩ := dedup_measure hdedup
    obtain ⟨hpeek, rfl⟩ := BinaryHeap.pop_eq_some_iff.mp hpop
    have hmem := BinaryHeap.mem_of_peek hpeek
    have hlenHeap := List.length_erase_of_mem hmem
    have hpos := List.length_pos_of_mem hmem
    simp only [measure, measureCore, hinit, hinit₁, hinit₂, if_true, Nat.add_zero,
      Option.toList_some, List.length_singleton] at hle hle₁ hle₂ ⊢
    omega

end Measure

/-- The flat merge as a key stream. -/
def stream : KeyStream (FlatMergeOrderedKeyStream σ) where
  next := nextKey P
  measure := measure P
  measure_lt_of_some h := Nat.lt_of_succ_le (by simpa using nextKey_measure h)
  measure_le_of_none h := by simpa using nextKey_measure h

end FlatMergeOrderedKeyStream

/-! ### Intersection -/

/-- `IntersectOrderedKeyStream`. -/
structure IntersectOrderedKeyStream (α β : Type) where
  left : α
  right : β
  pair : OrderedPairState
  comparator : KeyOrderComparator
  lastEmitted : Option DecodedDataStoreKey

namespace IntersectOrderedKeyStream

variable {α β : Type} (A : KeyStream α) (B : KeyStream β)

/-- `IntersectOrderedKeyStream::new_with_comparator`. -/
def newWithComparator (left : α) (right : β) (comparator : KeyOrderComparator) :
    IntersectOrderedKeyStream α β :=
  ⟨left, right, .new comparator, comparator, none⟩

/-- One pass of the `next_key` loop. -/
def loopBody (s : IntersectOrderedKeyStream α β) :
    Except InternalError (Step (IntersectOrderedKeyStream α β) DecodedDataStoreKey) :=
  -- once either child is exhausted no further output is possible
  if s.pair.left.done || s.pair.right.done then pure (.stop s)
  else do
    let (leftSide, left) ← s.pair.left.ensureItem A s.left
    let (rightSide, right) ← s.pair.right.ensureItem B s.right
    match leftSide.item, rightSide.item with
    | some leftKey, some rightKey =>
      if leftKey = rightKey then
        match leftSide.takeItem with
        | (none, leftSide) => pure (.stop { s with left, right, pair := ⟨leftSide, rightSide⟩ })
        | (some next, leftSide) =>
          let pair : OrderedPairState := ⟨leftSide, rightSide.clearItem⟩
          -- defensively suppress duplicate outputs
          if s.lastEmitted = some next then pure (.skip { s with left, right, pair })
          else pure (.yield next { s with left, right, pair, lastEmitted := some next })
      else if s.comparator.compareDataKeys leftKey rightKey = .lt then
        pure (.skip { s with left, right, pair := ⟨leftSide.clearItem, rightSide⟩ })
      else pure (.skip { s with left, right, pair := ⟨leftSide, rightSide.clearItem⟩ })
    | _, _ => pure (.stop { s with left, right, pair := ⟨leftSide, rightSide⟩ })

/-- What bounds the loop: the children's measures and the lookahead keys held. -/
def measure (s : IntersectOrderedKeyStream α β) : Nat :=
  A.measure s.left + B.measure s.right + s.pair.pendingCount

theorem loopBody_measure {s : IntersectOrderedKeyStream α β}
    {step : Step (IntersectOrderedKeyStream α β) DecodedDataStoreKey}
    (h : loopBody A B s = .ok step) :
    match step with
    | .stop s' => measure A B s' ≤ measure A B s
    | .yield _ s' | .skip s' => measure A B s' < measure A B s := by
  unfold loopBody at h
  split_ifs at h with hdone
  · cases h
    exact le_rfl
  simp only [Except.bind_eq_ok_iff] at h
  obtain ⟨⟨leftSide, left⟩, hl, ⟨rightSide, right⟩, hr, h⟩ := h
  have := StreamSideState.ensureItem_measure hl
  have := StreamSideState.ensureItem_measure hr
  simp only [measure, OrderedPairState.pendingCount]
  rcases hleft : leftSide.item with _ | leftKey <;> rcases hright : rightSide.item with _ | rightKey <;>
    simp only [hleft, hright] at h
  all_goals try (cases h; simp only; omega)
  have hleftCount := StreamSideState.pendingCount_of_item hleft
  have hrightCount := StreamSideState.pendingCount_of_item hright
  split_ifs at h
  · simp only [StreamSideState.takeItem_eq, hleft] at h
    split_ifs at h <;> cases h <;> simp only [StreamSideState.pendingCount_clearItem] <;> omega
  all_goals cases h; simp only [StreamSideState.pendingCount_clearItem]; omega

/-- The intersection as a loop. -/
def loop : LoopStream (IntersectOrderedKeyStream α β) InternalError DecodedDataStoreKey where
  body := loopBody A B
  measure := measure A B
  skip_lt h := loopBody_measure A B h
  yield_lt h := loopBody_measure A B h
  stop_le h := loopBody_measure A B h

/-- `IntersectOrderedKeyStream::next_key`. -/
def nextKey (s : IntersectOrderedKeyStream α β) :
    Except InternalError (Option DecodedDataStoreKey × IntersectOrderedKeyStream α β) :=
  (loop A B).next s

/-- The intersection as a key stream. -/
def stream : KeyStream (IntersectOrderedKeyStream α β) := (loop A B).stream

end IntersectOrderedKeyStream

/-! ### Distinct -/

/-- `DistinctOrderedKeyStream`. -/
structure DistinctOrderedKeyStream (σ : Type) where
  inner : σ
  lastEmitted : Option DecodedDataStoreKey
  comparator : KeyOrderComparator

namespace DistinctOrderedKeyStream

variable {σ : Type} (P : KeyStream σ)

/-- `DistinctOrderedKeyStream::new`. -/
def new (inner : σ) (comparator : KeyOrderComparator) : DistinctOrderedKeyStream σ :=
  ⟨inner, none, comparator⟩

/-- One pass of the `next_key` loop: the comparator enforces the order of the
input, and key equality decides what is suppressed. -/
def loopBody (s : DistinctOrderedKeyStream σ) :
    Except InternalError (Step (DistinctOrderedKeyStream σ) DecodedDataStoreKey) := do
  let (next, inner) ← P.next s.inner
  match next with
  | none => pure (.stop { s with inner })
  | some next =>
    match s.lastEmitted with
    | some last =>
      if s.comparator.compareDataKeys last next = .gt then .error .queryExecutorInvariant
      else if last = next then pure (.skip { s with inner })
      else pure (.yield next { s with inner, lastEmitted := some next })
    | none => pure (.yield next { s with inner, lastEmitted := some next })

theorem loopBody_measure {s : DistinctOrderedKeyStream σ}
    {step : Step (DistinctOrderedKeyStream σ) DecodedDataStoreKey}
    (h : loopBody P s = .ok step) :
    match step with
    | .stop s' => P.measure s'.inner ≤ P.measure s.inner
    | .yield _ s' | .skip s' => P.measure s'.inner < P.measure s.inner := by
  simp only [loopBody, Except.bind_eq_ok_iff] at h
  obtain ⟨⟨next, inner⟩, hnext, h⟩ := h
  cases next with
  | none =>
    cases h
    exact P.measure_le_of_none hnext
  | some next =>
    have hlt := P.measure_lt_of_some hnext
    cases hlast : s.lastEmitted with
    | none =>
      simp only [hlast, Except.pure_eq_ok_iff] at h
      subst h
      exact hlt
    | some last =>
      simp only [hlast] at h
      split_ifs at h <;> cases h <;> exact hlt

/-- The distinct adapter as a loop. -/
def loop : LoopStream (DistinctOrderedKeyStream σ) InternalError DecodedDataStoreKey where
  body := loopBody P
  measure s := P.measure s.inner
  skip_lt h := loopBody_measure P h
  yield_lt h := loopBody_measure P h
  stop_le h := loopBody_measure P h

/-- `DistinctOrderedKeyStream::next_key`. -/
def nextKey (s : DistinctOrderedKeyStream σ) :
    Except InternalError (Option DecodedDataStoreKey × DistinctOrderedKeyStream σ) :=
  (loop P).next s

/-- The distinct adapter as a key stream. -/
def stream : KeyStream (DistinctOrderedKeyStream σ) := (loop P).stream

end DistinctOrderedKeyStream

end IcyDb
