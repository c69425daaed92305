import IcyDb.Executor.KeyStreamOrder

/-!
# What the flat merge computes

A flat merge is read through the keys each child still has to give
(`Holds`): every child holds the first of them as its lookahead once it has
been refreshed, and the heap holds exactly one entry per lookahead key.
Under the heap's order the greatest entry holds a key first in the direction
among all lookahead keys, hence at or before every key still to come.

`next_key` takes that key from its child and then consumes every entry
holding the same key, so after a call no child has the key left.  Draining
the merge therefore gives every key of every child once, strictly in the
direction; from `try_new_with_comparator` the first call refreshes every
child, and the merge drains to the union of what its children drain to.
-/

namespace IcyDb

open Pull Comparator

namespace KeyFlatMergeHeapEntry

/-- The heap's order is a total order on the entries of one comparator. -/
theorem cmp_totalOrderOn (c : KeyOrderComparator) :
    TotalOrderOn KeyFlatMergeHeapEntry.cmp fun e => e.comparator = c := by
  have h := TotalOrderOn.then (S := fun e : KeyFlatMergeHeapEntry => e.comparator = c)
    KeyFlatMergeHeapEntry.key KeyFlatMergeHeapEntry.childIndex c.totalOrderOn.flip
    (TotalOrderOn.of_compare_map (S := fun _ => True) id (fun _ _ _ _ => rfl)
      (fun _ _ _ _ h => h)).flip
    (fun a b ha hb hkey hindex => by
      obtain ⟨_, _, _⟩ := a
      obtain ⟨_, _, _⟩ := b
      simp_all)
  exact h.congr fun a b ha _ => by simp [cmp, ha]

/-- An entry at or above another holds a key at or before the other's. -/
theorem compareDataKeys_ne_gt_of_cmp {a b : KeyFlatMergeHeapEntry} (h : b.cmp a ≠ .gt) :
    b.comparator.compareDataKeys a.key b.key ≠ .gt := by
  intro hgt
  apply h
  simp [cmp, hgt]

end KeyFlatMergeHeapEntry

namespace FlatMergeOrderedKeyStream

variable {σ : Type} {P : KeyStream σ}

/-- One child read through the keys it still has to give. -/
structure ChildHolds (P : KeyStream σ) (c : KeyOrderComparator) (child : KeyFlatMergeChild σ)
    (keys : List DecodedDataStoreKey) : Prop where
  holds : child.state.Holds P child.stream keys
  follows : child.state.ItemFollows
  continues : child.state.Continues keys
  comparator : child.state.comparator = c

/-- The flat merge read through the keys its children still have to give:
the children that are `ready` hold the first of their keys as lookahead, the
others hold none yet, and the heap holds one entry per lookahead key. -/
structure Holds (P : KeyStream σ) (s : FlatMergeOrderedKeyStream σ)
    (keyss : List (List DecodedDataStoreKey)) (ready : Nat → Prop) : Prop where
  length : s.children.length = keyss.length
  child : ∀ {i : Nat} {child keys}, s.children[i]? = some child → keyss[i]? = some keys →
    ChildHolds P s.comparator child keys
  ensured : ∀ {i : Nat} {child keys}, s.children[i]? = some child → keyss[i]? = some keys →
    ready i → child.state.item = keys.head?
  fresh : ∀ {i : Nat} {child}, s.children[i]? = some child → ¬ ready i → child.state.item = none
  heapMem : ∀ e, e ∈ s.heap.items ↔
    e.comparator = s.comparator ∧ ∃ child, s.children[e.childIndex]? = some child ∧
      child.state.item = some e.key
  heapNodup : s.heap.items.Nodup

/-- The heap after one child is replaced, read entry by entry. -/
theorem heapMem_set {s : FlatMergeOrderedKeyStream σ} {i : Nat} {child : KeyFlatMergeChild σ}
    {heap : BinaryHeap KeyFlatMergeHeapEntry} (hi : i < s.children.length)
    (hmem : ∀ e, e ∈ s.heap.items ↔ e.comparator = s.comparator ∧
      ∃ child, s.children[e.childIndex]? = some child ∧ child.state.item = some e.key)
    (hheap : ∀ e, e ∈ heap.items ↔ (e.childIndex ≠ i ∧ e ∈ s.heap.items) ∨
      (e.childIndex = i ∧ e.comparator = s.comparator ∧ child.state.item = some e.key)) :
    ∀ e, e ∈ heap.items ↔ e.comparator = s.comparator ∧
      ∃ child', (s.children.set i child)[e.childIndex]? = some child' ∧
        child'.state.item = some e.key := by
  intro e
  rw [hheap]
  by_cases he : e.childIndex = i
  · simp [he, List.getElem?_set_self hi]
  · simp [he, List.getElem?_set_ne (Ne.symm he), hmem]

/-- The entries of a child that holds no lookahead key: none. -/
theorem not_mem_heap_of_item_none {s : FlatMergeOrderedKeyStream σ} {keyss ready} {i : Nat}
    {child : KeyFlatMergeChild σ} (h : Holds P s keyss ready) (hchild : s.children[i]? = some child)
    (hnone : child.state.item = none) : ∀ e ∈ s.heap.items, e.childIndex ≠ i := by
  intro e he hidx
  obtain ⟨-, child', hchild', hitem⟩ := (h.heapMem e).mp he
  rw [hidx, hchild, Option.some.injEq] at hchild'
  subst hchild'
  rw [hnone] at hitem
  cases hitem

/-- Refreshing a child that holds no lookahead key leaves it holding the first
of its keys, with an entry for it on the heap. -/
theorem refreshChild_of_holds {s : FlatMergeOrderedKeyStream σ} {keyss ready} {i : Nat}
    (h : Holds P s keyss ready) (hi : i < keyss.length)
    (hnone : ∀ child, s.children[i]? = some child → child.state.item = none) :
    ∃ s', refreshChild P s i = .ok s' ∧ Holds P s' keyss (fun j => j = i ∨ ready j) ∧
      s'.comparator = s.comparator ∧ s'.initialized = s.initialized := by
  have hi' : i < s.children.length := h.length ▸ hi
  obtain ⟨child, hchild⟩ : ∃ child, s.children[i]? = some child :=
    ⟨_, List.getElem?_eq_getElem hi'⟩
  obtain ⟨keys, hkeys⟩ : ∃ keys, keyss[i]? = some keys := ⟨_, List.getElem?_eq_getElem hi⟩
  have hc := h.child hchild hkeys
  have hitem := hnone child hchild
  have hnotin := not_mem_heap_of_item_none h hchild hitem
  obtain ⟨stream, hensure, hholds, hfollows⟩ :=
    StreamSideState.ensureItem_of_continues hc.holds hc.follows hc.continues
  let child' : KeyFlatMergeChild σ := ⟨stream, child.state.ensured keys⟩
  have hc' : ChildHolds P s.comparator child' keys :=
    ⟨hholds, hfollows, hc.continues, hc.comparator⟩
  -- what every child other than `i` satisfies is left as it was
  have hchildren : ∀ {j : Nat} {ch keys'}, (s.children.set i child')[j]? = some ch →
      keyss[j]? = some keys' → ChildHolds P s.comparator ch keys' ∧
        (j = i ∨ ready j → ch.state.item = keys'.head?) ∧
        (¬ (j = i ∨ ready j) → ch.state.item = none) := by
    intro j ch keys' hch hkeys'
    by_cases hj : j = i
    · subst hj
      rw [List.getElem?_set_self hi', Option.some.injEq] at hch
      rw [hkeys, Option.some.injEq] at hkeys'
      subst hch hkeys'
      exact ⟨hc', fun _ => rfl, fun hn => absurd (.inl rfl) hn⟩
    · rw [List.getElem?_set_ne (Ne.symm hj)] at hch
      refine ⟨h.child hch hkeys', fun hr => h.ensured hch hkeys' (hr.resolve_left hj), fun hn => ?_⟩
      exact h.fresh hch fun hr => hn (.inr hr)
  cases hhead : keys.head? with
  | none =>
    refine ⟨{ s with children := s.children.set i child' }, ?_, ?_, rfl, rfl⟩
    · simp [refreshChild, hchild, hensure, hhead, child', pure, Except.pure]
    refine ⟨by simp [h.length], fun hch hk => (hchildren hch hk).1,
      fun hch hk => (hchildren hch hk).2.1, fun {j} {ch} hch hn => ?_,
      heapMem_set hi' h.heapMem fun e => ?_, h.heapNodup⟩
    · obtain ⟨keys', hk⟩ : ∃ keys', keyss[j]? = some keys' := by
        have := (List.getElem?_eq_some_iff.mp hch).1
        exact ⟨_, List.getElem?_eq_getElem (by simpa [h.length] using this)⟩
      exact (hchildren hch hk).2.2 hn
    · simp only [child', StreamSideState.ensured_item, hhead, reduceCtorEq, and_false, or_false]
      exact ⟨fun he => ⟨hnotin e he, he⟩, fun he => he.2⟩
  | some key =>
    let entry : KeyFlatMergeHeapEntry := ⟨key, i, s.comparator⟩
    refine ⟨{ s with children := s.children.set i child', heap := s.heap.push entry }, ?_, ?_,
      rfl, rfl⟩
    · simp [refreshChild, hchild, hensure, hhead, child', entry, pure, Except.pure]
    refine ⟨by simp [h.length], fun hch hk => (hchildren hch hk).1,
      fun hch hk => (hchildren hch hk).2.1, fun {j} {ch} hch hn => ?_,
      heapMem_set hi' h.heapMem fun e => ?_, ?_⟩
    · obtain ⟨keys', hk⟩ : ∃ keys', keyss[j]? = some keys' := by
        have := (List.getElem?_eq_some_iff.mp hch).1
        exact ⟨_, List.getElem?_eq_getElem (by simpa [h.length] using this)⟩
      exact (hchildren hch hk).2.2 hn
    · simp only [BinaryHeap.push, List.mem_cons, child', StreamSideState.ensured_item, hhead,
        Option.some.injEq]
      constructor
      · rintro (rfl | he)
        · exact .inr ⟨rfl, rfl, rfl⟩
        · exact .inl ⟨hnotin e he, he⟩
      · rintro (⟨-, he⟩ | ⟨hidx, hcomp, hkey⟩)
        · exact .inr he
        · left
          obtain ⟨_, _, _⟩ := e
          simp_all [entry]
    · exact List.nodup_cons.mpr ⟨fun he => hnotin entry he rfl, h.heapNodup⟩

/-- Which children count as refreshed matters only among the children. -/
theorem Holds.mono_ready {s : FlatMergeOrderedKeyStream σ} {keyss} {ready ready' : Nat → Prop}
    (h : Holds P s keyss ready) (hr : ∀ j, j < s.children.length → (ready j ↔ ready' j)) :
    Holds P s keyss ready' where
  length := h.length
  child := h.child
  ensured hch hk hr' := h.ensured hch hk ((hr _ (List.getElem?_eq_some_iff.mp hch).1).mpr hr')
  fresh hch hn := h.fresh hch fun hr' => hn ((hr _ (List.getElem?_eq_some_iff.mp hch).1).mp hr')
  heapMem := h.heapMem
  heapNodup := h.heapNodup

/-- A child's keys never go down. -/
theorem ChildHolds.pairwise {c : KeyOrderComparator} {child : KeyFlatMergeChild σ}
    {keys : List DecodedDataStoreKey} (h : ChildHolds P c child keys) :
    keys.Pairwise fun a b => c.compareDataKeys a b ≠ .gt := by
  have hchain : keys.IsChain child.state.comparator.Follows :=
    (List.isChain_append.mp h.continues).2.1
  rw [h.comparator] at hchain
  exact KeyOrderComparator.pairwise_of_isChain_follows hchain

/-- The greatest entry of the heap holds a key at or before every key the
children still have to give. -/
theorem top_le {s : FlatMergeOrderedKeyStream σ} {keyss} {top : KeyFlatMergeHeapEntry}
    (h : Holds P s keyss fun _ => True) (hpeek : s.heap.peek KeyFlatMergeHeapEntry.cmp = some top) :
    ∀ keys ∈ keyss, ∀ k ∈ keys, s.comparator.compareDataKeys top.key k ≠ .gt := by
  have hcomp : ∀ e ∈ s.heap.items, e.comparator = s.comparator := fun e he => ((h.heapMem e).mp he).1
  have hge := le_maxBy (KeyFlatMergeHeapEntry.cmp_totalOrderOn s.comparator) hcomp hpeek
  intro keys hkeys k hk
  obtain ⟨j, hj, rfl⟩ := List.getElem_of_mem hkeys
  have hj' : j < s.children.length := h.length ▸ hj
  have hchild := List.getElem?_eq_getElem hj'
  have hc := h.child hchild (List.getElem?_eq_getElem hj)
  -- the child's first key has an entry, which the top is at or above
  obtain ⟨head, rest, hcons⟩ : ∃ head rest, keyss[j] = head :: rest := by
    cases hks : keyss[j] with
    | nil => rw [hks] at hk; cases hk
    | cons head rest => exact ⟨head, rest, rfl⟩
  have hitem := h.ensured hchild (List.getElem?_eq_getElem hj) trivial
  rw [hcons] at hitem hc
  have hentry : (⟨head, j, s.comparator⟩ : KeyFlatMergeHeapEntry) ∈ s.heap.items :=
    (h.heapMem _).mpr ⟨rfl, _, hchild, hitem⟩
  have htop_head : s.comparator.compareDataKeys top.key head ≠ .gt :=
    KeyFlatMergeHeapEntry.compareDataKeys_ne_gt_of_cmp (hge _ hentry)
  rw [hcons] at hk
  rcases List.mem_cons.mp hk with rfl | hk
  · exact htop_head
  · exact s.comparator.totalOrderOn.le_trans _ _ _ trivial trivial trivial htop_head
      (List.rel_of_pairwise_cons hc.pairwise hk)

/-- An entry's key is the first key its child still has to give. -/
theorem keys_of_mem_heap {s : FlatMergeOrderedKeyStream σ} {keyss} {e : KeyFlatMergeHeapEntry}
    (h : Holds P s keyss fun _ => True) (he : e ∈ s.heap.items) :
    ∃ rest, keyss[e.childIndex]? = some (e.key :: rest) := by
  obtain ⟨-, child, hchild, hitem⟩ := (h.heapMem e).mp he
  have hi : e.childIndex < keyss.length := h.length ▸ (List.getElem?_eq_some_iff.mp hchild).1
  obtain ⟨keys, hkeys⟩ : ∃ keys, keyss[e.childIndex]? = some keys :=
    ⟨_, List.getElem?_eq_getElem hi⟩
  have hhead := h.ensured hchild hkeys trivial
  rw [hitem] at hhead
  cases keys with
  | nil => cases hhead
  | cons k rest => exact ⟨rest, by rw [hkeys, Option.some.injEq, Option.some.inj hhead]⟩

/-- Whether the children have been refreshed is not part of what is held. -/
theorem Holds.setInitialized {s : FlatMergeOrderedKeyStream σ} {keyss} {ready : Nat → Prop}
    (h : Holds P s keyss ready) (b : Bool) : Holds P { s with initialized := b } keyss ready :=
  ⟨h.length, h.child, h.ensured, h.fresh, h.heapMem, h.heapNodup⟩

/-- A popped entry's child gives up the entry's key, which is the first of its
keys, and is refreshed: the merge then holds the same keys less that one. -/
theorem consumeEntry_of_holds {s : FlatMergeOrderedKeyStream σ} {keyss}
    {e : KeyFlatMergeHeapEntry} (h : Holds P s keyss fun _ => True) (he : e ∈ s.heap.items) :
    ∃ rest s', keyss[e.childIndex]? = some (e.key :: rest) ∧
      consumeEntry P { s with heap := ⟨s.heap.items.erase e⟩ } e = .ok (e.key, s') ∧
      Holds P s' (keyss.set e.childIndex rest) (fun _ => True) ∧
      s'.comparator = s.comparator ∧ s'.initialized = s.initialized := by
  obtain ⟨hcomp, child, hchild, hitem⟩ := (h.heapMem e).mp he
  set i := e.childIndex with hi_def
  have hi' : i < s.children.length := (List.getElem?_eq_some_iff.mp hchild).1
  have hi : i < keyss.length := h.length ▸ hi'
  -- the child holds the first of its keys, which is the entry's
  obtain ⟨rest, hkeys⟩ := keys_of_mem_heap h he
  have hc := h.child hchild hkeys
  let cleared : KeyFlatMergeChild σ := ⟨child.stream, child.state.clearItem⟩
  let s₁ : FlatMergeOrderedKeyStream σ :=
    { s with heap := ⟨s.heap.items.erase e⟩, children := s.children.set i cleared }
  -- the entry is the only one of its child
  have hone : ∀ e' ∈ s.heap.items, e'.childIndex = i → e' = e := by
    intro e' he' hidx
    obtain ⟨hcomp', child', hchild', hitem'⟩ := (h.heapMem e').mp he'
    rw [hidx, hchild, Option.some.injEq] at hchild'
    subst hchild'
    rw [hitem, Option.some.injEq] at hitem'
    obtain ⟨_, _, _⟩ := e
    obtain ⟨_, _, _⟩ := e'
    simp_all
  have h₁ : Holds P s₁ (keyss.set i rest) fun j => j ≠ i := by
    refine ⟨by simp [s₁, h.length], fun {j} {ch} {keys'} hch hk => ?_, fun {j} {ch} {keys'} hch hk hj => ?_,
      fun {j} {ch} hch hj => ?_, heapMem_set hi' h.heapMem fun e' => ?_, h.heapNodup.erase e⟩
    · by_cases hj : j = i
      · subst hj
        rw [List.getElem?_set_self hi', Option.some.injEq] at hch
        rw [List.getElem?_set_self hi, Option.some.injEq] at hk
        subst hch hk
        exact ⟨StreamSideState.holds_clearItem hc.holds hitem,
          StreamSideState.itemFollows_clearItem _,
          (StreamSideState.continues_clearItem_iff hc.follows hitem).mpr hc.continues,
          by simp [cleared, s₁, hc.comparator]⟩
      · rw [List.getElem?_set_ne (Ne.symm hj)] at hch hk
        exact h.child hch hk
    · rw [List.getElem?_set_ne (Ne.symm hj)] at hch hk
      exact h.ensured hch hk trivial
    · simp only [ne_eq, not_not] at hj
      subst hj
      rw [List.getElem?_set_self hi', Option.some.injEq] at hch
      subst hch
      exact StreamSideState.clearItem_item _
    · simp only [s₁, List.Nodup.mem_erase_iff h.heapNodup, cleared, StreamSideState.clearItem_item,
        reduceCtorEq, and_false, or_false]
      constructor
      · rintro ⟨hne, he'⟩
        exact ⟨fun hidx => hne (hone e' he' hidx), he'⟩
      · rintro ⟨hidx, he'⟩
        exact ⟨fun heq => hidx (heq ▸ rfl), he'⟩
  obtain ⟨s', hrefresh, h', hcomp', hinit'⟩ :=
    refreshChild_of_holds h₁ (by simpa using hi) fun ch hch => by
      rw [List.getElem?_set_self hi', Option.some.injEq] at hch
      subst hch
      exact StreamSideState.clearItem_item _
  refine ⟨rest, s', hkeys, ?_, h'.mono_ready fun j _ => by simp [Classical.em], hcomp', hinit'⟩
  rw [consumeEntry]
  dsimp only
  rw [← hi_def, hchild]
  simp only [ne_eq, not_true_eq_false, not_false_eq_true, hitem, Except.failIf_of_not,
    Except.ok_bind, StreamSideState.takeItem_eq]
  exact (Except.bind_eq_ok_iff).mpr ⟨s', hrefresh, rfl⟩

/-- Setting a member to what it already is leaves the list as it was. -/
theorem set_of_getElem?_eq {α : Type} {l : List α} {i : Nat} {a : α}
    (h : l[i]? = some a) : l.set i a = l := by
  obtain ⟨hi, rfl⟩ := List.getElem?_eq_some_iff.mp h
  exact List.set_getElem_self hi

/-- Replacing a member by one with the same image leaves the image of the
list as it was. -/
theorem map_set_of_eq {α β : Type} {f : α → β} {l : List α} {i : Nat} {a b : α}
    (h : l[i]? = some a) (hab : f b = f a) : (l.set i b).map f = l.map f := by
  rw [List.map_set, hab]
  exact set_of_getElem?_eq (by simp [h])

/-- With no entry holding the key emitted, no child has that key left. -/
theorem not_mem_of_not_peek {s : FlatMergeOrderedKeyStream σ} {keyss} {m : DecodedDataStoreKey}
    (h : Holds P s keyss fun _ => True)
    (hge : ∀ keys ∈ keyss, ∀ k ∈ keys, s.comparator.compareDataKeys m k ≠ .gt)
    (hpeek : ¬ (s.heap.peek KeyFlatMergeHeapEntry.cmp).any (fun entry => decide (entry.key = m))) :
    ∀ keys ∈ keyss, m ∉ keys := by
  intro keys hkeys hm
  cases htop : s.heap.peek KeyFlatMergeHeapEntry.cmp with
  | none =>
    -- an empty heap: no child holds a lookahead key, so none has keys left
    have hempty : s.heap.items = [] := by simpa [BinaryHeap.peek, maxBy_eq_none_iff] using htop
    obtain ⟨j, hj, rfl⟩ := List.getElem_of_mem hkeys
    have hchild := List.getElem?_eq_getElem (h.length ▸ hj : j < s.children.length)
    cases hks : keyss[j] with
    | nil => rw [hks] at hm; cases hm
    | cons k rest =>
      have hitem := h.ensured hchild (List.getElem?_eq_getElem hj) trivial
      rw [hks] at hitem
      have := (h.heapMem ⟨k, j, s.comparator⟩).mpr ⟨rfl, _, hchild, hitem⟩
      rw [hempty] at this
      cases this
  | some top =>
    rw [htop] at hpeek
    simp only [Option.any_some, decide_eq_true_eq] at hpeek
    -- the top key is at or before `m`, and `m` at or before the top key
    obtain ⟨rest, hrest⟩ := keys_of_mem_heap h (BinaryHeap.mem_of_peek htop)
    have hmtop := hge _ (List.mem_of_getElem? hrest) top.key List.mem_cons_self
    have htopm := top_le h htop keys hkeys m hm
    exact hpeek (s.comparator.totalOrderOn.eq_of_ne_gt_of_ne_gt trivial trivial htopm hmtop)

/-- The duplicate loop takes the key emitted off every child that still has
it. -/
theorem dedup_of_holds {s : FlatMergeOrderedKeyStream σ} {keyss} {m : DecodedDataStoreKey}
    (h : Holds P s keyss fun _ => True)
    (hge : ∀ keys ∈ keyss, ∀ k ∈ keys, s.comparator.compareDataKeys m k ≠ .gt) :
    ∃ s', dedup P s m = .ok s' ∧
      Holds P s' (keyss.map fun keys => keys.filter fun k => k ≠ m) (fun _ => True) ∧
      s'.comparator = s.comparator ∧ s'.initialized = s.initialized := by
  induction s using dedup.induct P m generalizing keyss with
  | case1 s hpeek hpop =>
    rw [BinaryHeap.pop_eq_none_iff] at hpop
    simp [BinaryHeap.peek, hpop, maxBy] at hpeek
  | case2 s hpeek duplicate heap hpop e hconsume =>
    obtain ⟨hdup, rfl⟩ := BinaryHeap.pop_eq_some_iff.mp hpop
    obtain ⟨_, _, _, hok, -⟩ := consumeEntry_of_holds h (BinaryHeap.mem_of_peek hdup)
    rw [hconsume] at hok
    cases hok
  | case3 s hpeek duplicate heap hpop item s₁ hconsume ih =>
    obtain ⟨hdup, rfl⟩ := BinaryHeap.pop_eq_some_iff.mp hpop
    obtain ⟨rest, s₁', hrest, hok, h₁, hcomp₁, hinit₁⟩ :=
      consumeEntry_of_holds h (BinaryHeap.mem_of_peek hdup)
    rw [hconsume, Except.ok.injEq, Prod.mk.injEq] at hok
    obtain ⟨-, rfl⟩ := hok
    -- the duplicate holds the key emitted
    have hkey : duplicate.key = m := by
      simpa [hdup] using hpeek
    obtain ⟨s', hdedup, h', hcomp', hinit'⟩ := ih h₁ fun keys hkeys k hk => by
      rw [hcomp₁]
      rcases List.mem_or_eq_of_mem_set hkeys with hkeys | rfl
      · exact hge keys hkeys k hk
      · exact hge _ (List.mem_of_getElem? hrest) k (List.mem_cons_of_mem _ hk)
    refine ⟨s', by rw [dedup_of_pop hpeek hpop, hconsume]; exact hdedup, ?_,
      hcomp'.trans hcomp₁, hinit'.trans hinit₁⟩
    rwa [map_set_of_eq hrest (by simp [hkey])] at h'
  | case4 s hpeek =>
    refine ⟨s, dedup_of_not_peek hpeek, ?_, rfl, rfl⟩
    have hnone := not_mem_of_not_peek h hge hpeek
    rwa [List.map_congr_left fun keys hkeys => List.filter_eq_self.mpr fun k hk => by
      simp only [ne_eq, decide_eq_true_eq]
      rintro rfl
      exact hnone keys hkeys hk, List.map_id']

/-- With nothing left in any child, a call reports the end. -/
theorem nextKey_of_nil {s : FlatMergeOrderedKeyStream σ} {keyss}
    (h : Holds P s keyss fun _ => True) (hinit : s.initialized = true)
    (hnil : ∀ keys ∈ keyss, keys = []) : nextKey P s = .ok (none, s) := by
  -- no child holds a lookahead key, so the heap is empty
  have hempty : s.heap.items = [] := by
    rw [List.eq_nil_iff_forall_not_mem]
    intro e he
    obtain ⟨rest, hrest⟩ := keys_of_mem_heap h he
    cases hnil _ (List.mem_of_getElem? hrest)
  have hpop : s.heap.pop KeyFlatMergeHeapEntry.cmp = none := BinaryHeap.pop_eq_none_iff.mpr hempty
  simp [nextKey, initializeHeads, hinit, hpop, pure, Except.pure]

/-- Otherwise a call yields the key first in the direction among all keys left,
and no child has that key left afterwards. -/
theorem nextKey_of_ne_nil {s : FlatMergeOrderedKeyStream σ} {keyss}
    (h : Holds P s keyss fun _ => True) (hinit : s.initialized = true)
    (hne : ∃ keys ∈ keyss, keys ≠ []) :
    ∃ m s', nextKey P s = .ok (some m, s') ∧ (∃ keys ∈ keyss, m ∈ keys) ∧
      (∀ keys ∈ keyss, ∀ k ∈ keys, s.comparator.compareDataKeys m k ≠ .gt) ∧
      Holds P s' (keyss.map fun keys => keys.filter fun k => k ≠ m) (fun _ => True) ∧
      s'.initialized = true ∧ s'.comparator = s.comparator := by
  -- a child with keys left holds the first as lookahead, so the heap has a top
  obtain ⟨top, htop⟩ : ∃ top, s.heap.peek KeyFlatMergeHeapEntry.cmp = some top := by
    obtain ⟨keys, hkeys, hne⟩ := hne
    obtain ⟨j, hj, rfl⟩ := List.getElem_of_mem hkeys
    obtain ⟨k, rest, hks⟩ := List.exists_cons_of_ne_nil hne
    have hchild := List.getElem?_eq_getElem (h.length ▸ hj : j < s.children.length)
    have hitem := h.ensured hchild (List.getElem?_eq_getElem hj) trivial
    rw [hks] at hitem
    have hentry := (h.heapMem ⟨k, j, s.comparator⟩).mpr ⟨rfl, _, hchild, hitem⟩
    cases hpeek : s.heap.peek KeyFlatMergeHeapEntry.cmp with
    | none =>
      simp only [BinaryHeap.peek, maxBy_eq_none_iff] at hpeek
      rw [hpeek] at hentry
      cases hentry
    | some top => exact ⟨top, rfl⟩
  have hmem := BinaryHeap.mem_of_peek htop
  have hle := top_le h htop
  obtain ⟨rest, s₁, hrest, hconsume, h₁, hcomp₁, hinit₁⟩ := consumeEntry_of_holds h hmem
  obtain ⟨s', hdedup, h', hcomp', hinit'⟩ := dedup_of_holds (m := top.key) h₁ fun keys hkeys k hk => by
    rw [hcomp₁]
    rcases List.mem_or_eq_of_mem_set hkeys with hkeys | rfl
    · exact hle keys hkeys k hk
    · exact hle _ (List.mem_of_getElem? hrest) k (List.mem_cons_of_mem _ hk)
  have hpop : s.heap.pop KeyFlatMergeHeapEntry.cmp = some (top, ⟨s.heap.items.erase top⟩) :=
    BinaryHeap.pop_eq_some_iff.mpr ⟨htop, rfl⟩
  refine ⟨top.key, s', ?_, ⟨_, List.mem_of_getElem? hrest, List.mem_cons_self⟩, hle, ?_,
    hinit'.trans (hinit₁.trans hinit), hcomp'.trans hcomp₁⟩
  · simp only [nextKey, initializeHeads, hinit, if_true, pure_bind]
    rw [hpop]
    dsimp only
    rw [hinit] at hconsume
    rw [hconsume, Except.ok_bind]
    dsimp only
    rw [hdedup, Except.ok_bind]
    rfl
  · rwa [map_set_of_eq hrest (by simp)] at h'

/-- What is left of the children's keys after one key is taken off all of
them: strictly fewer keys, when one of them had it. -/
theorem sum_length_filter_lt {keyss : List (List DecodedDataStoreKey)} {m : DecodedDataStoreKey}
    (hm : ∃ keys ∈ keyss, m ∈ keys) :
    ((keyss.map fun keys => keys.filter fun k => k ≠ m).map List.length).sum <
      (keyss.map List.length).sum := by
  induction keyss with
  | nil => simp at hm
  | cons keys keyss ih =>
    simp only [List.map_cons, List.sum_cons]
    have hle : ∀ keys : List DecodedDataStoreKey, (keys.filter fun k => k ≠ m).length ≤ keys.length :=
      fun keys => List.length_filter_le _ keys
    have hsum : ((keyss.map fun keys => keys.filter fun k => k ≠ m).map List.length).sum ≤
        (keyss.map List.length).sum := by
      simp only [List.map_map]
      exact List.sum_le_sum fun keys _ => hle keys
    rcases hm with ⟨keys', hkeys', hm⟩
    rcases List.mem_cons.mp hkeys' with rfl | hkeys'
    · have hlt : (keys'.filter fun k => k ≠ m).length < keys'.length :=
        List.length_filter_lt_length_iff_exists.mpr ⟨m, hm, by simp⟩
      omega
    · have := ih ⟨keys', hkeys', hm⟩
      have := hle keys
      omega

/-- An initialized flat merge drains to every key its children still have to
give, once each and strictly in the direction. -/
theorem drain_of_holds {s : FlatMergeOrderedKeyStream σ} {keyss}
    (h : Holds P s keyss fun _ => True) (hinit : s.initialized = true) :
    ∃ zs, (stream P).drain s = .ok zs ∧
      zs.Pairwise (fun a b => s.comparator.compareDataKeys a b = .lt) ∧
      ∀ k, k ∈ zs ↔ ∃ keys ∈ keyss, k ∈ keys := by
  -- induction on the number of keys left, which every call lowers
  induction hn : (keyss.map List.length).sum using Nat.strong_induction_on generalizing s keyss with
  | _ n ih =>
    by_cases hnil : ∀ keys ∈ keyss, keys = []
    · refine ⟨[], PullStream.drain_of_next_none (P := stream P) (nextKey_of_nil h hinit hnil),
        List.Pairwise.nil, fun k => ?_⟩
      simp only [List.not_mem_nil, false_iff, not_exists, not_and]
      intro keys hkeys hk
      rw [hnil keys hkeys] at hk
      cases hk
    push Not at hnil
    obtain ⟨m, s', hnext, hm, hle, h', hinit', hcomp'⟩ := nextKey_of_ne_nil h hinit hnil
    obtain ⟨zs, hzs, hsorted, hmem⟩ :=
      ih _ (hn ▸ sum_length_filter_lt hm) h' hinit' rfl
    refine ⟨m :: zs, ?_, ?_, fun k => ?_⟩
    · rw [PullStream.drain_of_next_some (P := stream P) hnext, hzs]
      rfl
    · refine List.Pairwise.cons (fun z hz => ?_) (hcomp' ▸ hsorted)
      obtain ⟨keys', hkeys', hz'⟩ := (hmem z).mp hz
      obtain ⟨keys, hkeys, rfl⟩ := List.mem_map.mp hkeys'
      obtain ⟨hz, hne⟩ := List.mem_filter.mp hz'
      exact s.comparator.totalOrderOn.lt_of_ne_gt trivial trivial (hle keys hkeys z hz)
        fun heq => by simp [heq] at hne
    · rw [List.mem_cons, hmem]
      constructor
      · rintro (rfl | ⟨keys', hkeys', hk⟩)
        · exact hm
        · obtain ⟨keys, hkeys, rfl⟩ := List.mem_map.mp hkeys'
          exact ⟨keys, hkeys, (List.mem_filter.mp hk).1⟩
      · rintro ⟨keys, hkeys, hk⟩
        by_cases hkm : k = m
        · exact .inl hkm
        · exact .inr ⟨_, List.mem_map_of_mem hkeys, List.mem_filter.mpr ⟨hk, by simpa using hkm⟩⟩

/-- Related lists are related index by index. -/
theorem forall₂_of_getElem? {α β : Type} {R : α → β → Prop} :
    ∀ {l₁ : List α} {l₂ : List β}, List.Forall₂ R l₁ l₂ → ∀ {i : Nat} {a b}, l₁[i]? = some a →
      l₂[i]? = some b → R a b
  | _, _, .nil, _, _, _, ha, _ => by cases ha
  | _ :: _, _ :: _, .cons hab _, 0, _, _, ha, hb => by
    simp only [List.getElem?_cons_zero, Option.some.injEq] at ha hb
    exact ha ▸ hb ▸ hab
  | _ :: _, _ :: _, .cons _ hrest, i + 1, _, _, ha, hb => by
    simp only [List.getElem?_cons_succ] at ha hb
    exact forall₂_of_getElem? hrest ha hb

/-- A new flat merge holds what its children drain to; none is refreshed yet. -/
theorem holds_new {streams : List σ} {keyss : List (List DecodedDataStoreKey)}
    (c : KeyOrderComparator) (hdrain : List.Forall₂ (fun t keys => P.drain t = .ok keys) streams keyss)
    (hchain : ∀ keys ∈ keyss, keys.IsChain c.Follows) :
    Holds P ⟨streams.map (KeyFlatMergeChild.new · c), .new, c, false⟩ keyss fun _ => False where
  length := by simpa using hdrain.length_eq
  child {i} {child} {keys} hch hk := by
    obtain ⟨t, ht, rfl⟩ : ∃ t, streams[i]? = some t ∧ KeyFlatMergeChild.new t c = child := by
      simpa using hch
    exact ⟨⟨keys, forall₂_of_getElem? hdrain ht hk, rfl⟩, fun _ _ h => (by cases h),
      hchain keys (List.mem_of_getElem? hk), rfl⟩
  ensured _ _ h := h.elim
  fresh {i} {child} hch _ := by
    obtain ⟨t, -, rfl⟩ : ∃ t, streams[i]? = some t ∧ KeyFlatMergeChild.new t c = child := by
      simpa using hch
    rfl
  heapMem e := by
    simp only [BinaryHeap.new, List.not_mem_nil, false_iff, not_and, not_exists]
    intro _ child hch
    obtain ⟨t, -, rfl⟩ : ∃ t, streams[e.childIndex]? = some t ∧ KeyFlatMergeChild.new t c = child := by
      simpa using hch
    simp [KeyFlatMergeChild.new, StreamSideState.new]
  heapNodup := List.nodup_nil

/-- Refreshing children in turn, each not refreshed before. -/
theorem foldlM_refreshChild_of_holds {keyss : List (List DecodedDataStoreKey)} :
    ∀ (indices : List Nat) {s : FlatMergeOrderedKeyStream σ} {ready : Nat → Prop},
      Holds P s keyss ready → (∀ i ∈ indices, i < keyss.length ∧ ¬ ready i) → indices.Nodup →
      ∃ s', indices.foldlM (refreshChild P) s = .ok s' ∧
        Holds P s' keyss (fun j => j ∈ indices ∨ ready j) ∧
        s'.comparator = s.comparator ∧ s'.initialized = s.initialized
  | [], s, ready, h, _, _ => ⟨s, rfl, h.mono_ready fun _ _ => by simp, rfl, rfl⟩
  | i :: indices, s, ready, h, hfresh, hnodup => by
    obtain ⟨hi, hnot⟩ := hfresh i List.mem_cons_self
    obtain ⟨s₁, hrefresh, h₁, hcomp₁, hinit₁⟩ :=
      refreshChild_of_holds h hi fun child hch => h.fresh hch hnot
    obtain ⟨hnotin, hnodup'⟩ := List.nodup_cons.mp hnodup
    obtain ⟨s', hfold, h', hcomp', hinit'⟩ := foldlM_refreshChild_of_holds indices h₁
      (fun j hj => ⟨(hfresh j (List.mem_cons_of_mem i hj)).1, by
        rintro (rfl | hr)
        · exact hnotin hj
        · exact (hfresh j (List.mem_cons_of_mem i hj)).2 hr⟩) hnodup'
    refine ⟨s', by simp [hrefresh, hfold], h'.mono_ready fun j _ => ?_, hcomp'.trans hcomp₁,
      hinit'.trans hinit₁⟩
    simp only [List.mem_cons]
    tauto

/-- A new flat merge drains to every key its children drain to, once each and
strictly in the direction. -/
theorem drain_tryNewWithComparator {streams : List σ} {keyss : List (List DecodedDataStoreKey)}
    (c : KeyOrderComparator) (hdrain : List.Forall₂ (fun t keys => P.drain t = .ok keys) streams keyss)
    (hchain : ∀ keys ∈ keyss, keys.IsChain c.Follows) :
    ∃ s zs, tryNewWithComparator streams c = .ok s ∧ (stream P).drain s = .ok zs ∧
      zs.Pairwise (fun a b => c.compareDataKeys a b = .lt) ∧ ∀ k, k ∈ zs ↔ ∃ keys ∈ keyss, k ∈ keys := by
  let s₀ : FlatMergeOrderedKeyStream σ := ⟨streams.map (KeyFlatMergeChild.new · c), .new, c, false⟩
  have h₀ := holds_new c hdrain hchain
  have hlen : s₀.children.length = keyss.length := h₀.length
  -- the first call refreshes every child
  obtain ⟨s₁, hfold, h₁, hcomp₁, -⟩ := foldlM_refreshChild_of_holds (List.range keyss.length) h₀
    (fun i hi => ⟨List.mem_range.mp hi, id⟩) List.nodup_range
  let ready : FlatMergeOrderedKeyStream σ := { s₁ with initialized := true }
  have hready : Holds P ready keyss fun _ => True :=
    (h₁.mono_ready fun j hj => by simp [List.mem_range, ← h₁.length, hj]).setInitialized true
  have hinit : initializeHeads P s₀ = .ok ready := by
    unfold initializeHeads
    rw [if_neg (by simp [s₀]), hlen, hfold]
    rfl
  have hinit' : initializeHeads P ready = .ok ready := by
    simp [initializeHeads, ready, pure, Except.pure]
  have hcomp : ready.comparator = c := hcomp₁
  obtain ⟨zs, hzs, hsorted, hmem⟩ := drain_of_holds hready rfl
  refine ⟨s₀, zs, rfl, ?_, hcomp ▸ hsorted, hmem⟩
  -- the merge steps as the refreshed one does
  rw [PullStream.drain_eq_of_next_eq (P := stream P) (t := ready), hzs]
  show nextKey P s₀ = nextKey P ready
  rw [nextKey, nextKey, hinit, hinit', Except.ok_bind]

end FlatMergeOrderedKeyStream

end IcyDb
