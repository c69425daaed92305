import IcyDb.Executor.KeyStreamSafety

/-!
# The ordered key streams compute set operations

Over children that each give keys of one entity, never against the direction,
the combinators compute set operations on what the children give, in order:
the binary merge, any tree of binary merges and the flat merge give the union
once each and strictly in the direction, so that every shape of merge gives
the same list; the intersection gives the keys both children give; and the
distinct adapter drops adjacent repeats.  A child that goes against the
direction makes the merges and the distinct adapter fail, and along any run,
whatever the children give, no combinator gives a key out of order.
-/

namespace IcyDb

open Pull Comparator

/-! ### Two children -/

namespace MergeOrderedKeyStream

variable {α β : Type} {A : KeyStream α} {B : KeyStream β}

/-- A new merge over children whose keys follow on drains to their union,
strictly in the direction. -/
theorem drain_newWithComparator {a : α} {b : β} {xs ys : List DecodedDataStoreKey}
    (c : KeyOrderComparator) (ha : A.drain a = .ok xs) (hb : B.drain b = .ok ys)
    (hxs : xs.IsChain c.Follows) (hys : ys.IsChain c.Follows) :
    ∃ zs, (stream A B).drain (newWithComparator a b c) = .ok zs ∧
      zs.Pairwise (fun x y => c.compareDataKeys x y = .lt) ∧ ∀ k, k ∈ zs ↔ k ∈ xs ∨ k ∈ ys := by
  have hpx := KeyOrderComparator.pairwise_of_isChain_follows hxs
  have hpy := KeyOrderComparator.pairwise_of_isChain_follows hys
  have hnone : ∀ w, (none : Option DecodedDataStoreKey) = some w →
      ∀ z, z ∈ xs ∨ z ∈ ys → c.compareDataKeys w z ≠ .gt := fun _ h => by cases h
  refine ⟨mergeDistinct c.compareDataKeys none xs ys,
    drain_of_holds (holds_newWithComparator c ha hb) ⟨hxs, hys⟩, ?_, fun k => ?_⟩
  · simpa using pairwise_mergeDistinct c.totalOrderOn hpx hpy hnone
  · simpa using mem_mergeDistinct c.totalOrderOn hpx hpy hnone k

/-- A new merge one of whose children gives keys that do not follow on fails. -/
theorem drain_error_newWithComparator {a : α} {b : β} {xs ys : List DecodedDataStoreKey}
    (c : KeyOrderComparator) (ha : A.drain a = .ok xs) (hb : B.drain b = .ok ys)
    (hbad : ¬ (xs.IsChain c.Follows ∧ ys.IsChain c.Follows)) :
    ∃ e, (stream A B).drain (newWithComparator a b c) = .error e :=
  drain_error_of_holds (holds_newWithComparator c ha hb) hbad

end MergeOrderedKeyStream

namespace IntersectOrderedKeyStream

variable {α β : Type} {A : KeyStream α} {B : KeyStream β}

/-- A new intersection over children whose keys follow on drains to the keys
both give, strictly in the direction. -/
theorem drain_newWithComparator {a : α} {b : β} {xs ys : List DecodedDataStoreKey}
    (c : KeyOrderComparator) (ha : A.drain a = .ok xs) (hb : B.drain b = .ok ys)
    (hxs : xs.IsChain c.Follows) (hys : ys.IsChain c.Follows) :
    ∃ zs, (stream A B).drain (newWithComparator a b c) = .ok zs ∧
      zs.Pairwise (fun x y => c.compareDataKeys x y = .lt) ∧ ∀ k, k ∈ zs ↔ k ∈ xs ∧ k ∈ ys := by
  have hpx := KeyOrderComparator.pairwise_of_isChain_follows hxs
  have hpy := KeyOrderComparator.pairwise_of_isChain_follows hys
  have hnone : ∀ w, (none : Option DecodedDataStoreKey) = some w →
      ∀ z, z ∈ xs ∨ z ∈ ys → c.compareDataKeys w z ≠ .gt := fun _ h => by cases h
  refine ⟨intersectDistinct c.compareDataKeys none xs ys,
    drain_of_holds (holds_newWithComparator c ha hb hxs hys), ?_, fun k => ?_⟩
  · simpa using pairwise_intersectDistinct c.totalOrderOn hpx hpy hnone
  · simpa using mem_intersectDistinct c.totalOrderOn hpx hpy hnone k

end IntersectOrderedKeyStream

namespace DistinctOrderedKeyStream

variable {σ : Type} {P : KeyStream σ}

/-- A new distinct adapter over an input that never goes down drains to the
input with adjacent repeats dropped. -/
theorem drain_new {inner : σ} {xs : List DecodedDataStoreKey} (c : KeyOrderComparator)
    (hP : P.drain inner = .ok xs) (hxs : xs.IsChain fun x y => c.compareDataKeys x y ≠ .gt) :
    (stream P).drain (new inner c) = .ok (xs.destutter (· ≠ ·)) := by
  rw [← dropRepeats_none]
  exact drain_of_monotone hP hxs

end DistinctOrderedKeyStream

/-! ### Trees of merges -/

/-- A tree of binary merges over leaf streams of one kind, as nested calls of
`OrderedKeyStreamBox::merge` build it. -/
inductive MergeTree (σ : Type) where
  | leaf (stream : σ)
  | merge (left right : MergeTree σ)

namespace MergeTree

variable {σ : Type}

/-- The state of the stream a tree builds. -/
def State : MergeTree σ → Type
  | leaf _ => σ
  | merge left right => MergeOrderedKeyStream left.State right.State

/-- The stream a tree builds. -/
def keyStream (P : KeyStream σ) : (t : MergeTree σ) → KeyStream t.State
  | leaf _ => P
  | merge left right => MergeOrderedKeyStream.stream (left.keyStream P) (right.keyStream P)

/-- The state a tree's stream starts from. -/
def start (c : KeyOrderComparator) : (t : MergeTree σ) → t.State
  | leaf stream => stream
  | merge left right => MergeOrderedKeyStream.newWithComparator (left.start c) (right.start c) c

/-- The leaf streams, left to right. -/
def leaves : MergeTree σ → List σ
  | leaf stream => [stream]
  | merge left right => left.leaves ++ right.leaves

variable {P : KeyStream σ} {c : KeyOrderComparator} {E : EntityTag}

/-- A strictly increasing list of keys of one entity follows on. -/
theorem isChain_follows_of_pairwise {zs : List DecodedDataStoreKey}
    (hzs : zs.Pairwise fun x y => c.compareDataKeys x y = .lt) (hE : ∀ k ∈ zs, k.entityTag = E) :
    zs.IsChain c.Follows :=
  (KeyOrderComparator.isChain_follows_iff hE).mpr
    (hzs.isChain.imp fun _ _ h => by rw [h]; decide)

/-- What a tree drains to, over leaves whose keys are of one entity and follow
on: keys of that entity that follow on, with the leaves' keys as members, and
strictly in the direction when a merge is at the root. -/
theorem drain_start :
    ∀ (t : MergeTree σ) {keyss : List (List DecodedDataStoreKey)},
      List.Forall₂ (fun t keys => P.drain t = .ok keys) t.leaves keyss →
      (∀ keys ∈ keyss, keys.IsChain c.Follows ∧ ∀ k ∈ keys, k.entityTag = E) →
      ∃ zs, (t.keyStream P).drain (t.start c) = .ok zs ∧ zs.IsChain c.Follows ∧
        (∀ k ∈ zs, k.entityTag = E) ∧ (∀ k, k ∈ zs ↔ ∃ keys ∈ keyss, k ∈ keys) ∧
        ∀ left right, t = merge left right → zs.Pairwise fun x y => c.compareDataKeys x y = .lt
  | leaf stream, keyss, hdrain, hkeys => by
    rcases hdrain with _ | ⟨hd, hnil⟩
    rw [List.forall₂_nil_left_iff.mp hnil] at hkeys ⊢
    obtain ⟨hchain, hE⟩ := hkeys _ (List.mem_singleton_self _)
    exact ⟨_, hd, hchain, hE, fun k => by simp, fun _ _ h => by cases h⟩
  | merge left right, keyss, hdrain, hkeys => by
    -- the leaves' keys split between the two subtrees
    have hL := List.forall₂_take left.leaves.length hdrain
    have hR := List.forall₂_drop left.leaves.length hdrain
    rw [leaves, List.take_left' rfl] at hL
    rw [leaves, List.drop_left' rfl] at hR
    have hin : ∀ keys, keys ∈ keyss ↔
        keys ∈ keyss.take left.leaves.length ∨ keys ∈ keyss.drop left.leaves.length := fun keys => by
      rw [← List.mem_append, List.take_append_drop]
    obtain ⟨xs, hxs, hxc, hxE, hxm, -⟩ := drain_start left hL fun keys hk =>
      hkeys keys ((hin keys).mpr (.inl hk))
    obtain ⟨ys, hys, hyc, hyE, hym, -⟩ := drain_start right hR fun keys hk =>
      hkeys keys ((hin keys).mpr (.inr hk))
    obtain ⟨zs, hzs, hsorted, hmem⟩ := MergeOrderedKeyStream.drain_newWithComparator c hxs hys hxc hyc
    have hzE : ∀ k ∈ zs, k.entityTag = E := fun k hk => by
      rcases (hmem k).mp hk with hk | hk
      · exact hxE k hk
      · exact hyE k hk
    refine ⟨zs, hzs, isChain_follows_of_pairwise hsorted hzE, hzE, fun k => ?_,
      fun _ _ _ => hsorted⟩
    rw [hmem, hxm, hym]
    constructor
    · rintro (⟨keys, hk, hkk⟩ | ⟨keys, hk, hkk⟩)
      · exact ⟨keys, (hin keys).mpr (.inl hk), hkk⟩
      · exact ⟨keys, (hin keys).mpr (.inr hk), hkk⟩
    · rintro ⟨keys, hk, hkk⟩
      rcases (hin keys).mp hk with hk | hk
      · exact .inl ⟨keys, hk, hkk⟩
      · exact .inr ⟨keys, hk, hkk⟩

/-- A tree with a merge at its root drains to the union of its leaves' keys,
strictly in the direction, and so does the flat merge over the same leaves:
every shape of merge gives the same list. -/
theorem drain_merge_eq_flat (left right : MergeTree σ) {keyss : List (List DecodedDataStoreKey)}
    (hdrain : List.Forall₂ (fun t keys => P.drain t = .ok keys) (merge left right).leaves keyss)
    (hkeys : ∀ keys ∈ keyss, keys.IsChain c.Follows ∧ ∀ k ∈ keys, k.entityTag = E) :
    ∃ zs s, ((merge left right).keyStream P).drain ((merge left right).start c) = .ok zs ∧
      FlatMergeOrderedKeyStream.tryNewWithComparator (merge left right).leaves c = .ok s ∧
      (FlatMergeOrderedKeyStream.stream P).drain s = .ok zs ∧
      zs.Pairwise (fun x y => c.compareDataKeys x y = .lt) ∧ ∀ k, k ∈ zs ↔ ∃ keys ∈ keyss, k ∈ keys := by
  obtain ⟨zs, hzs, -, -, hmem, hsorted⟩ := drain_start (merge left right) hdrain hkeys
  obtain ⟨s, zs', hnew, hflat, hsorted', hmem'⟩ :=
    FlatMergeOrderedKeyStream.drain_tryNewWithComparator c hdrain fun keys hk => (hkeys keys hk).1
  -- two strictly increasing lists with the same members
  have heq : zs' = zs := eq_of_pairwise_lt_of_mem_iff c.totalOrderOn (fun _ _ => trivial) hsorted'
    (hsorted left right rfl) fun k => (hmem' k).trans (hmem k).symm
  exact ⟨zs, s, hzs, hnew, heq ▸ hflat, hsorted left right rfl, hmem⟩

end MergeTree

/-! ### The combinators together -/

open KeyOrderComparator in
/-- Over children whose keys are of one entity and never go against the
direction, every tree of binary merges and the flat merge give the union of
the children's keys strictly in the direction, and the same list; the flat
merge does so for any number of children; the intersection gives the keys
both children give, strictly in the direction; the distinct adapter drops
adjacent repeats.  A child whose keys go against the direction makes the
merges and the distinct adapter fail, and along every run, whatever the
children give, none of the four gives a key out of order. -/
theorem orderedKeyStreams_compute_set_operations {σ : Type} (P : KeyStream σ)
    (c : KeyOrderComparator) (E : EntityTag) :
    (∀ (left right : MergeTree σ) (keyss : List (List DecodedDataStoreKey)),
      List.Forall₂ (fun t keys => P.drain t = .ok keys) (MergeTree.merge left right).leaves keyss →
      (∀ keys ∈ keyss, (∀ k ∈ keys, k.entityTag = E) ∧
        keys.IsChain fun x y => c.compareDataKeys x y ≠ .gt) →
      ∃ zs s, ((MergeTree.merge left right).keyStream P).drain
          ((MergeTree.merge left right).start c) = .ok zs ∧
        FlatMergeOrderedKeyStream.tryNewWithComparator (MergeTree.merge left right).leaves c =
          .ok s ∧
        (FlatMergeOrderedKeyStream.stream P).drain s = .ok zs ∧
        zs.Pairwise (fun x y => c.compareDataKeys x y = .lt) ∧
        ∀ k, k ∈ zs ↔ ∃ keys ∈ keyss, k ∈ keys) ∧
    (∀ (streams : List σ) (keyss : List (List DecodedDataStoreKey)),
      List.Forall₂ (fun t keys => P.drain t = .ok keys) streams keyss →
      (∀ keys ∈ keyss, (∀ k ∈ keys, k.entityTag = E) ∧
        keys.IsChain fun x y => c.compareDataKeys x y ≠ .gt) →
      ∃ s zs, FlatMergeOrderedKeyStream.tryNewWithComparator streams c = .ok s ∧
        (FlatMergeOrderedKeyStream.stream P).drain s = .ok zs ∧
        zs.Pairwise (fun x y => c.compareDataKeys x y = .lt) ∧
        ∀ k, k ∈ zs ↔ ∃ keys ∈ keyss, k ∈ keys) ∧
    (∀ (a b : σ) (xs ys : List DecodedDataStoreKey), P.drain a = .ok xs → P.drain b = .ok ys →
      (∀ k ∈ xs, k.entityTag = E) → (∀ k ∈ ys, k.entityTag = E) →
      (xs.IsChain fun x y => c.compareDataKeys x y ≠ .gt) →
      (ys.IsChain fun x y => c.compareDataKeys x y ≠ .gt) →
      ∃ zs, (IntersectOrderedKeyStream.stream P P).drain
          (IntersectOrderedKeyStream.newWithComparator a b c) = .ok zs ∧
        zs.Pairwise (fun x y => c.compareDataKeys x y = .lt) ∧ ∀ k, k ∈ zs ↔ k ∈ xs ∧ k ∈ ys) ∧
    (∀ (a : σ) (xs : List DecodedDataStoreKey), P.drain a = .ok xs →
      (xs.IsChain fun x y => c.compareDataKeys x y ≠ .gt) →
      (DistinctOrderedKeyStream.stream P).drain (DistinctOrderedKeyStream.new a c) =
        .ok (xs.destutter (· ≠ ·))) ∧
    (∀ (a b : σ) (xs ys : List DecodedDataStoreKey), P.drain a = .ok xs → P.drain b = .ok ys →
      (∀ k ∈ xs, k.entityTag = E) → (∀ k ∈ ys, k.entityTag = E) →
      ¬ ((xs.IsChain fun x y => c.compareDataKeys x y ≠ .gt) ∧
        ys.IsChain fun x y => c.compareDataKeys x y ≠ .gt) →
      ∃ e, (MergeOrderedKeyStream.stream P P).drain
        (MergeOrderedKeyStream.newWithComparator a b c) = .error e) ∧
    (∀ (streams : List σ) (keyss : List (List DecodedDataStoreKey)),
      List.Forall₂ (fun t keys => P.drain t = .ok keys) streams keyss →
      (∀ keys ∈ keyss, ∀ k ∈ keys, k.entityTag = E) →
      (∃ keys ∈ keyss, ¬ keys.IsChain fun x y => c.compareDataKeys x y ≠ .gt) →
      ∃ s e, FlatMergeOrderedKeyStream.tryNewWithComparator streams c = .ok s ∧
        (FlatMergeOrderedKeyStream.stream P).drain s = .error e) ∧
    (∀ (a : σ) (xs : List DecodedDataStoreKey), P.drain a = .ok xs →
      ¬ (xs.IsChain fun x y => c.compareDataKeys x y ≠ .gt) →
      (DistinctOrderedKeyStream.stream P).drain (DistinctOrderedKeyStream.new a c) =
        .error .queryExecutorInvariant) ∧
    (∀ (a b : σ) keys s', (MergeOrderedKeyStream.stream P P).Run
      (MergeOrderedKeyStream.newWithComparator a b c) keys s' →
      keys.Pairwise fun x y => c.compareDataKeys x y = .lt) ∧
    (∀ (streams : List σ) s keys s', FlatMergeOrderedKeyStream.tryNewWithComparator streams c = .ok s →
      (FlatMergeOrderedKeyStream.stream P).Run s keys s' →
      keys.Pairwise fun x y => c.compareDataKeys x y = .lt) ∧
    (∀ (a b : σ) keys s', (IntersectOrderedKeyStream.stream P P).Run
      (IntersectOrderedKeyStream.newWithComparator a b c) keys s' →
      keys.Pairwise fun x y => c.compareDataKeys x y = .lt) ∧
    (∀ (a : σ) keys s', (DistinctOrderedKeyStream.stream P).Run
      (DistinctOrderedKeyStream.new a c) keys s' →
      keys.Pairwise fun x y => c.compareDataKeys x y = .lt) := by
  -- a child's keys of one entity follow on exactly when they never go down
  have hfollows : ∀ keys : List DecodedDataStoreKey, (∀ k ∈ keys, k.entityTag = E) →
      (keys.IsChain c.Follows ↔ keys.IsChain fun x y => c.compareDataKeys x y ≠ .gt) :=
    fun _ hE => isChain_follows_iff hE
  have hsorted : ∀ {keys : List DecodedDataStoreKey},
      (keys.IsChain fun x y => c.compareDataKeys x y = .lt) →
      keys.Pairwise fun x y => c.compareDataKeys x y = .lt :=
    c.totalOrderOn.pairwise_lt_of_isChain fun _ _ => trivial
  refine ⟨fun left right keyss hdrain hkeys => ?_, fun streams keyss hdrain hkeys => ?_,
    fun a b xs ys ha hb hxE hyE hxs hys => ?_, fun a xs ha hxs => DistinctOrderedKeyStream.drain_new c ha hxs,
    fun a b xs ys ha hb hxE hyE hbad => ?_, fun streams keyss hdrain hE hbad => ?_,
    fun a xs ha hxs => DistinctOrderedKeyStream.drain_error_of_not_monotone ha hxs,
    fun a b keys s' h => hsorted (MergeOrderedKeyStream.run_isChain_lt h),
    fun streams s keys s' hnew h => hsorted (FlatMergeOrderedKeyStream.run_isChain_lt hnew h),
    fun a b keys s' h => hsorted (IntersectOrderedKeyStream.run_isChain_lt h),
    fun a keys s' h => hsorted (DistinctOrderedKeyStream.run_isChain_lt h)⟩
  · exact MergeTree.drain_merge_eq_flat left right hdrain fun keys hk =>
      ⟨(hfollows keys (hkeys keys hk).1).mpr (hkeys keys hk).2, (hkeys keys hk).1⟩
  · exact FlatMergeOrderedKeyStream.drain_tryNewWithComparator c hdrain fun keys hk =>
      (hfollows keys (hkeys keys hk).1).mpr (hkeys keys hk).2
  · exact IntersectOrderedKeyStream.drain_newWithComparator c ha hb ((hfollows xs hxE).mpr hxs)
      ((hfollows ys hyE).mpr hys)
  · exact MergeOrderedKeyStream.drain_error_newWithComparator c ha hb
      (by rwa [hfollows xs hxE, hfollows ys hyE])
  · obtain ⟨keys, hk, hnc⟩ := hbad
    obtain ⟨e, he⟩ := FlatMergeOrderedKeyStream.drain_error_of_not_chain rfl hdrain
      ⟨keys, hk, by rwa [hfollows keys (hE keys hk)]⟩
    exact ⟨_, e, rfl, he⟩

end IcyDb
