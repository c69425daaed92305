import IcyDb.Executor.KeyStream
import IcyDb.Order.MergeDistinct

/-!
# What the ordered key streams compute

A side of a binary combinator is read through the keys it still has to give:
its lookahead key followed by what its child stream drains to (`Holds`).
When those keys follow on from the key the side gave up last, one entity and
never against the direction (`Continues`), ensuring a lookahead key never
fails and leaves the side holding the first of them; otherwise the check made
when a key is pulled fails on the first key that does not follow.

Over these views each combinator's `next_key` loop refines a list function of
`Comparator`: the binary merge drains to `mergeDistinct`, the intersection to
`intersectDistinct` and the distinct adapter to `dropRepeats`, pass by pass.
A merge whose side does not continue fails instead.  Along every run of calls,
whatever the children yield, each key a combinator gives is strictly after
the one it gave before.
-/

namespace IcyDb

open Pull Comparator

namespace KeyOrderComparator

variable (c : KeyOrderComparator)

/-- The direction's order is a total order on all decoded keys. -/
theorem totalOrderOn : TotalOrderOn c.compareDataKeys fun _ => True := by
  obtain ⟨_ | _⟩ := c
  · exact DecodedDataStoreKey.cmp_totalOrderOn
  · exact DecodedDataStoreKey.cmp_totalOrderOn.flip

/-- A side may give up `current` after `previous`: both are keys of one entity,
and `current` does not move against the direction. -/
def Follows (previous current : DecodedDataStoreKey) : Prop :=
  previous.entityTag = current.entityTag ∧ c.compareDataKeys previous current ≠ .gt

instance : DecidableRel c.Follows := fun _ _ => inferInstanceAs (Decidable (_ ∧ _))

/-- Within one entity, the monotonicity check on primary keys is the
direction's order on the keys. -/
theorem violatesMonotonicity_eq_false_iff {previous current : DecodedDataStoreKey}
    (h : previous.entityTag = current.entityTag) :
    c.violatesMonotonicity previous.primaryKeyValue current.primaryKeyValue = false ↔
      c.compareDataKeys previous current ≠ .gt := by
  obtain ⟨_ | _⟩ := c <;>
    simp [violatesMonotonicity, compareDataKeys, DecodedDataStoreKey.cmp, h]

variable {c}

/-- For keys of one entity, following on is not moving against the direction. -/
theorem isChain_follows_iff {E : EntityTag} {keys : List DecodedDataStoreKey}
    (hE : ∀ k ∈ keys, k.entityTag = E) :
    keys.IsChain c.Follows ↔ keys.IsChain fun a b => c.compareDataKeys a b ≠ .gt := by
  constructor
  · exact List.IsChain.imp fun _ _ h => h.2
  · exact List.IsChain.imp_of_mem_imp fun a b ha hb h => ⟨(hE a ha).trans (hE b hb).symm, h⟩

/-- Keys that follow on never go down. -/
theorem pairwise_of_isChain_follows {keys : List DecodedDataStoreKey}
    (h : keys.IsChain c.Follows) : keys.Pairwise fun a b => c.compareDataKeys a b ≠ .gt :=
  c.totalOrderOn.pairwise_ne_gt_of_isChain (fun _ _ => trivial) (h.imp fun _ _ h => h.2)

end KeyOrderComparator

/-! ### One side -/

namespace StreamSideState

/-- The check made on a pulled key passes exactly when the key follows on
from the key the side gave up last. -/
theorem validateMonotonicity_eq_ok_iff {side : StreamSideState} {current : DecodedDataStoreKey}
    {u : Unit} : side.validateMonotonicity current = .ok u ↔
      ∀ previous, side.lastKey = some previous → side.comparator.Follows previous current := by
  unfold validateMonotonicity
  cases side.lastKey with
  | none => simp [pure, Except.pure]
  | some previous =>
    simp only [Option.some.injEq, forall_eq']
    by_cases hE : previous.entityTag = current.entityTag
    · have hiff := side.comparator.violatesMonotonicity_eq_false_iff hE
      cases hv : side.comparator.violatesMonotonicity previous.primaryKeyValue
          current.primaryKeyValue <;>
        simp_all [KeyOrderComparator.Follows, pure, Except.pure]
    · simp [hE, KeyOrderComparator.Follows]

variable {σ : Type} (P : KeyStream σ)

/-- `keys` are what the side still has to give: nothing once its stream has
ended, and otherwise its lookahead key followed by what its stream drains to. -/
def Holds (side : StreamSideState) (stream : σ) (keys : List DecodedDataStoreKey) : Prop :=
  if side.done then side.item = none ∧ keys = []
  else ∃ rest, P.drain stream = .ok rest ∧ keys = side.item.toList ++ rest

/-- The side's keys follow on from the key it gave up last. -/
def Continues (side : StreamSideState) (keys : List DecodedDataStoreKey) : Prop :=
  (side.lastKey.toList ++ keys).IsChain side.comparator.Follows

theorem continues_nil {side : StreamSideState} : side.Continues [] := by
  cases h : side.lastKey <;> simp [Continues, h]

/-- A lookahead key follows on from the key the side gave up last, as it was
checked when it was pulled. -/
def ItemFollows (side : StreamSideState) : Prop :=
  ∀ previous key, side.lastKey = some previous → side.item = some key →
    side.comparator.Follows previous key

/-- The side once its lookahead is ensured: it holds the first of its keys and
is done when there is none. -/
def ensured (side : StreamSideState) (keys : List DecodedDataStoreKey) : StreamSideState :=
  { side with item := keys.head?, done := keys.isEmpty }

@[simp] theorem ensured_item (side : StreamSideState) (keys : List DecodedDataStoreKey) :
    (side.ensured keys).item = keys.head? := rfl

@[simp] theorem ensured_lastKey (side : StreamSideState) (keys : List DecodedDataStoreKey) :
    (side.ensured keys).lastKey = side.lastKey := rfl

@[simp] theorem ensured_comparator (side : StreamSideState) (keys : List DecodedDataStoreKey) :
    (side.ensured keys).comparator = side.comparator := rfl

@[simp] theorem continues_ensured {side : StreamSideState} {keys keys' : List DecodedDataStoreKey} :
    (side.ensured keys).Continues keys' ↔ side.Continues keys' := Iff.rfl

/-- A side that already holds what ensuring would give is left as it is. -/
theorem ensured_eq_self {side : StreamSideState} {keys : List DecodedDataStoreKey}
    (hitem : side.item = keys.head?) (hdone : side.done = keys.isEmpty) :
    side.ensured keys = side := by
  cases side
  simp_all [ensured]

variable {P}

/-- Ensuring the lookahead either fails on a key that does not follow on, or
leaves the side holding the first of its keys, with the same keys to give. -/
theorem ensureItem_cases {side : StreamSideState} {stream : σ} {keys : List DecodedDataStoreKey}
    (h : side.Holds P stream keys) (hitem : side.ItemFollows) :
    (∃ e, side.ensureItem P stream = .error e ∧ ¬ side.Continues keys) ∨
      ∃ stream', side.ensureItem P stream = .ok (side.ensured keys, stream') ∧
        (side.ensured keys).Holds P stream' keys ∧ (side.ensured keys).ItemFollows := by
  unfold Holds at h
  by_cases hdone : side.done = true
  · -- the stream has ended: nothing is pulled
    rw [if_pos hdone] at h
    obtain ⟨hnone, rfl⟩ := h
    rw [ensured_eq_self (by simp [hnone]) (by simp [hdone])]
    refine .inr ⟨stream, by simp [ensureItem, hdone, pure, Except.pure], ?_, hitem⟩
    simp [Holds, hdone, hnone]
  rw [if_neg hdone] at h
  obtain ⟨rest, hdrain, rfl⟩ := h
  simp only [Bool.not_eq_true] at hdone
  cases hit : side.item with
  | some key =>
    -- a lookahead key is held: nothing is pulled
    simp only [Option.toList_some, List.singleton_append]
    rw [ensured_eq_self (by simp [hit]) (by simp [hdone])]
    refine .inr ⟨stream, by simp [ensureItem, hit, pure, Except.pure], ?_, hitem⟩
    simp only [Holds, hdone, Bool.false_eq_true, if_false, hit, Option.toList_some,
      List.singleton_append]
    exact ⟨rest, hdrain, rfl⟩
  | none =>
    simp only [Option.toList_none, List.nil_append]
    cases rest with
    | nil =>
      -- the stream ends here
      obtain ⟨stream', hnext⟩ := PullStream.drain_eq_ok_nil_iff.mp hdrain
      refine .inr ⟨stream', ?_, ?_, fun _ _ _ h => by simp [ensured] at h⟩
      · simp [ensureItem, hdone, hit, hnext, ensured, pure, Except.pure]
      · simp [Holds, ensured]
    | cons key rest =>
      obtain ⟨stream', hnext, hrest⟩ := PullStream.drain_eq_ok_cons_iff.mp hdrain
      by_cases hv : ∀ previous, side.lastKey = some previous → side.comparator.Follows previous key
      · -- the pulled key is checked and held
        have hvalid : side.validateMonotonicity key = .ok () := validateMonotonicity_eq_ok_iff.mpr hv
        refine .inr ⟨stream', ?_, ?_, fun previous k hlast hk => ?_⟩
        · simp [ensureItem, hdone, hit, hnext, pushKey, hvalid, ensured, pure, Except.pure]
        · simp only [Holds, ensured, List.isEmpty_cons, Bool.false_eq_true, if_false,
            List.head?_cons, Option.toList_some, List.singleton_append]
          exact ⟨rest, hrest, rfl⟩
        · simp only [ensured_item, List.head?_cons, Option.some.injEq] at hk
          exact hk ▸ hv previous hlast
      · -- the pulled key does not follow on: the check fails
        obtain ⟨previous, hlast, hnf⟩ := Classical.not_forall.mp hv |>.imp fun _ h =>
          Classical.not_imp.mp h
        cases hvalid : side.validateMonotonicity key with
        | ok u => exact absurd (validateMonotonicity_eq_ok_iff.mp hvalid) hv
        | error e =>
          refine .inl ⟨e, by simp [ensureItem, hdone, hit, hnext, pushKey, hvalid], ?_⟩
          simp only [Continues, hlast, Option.toList_some, List.singleton_append,
            List.isChain_cons_cons]
          exact fun h => hnf h.1

/-- Keys that follow on are pulled without failing. -/
theorem ensureItem_of_continues {side : StreamSideState} {stream : σ}
    {keys : List DecodedDataStoreKey} (h : side.Holds P stream keys) (hif : side.ItemFollows)
    (hc : side.Continues keys) :
    ∃ stream', side.ensureItem P stream = .ok (side.ensured keys, stream') ∧
      (side.ensured keys).Holds P stream' keys ∧ (side.ensured keys).ItemFollows := by
  rcases ensureItem_cases h hif with ⟨_, -, hnc⟩ | hok
  · exact absurd hc hnc
  · exact hok

/-- A side with keys left to give has not ended. -/
theorem done_eq_false_of_holds {side : StreamSideState} {stream : σ} {key : DecodedDataStoreKey}
    {keys : List DecodedDataStoreKey} (h : side.Holds P stream (key :: keys)) : side.done = false := by
  cases hd : side.done
  · rfl
  · simp [Holds, hd] at h

/-- Clearing the lookahead key gives it up. -/
theorem holds_clearItem {side : StreamSideState} {stream : σ} {key : DecodedDataStoreKey}
    {keys : List DecodedDataStoreKey} (h : side.Holds P stream (key :: keys))
    (hitem : side.item = some key) : side.clearItem.Holds P stream keys := by
  have hdone : side.done = false := done_eq_false_of_holds h
  simp only [Holds, hdone, Bool.false_eq_true, if_false, hitem, Option.toList_some,
    List.singleton_append, List.cons.injEq, exists_eq_right_right'] at h
  simp only [Holds, clearItem, hitem, hdone, Bool.false_eq_true, if_false, Option.toList_none,
    List.nil_append]
  exact ⟨keys, h.1 ▸ rfl, rfl⟩

theorem itemFollows_clearItem (side : StreamSideState) : side.clearItem.ItemFollows := by
  intro _ _ _ h
  simp at h

/-- Giving up a lookahead key that follows on moves the check along by one. -/
theorem continues_clearItem_iff {side : StreamSideState} {key : DecodedDataStoreKey}
    {keys : List DecodedDataStoreKey} (hif : side.ItemFollows) (hitem : side.item = some key) :
    side.clearItem.Continues keys ↔ side.Continues (key :: keys) := by
  simp only [Continues, clearItem, hitem, Option.toList_some, List.singleton_append]
  cases hlast : side.lastKey with
  | none => simp
  | some previous =>
    simp only [Option.toList_some, List.singleton_append, List.isChain_cons_cons]
    exact ⟨fun h => ⟨hif previous key hlast hitem, h⟩, fun h => h.2⟩

@[simp] theorem clearItem_comparator (side : StreamSideState) :
    side.clearItem.comparator = side.comparator := by
  unfold clearItem
  split <;> rfl

/-- The side after a merge picks `m`: it gives up its lookahead key when that
is `m`. -/
def giveUpIf (m : DecodedDataStoreKey) (side : StreamSideState) : StreamSideState :=
  if side.item = some m then side.clearItem else side

@[simp] theorem giveUpIf_comparator (m : DecodedDataStoreKey) (side : StreamSideState) :
    (side.giveUpIf m).comparator = side.comparator := by
  unfold giveUpIf
  split_ifs <;> simp

/-- A side holding the first of its keys gives up `m` exactly when its keys
start with `m`. -/
theorem giveUpIf_of_holds {side : StreamSideState} {stream : σ} {keys : List DecodedDataStoreKey}
    (m : DecodedDataStoreKey) (h : side.Holds P stream keys) (hitem : side.item = keys.head?)
    (hif : side.ItemFollows) :
    (side.giveUpIf m).Holds P stream (dropIfHead m keys) ∧ (side.giveUpIf m).ItemFollows ∧
      ((side.giveUpIf m).Continues (dropIfHead m keys) ↔ side.Continues keys) := by
  unfold giveUpIf dropIfHead
  rw [hitem]
  split_ifs with hm
  · obtain ⟨rest, rfl⟩ : ∃ rest, keys = m :: rest := by
      cases keys with
      | nil => cases hm
      | cons k rest => exact ⟨rest, by simpa using hm⟩
    have hitem' : side.item = some m := hitem.trans hm
    exact ⟨holds_clearItem h hitem', itemFollows_clearItem side, continues_clearItem_iff hif hitem'⟩
  · exact ⟨h, hif, Iff.rfl⟩

end StreamSideState

/-- On lookahead keys that are the heads of two sequences, the merge's choice
is the pick of `mergePick`, given up by every side that holds it. -/
theorem OrderedPairState.mergeChoice_of_pick {c : KeyOrderComparator} {left right : StreamSideState}
    {keysL keysR keysL' keysR' : List DecodedDataStoreKey} {m : DecodedDataStoreKey}
    (hl : left.item = keysL.head?) (hr : right.item = keysR.head?)
    (hpick : mergePick c.compareDataKeys keysL keysR = some (m, keysL', keysR')) :
    OrderedPairState.mergeChoice c ⟨left, right⟩ = (some m, ⟨left.giveUpIf m, right.giveUpIf m⟩) := by
  rcases keysL with _ | ⟨x, xs⟩ <;> rcases keysR with _ | ⟨y, ys⟩
  · cases hpick
  all_goals
    simp only [mergePick] at hpick
    simp only [mergeChoice, hl, hr, List.head?_cons, List.head?_nil,
      StreamSideState.takeItem_eq, StreamSideState.giveUpIf]
  · simp only [Option.some.injEq, Prod.mk.injEq] at hpick
    obtain ⟨rfl, -, -⟩ := hpick
    simp
  · simp only [Option.some.injEq, Prod.mk.injEq] at hpick
    obtain ⟨rfl, -, -⟩ := hpick
    simp
  · split_ifs at hpick with hxy hlt <;> simp only [Option.some.injEq, Prod.mk.injEq] at hpick <;>
      obtain ⟨rfl, -, -⟩ := hpick
    · subst hxy
      simp
    · simp [hxy, hlt, Ne.symm hxy]
    · simp [hxy, hlt]

/-! ### Merge -/

namespace MergeOrderedKeyStream

variable {α β : Type} {A : KeyStream α} {B : KeyStream β}

/-- The merge read through the keys its two sides still have to give. -/
structure Holds (A : KeyStream α) (B : KeyStream β) (s : MergeOrderedKeyStream α β)
    (keysL keysR : List DecodedDataStoreKey) : Prop where
  left : s.pair.left.Holds A s.left keysL
  right : s.pair.right.Holds B s.right keysR
  leftFollows : s.pair.left.ItemFollows
  rightFollows : s.pair.right.ItemFollows
  leftComparator : s.pair.left.comparator = s.comparator
  rightComparator : s.pair.right.comparator = s.comparator

/-- Both sides' keys follow on. -/
def Continues (s : MergeOrderedKeyStream α β) (keysL keysR : List DecodedDataStoreKey) : Prop :=
  s.pair.left.Continues keysL ∧ s.pair.right.Continues keysR

/-- With nothing left on either side, a pass stops. -/
theorem loopBody_of_nil {s : MergeOrderedKeyStream α β} (h : Holds A B s [] []) :
    ∃ s', loopBody A B s = .ok (.stop s') := by
  rcases StreamSideState.ensureItem_cases h.left h.leftFollows with ⟨_, -, hnc⟩ | ⟨left, hl, -⟩
  · exact absurd StreamSideState.continues_nil hnc
  rcases StreamSideState.ensureItem_cases h.right h.rightFollows with ⟨_, -, hnc⟩ | ⟨right, hr, -⟩
  · exact absurd StreamSideState.continues_nil hnc
  let stopped : MergeOrderedKeyStream α β :=
    { s with left, right, pair := ⟨s.pair.left.ensured [], s.pair.right.ensured []⟩ }
  exact ⟨stopped, by simp [loopBody, hl, hr, stopped, pure, Except.pure]⟩

/-- One pass when the merge picks `m`: it fails on a side whose keys do not
follow on, and otherwise gives `m` up on every side whose head it is and
yields it unless it was the key given last. -/
theorem loopBody_of_pick {s : MergeOrderedKeyStream α β} {keysL keysR keysL' keysR' : List DecodedDataStoreKey}
    {m : DecodedDataStoreKey} (h : Holds A B s keysL keysR)
    (hpick : mergePick s.comparator.compareDataKeys keysL keysR = some (m, keysL', keysR')) :
    (∃ e, loopBody A B s = .error e ∧ ¬ s.Continues keysL keysR) ∨
      ∃ s', loopBody A B s = .ok (if s.lastEmitted = some m then .skip s' else .yield m s') ∧
        Holds A B s' keysL' keysR' ∧ s'.lastEmitted = some m ∧ s'.comparator = s.comparator ∧
        (s'.Continues keysL' keysR' ↔ s.Continues keysL keysR) := by
  obtain ⟨hhead, rfl, rfl⟩ := mergePick_spec hpick
  rcases StreamSideState.ensureItem_cases h.left h.leftFollows with ⟨e, hl, hnc⟩ |
    ⟨left, hl, hlh, hlf⟩
  · exact .inl ⟨e, by simp [loopBody, hl], fun hc => hnc hc.1⟩
  rcases StreamSideState.ensureItem_cases h.right h.rightFollows with ⟨e, hr, hnc⟩ |
    ⟨right, hr, hrh, hrf⟩
  · exact .inl ⟨e, by simp [loopBody, hl, hr], fun hc => hnc hc.2⟩
  -- both sides hold their first keys; the choice is the pick
  have hchoice := OrderedPairState.mergeChoice_of_pick (s.pair.left.ensured_item keysL)
    (s.pair.right.ensured_item keysR) hpick
  obtain ⟨hlh', hlf', hlc⟩ := StreamSideState.giveUpIf_of_holds m hlh rfl hlf
  obtain ⟨hrh', hrf', hrc⟩ := StreamSideState.giveUpIf_of_holds m hrh rfl hrf
  have hnonempty : ¬ (keysL.head?.isNone && keysR.head?.isNone) := by
    rcases hhead with hm | hm <;> simp [hm]
  let pair : OrderedPairState :=
    ⟨(s.pair.left.ensured keysL).giveUpIf m, (s.pair.right.ensured keysR).giveUpIf m⟩
  refine .inr ⟨{ s with left, right, pair, lastEmitted := some m }, ?_, ⟨hlh', hrh', hlf', hrf', by simp [pair, h.leftComparator],
    by simp [pair, h.rightComparator]⟩, rfl, rfl,
    ?_⟩
  · simp only [loopBody, hl, hr, Except.ok_bind, StreamSideState.ensured_item]
    rw [if_neg hnonempty, hchoice]
    dsimp only
    -- a suppressed key leaves the key given last as it was
    split_ifs with hlast
    · rw [hlast]
      rfl
    · rfl
  · exact and_congr hlc hrc

/-- The merge drains to `mergeDistinct` of the keys its sides still have to
give, from the key it gave last, when those keys follow on. -/
theorem drain_of_holds {s : MergeOrderedKeyStream α β} {keysL keysR : List DecodedDataStoreKey}
    (h : Holds A B s keysL keysR) (hc : s.Continues keysL keysR) :
    (stream A B).drain s = .ok (mergeDistinct s.comparator.compareDataKeys s.lastEmitted keysL keysR) := by
  obtain ⟨c, hcomp⟩ : ∃ c, s.comparator = c := ⟨_, rfl⟩
  obtain ⟨last, hlast⟩ : ∃ last, s.lastEmitted = last := ⟨_, rfl⟩
  rw [hcomp, hlast]
  -- one pass of the loop for each step of the list function
  induction last, keysL, keysR using mergeDistinct.induct c.compareDataKeys generalizing s with
  | case1 last keysL keysR hpick =>
    obtain ⟨rfl, rfl⟩ := mergePick_eq_none_iff.mp hpick
    obtain ⟨s', hbody⟩ := loopBody_of_nil h
    rw [mergeDistinct_of_pick_none hpick]
    exact LoopStream.drain_of_stop (L := loop A B) hbody
  | case2 last keysL keysR m keysL' keysR' hpick ih =>
    rcases loopBody_of_pick h (hcomp ▸ hpick) with ⟨e, -, hnc⟩ | ⟨s', hbody, h', hlast', hcomp', hc'⟩
    · exact absurd hc hnc
    have hrest := ih h' (hc'.mpr hc) (hcomp'.trans hcomp) hlast'
    rw [mergeDistinct_of_pick_some hpick, emitAfter]
    rw [hlast] at hbody
    split_ifs at hbody ⊢
    · rw [stream, LoopStream.drain_of_skip (L := loop A B) hbody]
      exact hrest
    · rw [stream, LoopStream.drain_of_yield (L := loop A B) hbody]
      rw [stream] at hrest
      rw [hrest]
      rfl

/-- A merge one of whose sides does not follow on fails. -/
theorem drain_error_of_holds {s : MergeOrderedKeyStream α β} {keysL keysR : List DecodedDataStoreKey}
    (h : Holds A B s keysL keysR) (hc : ¬ s.Continues keysL keysR) :
    ∃ e, (stream A B).drain s = .error e := by
  obtain ⟨c, hcomp⟩ : ∃ c, s.comparator = c := ⟨_, rfl⟩
  obtain ⟨last, hlast⟩ : ∃ last, s.lastEmitted = last := ⟨_, rfl⟩
  -- the same passes as `drain_of_holds`, carrying the key that does not follow on
  induction last, keysL, keysR using mergeDistinct.induct c.compareDataKeys generalizing s with
  | case1 last keysL keysR hpick =>
    obtain ⟨rfl, rfl⟩ := mergePick_eq_none_iff.mp hpick
    exact absurd ⟨StreamSideState.continues_nil, StreamSideState.continues_nil⟩ hc
  | case2 last keysL keysR m keysL' keysR' hpick ih =>
    rcases loopBody_of_pick h (hcomp ▸ hpick) with ⟨e, hbody, -⟩ | ⟨s', hbody, h', hlast', hcomp', hc'⟩
    · exact ⟨e, LoopStream.drain_of_error (L := loop A B) hbody⟩
    obtain ⟨e, hrest⟩ := ih h' (mt hc'.mp hc) (hcomp'.trans hcomp) hlast'
    refine ⟨e, ?_⟩
    split_ifs at hbody
    · rw [stream, LoopStream.drain_of_skip (L := loop A B) hbody]
      exact hrest
    · rw [stream, LoopStream.drain_of_yield (L := loop A B) hbody]
      rw [stream] at hrest
      rw [hrest]
      rfl

/-- A new merge holds what its two children drain to. -/
theorem holds_newWithComparator {a : α} {b : β} {xs ys : List DecodedDataStoreKey}
    (c : KeyOrderComparator) (ha : A.drain a = .ok xs) (hb : B.drain b = .ok ys) :
    Holds A B (newWithComparator a b c) xs ys where
  left := ⟨xs, ha, rfl⟩
  right := ⟨ys, hb, rfl⟩
  leftFollows _ _ _ h := by cases h
  rightFollows _ _ _ h := by cases h
  leftComparator := rfl
  rightComparator := rfl

end MergeOrderedKeyStream

/-! ### Intersection -/

namespace IntersectOrderedKeyStream

variable {α β : Type} {A : KeyStream α} {B : KeyStream β}

/-- The intersection read through the keys its two sides still have to give. -/
structure Holds (A : KeyStream α) (B : KeyStream β) (s : IntersectOrderedKeyStream α β)
    (keysL keysR : List DecodedDataStoreKey) : Prop where
  left : s.pair.left.Holds A s.left keysL
  right : s.pair.right.Holds B s.right keysR
  leftFollows : s.pair.left.ItemFollows
  rightFollows : s.pair.right.ItemFollows
  leftComparator : s.pair.left.comparator = s.comparator
  rightComparator : s.pair.right.comparator = s.comparator
  leftContinues : s.pair.left.Continues keysL
  rightContinues : s.pair.right.Continues keysR

/-- Once both sides hold the first of their keys, the pass that follows is
that of `intersectDistinct`. -/
theorem ensureItems {s : IntersectOrderedKeyStream α β} {keysL keysR : List DecodedDataStoreKey}
    (h : Holds A B s keysL keysR) :
    ∃ left right, s.pair.left.ensureItem A s.left = .ok (s.pair.left.ensured keysL, left) ∧
      s.pair.right.ensureItem B s.right = .ok (s.pair.right.ensured keysR, right) ∧
      (s.pair.left.ensured keysL).Holds A left keysL ∧ (s.pair.left.ensured keysL).ItemFollows ∧
      (s.pair.right.ensured keysR).Holds B right keysR ∧ (s.pair.right.ensured keysR).ItemFollows := by
  obtain ⟨left, hl, hlh, hlf⟩ :=
    StreamSideState.ensureItem_of_continues h.left h.leftFollows h.leftContinues
  obtain ⟨right, hr, hrh, hrf⟩ :=
    StreamSideState.ensureItem_of_continues h.right h.rightFollows h.rightContinues
  exact ⟨left, right, hl, hr, hlh, hlf, hrh, hrf⟩

/-- Equal heads: the key is taken on both sides and yielded unless it was
the key given last. -/
theorem loopBody_of_eq {s : IntersectOrderedKeyStream α β} {x : DecodedDataStoreKey}
    {xs ys : List DecodedDataStoreKey} (h : Holds A B s (x :: xs) (x :: ys)) :
    ∃ s', loopBody A B s = .ok (if s.lastEmitted = some x then .skip s' else .yield x s') ∧
      Holds A B s' xs ys ∧ s'.lastEmitted = some x ∧ s'.comparator = s.comparator := by
  obtain ⟨left, right, hl, hr, hlh, hlf, hrh, hrf⟩ := ensureItems h
  have hitemL : (s.pair.left.ensured (x :: xs)).item = some x := rfl
  have hitemR : (s.pair.right.ensured (x :: ys)).item = some x := rfl
  let pair : OrderedPairState :=
    ⟨(s.pair.left.ensured (x :: xs)).clearItem, (s.pair.right.ensured (x :: ys)).clearItem⟩
  refine ⟨{ s with left, right, pair, lastEmitted := some x }, ?_, ⟨StreamSideState.holds_clearItem hlh hitemL,
    StreamSideState.holds_clearItem hrh hitemR, StreamSideState.itemFollows_clearItem _,
    StreamSideState.itemFollows_clearItem _, by simp [pair, h.leftComparator],
    by simp [pair, h.rightComparator], (StreamSideState.continues_clearItem_iff hlf hitemL).mpr
      h.leftContinues, (StreamSideState.continues_clearItem_iff hrf hitemR).mpr h.rightContinues⟩,
    rfl, rfl⟩
  simp only [loopBody, StreamSideState.done_eq_false_of_holds h.left,
    StreamSideState.done_eq_false_of_holds h.right, Bool.or_false, Bool.false_eq_true, if_false,
    hl, hr, Except.ok_bind, hitemL, hitemR, if_true, StreamSideState.takeItem_eq]
  -- a suppressed key leaves the key given last as it was
  split_ifs with hlast
  · rw [hlast]
    rfl
  · rfl

/-- Unequal heads: the lesser one is dropped. -/
theorem loopBody_of_ne {s : IntersectOrderedKeyStream α β} {x y : DecodedDataStoreKey}
    {xs ys : List DecodedDataStoreKey} (h : Holds A B s (x :: xs) (y :: ys)) (hxy : x ≠ y) :
    ∃ s', loopBody A B s = .ok (.skip s') ∧
      (if s.comparator.compareDataKeys x y = .lt then Holds A B s' xs (y :: ys)
        else Holds A B s' (x :: xs) ys) ∧
      s'.lastEmitted = s.lastEmitted ∧ s'.comparator = s.comparator := by
  obtain ⟨left, right, hl, hr, hlh, hlf, hrh, hrf⟩ := ensureItems h
  have hitemL : (s.pair.left.ensured (x :: xs)).item = some x := rfl
  have hitemR : (s.pair.right.ensured (y :: ys)).item = some y := rfl
  let pairL : OrderedPairState :=
    ⟨(s.pair.left.ensured (x :: xs)).clearItem, s.pair.right.ensured (y :: ys)⟩
  let pairR : OrderedPairState :=
    ⟨s.pair.left.ensured (x :: xs), (s.pair.right.ensured (y :: ys)).clearItem⟩
  have hbody : loopBody A B s = .ok (if s.comparator.compareDataKeys x y = .lt
      then .skip { s with left, right, pair := pairL }
      else .skip { s with left, right, pair := pairR }) := by
    simp only [loopBody, StreamSideState.done_eq_false_of_holds h.left,
      StreamSideState.done_eq_false_of_holds h.right, Bool.or_false, Bool.false_eq_true, if_false,
      hl, hr, Except.ok_bind, hitemL, hitemR, hxy]
    split_ifs <;> rfl
  split_ifs at hbody ⊢ with hlt
  · refine ⟨_, hbody, ⟨StreamSideState.holds_clearItem hlh hitemL, hrh,
      StreamSideState.itemFollows_clearItem _, hrf, by simp [pairL, h.leftComparator], h.rightComparator,
      (StreamSideState.continues_clearItem_iff hlf hitemL).mpr h.leftContinues, h.rightContinues⟩,
      rfl, rfl⟩
  · refine ⟨_, hbody, ⟨hlh, StreamSideState.holds_clearItem hrh hitemR, hlf,
      StreamSideState.itemFollows_clearItem _, h.leftComparator, by simp [pairR, h.rightComparator],
      h.leftContinues, (StreamSideState.continues_clearItem_iff hrf hitemR).mpr h.rightContinues⟩,
      rfl, rfl⟩

/-- A side with nothing left: the pass stops. -/
theorem loopBody_of_not_cons {s : IntersectOrderedKeyStream α β} {keysL keysR : List DecodedDataStoreKey}
    (h : Holds A B s keysL keysR) (hnil : ∀ x xs y ys, keysL = x :: xs → keysR = y :: ys → False) :
    ∃ s', loopBody A B s = .ok (.stop s') := by
  unfold loopBody
  split_ifs
  · exact ⟨s, rfl⟩
  obtain ⟨left, right, hl, hr, -⟩ := ensureItems h
  simp only [hl, hr, Except.ok_bind, StreamSideState.ensured_item]
  -- one of the lookahead keys is missing
  rcases keysL with _ | ⟨x, xs⟩ <;> rcases keysR with _ | ⟨y, ys⟩
  · exact ⟨_, rfl⟩
  · exact ⟨_, rfl⟩
  · exact ⟨_, rfl⟩
  · exact (hnil x xs y ys rfl rfl).elim

/-- The intersection drains to `intersectDistinct` of the keys its sides still
have to give, from the key it gave last. -/
theorem drain_of_holds {s : IntersectOrderedKeyStream α β} {keysL keysR : List DecodedDataStoreKey}
    (h : Holds A B s keysL keysR) :
    (stream A B).drain s =
      .ok (intersectDistinct s.comparator.compareDataKeys s.lastEmitted keysL keysR) := by
  obtain ⟨c, hcomp⟩ : ∃ c, s.comparator = c := ⟨_, rfl⟩
  obtain ⟨last, hlast⟩ : ∃ last, s.lastEmitted = last := ⟨_, rfl⟩
  rw [hcomp, hlast]
  -- one pass of the loop for each step of the list function
  induction last, keysL, keysR using intersectDistinct.induct c.compareDataKeys generalizing s with
  | case1 last xs x ys ih =>
    obtain ⟨s', hbody, h', hlast', hcomp'⟩ := loopBody_of_eq h
    have hrest := ih h' (hcomp'.trans hcomp) hlast'
    rw [intersectDistinct, if_pos rfl, emitAfter]
    rw [hlast] at hbody
    split_ifs at hbody ⊢
    · rw [stream, LoopStream.drain_of_skip (L := loop A B) hbody]
      exact hrest
    · rw [stream, LoopStream.drain_of_yield (L := loop A B) hbody]
      rw [stream] at hrest
      rw [hrest]
      rfl
  | case2 last x xs y ys hxy hlt ih =>
    obtain ⟨s', hbody, h', hlast', hcomp'⟩ := loopBody_of_ne h hxy
    rw [hcomp, if_pos hlt] at h'
    rw [intersectDistinct, if_neg hxy, if_pos hlt, stream,
      LoopStream.drain_of_skip (L := loop A B) hbody]
    exact ih h' (hcomp'.trans hcomp) (hlast'.trans hlast)
  | case3 last x xs y ys hxy hlt ih =>
    obtain ⟨s', hbody, h', hlast', hcomp'⟩ := loopBody_of_ne h hxy
    rw [hcomp, if_neg hlt] at h'
    rw [intersectDistinct, if_neg hxy, if_neg hlt, stream,
      LoopStream.drain_of_skip (L := loop A B) hbody]
    exact ih h' (hcomp'.trans hcomp) (hlast'.trans hlast)
  | case4 last keysL keysR hnil =>
    obtain ⟨s', hbody⟩ := loopBody_of_not_cons h hnil
    rw [intersectDistinct_of_not_cons hnil]
    exact LoopStream.drain_of_stop (L := loop A B) hbody

/-- A new intersection holds what its two children drain to. -/
theorem holds_newWithComparator {a : α} {b : β} {xs ys : List DecodedDataStoreKey}
    (c : KeyOrderComparator) (ha : A.drain a = .ok xs) (hb : B.drain b = .ok ys)
    (hxs : xs.IsChain c.Follows) (hys : ys.IsChain c.Follows) :
    Holds A B (newWithComparator a b c) xs ys where
  left := ⟨xs, ha, rfl⟩
  right := ⟨ys, hb, rfl⟩
  leftFollows _ _ _ h := by cases h
  rightFollows _ _ _ h := by cases h
  leftComparator := rfl
  rightComparator := rfl
  leftContinues := hxs
  rightContinues := hys

end IntersectOrderedKeyStream

/-! ### Distinct -/

namespace DistinctOrderedKeyStream

variable {σ : Type} {P : KeyStream σ}

/-- The keys of the inner stream, read from the key given last, never go down. -/
def Monotone (s : DistinctOrderedKeyStream σ) (keys : List DecodedDataStoreKey) : Prop :=
  (s.lastEmitted.toList ++ keys).IsChain fun a b => s.comparator.compareDataKeys a b ≠ .gt

/-- The stream with the inner stream advanced past a key: the key given last
stays when the key is suppressed. -/
theorem loopBody_of_next {s : DistinctOrderedKeyStream σ} {inner : σ} {x : DecodedDataStoreKey}
    (hnext : P.next s.inner = .ok (some x, inner)) :
    loopBody P s = match s.lastEmitted with
      | some last =>
        if s.comparator.compareDataKeys last x = .gt then .error .queryExecutorInvariant
        else if last = x then .ok (.skip { s with inner })
        else .ok (.yield x { s with inner, lastEmitted := some x })
      | none => .ok (.yield x { s with inner, lastEmitted := some x }) := by
  simp only [loopBody, hnext, Except.ok_bind]
  cases s.lastEmitted <;> rfl

/-- On an inner stream whose keys never go down, the adapter drains to
`dropRepeats` of them from the key it gave last. -/
theorem drain_of_monotone {s : DistinctOrderedKeyStream σ} {xs : List DecodedDataStoreKey}
    (hP : P.drain s.inner = .ok xs) (hm : s.Monotone xs) :
    (stream P).drain s = .ok (dropRepeats s.lastEmitted xs) := by
  induction xs generalizing s with
  | nil =>
    obtain ⟨inner, hnext⟩ := PullStream.drain_eq_ok_nil_iff.mp hP
    have hbody : loopBody P s = .ok (.stop { s with inner }) := by
      simp [loopBody, hnext, pure, Except.pure]
    exact LoopStream.drain_of_stop (L := loop P) hbody
  | cons x xs ih =>
    obtain ⟨inner, hnext, hrest⟩ := PullStream.drain_eq_ok_cons_iff.mp hP
    have hbody := loopBody_of_next hnext
    cases hlast : s.lastEmitted with
    | none =>
      rw [hlast] at hbody
      have hm' : Monotone { s with inner, lastEmitted := some x } xs := by
        simpa [Monotone, hlast] using hm
      rw [stream, LoopStream.drain_of_yield (L := loop P) hbody]
      rw [stream] at ih
      rw [ih hrest hm']
      rfl
    | some last =>
      rw [hlast] at hbody
      dsimp only at hbody
      simp only [Monotone, hlast, Option.toList_some, List.singleton_append,
        List.isChain_cons_cons] at hm
      rw [if_neg hm.1] at hbody
      split_ifs at hbody with hlx
      · -- a repeat: passed over, with the key given last kept
        subst hlx
        rw [stream, LoopStream.drain_of_skip (L := loop P) hbody]
        rw [stream] at ih
        rw [ih hrest (by simpa [Monotone, hlast] using hm.2)]
        simp [dropRepeats, emitAfter]
      · rw [stream, LoopStream.drain_of_yield (L := loop P) hbody]
        rw [stream] at ih
        rw [ih hrest (by simpa [Monotone] using hm.2)]
        simp [dropRepeats, emitAfter, hlx]

/-- On an inner stream with a key that goes down, the adapter fails. -/
theorem drain_error_of_not_monotone {s : DistinctOrderedKeyStream σ} {xs : List DecodedDataStoreKey}
    (hP : P.drain s.inner = .ok xs) (hm : ¬ s.Monotone xs) :
    (stream P).drain s = .error .queryExecutorInvariant := by
  induction xs generalizing s with
  | nil => exact absurd (by cases h : s.lastEmitted <;> simp [Monotone, h]) hm
  | cons x xs ih =>
    obtain ⟨inner, hnext, hrest⟩ := PullStream.drain_eq_ok_cons_iff.mp hP
    have hbody := loopBody_of_next hnext
    cases hlast : s.lastEmitted with
    | none =>
      rw [hlast] at hbody
      rw [stream, LoopStream.drain_of_yield (L := loop P) hbody]
      rw [stream] at ih
      rw [ih hrest (by simpa [Monotone, hlast] using hm)]
      rfl
    | some last =>
      rw [hlast] at hbody
      dsimp only at hbody
      simp only [Monotone, hlast, Option.toList_some, List.singleton_append,
        List.isChain_cons_cons, not_and] at hm
      by_cases hgt : s.comparator.compareDataKeys last x = .gt
      · rw [if_pos hgt] at hbody
        exact LoopStream.drain_of_error (L := loop P) hbody
      rw [if_neg hgt] at hbody
      split_ifs at hbody with hlx
      · subst hlx
        rw [stream, LoopStream.drain_of_skip (L := loop P) hbody]
        rw [stream] at ih
        exact ih hrest (by simpa [Monotone, hlast] using hm hgt)
      · rw [stream, LoopStream.drain_of_yield (L := loop P) hbody]
        rw [stream] at ih
        rw [ih hrest (by simpa [Monotone] using hm hgt)]
        rfl

end DistinctOrderedKeyStream

end IcyDb
