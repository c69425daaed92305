import IcyDb.Executor.KeyStream
import Mathlib.Data.List.TakeWhile

/-!
# Held-head seeking

`HeldHeadKeyStream` separates positioning from consumption: `ensure_head`
holds the next key without consuming it, `seek_head_at_or_after` holds the
first key not before a target in traversal order, and `consume_head` removes
the held key.  `RepeatedPullHeldHeadKeyStream` is the protocol's reference
adapter over an ordered stream: it seeks by pulling and discarding keys one at
a time.

The protocol's meaning comes first, over the keys a stream has still to give:
a held key and the keys after it, with seeking as `dropWhile` of the keys
before the target.  The oracle refines it over every inner stream that keeps
to its direction.

This file embeds `HeldHeadSeekOutcome`, `EnsureHeadState` and
`RepeatedPullHeldHeadKeyStream` of `executor::stream::key::seek` under the
unbounded work envelope (`HeldHeadSeekWork::unbounded`): its pull-attempt limit
`u64::MAX` is never reached, so `PageStop` never arises, and its counters only
record work.  Keys are any linear order.  The entity-tag check of a pull is not
modelled, all keys being of one entity; the inner stream is the list of keys it
has still to give.
-/

namespace IcyDb

namespace HeldHead

open Except

/-- `HeldHeadSeekOutcome`, without the `PageStop` that the unbounded work
envelope never gives. -/
inductive HeldHeadSeekOutcome (κ : Type)
  | held (key : κ)
  | exhausted
deriving DecidableEq, Repr

variable {κ : Type} [LinearOrder κ]

/-- `KeyOrderComparator::from_direction(direction).compare_data_keys`. -/
def compareInDirection : Direction → κ → κ → Ordering
  | .asc, a, b => compare a b
  | .desc, a, b => compare b a

/-- `compare_data_keys(key, target).is_lt()`: the key comes before the target
in traversal order. -/
def isBefore (direction : Direction) (key target : κ) : Bool :=
  compareInDirection direction key target == .lt

@[simp] theorem isBefore_asc (key target : κ) : isBefore .asc key target = decide (key < target) :=
  Bool.eq_iff_iff.mpr (by simp [isBefore, compareInDirection, compare_lt_iff_lt])

@[simp] theorem isBefore_desc (key target : κ) :
    isBefore .desc key target = decide (target < key) :=
  Bool.eq_iff_iff.mpr (by simp [isBefore, compareInDirection, compare_lt_iff_lt])

/-! ### The protocol over the keys still to come -/

/-- A held-head stream as the keys it has still to give: the held key, if any,
and the keys after it, in traversal order. -/
structure HeldHeadState (κ : Type) where
  held : Option κ
  rest : List κ
deriving DecidableEq, Repr

namespace HeldHeadState

/-- Every key still to come, the held one first. -/
def pending (s : HeldHeadState κ) : List κ := s.held.toList ++ s.rest

/-- Hold the first key still to come. -/
def ensureHead : HeldHeadState κ → HeldHeadSeekOutcome κ × HeldHeadState κ
  | ⟨some key, rest⟩ => (.held key, ⟨some key, rest⟩)
  | ⟨none, []⟩ => (.exhausted, ⟨none, []⟩)
  | ⟨none, key :: rest⟩ => (.held key, ⟨some key, rest⟩)

/-- Hold the first key not before `target`, dropping every key before it. -/
def seekHeadAtOrAfter (direction : Direction) (target : κ) (s : HeldHeadState κ) :
    HeldHeadSeekOutcome κ × HeldHeadState κ :=
  match s.pending.dropWhile (isBefore direction · target) with
  | [] => (.exhausted, ⟨none, []⟩)
  | key :: rest => (.held key, ⟨some key, rest⟩)

/-- Remove the held key. -/
def consumeHead (s : HeldHeadState κ) : Option κ × HeldHeadState κ :=
  (s.held, ⟨none, s.rest⟩)

/-- Give the first key still to come. -/
def nextKey : HeldHeadState κ → Option κ × HeldHeadState κ
  | ⟨some key, rest⟩ => (some key, ⟨none, rest⟩)
  | ⟨none, []⟩ => (none, ⟨none, []⟩)
  | ⟨none, key :: rest⟩ => (some key, ⟨none, rest⟩)

end HeldHeadState

/-- One call of the held-head protocol, or `next_key` of the ordered-stream
protocol. -/
inductive HeldHeadCall (κ : Type)
  | ensureHead
  | seekHeadAtOrAfter (target : κ)
  | consumeHead
  | nextKey

/-- What one call answers: an outcome of positioning, or a key given up. -/
inductive HeldHeadReply (κ : Type)
  | outcome (outcome : HeldHeadSeekOutcome κ)
  | key (key : Option κ)
deriving DecidableEq, Repr

namespace HeldHeadState

/-- One call on the keys still to come. -/
def step (direction : Direction) : HeldHeadCall κ → HeldHeadState κ →
    HeldHeadReply κ × HeldHeadState κ
  | .ensureHead, s => let (outcome, s) := s.ensureHead; (.outcome outcome, s)
  | .seekHeadAtOrAfter target, s =>
    let (outcome, s) := s.seekHeadAtOrAfter direction target; (.outcome outcome, s)
  | .consumeHead, s => let (key, s) := s.consumeHead; (.key key, s)
  | .nextKey, s => let (key, s) := s.nextKey; (.key key, s)

/-- The replies to a sequence of calls. -/
def run (direction : Direction) : List (HeldHeadCall κ) → HeldHeadState κ → List (HeldHeadReply κ)
  | [], _ => []
  | call :: calls, s => (s.step direction call).1 :: run direction calls (s.step direction call).2

/-! ### What a call reads of the keys to come -/

omit [LinearOrder κ] in
theorem eq_of_pending_eq_nil {a : HeldHeadState κ} (h : a.pending = []) : a = ⟨none, []⟩ := by
  obtain ⟨held, rest⟩ := a
  cases held <;> simp_all [pending]

omit [LinearOrder κ] in
theorem ensureHead_of_pending_eq_cons {a : HeldHeadState κ} {key : κ} {rest : List κ}
    (h : a.pending = key :: rest) : a.ensureHead = (.held key, ⟨some key, rest⟩) := by
  obtain ⟨held, rest'⟩ := a
  cases held with
  | none =>
    simp only [pending, Option.toList_none, List.nil_append] at h
    rw [h]
    rfl
  | some k =>
    simp only [pending, Option.toList_some, List.singleton_append, List.cons.injEq] at h
    rw [h.1, h.2]
    rfl

omit [LinearOrder κ] in
theorem nextKey_of_pending_eq_cons {a : HeldHeadState κ} {key : κ} {rest : List κ}
    (h : a.pending = key :: rest) : a.nextKey = (some key, ⟨none, rest⟩) := by
  obtain ⟨held, rest'⟩ := a
  cases held with
  | none =>
    simp only [pending, Option.toList_none, List.nil_append] at h
    rw [h]
    rfl
  | some k =>
    simp only [pending, Option.toList_some, List.singleton_append, List.cons.injEq] at h
    rw [h.1, h.2]
    rfl

/-- A seek holds a key whenever some key still to come is not before the
target: the first such key. -/
theorem seekHeadAtOrAfter_of_mem {direction : Direction} {target k : κ} {a : HeldHeadState κ}
    (hk : k ∈ a.pending) (hnot : isBefore direction k target = false) :
    ∃ key rest, a.seekHeadAtOrAfter direction target = (.held key, ⟨some key, rest⟩) ∧
      key ∈ a.pending ∧ isBefore direction key target = false := by
  have hne : a.pending.dropWhile (isBefore direction · target) ≠ [] := by
    intro hnil
    have := List.dropWhile_eq_nil_iff.mp hnil k hk
    simp_all
  obtain ⟨key, rest, hcons⟩ := List.exists_cons_of_ne_nil hne
  have hkey := List.head_dropWhile_not (isBefore direction · target) hne
  simp only [hcons, List.head_cons] at hkey
  refine ⟨key, rest, by rw [seekHeadAtOrAfter, hcons], ?_, hkey⟩
  exact (List.dropWhile_suffix _).subset (hcons ▸ List.mem_cons_self)

/-- A seek reads only the keys still to come. -/
theorem seekHeadAtOrAfter_of_pending {direction : Direction} {target : κ} {a b : HeldHeadState κ}
    (h : a.pending.dropWhile (isBefore direction · target) =
      b.pending.dropWhile (isBefore direction · target)) :
    a.seekHeadAtOrAfter direction target = b.seekHeadAtOrAfter direction target := by
  rw [seekHeadAtOrAfter, seekHeadAtOrAfter, h]

end HeldHeadState

/-! ### The repeated-pull oracle -/

/-- `EnsureHeadState`, without `PageStop`. -/
inductive EnsureHeadState
  | held
  | exhausted
deriving DecidableEq, Repr

/-- `RepeatedPullHeldHeadKeyStream` over an inner stream that has `inner` still
to give. -/
structure RepeatedPullHeldHeadKeyStream (κ : Type) where
  inner : List κ
  direction : Direction
  held : Option κ
  exhausted : Bool
  lastPulled : Option κ

namespace RepeatedPullHeldHeadKeyStream

/-- `RepeatedPullHeldHeadKeyStream::new`. -/
def new (inner : List κ) (direction : Direction) : RepeatedPullHeldHeadKeyStream κ :=
  ⟨inner, direction, none, false, none⟩

/-- The check `ensure_head_state` makes of a pulled key: it may not move against
the direction from the key pulled before it. -/
def checkPulled (direction : Direction) (lastPulled : Option κ) (next : κ) :
    Except InternalError Unit :=
  match lastPulled with
  | some previous => failIf (compareInDirection direction previous next = .gt) .executorInvariant
  | none => pure ()

/-- `ensure_head_state`: hold the inner stream's next key. -/
def ensureHeadState (s : RepeatedPullHeldHeadKeyStream κ) :
    Except InternalError (EnsureHeadState × RepeatedPullHeldHeadKeyStream κ) :=
  if s.held.isSome then pure (.held, s)
  else if s.exhausted then pure (.exhausted, s)
  else
    match s.inner with
    | [] => pure (.exhausted, { s with exhausted := true })
    | next :: inner => do
      checkPulled s.direction s.lastPulled next
      pure (.held, { s with inner, lastPulled := some next, held := some next })

/-- `outcome`. -/
def outcome (s : RepeatedPullHeldHeadKeyStream κ) :
    EnsureHeadState → Except InternalError (HeldHeadSeekOutcome κ)
  | .held => okOrElse (s.held.map .held) .executorInvariant
  | .exhausted => pure .exhausted

/-- `ensure_head`. -/
def ensureHead (s : RepeatedPullHeldHeadKeyStream κ) :
    Except InternalError (HeldHeadSeekOutcome κ × RepeatedPullHeldHeadKeyStream κ) := do
  let (state, s) ← s.ensureHeadState
  let outcome ← s.outcome state
  pure (outcome, s)

/-- `discard_head_for_seek`. -/
def discardHeadForSeek (s : RepeatedPullHeldHeadKeyStream κ) :
    Except InternalError (RepeatedPullHeldHeadKeyStream κ) := do
  failIf s.held.isNone .executorInvariant
  pure { s with held := none }

/-- The keys the oracle can still hold: the inner stream's and the held one.
Every pass of the seek loop but the last discards one of them. -/
def unseen (s : RepeatedPullHeldHeadKeyStream κ) : Nat := s.inner.length + s.held.toList.length

theorem unseen_of_ensureHeadState {s s' : RepeatedPullHeldHeadKeyStream κ}
    (h : s.ensureHeadState = .ok (.held, s')) : s'.unseen = s.unseen ∧ s'.held.isSome := by
  unfold ensureHeadState at h
  by_cases hheld : s.held.isSome
  · rw [if_pos hheld] at h
    cases h
    exact ⟨rfl, hheld⟩
  · rw [if_neg hheld] at h
    split at h
    · cases h
    · split at h
      · cases h
      · rename_i next inner hinner
        simp only [bind_eq_ok_iff, pure_eq_ok_iff, Prod.mk.injEq] at h
        obtain ⟨_, -, -, rfl⟩ := h
        simp only [Bool.not_eq_true, Option.isSome_eq_false_iff, Option.isNone_iff_eq_none] at hheld
        simp [unseen, hinner, hheld]

omit [LinearOrder κ] in
theorem discardHeadForSeek_eq_ok {s s' : RepeatedPullHeldHeadKeyStream κ}
    (h : s.discardHeadForSeek = .ok s') : s' = { s with held := none } ∧ s.held.isSome := by
  simp only [discardHeadForSeek, bind_eq_ok_iff, failIf_eq_ok_iff, pure_eq_ok_iff] at h
  obtain ⟨_, hheld, rfl⟩ := h
  exact ⟨rfl, by simpa [Option.isSome_iff_ne_none] using hheld⟩

set_option linter.unusedVariables false in
/-- `seek_head_at_or_after`: ensure a head, and discard it while it comes
before the target. -/
def seekHeadAtOrAfter (target : κ) (s : RepeatedPullHeldHeadKeyStream κ) :
    Except InternalError (HeldHeadSeekOutcome κ × RepeatedPullHeldHeadKeyStream κ) :=
  match hensure : s.ensureHeadState with
  | .error e => .error e
  | .ok (.exhausted, s) => do
    let outcome ← s.outcome .exhausted
    pure (outcome, s)
  | .ok (.held, held) =>
    match held.held with
    | none => .error .executorInvariant
    | some key =>
      if isBefore held.direction key target then
        match hdiscard : held.discardHeadForSeek with
        | .error e => .error e
        | .ok discarded => seekHeadAtOrAfter target discarded
      else do
        let outcome ← held.outcome .held
        pure (outcome, held)
termination_by s.unseen
decreasing_by
  obtain ⟨hunseen, hsome⟩ := unseen_of_ensureHeadState hensure
  obtain ⟨rfl, -⟩ := discardHeadForSeek_eq_ok hdiscard
  rw [← hunseen]
  obtain ⟨key, hkey⟩ := Option.isSome_iff_exists.mp hsome
  simp [unseen, hkey]

/-- `consume_head`. -/
def consumeHead (s : RepeatedPullHeldHeadKeyStream κ) : Option κ × RepeatedPullHeldHeadKeyStream κ :=
  if s.held.isNone then (none, s) else (s.held, { s with held := none })

/-- One call on the oracle.  The oracle answers the held-head protocol only;
`next_key` is its `ensure_head` followed by `consume_head`, which is what
`next_key` of a physical leaf does. -/
def step : HeldHeadCall κ → RepeatedPullHeldHeadKeyStream κ →
    Except InternalError (HeldHeadReply κ × RepeatedPullHeldHeadKeyStream κ)
  | .ensureHead, s => do
    let (outcome, s) ← s.ensureHead
    pure (.outcome outcome, s)
  | .seekHeadAtOrAfter target, s => do
    let (outcome, s) ← s.seekHeadAtOrAfter target
    pure (.outcome outcome, s)
  | .consumeHead, s => let (key, s) := s.consumeHead; pure (.key key, s)
  | .nextKey, s => do
    let (_, s) ← s.ensureHead
    let (key, s) := s.consumeHead
    pure (.key key, s)

/-- The replies to a sequence of calls, or the first error. -/
def run : List (HeldHeadCall κ) → RepeatedPullHeldHeadKeyStream κ →
    Except InternalError (List (HeldHeadReply κ))
  | [], _ => pure []
  | call :: calls, s => do
    let (reply, s) ← s.step call
    let replies ← run calls s
    pure (reply :: replies)

/-! ### The oracle refines the protocol -/

/-- The oracle holds what the abstract state holds and has its other keys still
to pull; once exhausted it has none, and every key from the last one pulled on
keeps to the direction. -/
structure Refines (s : RepeatedPullHeldHeadKeyStream κ) (a : HeldHeadState κ) : Prop where
  held : s.held = a.held
  inner : s.inner = a.rest
  exhausted : s.exhausted = true → s.inner = []
  monotone : (s.lastPulled.toList ++ s.inner).IsChain
    fun x y => compareInDirection s.direction x y ≠ .gt

theorem refines_new {inner : List κ} {direction : Direction}
    (h : inner.IsChain fun x y => compareInDirection direction x y ≠ .gt) :
    Refines (new inner direction) ⟨none, inner⟩ :=
  ⟨rfl, rfl, by simp [new], h⟩

/-! ### One call of the oracle, case by case -/

theorem ensureHeadState_of_held {s : RepeatedPullHeldHeadKeyStream κ} {key : κ}
    (hheld : s.held = some key) : s.ensureHeadState = .ok (.held, s) := by
  rw [ensureHeadState, if_pos (by rw [hheld]; rfl)]
  rfl

theorem ensureHeadState_of_exhausted {s : RepeatedPullHeldHeadKeyStream κ}
    (hheld : s.held = none) (hexhausted : s.exhausted = true) :
    s.ensureHeadState = .ok (.exhausted, s) := by
  rw [ensureHeadState, if_neg (by simp [hheld]), if_pos hexhausted]
  rfl

theorem ensureHeadState_of_nil {s : RepeatedPullHeldHeadKeyStream κ}
    (hheld : s.held = none) (hexhausted : s.exhausted = false) (hinner : s.inner = []) :
    s.ensureHeadState = .ok (.exhausted, { s with exhausted := true }) := by
  rw [ensureHeadState, if_neg (by simp [hheld]), if_neg (by rw [hexhausted]; decide)]
  simp only [hinner]
  rfl

theorem ensureHeadState_of_cons {s : RepeatedPullHeldHeadKeyStream κ} {next : κ} {inner : List κ}
    (hheld : s.held = none) (hexhausted : s.exhausted = false) (hinner : s.inner = next :: inner)
    (hcheck : checkPulled s.direction s.lastPulled next = .ok ()) :
    s.ensureHeadState =
      .ok (.held, { s with inner, lastPulled := some next, held := some next }) := by
  rw [ensureHeadState, if_neg (by simp [hheld]), if_neg (by rw [hexhausted]; decide)]
  simp only [hinner]
  rw [bind_eq_ok_iff]
  exact ⟨(), hcheck, rfl⟩

/-- A key that keeps to the direction from the last one pulled passes the
check. -/
theorem checkPulled_of_isChain {direction : Direction} {lastPulled : Option κ} {next : κ}
    {inner : List κ}
    (h : (lastPulled.toList ++ next :: inner).IsChain
      fun x y => compareInDirection direction x y ≠ .gt) :
    checkPulled direction lastPulled next = .ok () := by
  cases lastPulled with
  | none => rfl
  | some previous =>
    have hle : compareInDirection direction previous next ≠ .gt := by
      simp only [Option.toList_some, List.singleton_append, List.isChain_cons_cons] at h
      exact h.1
    exact failIf_of_not hle

/-- Ensuring a head holds the first key still to come, or finds none. -/
theorem ensureHeadState_refines {s : RepeatedPullHeldHeadKeyStream κ} {a : HeldHeadState κ}
    (h : Refines s a) :
    (a.pending = [] ∧ ∃ s', s.ensureHeadState = .ok (.exhausted, s') ∧
      s'.direction = s.direction ∧ Refines s' ⟨none, []⟩) ∨
    (∃ key rest s', a.pending = key :: rest ∧ s.ensureHeadState = .ok (.held, s') ∧
      s'.direction = s.direction ∧ Refines s' ⟨some key, rest⟩) := by
  obtain ⟨hheld, hinner, hexhausted, hmono⟩ := h
  rcases hs : s.held with _ | key
  · -- nothing held: the inner stream is pulled unless it is known to be done
    have ha : a.held = none := by rw [← hheld, hs]
    cases hex : s.exhausted
    · rcases hin : s.inner with _ | ⟨next, inner⟩
      · refine .inl ⟨by simp [HeldHeadState.pending, ha, ← hinner, hin], _,
          ensureHeadState_of_nil hs hex hin, rfl, ⟨hs, hin, fun _ => hin, ?_⟩⟩
        simpa [hin] using hmono
      · have hcheck := checkPulled_of_isChain (hin ▸ hmono)
        refine .inr ⟨next, inner, _, by simp [HeldHeadState.pending, ha, ← hinner, hin],
          ensureHeadState_of_cons hs hex hin hcheck, rfl, ⟨rfl, rfl, fun h => ?_, ?_⟩⟩
        · rw [hex] at h
          cases h
        · rw [hin] at hmono
          simpa using hmono.right_of_append
    · have hin := hexhausted hex
      refine .inl ⟨by simp [HeldHeadState.pending, ha, ← hinner, hin], s,
        ensureHeadState_of_exhausted hs hex, rfl, ⟨hs, hin, fun _ => hin, hmono⟩⟩
  · -- a held key is the first key still to come
    refine .inr ⟨key, a.rest, s, by simp [HeldHeadState.pending, ← hheld, hs],
      ensureHeadState_of_held hs, rfl, ⟨hs, hinner, hexhausted, hmono⟩⟩

/-! ### The seek loop -/

omit [LinearOrder κ] in
theorem discardHeadForSeek_of_held {s : RepeatedPullHeldHeadKeyStream κ} {key : κ}
    (hkey : s.held = some key) : s.discardHeadForSeek = .ok { s with held := none } := by
  rw [discardHeadForSeek, failIf_of_not (by simp [hkey])]
  rfl

theorem seekHeadAtOrAfter_of_exhausted {s s' : RepeatedPullHeldHeadKeyStream κ} {target : κ}
    (h : s.ensureHeadState = .ok (.exhausted, s')) :
    s.seekHeadAtOrAfter target = .ok (.exhausted, s') := by
  rw [seekHeadAtOrAfter]
  split <;> simp_all
  rfl

theorem seekHeadAtOrAfter_of_before {s s' : RepeatedPullHeldHeadKeyStream κ} {key target : κ}
    (h : s.ensureHeadState = .ok (.held, s')) (hkey : s'.held = some key)
    (hbefore : isBefore s'.direction key target = true) :
    s.seekHeadAtOrAfter target = seekHeadAtOrAfter target { s' with held := none } := by
  rw [seekHeadAtOrAfter]
  split <;> simp_all
  split <;> simp_all [discardHeadForSeek_of_held hkey]

theorem seekHeadAtOrAfter_of_not_before {s s' : RepeatedPullHeldHeadKeyStream κ} {key target : κ}
    (h : s.ensureHeadState = .ok (.held, s')) (hkey : s'.held = some key)
    (hbefore : isBefore s'.direction key target = false) :
    s.seekHeadAtOrAfter target = .ok (.held key, s') := by
  rw [seekHeadAtOrAfter]
  split <;> simp_all
  rw [outcome, hkey]
  rfl

/-- Dropping the held key leaves the keys after it to come. -/
theorem Refines.discard {s : RepeatedPullHeldHeadKeyStream κ} {key : κ} {rest : List κ}
    (h : Refines s ⟨some key, rest⟩) : Refines { s with held := none } ⟨none, rest⟩ :=
  ⟨rfl, h.inner, h.exhausted, h.monotone⟩


/-- The oracle's seek discards exactly the keys before the target and holds
the first one after them.  The induction is on the keys still to come, one of
which each discarding pass of the loop removes. -/
theorem seekHeadAtOrAfter_refines (target : κ) :
    ∀ (n : Nat) {s : RepeatedPullHeldHeadKeyStream κ} {a : HeldHeadState κ},
      a.pending.length ≤ n → Refines s a →
      ∃ s', s.seekHeadAtOrAfter target =
          .ok ((a.seekHeadAtOrAfter s.direction target).1, s') ∧
        s'.direction = s.direction ∧ Refines s' (a.seekHeadAtOrAfter s.direction target).2
  | n, s, a, hlen, h => by
    rcases ensureHeadState_refines h with
      ⟨hnil, s', hensure, hdir, hs'⟩ | ⟨key, rest, s', hcons, hensure, hdir, hs'⟩
    · -- nothing is left: both sides are exhausted
      rw [seekHeadAtOrAfter_of_exhausted hensure]
      simp only [HeldHeadState.seekHeadAtOrAfter, hnil, List.dropWhile_nil]
      exact ⟨s', rfl, hdir, hs'⟩
    · by_cases hbefore : isBefore s.direction key target = true
      · -- the held key is discarded, and the loop goes on with one key fewer
        rw [seekHeadAtOrAfter_of_before hensure hs'.held (hdir ▸ hbefore)]
        have hshort : (⟨none, rest⟩ : HeldHeadState κ).pending.length < n := by
          rw [hcons] at hlen
          simp only [HeldHeadState.pending, Option.toList_none, List.nil_append]
          simp only [List.length_cons] at hlen
          omega
        obtain ⟨s'', hseek, hdir'', hs''⟩ :=
          seekHeadAtOrAfter_refines target (n - 1) (by omega) hs'.discard
        -- the discarded state keeps the direction
        dsimp only at hdir'' hs''
        rw [hdir] at hdir'' hs''
        have hsame : a.seekHeadAtOrAfter s.direction target =
            (⟨none, rest⟩ : HeldHeadState κ).seekHeadAtOrAfter s.direction target := by
          apply HeldHeadState.seekHeadAtOrAfter_of_pending
          rw [hcons, List.dropWhile_cons_of_pos (p := fun x => isBefore s.direction x target) hbefore]
          rfl
        rw [hsame]
        refine ⟨s'', ?_, hdir'', hs''⟩
        rw [hseek]
        dsimp only
        rw [hdir]
      · -- the held key is not before the target and stays held
        rw [seekHeadAtOrAfter_of_not_before hensure hs'.held (by simpa [hdir] using hbefore)]
        have habs : a.seekHeadAtOrAfter s.direction target = (.held key, ⟨some key, rest⟩) := by
          rw [HeldHeadState.seekHeadAtOrAfter, hcons,
            List.dropWhile_cons_of_neg (p := fun x => isBefore s.direction x target) hbefore]
        rw [habs]
        exact ⟨s', rfl, hdir, hs'⟩

/-- `ensure_head` answers what the protocol answers. -/
theorem ensureHead_refines {s : RepeatedPullHeldHeadKeyStream κ} {a : HeldHeadState κ}
    (h : Refines s a) :
    ∃ s', s.ensureHead = .ok (a.ensureHead.1, s') ∧ s'.direction = s.direction ∧
      Refines s' a.ensureHead.2 := by
  rcases ensureHeadState_refines h with
    ⟨hnil, s', hensure, hdir, hs'⟩ | ⟨key, rest, s', hcons, hensure, hdir, hs'⟩
  · rw [HeldHeadState.eq_of_pending_eq_nil hnil]
    refine ⟨s', ?_, hdir, hs'⟩
    rw [ensureHead, hensure]
    rfl
  · rw [HeldHeadState.ensureHead_of_pending_eq_cons hcons]
    refine ⟨s', ?_, hdir, hs'⟩
    rw [ensureHead, hensure]
    show (do let outcome ← s'.outcome .held; pure (outcome, s')) = _
    rw [outcome, hs'.held]
    rfl

/-- `consume_head` gives up the held key, if any. -/
theorem consumeHead_refines {s : RepeatedPullHeldHeadKeyStream κ} {a : HeldHeadState κ}
    (h : Refines s a) :
    s.consumeHead.1 = a.consumeHead.1 ∧ s.consumeHead.2.direction = s.direction ∧
      Refines s.consumeHead.2 a.consumeHead.2 := by
  rcases hs : s.held with _ | key
  · -- nothing held: nothing is given up and nothing changes
    have ha : a.held = none := by rw [← h.held, hs]
    have hconsume : s.consumeHead = (none, s) := by simp [consumeHead, hs]
    have habs : a.consumeHead = (none, a) := by
      obtain ⟨held, rest⟩ := a
      simp only at ha
      simp [HeldHeadState.consumeHead, ha]
    rw [hconsume, habs]
    exact ⟨rfl, rfl, h⟩
  · have hconsume : s.consumeHead = (some key, { s with held := none }) := by
      simp [consumeHead, hs]
    rw [hconsume]
    exact ⟨by rw [HeldHeadState.consumeHead, ← h.held, hs], rfl,
      ⟨rfl, h.inner, h.exhausted, h.monotone⟩⟩

/-- One call of the oracle answers what the protocol answers, and the oracle
goes on refining the protocol's state. -/
theorem step_refines {s : RepeatedPullHeldHeadKeyStream κ} {a : HeldHeadState κ}
    (h : Refines s a) (call : HeldHeadCall κ) :
    ∃ s', s.step call = .ok ((a.step s.direction call).1, s') ∧ s'.direction = s.direction ∧
      Refines s' (a.step s.direction call).2 := by
  cases call with
  | ensureHead =>
    obtain ⟨s', hensure, hdir, hs'⟩ := ensureHead_refines h
    refine ⟨s', ?_, hdir, hs'⟩
    rw [step, hensure]
    rfl
  | seekHeadAtOrAfter target =>
    obtain ⟨s', hseek, hdir, hs'⟩ := seekHeadAtOrAfter_refines target _ le_rfl h
    refine ⟨s', ?_, hdir, hs'⟩
    rw [step, hseek]
    rfl
  | consumeHead =>
    obtain ⟨hkey, hdir, hs'⟩ := consumeHead_refines h
    refine ⟨s.consumeHead.2, ?_, hdir, hs'⟩
    show pure (HeldHeadReply.key s.consumeHead.1, s.consumeHead.2) = _
    rw [hkey]
    rfl
  | nextKey =>
    -- `next_key` is `ensure_head` and then `consume_head`
    obtain ⟨s', hensure, hdir, hs'⟩ := ensureHead_refines h
    obtain ⟨hkey, hdir', hs''⟩ := consumeHead_refines hs'
    have hnext : (a.step s.direction .nextKey) = (.key a.ensureHead.2.consumeHead.1,
        a.ensureHead.2.consumeHead.2) := by
      rcases hp : a.pending with _ | ⟨key, rest⟩
      · rw [HeldHeadState.eq_of_pending_eq_nil hp]
        rfl
      · rw [HeldHeadState.step, HeldHeadState.nextKey_of_pending_eq_cons hp,
          HeldHeadState.ensureHead_of_pending_eq_cons hp]
        rfl
    rw [hnext]
    refine ⟨s'.consumeHead.2, ?_, hdir'.trans hdir, hs''⟩
    rw [step, hensure, Except.ok_bind]
    show pure (HeldHeadReply.key s'.consumeHead.1, s'.consumeHead.2) = _
    rw [hkey]
    rfl

/-- Over every sequence of calls the oracle answers what the protocol answers.
The induction is on the calls, one step lemma each. -/
theorem run_refines :
    ∀ (calls : List (HeldHeadCall κ)) {s : RepeatedPullHeldHeadKeyStream κ}
      {a : HeldHeadState κ}, Refines s a → s.run calls = .ok (a.run s.direction calls)
  | [], _, _, _ => rfl
  | call :: calls, s, a, h => by
    obtain ⟨s', hstep, hdir, hs'⟩ := step_refines h call
    have hrest := run_refines calls hs'
    rw [hdir] at hrest
    rw [run, hstep, Except.ok_bind]
    dsimp only
    rw [hrest]
    rfl

end RepeatedPullHeldHeadKeyStream



end HeldHead

end IcyDb
