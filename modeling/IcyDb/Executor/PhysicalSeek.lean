import IcyDb.Executor.HeldHeadSeek
import IcyDb.Order.SortedRange

/-!
# Physical seeks of the primary range leaf

`PrimaryRangeKeyStream` reads one data-store range in chunks of at most
`chunk_entries` keys.  After each chunk it moves the bound on its side of the
traversal past the chunk's last key, the lower bound for `Asc` and the upper
one for `Desc`, so that its bounds describe what the store has still to give
after the buffer.  Its held-head seek discards a held key that comes before
the target and then repositions: with no row limit it moves the same bound to
`Included(target)` and clears the buffer, unless the target lies outside the
current bounds, in which case it clears the buffer and declares the stream
exhausted.

That test reads the bounds as they stand after the last chunk.  A target that
lies inside the buffered chunk is therefore outside them, and the seek drops
the buffered keys at and after the target together with every key after the
chunk, where the repeated-pull oracle over the same keys holds the first key
not before the target.

The data store is the list of its keys in ascending order, a `SortedKeys`;
`visit_key_range` and `visit_key_range_rev` read the keys within a pair of
bounds in traversal order and stop after `chunk_limit` of them.  Raw keys of
one entity compare as the decoded keys
(`DataStoreKey.compare_toRaw_of_entityTag_eq`), so one linear order serves
both.  Not modelled: the execution-budget charges and the work counters, which
only record work under the unbounded envelope, so `PageStop` never arises; the
decoding of raw keys, which does not fail on keys the store accepted; the
entity-tag check, all keys being of one entity; and `try_visit_rows_direct`
and `resume_strictly_after`, which no held-head call makes.  The buffer is the
part of `buffer` from `buffer_pos` on.

This file embeds `PrimaryRangeKeyStream` of `executor::stream::access::physical`
with its `OrderedKeyStream` and `HeldHeadKeyStream` implementations.
-/

namespace IcyDb

namespace HeldHead

variable {κ : Type} [LinearOrder κ]

/-- The keys of one entity in a data store, in ascending order. -/
structure SortedKeys (κ : Type) [LinearOrder κ] where
  keys : List κ
  sorted : keys.Pairwise (· < ·)

/-- The keys a store holds within a pair of bounds, in traversal order:
`visit_key_range` for `Asc`, `visit_key_range_rev` for `Desc`. -/
def rangeKeys (store : SortedKeys κ) (lower upper : Bound κ) : Direction → List κ
  | .asc => store.keys.filter (rangeContains (lower, upper))
  | .desc => (store.keys.filter (rangeContains (lower, upper))).reverse

/-- `held_head_outcome`. -/
def heldHeadOutcome : Option κ → HeldHeadSeekOutcome κ
  | some key => .held key
  | none => .exhausted

/-- `PrimaryRangeKeyStream`, without its store handle and entity tag. -/
structure PrimaryRangeKeyStream (κ : Type) where
  lowerBound : Bound κ
  upperBound : Bound κ
  direction : Direction
  remaining : Option Nat
  chunkEntries : Nat
  buffer : List κ
  held : Option κ
  exhausted : Bool

namespace PrimaryRangeKeyStream

/-- A stream that has read nothing yet: `PrimaryRangeKeyStream::new` with the
bounds `Included(start)` and `Included(end)`, and `new_full_scan` with the
entity's prefix bounds. -/
def ofBounds (lowerBound upperBound : Bound κ) (direction : Direction) (limit : Option Nat)
    (chunkEntries : Nat) : PrimaryRangeKeyStream κ :=
  ⟨lowerBound, upperBound, direction, limit, chunkEntries, [], none, false⟩

/-- `PrimaryRangeKeyStream::new`. -/
def new (start finish : κ) (direction : Direction) (limit : Option Nat) (chunkEntries : Nat) :
    PrimaryRangeKeyStream κ :=
  ofBounds (.included start) (.included finish) direction limit chunkEntries

/-- `next_chunk_limit`. -/
def nextChunkLimit (s : PrimaryRangeKeyStream κ) : Nat :=
  match s.remaining with
  | some remaining => if remaining < s.chunkEntries then remaining else s.chunkEntries
  | none => s.chunkEntries

/-- The bounds once the traversal has passed `key`: `load_next_chunk` moves
the bound on the traversal's side to `Excluded(key)`. -/
def passKey (s : PrimaryRangeKeyStream κ) (key : κ) : PrimaryRangeKeyStream κ :=
  match s.direction with
  | .asc => { s with lowerBound := .excluded key }
  | .desc => { s with upperBound := .excluded key }

/-- After a chunk is read, the bound moves past its last key; a chunk with no
key ends the stream. -/
def advancePast (keys : List κ) (s : PrimaryRangeKeyStream κ) : PrimaryRangeKeyStream κ :=
  match keys.getLast? with
  | some rawKey => s.passKey rawKey
  | none => { s with exhausted := true }

/-- The row limit takes the keys of a chunk; a limit used up ends the stream. -/
def consumeRemaining (emitted : Nat) (s : PrimaryRangeKeyStream κ) : PrimaryRangeKeyStream κ :=
  match s.remaining with
  | some remaining =>
    { s with remaining := some (remaining - emitted),
             exhausted := s.exhausted || remaining - emitted == 0 }
  | none => s

/-- `load_next_chunk`. -/
def loadNextChunk (store : SortedKeys κ) (s : PrimaryRangeKeyStream κ) : PrimaryRangeKeyStream κ :=
  let chunkLimit := s.nextChunkLimit
  if s.exhausted || chunkLimit == 0 then { s with exhausted := true }
  else
    let keys := (rangeKeys store s.lowerBound s.upperBound s.direction).take chunkLimit
    let s := ({ s with buffer := keys }.advancePast keys).consumeRemaining keys.length
    -- a short chunk means the range has no more keys
    if keys.length < chunkLimit then { s with exhausted := true } else s

/-- The buffered key at `buffer_pos`, if any, taken. -/
def takeBuffered (s : PrimaryRangeKeyStream κ) : Option κ × PrimaryRangeKeyStream κ :=
  match s.buffer with
  | [] => (none, s)
  | key :: buffer => (some key, { s with buffer })

/-- `pull_next_key`: refill an empty buffer once, then take its first key. -/
def pullNextKey (store : SortedKeys κ) (s : PrimaryRangeKeyStream κ) :
    Option κ × PrimaryRangeKeyStream κ :=
  (if s.buffer.isEmpty then s.loadNextChunk store else s).takeBuffered

/-- The bounds a physical seek sets: `configure_physical_seek` moves the bound
on the traversal's side to `Included(target)`. -/
def seekTo (s : PrimaryRangeKeyStream κ) (target : κ) : PrimaryRangeKeyStream κ :=
  match s.direction with
  | .asc => { s with lowerBound := .included target }
  | .desc => { s with upperBound := .included target }

/-- `configure_physical_seek`.  With a row limit it does nothing and the seek
loop pulls; a target outside the current bounds ends the stream. -/
def configurePhysicalSeek (target : κ) (s : PrimaryRangeKeyStream κ) :
    Bool × PrimaryRangeKeyStream κ :=
  if s.remaining.isSome then (false, s)
  else if !rangeContains (s.lowerBound, s.upperBound) target then
    (true, { s with buffer := [], exhausted := true })
  else
    (true, { s.seekTo target with buffer := [], exhausted := false })

/-- `ensure_physical_head`. -/
def ensurePhysicalHead (store : SortedKeys κ) (s : PrimaryRangeKeyStream κ) :
    HeldHeadSeekOutcome κ × PrimaryRangeKeyStream κ :=
  match s.held with
  | some key => (.held key, s)
  | none =>
    if s.exhausted && s.buffer.isEmpty then (.exhausted, s)
    else
      let (held, s) := s.pullNextKey store
      (heldHeadOutcome held, { s with held })

/-! ### What the stream can still give -/

/-- The keys the store still holds within the stream's bounds, in traversal
order. -/
def inRange (store : SortedKeys κ) (s : PrimaryRangeKeyStream κ) : List κ :=
  rangeKeys store s.lowerBound s.upperBound s.direction

/-- The keys still within reach: those in the bounds, those buffered, and the
held one.  Every pass of the seek loop but the last discards one of them. -/
def reach (store : SortedKeys κ) (s : PrimaryRangeKeyStream κ) : Nat :=
  (s.inRange store).length + s.buffer.length + s.held.toList.length

section Fields

omit [LinearOrder κ]

variable (s : PrimaryRangeKeyStream κ)

@[simp] theorem passKey_direction (key : κ) : (s.passKey key).direction = s.direction := by
  unfold passKey; split <;> rfl

@[simp] theorem passKey_remaining (key : κ) : (s.passKey key).remaining = s.remaining := by
  unfold passKey; split <;> rfl

@[simp] theorem passKey_buffer (key : κ) : (s.passKey key).buffer = s.buffer := by
  unfold passKey; split <;> rfl

@[simp] theorem passKey_held (key : κ) : (s.passKey key).held = s.held := by
  unfold passKey; split <;> rfl

@[simp] theorem seekTo_direction (target : κ) : (s.seekTo target).direction = s.direction := by
  unfold seekTo; split <;> rfl

@[simp] theorem seekTo_remaining (target : κ) : (s.seekTo target).remaining = s.remaining := by
  unfold seekTo; split <;> rfl

@[simp] theorem seekTo_held (target : κ) : (s.seekTo target).held = s.held := by
  unfold seekTo; split <;> rfl

end Fields

/-- Loading a chunk into a live stream buffers the first keys in range and
moves the bounds past them; what it does to `exhausted` is left open. -/
theorem loadNextChunk_of_live (store : SortedKeys κ) {s : PrimaryRangeKeyStream κ}
    (hlive : s.exhausted = false) (hlimit : s.nextChunkLimit ≠ 0) :
    ∃ exhausted, s.loadNextChunk store =
      { s.advancePast ((s.inRange store).take s.nextChunkLimit) with
        buffer := (s.inRange store).take s.nextChunkLimit,
        remaining := s.remaining.map (· - ((s.inRange store).take s.nextChunkLimit).length),
        exhausted } := by
  unfold loadNextChunk inRange
  rw [if_neg (by simp [hlive, hlimit])]
  dsimp only
  generalize (rangeKeys store s.lowerBound s.upperBound s.direction).take s.nextChunkLimit = keys
  rcases s with ⟨lower, upper, direction, remaining, chunkEntries, buffer, held, exhausted⟩
  -- the chunk's last key, the limit and the length test each touch other fields
  cases hlast : keys.getLast? <;> cases remaining <;> cases direction <;>
    simp only [advancePast, consumeRemaining, passKey, hlast] <;> split <;>
    exact ⟨_, rfl⟩

/-- Passing the last key of a chunk leaves in range the keys after the chunk. -/
theorem inRange_passKey (store : SortedKeys κ) (s : PrimaryRangeKeyStream κ) {c : Nat} {key : κ}
    (hkey : ((s.inRange store).take c).getLast? = some key) :
    (s.passKey key).inRange store = (s.inRange store).drop c := by
  rcases s with ⟨lower, upper, direction, remaining, chunkEntries, buffer, held, exhausted⟩
  cases direction with
  | asc => exact filter_excluded_lower_of_take store.sorted hkey
  | desc => exact filter_excluded_upper_of_take store.sorted hkey

/-- Reading a chunk leaves in range the keys after it. -/
theorem inRange_advancePast (store : SortedKeys κ) (s : PrimaryRangeKeyStream κ) (c : Nat) :
    (s.advancePast ((s.inRange store).take c)).inRange store = (s.inRange store).drop c := by
  unfold advancePast
  split
  · rename_i key hkey
    exact inRange_passKey store s hkey
  · -- an empty chunk: nothing was in range, or nothing was asked for
    rename_i hlast
    have hnil : (s.inRange store).take c = [] := List.getLast?_eq_none_iff.mp hlast
    rcases List.take_eq_nil_iff.mp hnil with rfl | hrange
    · rfl
    · show s.inRange store = _
      rw [hrange, List.drop_nil]

omit [LinearOrder κ] in
@[simp] theorem advancePast_held (keys : List κ) (s : PrimaryRangeKeyStream κ) :
    (s.advancePast keys).held = s.held := by
  unfold advancePast
  split <;> simp

omit [LinearOrder κ] in
@[simp] theorem advancePast_remaining (keys : List κ) (s : PrimaryRangeKeyStream κ) :
    (s.advancePast keys).remaining = s.remaining := by
  unfold advancePast
  split <;> simp

omit [LinearOrder κ] in
@[simp] theorem advancePast_direction (keys : List κ) (s : PrimaryRangeKeyStream κ) :
    (s.advancePast keys).direction = s.direction := by
  unfold advancePast
  split <;> simp

/-- Loading a chunk leaves the held key alone. -/
theorem loadNextChunk_held (store : SortedKeys κ) (s : PrimaryRangeKeyStream κ) :
    (s.loadNextChunk store).held = s.held := by
  by_cases hdead : s.exhausted = true ∨ s.nextChunkLimit = 0
  · rw [loadNextChunk, if_pos (by simpa using hdead)]
  · obtain ⟨hlive, hlimit⟩ : s.exhausted = false ∧ s.nextChunkLimit ≠ 0 := by simpa using hdead
    obtain ⟨exhausted, hload⟩ := loadNextChunk_of_live store hlive hlimit
    rw [hload]
    exact advancePast_held _ s

/-- Loading into an empty buffer moves keys from the bounds into the buffer
and loses none. -/
theorem reach_loadNextChunk (store : SortedKeys κ) {s : PrimaryRangeKeyStream κ}
    (hbuffer : s.buffer = []) : (s.loadNextChunk store).reach store = s.reach store := by
  by_cases hdead : s.exhausted = true ∨ s.nextChunkLimit = 0
  · rw [loadNextChunk, if_pos (by simpa using hdead)]
    rfl
  · obtain ⟨hlive, hlimit⟩ : s.exhausted = false ∧ s.nextChunkLimit ≠ 0 := by simpa using hdead
    obtain ⟨exhausted, hload⟩ := loadNextChunk_of_live store hlive hlimit
    have hrange : (s.loadNextChunk store).inRange store = (s.inRange store).drop s.nextChunkLimit := by
      rw [hload]
      exact inRange_advancePast store s _
    have hbuf : (s.loadNextChunk store).buffer = (s.inRange store).take s.nextChunkLimit := by
      rw [hload]
    simp only [reach, hrange, hbuffer, loadNextChunk_held, hbuf, List.length_drop, List.length_take,
      List.length_nil]
    omega

omit [LinearOrder κ] in
theorem takeBuffered_held (s : PrimaryRangeKeyStream κ) : s.takeBuffered.2.held = s.held := by
  unfold takeBuffered
  split <;> rfl

/-- Taking a buffered key moves it out of reach, into the caller's hands. -/
theorem reach_takeBuffered (store : SortedKeys κ) (s : PrimaryRangeKeyStream κ) :
    s.takeBuffered.2.reach store + s.takeBuffered.1.toList.length = s.reach store := by
  unfold takeBuffered
  split
  · rfl
  · rename_i key rest hbuf
    have hrange : ({ s with buffer := rest } : PrimaryRangeKeyStream κ).inRange store =
        s.inRange store := rfl
    simp only [reach, hrange, hbuf, List.length_cons, Option.toList_some, List.length_nil]
    omega

theorem pullNextKey_of_cons (store : SortedKeys κ) {s : PrimaryRangeKeyStream κ} {key : κ}
    {rest : List κ} (hbuffer : s.buffer = key :: rest) :
    s.pullNextKey store = (some key, { s with buffer := rest }) := by
  rw [pullNextKey, if_neg (by simp [hbuffer]), takeBuffered]
  simp only [hbuffer]

theorem pullNextKey_held (store : SortedKeys κ) (s : PrimaryRangeKeyStream κ) :
    (s.pullNextKey store).2.held = s.held := by
  rw [pullNextKey, takeBuffered_held]
  split
  · exact loadNextChunk_held store s
  · rfl

/-- A pull moves one key out of reach, into the caller's hands. -/
theorem reach_pullNextKey (store : SortedKeys κ) (s : PrimaryRangeKeyStream κ) :
    (s.pullNextKey store).2.reach store + (s.pullNextKey store).1.toList.length =
      s.reach store := by
  rw [pullNextKey, reach_takeBuffered]
  split
  · rename_i hempty
    exact reach_loadNextChunk store (List.isEmpty_iff.mp hempty)
  · rfl

theorem ensurePhysicalHead_of_held (store : SortedKeys κ) {s : PrimaryRangeKeyStream κ} {key : κ}
    (hheld : s.held = some key) : s.ensurePhysicalHead store = (.held key, s) := by
  rw [ensurePhysicalHead, hheld]

theorem ensurePhysicalHead_of_exhausted (store : SortedKeys κ) {s : PrimaryRangeKeyStream κ}
    (hheld : s.held = none) (hexhausted : s.exhausted = true) (hbuffer : s.buffer = []) :
    s.ensurePhysicalHead store = (.exhausted, s) := by
  rw [ensurePhysicalHead, hheld]
  simp [hexhausted, hbuffer]

/-- Ensuring a head moves no key out of reach. -/
theorem reach_ensurePhysicalHead (store : SortedKeys κ) (s : PrimaryRangeKeyStream κ) :
    (s.ensurePhysicalHead store).2.reach store = s.reach store := by
  unfold ensurePhysicalHead
  split
  · rfl
  · rename_i hheld
    split
    · rfl
    · have hpull := reach_pullNextKey store s
      have hkeep := pullNextKey_held store s
      simp only [reach, inRange] at hpull ⊢
      rw [hkeep] at hpull
      simp only [hheld, Option.toList_none, List.length_nil] at hpull ⊢
      omega

/-- A held outcome is the key the stream now holds. -/
theorem held_of_ensurePhysicalHead (store : SortedKeys κ) {s s' : PrimaryRangeKeyStream κ}
    {key : κ} (h : s.ensurePhysicalHead store = (.held key, s')) : s'.held = some key := by
  unfold ensurePhysicalHead at h
  split at h
  · rename_i held hheld
    cases h
    exact hheld
  · split at h
    · cases h
    · cases hpull : (s.pullNextKey store).1 with
      | none => simp [hpull, heldHeadOutcome] at h
      | some k =>
        simp only [hpull, heldHeadOutcome, Prod.mk.injEq, HeldHeadSeekOutcome.held.injEq] at h
        rw [← h.2, h.1]

/-- A seek's repositioning moves no key into reach. -/
theorem reach_configurePhysicalSeek_le (store : SortedKeys κ) (target : κ)
    (s : PrimaryRangeKeyStream κ) :
    (s.configurePhysicalSeek target).2.reach store ≤ s.reach store := by
  unfold configurePhysicalSeek
  split
  · exact le_rfl
  split
  · simp [reach, inRange]
  · rename_i hwithin
    have hin : rangeContains (s.lowerBound, s.upperBound) target = true := by simpa using hwithin
    have hnarrow : ((s.seekTo target).inRange store).length ≤ (s.inRange store).length := by
      rcases s with ⟨lower, upper, direction, remaining, chunkEntries, buffer, held, exhausted⟩
      simp only [rangeContains, Bool.and_eq_true] at hin
      cases direction with
      | asc => exact length_filter_included_lower_le hin.1
      | desc =>
        simp only [seekTo, inRange, rangeKeys, List.length_reverse]
        exact length_filter_included_upper_le hin.2
    simp only [reach, inRange, seekTo_held, List.length_nil] at hnarrow ⊢
    omega

set_option linter.unusedVariables false in
/-- `seek_head_at_or_after`: hold a head, and while it comes before the target
discard it and reposition. -/
def seekHeadAtOrAfter (store : SortedKeys κ) (target : κ) (s : PrimaryRangeKeyStream κ) :
    HeldHeadSeekOutcome κ × PrimaryRangeKeyStream κ :=
  match hensure : s.ensurePhysicalHead store with
  | (.exhausted, s') => (.exhausted, s')
  | (.held key, s') =>
    if isBefore s.direction key target then
      seekHeadAtOrAfter store target ({ s' with held := none }.configurePhysicalSeek target).2
    else (heldHeadOutcome s'.held, s')
termination_by s.reach store
decreasing_by
  have hconfigure := reach_configurePhysicalSeek_le store target { s' with held := none }
  have hheld := held_of_ensurePhysicalHead store hensure
  have hsame : s'.reach store = s.reach store := by
    rw [← reach_ensurePhysicalHead store s, hensure]
  have hdrop : ({ s' with held := none } : PrimaryRangeKeyStream κ).reach store + 1 =
      s'.reach store := by
    simp [reach, inRange, hheld]
  omega

/-- `consume_head`. -/
def consumeHead (s : PrimaryRangeKeyStream κ) : Option κ × PrimaryRangeKeyStream κ :=
  match s.held with
  | none => (none, s)
  | some key => (some key, { s with held := none })

/-- `next_key`: the held key if there is one, else a pull. -/
def nextKey (store : SortedKeys κ) (s : PrimaryRangeKeyStream κ) :
    Option κ × PrimaryRangeKeyStream κ :=
  match s.held with
  | some key => (some key, { s with held := none })
  | none => s.pullNextKey store

/-- One call on the leaf. -/
def step (store : SortedKeys κ) : HeldHeadCall κ → PrimaryRangeKeyStream κ →
    HeldHeadReply κ × PrimaryRangeKeyStream κ
  | .ensureHead, s => let (outcome, s) := s.ensurePhysicalHead store; (.outcome outcome, s)
  | .seekHeadAtOrAfter target, s =>
    let (outcome, s) := s.seekHeadAtOrAfter store target; (.outcome outcome, s)
  | .consumeHead, s => let (key, s) := s.consumeHead; (.key key, s)
  | .nextKey, s => let (key, s) := s.nextKey store; (.key key, s)

/-- The replies to a sequence of calls. -/
def run (store : SortedKeys κ) : List (HeldHeadCall κ) → PrimaryRangeKeyStream κ →
    List (HeldHeadReply κ)
  | [], _ => []
  | call :: calls, s => (s.step store call).1 :: run store calls (s.step store call).2

/-! ### The seek loop, case by case -/

theorem seekHeadAtOrAfter_of_exhausted (store : SortedKeys κ) {s s' : PrimaryRangeKeyStream κ}
    {target : κ} (h : s.ensurePhysicalHead store = (.exhausted, s')) :
    s.seekHeadAtOrAfter store target = (.exhausted, s') := by
  rw [seekHeadAtOrAfter]
  split <;> simp_all

theorem seekHeadAtOrAfter_of_before (store : SortedKeys κ) {s s' : PrimaryRangeKeyStream κ}
    {key target : κ} (h : s.ensurePhysicalHead store = (.held key, s'))
    (hbefore : isBefore s.direction key target = true) :
    s.seekHeadAtOrAfter store target =
      seekHeadAtOrAfter store target ({ s' with held := none }.configurePhysicalSeek target).2 := by
  rw [seekHeadAtOrAfter]
  split <;> simp_all

/-- Without a row limit, a target outside the bounds ends the stream. -/
theorem configurePhysicalSeek_of_outside {s : PrimaryRangeKeyStream κ} {target : κ}
    (hlimit : s.remaining = none) (hout : rangeContains (s.lowerBound, s.upperBound) target = false) :
    s.configurePhysicalSeek target = (true, { s with buffer := [], exhausted := true }) := by
  simp [configurePhysicalSeek, hlimit, hout]

/-- The first head of a fresh stream without a row limit is the first key in
range; the rest of the first chunk stays buffered and the bounds move past the
chunk. -/
theorem ensurePhysicalHead_ofBounds (store : SortedKeys κ) {lower upper : Bound κ}
    {direction : Direction} {chunkEntries : Nat} {first : κ} {rest : List κ}
    (hkeys : rangeKeys store lower upper direction = first :: rest) (hchunk : chunkEntries ≠ 0) :
    ∃ exhausted, (ofBounds lower upper direction none chunkEntries).ensurePhysicalHead store =
      (.held first,
        { (ofBounds lower upper direction none chunkEntries).advancePast
            ((first :: rest).take chunkEntries) with
          buffer := rest.take (chunkEntries - 1), held := some first, exhausted }) := by
  set s₀ := ofBounds (κ := κ) lower upper direction none chunkEntries
  have hrange : s₀.inRange store = first :: rest := hkeys
  obtain ⟨exhausted, hload⟩ := loadNextChunk_of_live store (s := s₀) rfl hchunk
  have htake : (first :: rest).take chunkEntries = first :: rest.take (chunkEntries - 1) := by
    obtain ⟨c, rfl⟩ := Nat.exists_eq_succ_of_ne_zero hchunk
    rfl
  refine ⟨exhausted, ?_⟩
  have hpull : s₀.pullNextKey store =
      (some first, { s₀.advancePast ((first :: rest).take chunkEntries) with
        buffer := rest.take (chunkEntries - 1), exhausted }) := by
    have hlimit : s₀.nextChunkLimit = chunkEntries := rfl
    rw [pullNextKey, if_pos (show s₀.buffer.isEmpty = true from rfl), hload, takeBuffered]
    simp only [hrange, hlimit, htake, advancePast_remaining]
    rfl
  rw [ensurePhysicalHead]
  show (let (held, s) := s₀.pullNextKey store; (heldHeadOutcome held, { s with held })) = _
  rw [hpull]
  rfl

/-- Passing the last key of a chunk excludes every target at or before a key
of the chunk. -/
theorem rangeContains_passKey_eq_false (store : SortedKeys κ) {s : PrimaryRangeKeyStream κ}
    {c : Nat} {k last target : κ} (hlast : ((s.inRange store).take c).getLast? = some last)
    (hk : k ∈ (s.inRange store).take c) (hnot : isBefore s.direction k target = false) :
    rangeContains ((s.passKey last).lowerBound, (s.passKey last).upperBound) target = false := by
  rcases s with ⟨lower, upper, direction, remaining, chunkEntries, buffer, held, exhausted⟩
  cases direction with
  | asc =>
    -- the chunk ascends, so `k` is at most its last key
    have hsorted : ((store.keys.filter (rangeContains (lower, upper))).take c).Pairwise (· < ·) :=
      (store.sorted.filter _).sublist (List.take_sublist _ _)
    have hkl : k ≤ last := by
      rcases eq_or_rel_getLast hsorted hlast k hk with rfl | hlt
      · exact le_rfl
      · exact hlt.le
    have htk : target ≤ k := by simpa using hnot
    simp [passKey, rangeContains, not_lt.mpr (htk.trans hkl)]
  | desc =>
    -- the chunk descends, so `k` is at least its last key
    have hsorted :
        ((store.keys.filter (rangeContains (lower, upper))).reverse.take c).Pairwise (· > ·) :=
      (List.pairwise_reverse.mpr (store.sorted.filter _)).sublist (List.take_sublist _ _)
    have hlk : last ≤ k := by
      rcases eq_or_rel_getLast hsorted hlast k hk with rfl | hgt
      · exact le_rfl
      · exact hgt.le
    have hkt : k ≤ target := by simpa using hnot
    simp [passKey, rangeContains, not_lt.mpr (hlk.trans hkt)]

end PrimaryRangeKeyStream

/-- The keys in range keep to their direction, as the oracle's inner stream
must. -/
theorem rangeKeys_isChain (store : SortedKeys κ) (lower upper : Bound κ) (direction : Direction) :
    (rangeKeys store lower upper direction).IsChain
      fun x y => compareInDirection direction x y ≠ .gt := by
  cases direction with
  | asc =>
    refine (store.sorted.filter _).isChain.imp fun x y hxy => ?_
    simp [compareInDirection, compare_gt_iff_gt, not_lt.mpr hxy.le]
  | desc =>
    refine (List.pairwise_reverse.mpr (store.sorted.filter _)).isChain.imp fun x y hxy => ?_
    simp [compareInDirection, compare_gt_iff_gt, not_lt.mpr hxy.le]

open PrimaryRangeKeyStream in
/-- A physical seek of the primary range leaf loses the keys of its buffered
chunk at and after the target, and every key after that chunk.  Take a fresh
leaf without a row limit whose range starts with a key before the target, and
whose first chunk holds a key not before it.  Its first head is the first key
in range; seeking the target discards it, finds the target outside the bounds
that the chunk moved past its last key, and reports the leaf exhausted.  The
repeated-pull oracle over the same keys holds a key of the range not before
the target. -/
theorem primary_range_seek_drops_buffered_keys (store : SortedKeys κ) (lower upper : Bound κ)
    (direction : Direction) (chunkEntries : Nat) (target first : κ) (rest : List κ)
    (hkeys : rangeKeys store lower upper direction = first :: rest)
    (hfirst : isBefore direction first target = true)
    (hbuffered : ∃ k ∈ (first :: rest).take chunkEntries, isBefore direction k target = false) :
    (ofBounds lower upper direction none chunkEntries).run store
        [.ensureHead, .seekHeadAtOrAfter target] = [.outcome (.held first), .outcome .exhausted] ∧
      ∃ key ∈ rest, isBefore direction key target = false ∧
        (RepeatedPullHeldHeadKeyStream.new (first :: rest) direction).run
            [.ensureHead, .seekHeadAtOrAfter target] =
          .ok [.outcome (.held first), .outcome (.held key)] := by
  obtain ⟨k, hk, hnot⟩ := hbuffered
  have hchunk : chunkEntries ≠ 0 := by
    rintro rfl
    simp at hk
  obtain ⟨last, hlast⟩ : ∃ last, ((first :: rest).take chunkEntries).getLast? = some last :=
    Option.isSome_iff_exists.mp (List.getLast?_isSome.mpr (List.ne_nil_of_mem hk))
  obtain ⟨exhausted, hensure⟩ := ensurePhysicalHead_ofBounds store hkeys hchunk
  set s₀ := ofBounds (κ := κ) lower upper direction none chunkEntries
  have hrange : s₀.inRange store = first :: rest := hkeys
  refine ⟨?_, ?_⟩
  · -- the leaf holds the first key, then finds the target outside its moved bounds
    have hadvance : s₀.advancePast ((first :: rest).take chunkEntries) = s₀.passKey last := by
      rw [advancePast, hlast]
    rw [hadvance] at hensure
    set s₁ : PrimaryRangeKeyStream κ :=
      { s₀.passKey last with buffer := rest.take (chunkEntries - 1), held := some first, exhausted }
    have hout : rangeContains (({ s₁ with held := none } : PrimaryRangeKeyStream κ).lowerBound,
        ({ s₁ with held := none } : PrimaryRangeKeyStream κ).upperBound) target = false :=
      rangeContains_passKey_eq_false store (hrange ▸ hlast) (hrange ▸ hk) hnot
    have hlimit : ({ s₁ with held := none } : PrimaryRangeKeyStream κ).remaining = none := by
      simp [s₁, s₀, ofBounds]
    have hseek : s₁.seekHeadAtOrAfter store target =
        (.exhausted, { { s₁ with held := none } with buffer := [], exhausted := true }) := by
      have hdir : s₁.direction = direction := by simp [s₁, s₀, ofBounds]
      rw [seekHeadAtOrAfter_of_before store (ensurePhysicalHead_of_held store rfl) (hdir ▸ hfirst),
        configurePhysicalSeek_of_outside hlimit hout]
      exact seekHeadAtOrAfter_of_exhausted store (ensurePhysicalHead_of_exhausted store rfl rfl rfl)
    simp only [run, step, hensure, hseek]
  · -- the oracle refines the protocol, whose seek holds a key not before the target
    rw [RepeatedPullHeldHeadKeyStream.run_refines _
      (RepeatedPullHeldHeadKeyStream.refines_new (hkeys ▸ rangeKeys_isChain store lower upper direction))]
    have hpending : (⟨some first, rest⟩ : HeldHeadState κ).pending = first :: rest := rfl
    obtain ⟨key, rest', hseek, hmem, hkey⟩ := HeldHeadState.seekHeadAtOrAfter_of_mem
      (hpending ▸ List.mem_of_mem_take hk) hnot
    have hrest : key ∈ rest := by
      rcases List.mem_cons.mp (hpending ▸ hmem) with rfl | h
      · rw [hfirst] at hkey
        cases hkey
      · exact h
    refine ⟨key, hrest, hkey, ?_⟩
    have hdir : (RepeatedPullHeldHeadKeyStream.new (first :: rest) direction).direction = direction :=
      rfl
    simp only [HeldHeadState.run, HeldHeadState.step, HeldHeadState.ensureHead, hdir, hseek]

/-- Keys `1` to `4` in one chunk: seeking `3` after holding `1` ends the
leaf, where the oracle holds `3`. -/
theorem primary_range_seek_from_one_to_three :
    rangeKeys ⟨[1, 2, 3, 4], by decide⟩ (.included 1) (.included 4) .asc = 1 :: [2, 3, 4] ∧
      isBefore .asc 1 3 = true ∧
      (∃ k ∈ (1 :: [2, 3, 4]).take 64, isBefore .asc k 3 = false) ∧
      (PrimaryRangeKeyStream.ofBounds (.included 1) (.included 4) .asc none 64).run
          ⟨[1, 2, 3, 4], by decide⟩ [.ensureHead, .seekHeadAtOrAfter 3] =
        [.outcome (.held 1), .outcome .exhausted] ∧
      ∃ key ∈ [2, 3, 4], isBefore .asc key 3 = false ∧
        (RepeatedPullHeldHeadKeyStream.new (1 :: [2, 3, 4]) .asc).run
            [.ensureHead, .seekHeadAtOrAfter 3] =
          .ok [.outcome (.held 1), .outcome (.held key)] :=
  ⟨by decide, by decide, ⟨3, by decide, by decide⟩,
    primary_range_seek_drops_buffered_keys ⟨[1, 2, 3, 4], by decide⟩ (.included 1) (.included 4)
      .asc 64 3 1 [2, 3, 4] (by decide) (by decide) ⟨3, by decide, by decide⟩⟩

end HeldHead

end IcyDb
