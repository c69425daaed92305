import IcyDb.Store.PositionedOverlay
import Mathlib.Data.Finset.Card
import Mathlib.Algebra.Group.Int.Defs

/-!
# The entity counters of a journaled data store

Beside its overlay, a journaled `DataStore` keeps two counters per entity
(`data/store.rs`): `entity_cardinality`, the number of rows of the entity a
read finds, and `entity_cardinality_delta`, how many more rows of the entity
the reads find than the canonical map holds.  A key's entity is read off its
prefix (`RawDataStoreKey::entity_tag_prefix`, a parameter here); a key without
one, or a delta that leaves the range of `i64`, makes a counter unavailable
(`decodable = false`) for good, and an unavailable counter answers `None`.

Each operation moves the counters from what a read found before it, by a rule
that depends on whether the overlay shadows the key:

* a publication moves both counters by the change of the read;
* the fold of a key the overlay does not shadow moves the cardinality (the
  read changes with the canonical map), the fold of a shadowed key moves the
  delta (only the canonical map changes);
* a retirement moves neither.

`Tracks` says that a counter, wherever it is available, holds a given count,
and `Moves` how a count of rows changes when one key's presence changes.  For
each rule the lemmas below say which change of the count it tracks, so that
`DataStore.Counted` (the cardinality counts the rows a read finds, the delta
those less the canonical rows) is kept by every operation under the condition
the code relies on: no count passes `u64::MAX`, and a retirement drops only
overlays that the canonical map already agrees with.
-/

namespace IcyDb

/-! ### Counting under a change at one point -/

section CountAtOne

variable {α : Type} [DecidableEq α] {p : α → Prop} [DecidablePred p]

/-- The members of a finset that satisfy a predicate, counted before and
after a change of membership at one point: each side adds the point where the
other side has it. -/
theorem card_filter_add_of_agree {S S' : Finset α} {a : α}
    (h : ∀ x, x ≠ a → (x ∈ S' ↔ x ∈ S)) :
    (S'.filter p).card + (if a ∈ S ∧ p a then 1 else 0) =
      (S.filter p).card + (if a ∈ S' ∧ p a then 1 else 0) := by
  have herase : (S'.filter p).erase a = (S.filter p).erase a := by
    ext x
    simp only [Finset.mem_erase, Finset.mem_filter]
    constructor
    · rintro ⟨hx, hS, hp⟩
      exact ⟨hx, (h x hx).mp hS, hp⟩
    · rintro ⟨hx, hS, hp⟩
      exact ⟨hx, (h x hx).mpr hS, hp⟩
  -- each count is the count away from the point, and the point itself
  have hsplit : ∀ T : Finset α,
      (T.filter p).card = ((T.filter p).erase a).card + (if a ∈ T ∧ p a then 1 else 0) := by
    intro T
    by_cases ha : a ∈ T ∧ p a
    · rw [if_pos ha, Finset.card_erase_add_one (Finset.mem_filter.mpr ha)]
    · rw [if_neg ha, Finset.erase_eq_of_notMem (fun hm => ha (Finset.mem_filter.mp hm)),
        Nat.add_zero]
  rw [hsplit S', hsplit S, herase]
  omega

end CountAtOne

/-- `u64::MAX`. -/
def u64Max : Nat := 2 ^ 64 - 1

/-- `i64::MIN`. -/
def i64Min : Int := -2 ^ 63

/-- `i64::MAX`. -/
def i64Max : Int := 2 ^ 63 - 1

section Moves

variable {κ E : Type} [DecidableEq E]

/-- How a count of rows per entity changes when the presence of one key goes
from `before` to `after`: each side adds the key where the other side counts
it. -/
def Moves (entityTagPrefix : κ → Option E) (key : κ) (n n' : E → Nat) (before after : Bool) :
    Prop :=
  ∀ entity, n' entity + (if before = true ∧ entityTagPrefix key = some entity then 1 else 0) =
    n entity + (if after = true ∧ entityTagPrefix key = some entity then 1 else 0)

variable {entityTagPrefix : κ → Option E} {key : κ} {n n' : E → Nat}

theorem Moves.eq_of_same {b : Bool} (h : Moves entityTagPrefix key n n' b b) : n' = n :=
  funext fun entity => Nat.add_right_cancel (h entity)

/-- The change of a count as an integer equation. -/
theorem Moves.cast_eq {before after : Bool} (h : Moves entityTagPrefix key n n' before after)
    (entity : E) :
    (n' entity : Int) = n entity +
      if entityTagPrefix key = some entity then (after.toNat : Int) - before.toNat else 0 := by
  have hentity := h entity
  by_cases hkey : entityTagPrefix key = some entity <;> cases before <;> cases after <;>
    simp only [hkey, Bool.false_eq_true, and_true, and_false, if_true, if_false, Nat.add_zero,
      Bool.toNat_true, Bool.toNat_false] at hentity ⊢ <;> omega

end Moves

/-! ### `EntityCardinality` -/

/-- `EntityCardinality`: the rows of each entity, available while every key
counted had an entity prefix. -/
structure EntityCardinality (E : Type) [LinearOrder E] where
  counts : SortedMap E Nat
  decodable : Bool

namespace EntityCardinality

variable {κ V E : Type} [LinearOrder E] (entityTagPrefix : κ → Option E)
  (cardinality : EntityCardinality E)

/-- `EntityCardinality::empty`. -/
def empty : EntityCardinality E := ⟨SortedMap.empty, true⟩

/-- `EntityCardinality::unavailable`. -/
def unavailable : EntityCardinality E := ⟨SortedMap.empty, false⟩

/-- `exact_count`. -/
def exactCount (entity : E) : Option Nat :=
  if cardinality.decodable then some ((cardinality.counts.get entity).getD 0) else none

/-- `apply_present_key`: one row more of the key's entity, saturating at
`u64::MAX`. -/
def applyPresentKey (key : κ) : EntityCardinality E :=
  if cardinality.decodable then
    match entityTagPrefix key with
    -- `invalidate` clears the counts and leaves them unavailable
    | none => unavailable
    | some entity =>
      { cardinality with
        counts := cardinality.counts.insert entity
          (min ((cardinality.counts.get entity).getD 0 + 1) u64Max) }
  else cardinality

/-- `apply_removed_key`: one row fewer, saturating at zero; an entity whose
count reaches zero leaves the map. -/
def applyRemovedKey (key : κ) : EntityCardinality E :=
  if cardinality.decodable then
    match entityTagPrefix key with
    | none => unavailable
    | some entity =>
      match cardinality.counts.get entity with
      | none => cardinality
      | some count =>
        if count - 1 = 0 then { cardinality with counts := cardinality.counts.erase entity }
        else { cardinality with counts := cardinality.counts.insert entity (count - 1) }
  else cardinality

/-- `apply_insert`: a row is counted only where the key had none. -/
def applyInsert (key : κ) (previous : Option V) : EntityCardinality E :=
  if previous.isSome then cardinality else cardinality.applyPresentKey entityTagPrefix key

/-- `apply_remove`: a row is uncounted only where the key had one. -/
def applyRemove (key : κ) (previous : Option V) : EntityCardinality E :=
  if previous.isNone then cardinality else cardinality.applyRemovedKey entityTagPrefix key

/-- Wherever the counts are available they are those of `n`. -/
def Tracks (n : E → Nat) : Prop :=
  cardinality.decodable = true → ∀ entity, (cardinality.counts.get entity).getD 0 = n entity

variable {entityTagPrefix cardinality} {key : κ} {n n' : E → Nat}

theorem tracks_of_not_decodable (h : cardinality.decodable = false) : cardinality.Tracks n := by
  intro hdec
  rw [h] at hdec
  cases hdec

theorem Tracks.exactCount_eq (h : cardinality.Tracks n) {entity : E} {count : Nat}
    (hcount : cardinality.exactCount entity = some count) : count = n entity := by
  unfold exactCount at hcount
  split_ifs at hcount with hdec
  rw [← Option.some_inj.mp hcount, h hdec]

theorem Tracks.exactCount_of_decodable (h : cardinality.Tracks n) (hdec : cardinality.decodable = true)
    (entity : E) : cardinality.exactCount entity = some (n entity) := by
  rw [exactCount, if_pos hdec, h hdec]

theorem Tracks.congr (h : cardinality.Tracks n) (hn : ∀ entity, n' entity = n entity) :
    cardinality.Tracks n' := fun hdec entity => (h hdec entity).trans (hn entity).symm

theorem tracks_applyPresentKey (h : cardinality.Tracks n)
    (hmove : Moves entityTagPrefix key n n' false true) (hbound : ∀ entity, n' entity ≤ u64Max) :
    (cardinality.applyPresentKey entityTagPrefix key).Tracks n' := by
  unfold applyPresentKey
  by_cases hdec : cardinality.decodable = true
  · rw [if_pos hdec]
    cases hkey : entityTagPrefix key with
    | none => exact tracks_of_not_decodable rfl
    | some counted =>
      intro _ entity
      have hcount := hmove entity
      simp only [Bool.false_eq_true, false_and, if_false, true_and, hkey, Option.some.injEq,
        Nat.add_zero] at hcount
      rw [SortedMap.get_insert]
      by_cases he : entity = counted
      · -- the counted entity gains its row, below the saturation point
        subst he
        rw [if_pos rfl, Option.getD_some, h hdec]
        have hle := hbound entity
        simp only [if_true] at hcount
        omega
      · rw [if_neg he, h hdec]
        simp only [Ne.symm he, if_false, Nat.add_zero] at hcount
        exact hcount.symm
  · rw [if_neg hdec]
    exact tracks_of_not_decodable (Bool.eq_false_iff.mpr hdec)

theorem tracks_applyRemovedKey (h : cardinality.Tracks n)
    (hmove : Moves entityTagPrefix key n n' true false) :
    (cardinality.applyRemovedKey entityTagPrefix key).Tracks n' := by
  unfold applyRemovedKey
  by_cases hdec : cardinality.decodable = true
  · rw [if_pos hdec]
    cases hkey : entityTagPrefix key with
    | none => exact tracks_of_not_decodable rfl
    | some counted =>
      dsimp only
      have hcounts : ∀ entity, n' entity + (if counted = entity then 1 else 0) = n entity := by
        intro entity
        simpa [hkey] using hmove entity
      have hcount := h hdec counted
      -- the key's row was counted, so its entity has a count of at least one
      cases hget : cardinality.counts.get counted with
      | none =>
        have := hcounts counted
        rw [hget, Option.getD_none] at hcount
        simp only [if_true] at this
        omega
      | some count =>
        dsimp only
        rw [hget, Option.getD_some] at hcount
        have hcounted := hcounts counted
        simp only [if_true] at hcounted
        intro _ entity
        have hother : entity ≠ counted → n' entity = n entity := fun he => by
          simpa [Ne.symm he] using hcounts entity
        split_ifs with hzero
        · rw [SortedMap.get_erase]
          by_cases he : entity = counted
          · subst he
            rw [if_pos rfl, Option.getD_none]
            omega
          · rw [if_neg he, h hdec, hother he]
        · rw [SortedMap.get_insert]
          by_cases he : entity = counted
          · subst he
            rw [if_pos rfl, Option.getD_some]
            omega
          · rw [if_neg he, h hdec, hother he]
  · rw [if_neg hdec]
    exact tracks_of_not_decodable (Bool.eq_false_iff.mpr hdec)

theorem tracks_applyInsert {previous : Option V} (h : cardinality.Tracks n)
    (hmove : Moves entityTagPrefix key n n' previous.isSome true)
    (hbound : ∀ entity, n' entity ≤ u64Max) :
    (cardinality.applyInsert entityTagPrefix key previous).Tracks n' := by
  unfold applyInsert
  cases previous with
  | some row => simpa [hmove.eq_of_same] using h
  | none => exact tracks_applyPresentKey h hmove hbound

theorem tracks_applyRemove {previous : Option V} (h : cardinality.Tracks n)
    (hmove : Moves entityTagPrefix key n n' previous.isSome false) :
    (cardinality.applyRemove entityTagPrefix key previous).Tracks n' := by
  unfold applyRemove
  cases previous with
  | some row => exact tracks_applyRemovedKey h hmove
  | none => simpa [hmove.eq_of_same] using h

/-- A key with an entity prefix keeps the counts available. -/
theorem decodable_applyInsert {previous : Option V} (hkey : (entityTagPrefix key).isSome = true) :
    (cardinality.applyInsert entityTagPrefix key previous).decodable = cardinality.decodable := by
  obtain ⟨entity, hentity⟩ := Option.isSome_iff_exists.mp hkey
  unfold applyInsert applyPresentKey
  split_ifs <;> simp [hentity]

theorem decodable_applyRemove {previous : Option V} (hkey : (entityTagPrefix key).isSome = true) :
    (cardinality.applyRemove entityTagPrefix key previous).decodable = cardinality.decodable := by
  obtain ⟨entity, hentity⟩ := Option.isSome_iff_exists.mp hkey
  unfold applyRemove applyRemovedKey
  split_ifs <;> simp only [hentity]
  all_goals cases cardinality.counts.get entity <;> simp only
  all_goals split_ifs <;> rfl

end EntityCardinality

/-! ### `EntityCardinalityDelta` -/

/-- `EntityCardinalityDelta`: per entity, the rows a read finds less the rows
of the canonical map, available while every key moved had an entity prefix
and no delta left the range of `i64`. -/
structure EntityCardinalityDelta (E : Type) [LinearOrder E] where
  counts : SortedMap E Int
  decodable : Bool

namespace EntityCardinalityDelta

variable {κ E : Type} [LinearOrder E] (entityTagPrefix : κ → Option E)
  (delta : EntityCardinalityDelta E)

/-- `EntityCardinalityDelta::empty`. -/
def empty : EntityCardinalityDelta E := ⟨SortedMap.empty, true⟩

/-- `exact_delta`. -/
def exactDelta (entity : E) : Option Int :=
  if delta.decodable then some ((delta.counts.get entity).getD 0) else none

/-- `apply_presence_transition`: a key that appears adds one to its entity's
delta, one that disappears takes one away; an overflow of `i64` or a key
without an entity makes the delta unavailable. -/
def applyPresenceTransition (key : κ) (previousPresent nextPresent : Bool) :
    EntityCardinalityDelta E :=
  if !delta.decodable || previousPresent == nextPresent then delta
  else
    match entityTagPrefix key with
    | none => { delta with counts := SortedMap.empty, decodable := false }
    | some entity =>
      let next := (delta.counts.get entity).getD 0 + if nextPresent then 1 else -1
      if next < i64Min ∨ i64Max < next then
        { delta with counts := SortedMap.empty, decodable := false }
      else if next = 0 then { delta with counts := delta.counts.erase entity }
      else { delta with counts := delta.counts.insert entity next }

/-- Wherever the deltas are available they are those of `m`. -/
def Tracks (m : E → Int) : Prop :=
  delta.decodable = true → ∀ entity, (delta.counts.get entity).getD 0 = m entity

variable {entityTagPrefix delta} {key : κ} {m m' : E → Int} {previousPresent nextPresent : Bool}

theorem tracks_of_not_decodable (h : delta.decodable = false) : delta.Tracks m := by
  intro hdec
  rw [h] at hdec
  cases hdec

theorem Tracks.exactDelta_eq (h : delta.Tracks m) {entity : E} {value : Int}
    (hvalue : delta.exactDelta entity = some value) : value = m entity := by
  unfold exactDelta at hvalue
  split_ifs at hvalue with hdec
  rw [← Option.some_inj.mp hvalue, h hdec]

theorem Tracks.exactDelta_of_decodable (h : delta.Tracks m) (hdec : delta.decodable = true)
    (entity : E) : delta.exactDelta entity = some (m entity) := by
  rw [exactDelta, if_pos hdec, h hdec]

theorem Tracks.congr (h : delta.Tracks m) (hm : ∀ entity, m' entity = m entity) : delta.Tracks m' :=
  fun hdec entity => (h hdec entity).trans (hm entity).symm

@[simp] theorem applyPresenceTransition_same {present : Bool} :
    delta.applyPresenceTransition entityTagPrefix key present present = delta := by
  simp [applyPresenceTransition]

/-- The delta of the key's entity after the transition, where the delta is
available and the presence changes. -/
theorem next_eq (h : delta.Tracks m) (hdec : delta.decodable = true) {entity : E}
    (hm : ∀ entity, m' entity = m entity +
      if entityTagPrefix key = some entity then (nextPresent.toNat : Int) - previousPresent.toNat
      else 0)
    (hkey : entityTagPrefix key = some entity) (hne : previousPresent ≠ nextPresent) :
    (delta.counts.get entity).getD 0 + (if nextPresent then 1 else -1) = m' entity := by
  rw [h hdec, hm entity, if_pos hkey]
  cases previousPresent <;> cases nextPresent <;> simp at hne ⊢

theorem tracks_applyPresenceTransition (h : delta.Tracks m)
    (hm : ∀ entity, m' entity = m entity +
      if entityTagPrefix key = some entity then (nextPresent.toNat : Int) - previousPresent.toNat
      else 0) :
    (delta.applyPresenceTransition entityTagPrefix key previousPresent nextPresent).Tracks m' := by
  unfold applyPresenceTransition
  by_cases hdec : delta.decodable = true
  · by_cases hsame : previousPresent = nextPresent
    · -- no change of presence: the deltas stay
      subst hsame
      rw [if_pos (by simp)]
      have : m' = m := funext fun entity => by simp [hm entity]
      rwa [this]
    rw [if_neg (by simp [hdec, hsame])]
    cases hkey : entityTagPrefix key with
    | none => exact tracks_of_not_decodable rfl
    | some moved =>
      have hnext := next_eq h hdec hm hkey hsame
      have hother : ∀ entity, entity ≠ moved → m' entity = m entity := fun entity he => by
        rw [hm entity, if_neg (by rw [hkey]; simpa using Ne.symm he), Int.add_zero]
      dsimp only
      rw [hnext]
      split_ifs with hrange hzero
      · exact tracks_of_not_decodable rfl
      · intro _ entity
        rw [SortedMap.get_erase]
        by_cases he : entity = moved
        · subst he
          rw [if_pos rfl, Option.getD_none, hzero]
        · rw [if_neg he, h hdec, hother entity he]
      · intro _ entity
        rw [SortedMap.get_insert]
        by_cases he : entity = moved
        · subst he
          rw [if_pos rfl, Option.getD_some]
        · rw [if_neg he, h hdec, hother entity he]
  · rw [if_pos (by simp [hdec])]
    exact tracks_of_not_decodable (Bool.eq_false_iff.mpr hdec)

/-- A key with an entity prefix whose new delta stays within `i64` keeps the
deltas available. -/
theorem decodable_applyPresenceTransition (h : delta.Tracks m)
    (hm : ∀ entity, m' entity = m entity +
      if entityTagPrefix key = some entity then (nextPresent.toNat : Int) - previousPresent.toNat
      else 0)
    (hkey : (entityTagPrefix key).isSome = true) (hrange : ∀ entity, i64Min ≤ m' entity ∧ m' entity ≤ i64Max) :
    (delta.applyPresenceTransition entityTagPrefix key previousPresent nextPresent).decodable =
      delta.decodable := by
  obtain ⟨moved, hmoved⟩ := Option.isSome_iff_exists.mp hkey
  unfold applyPresenceTransition
  by_cases hdec : delta.decodable = true
  · by_cases hsame : previousPresent = nextPresent
    · rw [if_pos (by simp [hsame])]
    rw [if_neg (by simp [hdec, hsame])]
    simp only [hmoved]
    rw [next_eq h hdec hm hmoved hsame, if_neg (by have := hrange moved; omega)]
    split_ifs <;> rfl
  · rw [if_pos (by simp [hdec])]

end EntityCardinalityDelta

/-! ### What the counters count -/

namespace JournaledMaps

variable {κ V E : Type} [LinearOrder κ] [DecidableEq E] (entityTagPrefix : κ → Option E)
  (maps : JournaledMaps κ V)

/-- The keys a read finds a row for. -/
def visibleKeys : Finset κ :=
  (maps.canonical.keys ++ maps.live.keys).toFinset.filter fun key => (maps.read key).isSome

/-- The keys the canonical map holds a row for. -/
def canonicalKeys : Finset κ := maps.canonical.keys.toFinset

/-- The rows of an entity a read finds. -/
def visibleCount (entity : E) : Nat :=
  (maps.visibleKeys.filter fun key => entityTagPrefix key = some entity).card

/-- The rows of an entity the canonical map holds. -/
def canonicalCount (entity : E) : Nat :=
  (maps.canonicalKeys.filter fun key => entityTagPrefix key = some entity).card

variable {maps} {key : κ}

theorem mem_visibleKeys : key ∈ maps.visibleKeys ↔ (maps.read key).isSome = true := by
  rw [visibleKeys, Finset.mem_filter, List.mem_toFinset, List.mem_append, SortedMap.mem_keys_iff,
    SortedMap.mem_keys_iff]
  constructor
  · exact And.right
  · intro hread
    refine ⟨?_, hread⟩
    -- a row a read finds is a live row or a canonical one
    unfold read at hread
    split_ifs at hread
    · exact absurd hread (by simp)
    cases hlive : maps.live.get key with
    | some row => exact .inr rfl
    | none =>
      simp only [hlive] at hread
      exact .inl hread

theorem mem_canonicalKeys : key ∈ maps.canonicalKeys ↔ (maps.canonical.get key).isSome = true := by
  rw [canonicalKeys, List.mem_toFinset, SortedMap.mem_keys_iff]

theorem visibleCount_le {keys : Finset κ} (h : maps.visibleKeys ⊆ keys) (entity : E) :
    maps.visibleCount entityTagPrefix entity ≤ keys.card :=
  (Finset.card_filter_le _ _).trans (Finset.card_le_card h)

theorem canonicalCount_le {keys : Finset κ} (h : maps.canonicalKeys ⊆ keys) (entity : E) :
    maps.canonicalCount entityTagPrefix entity ≤ keys.card :=
  (Finset.card_filter_le _ _).trans (Finset.card_le_card h)

/-- Where reads change at one key only, the visible rows move by the change
of that key's read. -/
theorem visibleCount_moves {maps' : JournaledMaps κ V}
    (h : ∀ k, k ≠ key → maps'.read k = maps.read k) :
    Moves entityTagPrefix key (maps.visibleCount entityTagPrefix) (maps'.visibleCount entityTagPrefix)
      (maps.read key).isSome (maps'.read key).isSome := by
  intro entity
  have hcount := @card_filter_add_of_agree _ _ (fun k => entityTagPrefix k = some entity) _
    maps.visibleKeys maps'.visibleKeys key (fun x hx => by rw [mem_visibleKeys, mem_visibleKeys, h x hx])
  simpa only [visibleCount, mem_visibleKeys] using hcount

/-- Where the canonical map changes at one key only, the canonical rows move
by the change of that key's row. -/
theorem canonicalCount_moves {maps' : JournaledMaps κ V}
    (h : ∀ k, k ≠ key → maps'.canonical.get k = maps.canonical.get k) :
    Moves entityTagPrefix key (maps.canonicalCount entityTagPrefix)
      (maps'.canonicalCount entityTagPrefix)
      (maps.canonical.get key).isSome (maps'.canonical.get key).isSome := by
  intro entity
  have hcount := @card_filter_add_of_agree _ _ (fun k => entityTagPrefix k = some entity) _
    maps.canonicalKeys maps'.canonicalKeys key (fun x hx => by rw [mem_canonicalKeys, mem_canonicalKeys, h x hx])
  simpa only [canonicalCount, mem_canonicalKeys] using hcount

end JournaledMaps

end IcyDb
