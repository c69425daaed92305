import IcyDb.Schema.IdentityState

/-!
# Identity values are issued once

A statement opens a cursor on the active state, allocates one value per
input row in input order, turns the cursor into its range and commits the
range under the advance id of its journal record.  Over one statement the
values are exactly `h + 1, …, h + n` for the high water `h` it started from,
and the state moves to `h + n` under that advance id.  Over a run of
statements under fresh advance ids the values issued are `h₀ + 1, …, h₀ + N`,
pairwise distinct, and applying again any range committed on the way (as a
crash replay or a recovery does) never changes the state: the range last
applied is recognised as materialized and every earlier one is rejected.
-/

namespace IcyDb

namespace Schema

open Except

/-! ### The statement driver -/

/-- A statement's allocations for input ordinals taken in order. -/
def allocateInputs (fieldSlot : Nat) :
    IdentityStatementCursor → List Nat →
      Except InternalError (List AcceptedIdentityAllocation × IdentityStatementCursor)
  | cursor, [] => .ok ([], cursor)
  | cursor, ordinal :: rest => do
    let (allocation, cursor) ← cursor.allocate fieldSlot ordinal
    let (allocations, cursor) ← allocateInputs fieldSlot cursor rest
    pure (allocation :: allocations, cursor)

/-- One statement generating `count` identities: open the cursor, allocate for
input ordinals `0, …, count - 1`, and commit the resulting range (if any)
under `advanceId`. -/
def commitStatement (s : IdentityState) (fieldSlot count : Nat) (advanceId : IdentityAdvanceId) :
    Except InternalError
      (IdentityState × List AcceptedIdentityAllocation × Option IdentityRangeAdvance) := do
  let cursor ← IdentityStatementCursor.fromActiveState s
  let (allocations, cursor) ← allocateInputs fieldSlot cursor (List.range count)
  match ← cursor.intoRangeAdvance with
  | none => pure (s, allocations, none)
  | some range => do
    let s' ← s.applyRangeAdvance range advanceId
    pure (s', allocations, some range)

/-- Statements one after another: the final state, the values issued in order
and the committed ranges with their advance ids. -/
def commitStatements (fieldSlot : Nat) :
    IdentityState → List (Nat × IdentityAdvanceId) →
      Except InternalError
        (IdentityState × List Value × List (IdentityRangeAdvance × IdentityAdvanceId))
  | s, [] => .ok (s, [], [])
  | s, (count, advanceId) :: rest => do
    let (s', allocations, range) ← commitStatement s fieldSlot count advanceId
    let (s'', values, commits) ← commitStatements fieldSlot s' rest
    pure (s'', allocations.map (·.value) ++ values,
      range.toList.map (·, advanceId) ++ commits)

/-! ### One statement -/

/-- The cursor allocates `k` values in a row while the kind's maximum and the
`u32` count allow: the values are the next `k` numbers, rendered. -/
theorem allocateInputs_eq {fieldSlot maximum : Nat} :
    ∀ (k : Nat) (cursor : IdentityStatementCursor),
      identityKindMaximum cursor.acceptedKind = some maximum →
      cursor.tentativeHighWater + k ≤ maximum → cursor.allocationCount + k < 2 ^ 32 →
      ∃ allocations, allocateInputs fieldSlot cursor (List.range' cursor.allocationCount k) =
          .ok (allocations, { cursor with allocationCount := cursor.allocationCount + k,
                                          tentativeHighWater := cursor.tentativeHighWater + k }) ∧
        (List.range' (cursor.tentativeHighWater + 1) k).mapM
            (identityRuntimeValue cursor.acceptedKind) = .ok (allocations.map (·.value))
  | 0, cursor, _, _, _ => ⟨[], rfl, rfl⟩
  | k + 1, cursor, hmax, hfits, hcount => by
    obtain ⟨value, hvalue, hstep⟩ := cursor.allocate_eq_ok hmax (by omega) (by omega) fieldSlot
    obtain ⟨allocations, hrest, hvalues⟩ := @allocateInputs_eq fieldSlot maximum k
      { cursor with allocationCount := cursor.allocationCount + 1,
                    tentativeHighWater := cursor.tentativeHighWater + 1 } hmax
      (by simp only; omega) (by simp only; omega)
    refine ⟨⟨cursor.owner, fieldSlot, cursor.allocationCount, value⟩ :: allocations, ?_, ?_⟩
    · -- one allocation, then the rest from the advanced cursor
      have htentative : cursor.tentativeHighWater + 1 + k = cursor.tentativeHighWater + (k + 1) := by
        omega
      have hcount' : cursor.allocationCount + 1 + k = cursor.allocationCount + (k + 1) := by omega
      simp only [htentative, hcount'] at hrest
      rw [List.range'_succ, allocateInputs, hstep, ok_bind]
      simp only [hrest, ok_bind]
      rfl
    · simp only at hvalues
      rw [List.range'_succ, mapM_cons_eq_ok_iff]
      exact ⟨value, _, hvalue, hvalues, rfl⟩

/-- One statement of `count > 0` values that fit below the kind's maximum,
committed under a fresh advance id: its values are `h + 1, …, h + count`
and the state moves to `h + count` under that id. -/
theorem commitStatement_eq_ok {s : IdentityState} (hactive : s.lifecycle = .active) {maximum : Nat}
    (hmax : identityKindMaximum s.acceptedKind = some maximum) {count : Nat} (hpos : 0 < count)
    (hfits : s.materializedHighWater + count ≤ maximum) (hcount : count < 2 ^ 32)
    {advanceId : IdentityAdvanceId} (hfresh : s.lastAppliedAdvance ≠ some advanceId)
    (fieldSlot : Nat) :
    ∃ s' allocations range,
      commitStatement s fieldSlot count advanceId = .ok (s', allocations, some range) ∧
      (List.range' (s.materializedHighWater + 1) count).mapM (identityRuntimeValue s.acceptedKind) =
        .ok (allocations.map (·.value)) ∧
      range.owner = s.owner ∧ range.expectedHighWater = s.materializedHighWater ∧
      range.newHighWater = s.materializedHighWater + count ∧
      s'.owner = s.owner ∧ s'.acceptedKind = s.acceptedKind ∧ s'.lifecycle = .active ∧
      s'.materializedHighWater = s.materializedHighWater + count ∧
      s'.lastAppliedAdvance = some advanceId := by
  -- the cursor allocates every value
  obtain ⟨allocations, hallocate, hvalues⟩ := @allocateInputs_eq fieldSlot maximum count
    ⟨s.owner, s.acceptedKind, s.materializedHighWater, s.materializedHighWater, 0⟩ hmax hfits
    (by simpa using hcount)
  simp only [Nat.zero_add] at hallocate
  -- and becomes one range
  obtain ⟨range, hrange, ho, he, hn⟩ := IdentityStatementCursor.intoRangeAdvance_eq_some s.owner s.acceptedKind
    (Nat.pos_iff_ne_zero.mp hpos) hcount
    (lt_of_le_of_lt hfits (lt_of_identityKindMaximum hmax))
  -- which applies as the pending range of the state
  obtain ⟨s', happly, ho', hk', hl', hh', ha'⟩ := IdentityState.exists_applyRangeAdvance_of_pending hactive ho.symm
    hmax (hn ▸ hfits) he.symm hfresh
  refine ⟨s', allocations, range, ?_, hvalues, ho, he, hn, ho', hk', hl'.trans hactive,
    hh'.trans hn, ha'⟩
  unfold commitStatement
  rw [IdentityStatementCursor.fromActiveState_eq hactive, ok_bind, List.range_eq_range', hallocate, ok_bind]
  simp only [hrange, ok_bind, happly]
  rfl

/-- Past the kind's maximum a statement stops with `identity_exhausted` before
it commits anything. -/
theorem allocateInputs_of_exhausted {fieldSlot maximum : Nat} :
    ∀ (k : Nat) (cursor : IdentityStatementCursor),
      identityKindMaximum cursor.acceptedKind = some maximum →
      cursor.tentativeHighWater ≤ maximum → maximum < cursor.tentativeHighWater + k →
      cursor.allocationCount + k < 2 ^ 32 →
      allocateInputs fieldSlot cursor (List.range' cursor.allocationCount k) =
        .error .identityExhausted
  | 0, cursor, _, hle, hlt, _ => absurd hlt (by omega)
  | k + 1, cursor, hmax, hle, hlt, hcount => by
    by_cases hnext : maximum < cursor.tentativeHighWater + 1
    · rw [List.range'_succ, allocateInputs, cursor.allocate_of_exhausted hmax hnext, error_bind]
    obtain ⟨value, -, hstep⟩ := cursor.allocate_eq_ok hmax (by omega) (by omega) fieldSlot
    have hrest := @allocateInputs_of_exhausted fieldSlot maximum k
      { cursor with allocationCount := cursor.allocationCount + 1,
                    tentativeHighWater := cursor.tentativeHighWater + 1 } hmax
      (by simp only; omega) (by simp only; omega) (by simp only; omega)
    rw [List.range'_succ, allocateInputs, hstep, ok_bind]
    simp only at hrest
    simp only [hrest, error_bind]

theorem commitStatement_of_exhausted {s : IdentityState} (hactive : s.lifecycle = .active)
    {maximum : Nat} (hmax : identityKindMaximum s.acceptedKind = some maximum) {count : Nat}
    (hover : maximum < s.materializedHighWater + count) (hcount : count < 2 ^ 32)
    (fieldSlot : Nat) (advanceId : IdentityAdvanceId) :
    commitStatement s fieldSlot count advanceId = .error .identityExhausted := by
  obtain ⟨maximum', hmax', hle⟩ := s.highWater_le
  rw [hmax, Option.some.injEq] at hmax'
  subst hmax'
  have hallocate := @allocateInputs_of_exhausted fieldSlot maximum count
    ⟨s.owner, s.acceptedKind, s.materializedHighWater, s.materializedHighWater, 0⟩ hmax hle hover
    (by simpa using hcount)
  unfold commitStatement
  rw [IdentityStatementCursor.fromActiveState_eq hactive, ok_bind, List.range_eq_range']
  simp only at hallocate
  rw [hallocate, error_bind]

/-- A statement that generates nothing commits nothing. -/
theorem commitStatement_zero {s : IdentityState} (hactive : s.lifecycle = .active) (fieldSlot : Nat)
    (advanceId : IdentityAdvanceId) : commitStatement s fieldSlot 0 advanceId = .ok (s, [], none) := by
  have hnone : (⟨s.owner, s.acceptedKind, s.materializedHighWater, s.materializedHighWater, 0⟩ :
      IdentityStatementCursor).intoRangeAdvance = .ok none := by
    simp [IdentityStatementCursor.intoRangeAdvance, IdentityStatementCursor.hasAllocations]
  unfold commitStatement
  rw [IdentityStatementCursor.fromActiveState_eq hactive, ok_bind, List.range_zero]
  simp only [allocateInputs, ok_bind, hnone]
  rfl

/-! ### Runs of statements -/

/-- What a run of statements under fresh advance ids keeps: the owner, kind and
lifecycle; the high water moves by the number of values issued, which are the
next numbers in order; and every committed range ends at or below the final
high water. -/
theorem commitStatements_eq_ok {fieldSlot maximum : Nat} :
    ∀ (statements : List (Nat × IdentityAdvanceId)) (s : IdentityState),
      s.lifecycle = .active → identityKindMaximum s.acceptedKind = some maximum →
      (statements.map Prod.snd).Nodup → (∀ st ∈ statements, s.lastAppliedAdvance ≠ some st.2) →
      s.materializedHighWater + (statements.map Prod.fst).sum ≤ maximum →
      (∀ st ∈ statements, st.1 < 2 ^ 32) →
      ∃ s' values commits, commitStatements fieldSlot s statements = .ok (s', values, commits) ∧
        (List.range' (s.materializedHighWater + 1) (statements.map Prod.fst).sum).mapM
          (identityRuntimeValue s.acceptedKind) = .ok values ∧
        s'.owner = s.owner ∧ s'.acceptedKind = s.acceptedKind ∧ s'.lifecycle = .active ∧
        s'.materializedHighWater = s.materializedHighWater + (statements.map Prod.fst).sum ∧
        ∀ commit ∈ commits, commit.1.newHighWater ≤ s'.materializedHighWater
  | [], s, hactive, _, _, _, _, _ => ⟨s, [], [], rfl, rfl, rfl, rfl, hactive, rfl, by simp⟩
  | (count, advanceId) :: rest, s, hactive, hmax, hids, hfresh, hfits, hcounts => by
    simp only [List.map_cons, List.sum_cons, List.nodup_cons, List.mem_cons, forall_eq_or_imp]
      at hids hfresh hfits hcounts
    -- the first statement commits `count` values, or nothing when `count = 0`
    obtain ⟨s₁, values₁, range₁, hstep, hvalues₁, hrange₁, hfields₁, hlast₁⟩ :
        ∃ s₁ values₁ range₁, commitStatement s fieldSlot count advanceId = .ok (s₁, values₁, range₁) ∧
          (List.range' (s.materializedHighWater + 1) count).mapM (identityRuntimeValue s.acceptedKind) =
            .ok (values₁.map (·.value)) ∧
          (∀ range ∈ range₁.toList, range.newHighWater = s₁.materializedHighWater) ∧
          (s₁.owner = s.owner ∧ s₁.acceptedKind = s.acceptedKind ∧ s₁.lifecycle = .active ∧
            s₁.materializedHighWater = s.materializedHighWater + count) ∧
          (s₁.lastAppliedAdvance = s.lastAppliedAdvance ∨ s₁.lastAppliedAdvance = some advanceId) := by
      rcases Nat.eq_zero_or_pos count with rfl | hpos
      · exact ⟨s, [], none, commitStatement_zero hactive fieldSlot advanceId, rfl, by simp,
          ⟨rfl, rfl, hactive, rfl⟩, .inl rfl⟩
      · obtain ⟨s₁, values₁, range, hstep, hvalues, -, -, hnew, ho, hk, hl, hh, ha⟩ :=
          commitStatement_eq_ok hactive hmax hpos (by omega) hcounts.1 hfresh.1 fieldSlot
        exact ⟨s₁, values₁, some range, hstep, hvalues, by simp [hnew, hh], ⟨ho, hk, hl, hh⟩, .inr ha⟩
    obtain ⟨ho₁, hk₁, hl₁, hh₁⟩ := hfields₁
    -- the rest of the run starts from the state the first statement left
    have hfresh₁ : ∀ st ∈ rest, s₁.lastAppliedAdvance ≠ some st.2 := by
      intro st hst
      rcases hlast₁ with h | h
      · rw [h]; exact hfresh.2 st hst
      · rw [h, Ne, Option.some.injEq]
        exact fun heq => hids.1 (heq ▸ List.mem_map_of_mem hst)
    obtain ⟨s', values, commits, hrun, hvalues, ho, hk, hl, hh, hcommits⟩ :=
      @commitStatements_eq_ok fieldSlot maximum rest s₁ hl₁ (hk₁ ▸ hmax) hids.2 hfresh₁ (by omega)
        hcounts.2
    refine ⟨s', values₁.map (·.value) ++ values, range₁.toList.map (·, advanceId) ++ commits, ?_, ?_,
      ho.trans ho₁, hk.trans hk₁, hl, by simp [hh, hh₁, Nat.add_assoc], ?_⟩
    · simp only [commitStatements, hstep, ok_bind, hrun]
      rfl
    · -- the first statement's numbers, then those of the rest
      have hsplit : List.range' (s.materializedHighWater + 1) (count + (rest.map Prod.fst).sum) =
          List.range' (s.materializedHighWater + 1) count ++
            List.range' (s₁.materializedHighWater + 1) (rest.map Prod.fst).sum := by
        rw [hh₁, ← List.range'_append, Nat.one_mul, Nat.add_right_comm]
      rw [hk₁, hh₁] at hvalues
      simp only [List.map_cons, List.sum_cons]
      rw [hsplit, List.mapM_append, hvalues₁, hh₁, hvalues]
      rfl
    · intro commit hcommit
      rcases List.mem_append.mp hcommit with hc | hc
      · obtain ⟨range, hrange, rfl⟩ := List.mem_map.mp hc
        rw [hrange₁ range hrange, hh, hh₁]
        omega
      · exact hcommits commit hc

/-- Identity allocation never reissues a value.  From an active state of an
unsigned kind: one statement of `count` values under a fresh advance id
either runs past the kind's maximum and fails, or issues exactly
`h + 1, …, h + count`, moves the state to `h + count` under that id and is
materialized when applied again; a range that does not start at a state's
high water, or names another owner, a retired state or a value past the
maximum, is rejected under a fresh advance id; and a run of statements under
fresh ids issues `h + 1, …, h + N`, pairwise distinct, after which no range
committed on the way changes the state when applied again. -/
theorem identityAllocation_never_reissues {s : IdentityState} (hactive : s.lifecycle = .active)
    {maximum : Nat} (hmax : identityKindMaximum s.acceptedKind = some maximum) (fieldSlot : Nat) :
    (∀ {count : Nat} {advanceId : IdentityAdvanceId}, 0 < count → count < 2 ^ 32 →
      s.lastAppliedAdvance ≠ some advanceId →
      (maximum < s.materializedHighWater + count →
        commitStatement s fieldSlot count advanceId = .error .identityExhausted) ∧
      (s.materializedHighWater + count ≤ maximum →
        ∃ s' allocations range,
          commitStatement s fieldSlot count advanceId = .ok (s', allocations, some range) ∧
          (List.range' (s.materializedHighWater + 1) count).mapM
            (identityRuntimeValue s.acceptedKind) = .ok (allocations.map (·.value)) ∧
          s'.materializedHighWater = s.materializedHighWater + count ∧
          s'.lastAppliedAdvance = some advanceId ∧ s'.applyRangeAdvance range advanceId = .ok s')) ∧
    (∀ (t : IdentityState) (range : IdentityRangeAdvance) (advanceId : IdentityAdvanceId),
      t.lastAppliedAdvance ≠ some advanceId →
      (t.lifecycle ≠ .active ∨ range.owner ≠ t.owner ∨
        (∀ m, identityKindMaximum t.acceptedKind = some m → m < range.newHighWater) ∨
        range.expectedHighWater ≠ t.materializedHighWater) →
      ∃ e, t.applyRangeAdvance range advanceId = .error e) ∧
    (∀ statements : List (Nat × IdentityAdvanceId), (statements.map Prod.snd).Nodup →
      (∀ st ∈ statements, s.lastAppliedAdvance ≠ some st.2) →
      s.materializedHighWater + (statements.map Prod.fst).sum ≤ maximum →
      (∀ st ∈ statements, st.1 < 2 ^ 32) →
      ∃ s' values commits, commitStatements fieldSlot s statements = .ok (s', values, commits) ∧
        (List.range' (s.materializedHighWater + 1) (statements.map Prod.fst).sum).mapM
          (identityRuntimeValue s.acceptedKind) = .ok values ∧
        values.Nodup ∧
        s'.materializedHighWater = s.materializedHighWater + (statements.map Prod.fst).sum ∧
        ∀ commit ∈ commits, ∀ s'', s'.applyRangeAdvance commit.1 commit.2 = .ok s'' → s'' = s') := by
  refine ⟨?_, ?_, ?_⟩
  · intro count advanceId hpos hcount hfresh
    refine ⟨fun hover => commitStatement_of_exhausted hactive hmax hover hcount fieldSlot advanceId,
      fun hfits => ?_⟩
    obtain ⟨s', allocations, range, hstep, hvalues, ho, -, hnew, ho', hk', hl', hh', ha'⟩ :=
      commitStatement_eq_ok hactive hmax hpos hfits hcount hfresh fieldSlot
    -- the state now holds the range under its id: applying it again is a replay
    have hreplay : s'.applyRangeAdvance range advanceId = .ok s' :=
      IdentityState.applyRangeAdvance_eq_ok_iff.mpr ⟨hl', ho'.trans ho.symm,
        ⟨maximum, hk' ▸ hmax, hnew ▸ hfits⟩, .inl ⟨hh'.trans hnew.symm, ha', rfl⟩⟩
    exact ⟨s', allocations, range, hstep, hvalues, hh', ha', hreplay⟩
  · intro t range advanceId hfresh hstale
    cases happly : t.applyRangeAdvance range advanceId with
    | error e => exact ⟨e, rfl⟩
    | ok t' =>
      obtain ⟨hl, ho, ⟨m, hm, hle⟩, hcase⟩ := IdentityState.applyRangeAdvance_eq_ok_iff.mp happly
      have hexpected : t.materializedHighWater = range.expectedHighWater := by
        rcases hcase with ⟨-, hlast, -⟩ | ⟨hexpected, -⟩
        · exact absurd hlast hfresh
        · exact hexpected
      rcases hstale with h | h | h | h
      · exact absurd hl h
      · exact absurd ho.symm h
      · exact absurd (h m hm) (Nat.not_lt.mpr hle)
      · exact absurd hexpected.symm h
  · intro statements hids hfresh hfits hcounts
    obtain ⟨s', values, commits, hrun, hvalues, -, -, -, hh, hcommits⟩ :=
      @commitStatements_eq_ok fieldSlot maximum statements s hactive hmax hids hfresh hfits hcounts
    -- distinct numbers render as distinct values
    have hnodup : values.Nodup :=
      Except.nodup_of_mapM_eq_ok identityRuntimeValue_injective List.nodup_range' hvalues
    exact ⟨s', values, commits, hrun, hvalues, hnodup, hh,
      fun commit hcommit _ happly => IdentityState.applyRangeAdvance_replay (hcommits commit hcommit) happly⟩

/-- Three values from a fresh `Nat8` identity: `1`, `2` and `3`. -/
theorem identityAllocation_fresh_nat8_issues_one_two_three :
    ∃ s' commits, commitStatements 0
        ⟨⟨[], ⟨0⟩, 1⟩, .nat8, .active, 0, none, ⟨2 ^ 8 - 1, rfl, by decide⟩, by simp⟩
        [(3, ⟨[1], [1], 0, 0⟩)] =
      .ok (s', [.nat64 1, .nat64 2, .nat64 3], commits) := by
  obtain ⟨-, -, hrun⟩ := identityAllocation_never_reissues
    (s := ⟨⟨[], ⟨0⟩, 1⟩, .nat8, .active, 0, none, ⟨2 ^ 8 - 1, rfl, by decide⟩, by simp⟩)
    rfl rfl 0
  obtain ⟨s', values, commits, hstep, hvalues, -⟩ :=
    hrun [(3, ⟨[1], [1], 0, 0⟩)] (by decide) (by simp) (by decide) (by decide)
  have hthree : values = [.nat64 1, .nat64 2, .nat64 3] := by
    have hcompute : (List.range' (0 + 1) ([(3, (⟨[1], [1], 0, 0⟩ : IdentityAdvanceId))].map Prod.fst).sum).mapM
        (identityRuntimeValue .nat8) = .ok [.nat64 1, .nat64 2, .nat64 3] := by
      rfl
    exact Except.ok.inj (hvalues.symm.trans hcompute)
  exact ⟨s', commits, hthree ▸ hstep⟩

end Schema

end IcyDb
