import IcyDb.Value.CompareLaws
import IcyDb.Control.Except

/-!
# Row comparators of the executor's ordering

`executor::order` orders rows under a planner-resolved order: a list of
terms, each a direct field slot or a compiled expression, each ascending or
descending, the last one the primary key.  Three comparators implement it
over three representations of a row's order values:

* `compare_borrowed_direct_orderable_rows` reads the direct slots of both
  rows as they are stored;
* `compare_cached_orderable_rows` compares the tuples that
  `cache_order_values_from_row` caches once per row;
* `compare_orderable_row_with_boundary` compares a row with the
  `CursorBoundary` that `cursor_boundary_from_orderable_row` records for the
  last row of a page.

The cached tuple and the boundary both go through `order_value_from_row`,
which reads SQL `NULL` as a missing value, and they always agree
(`compareOrderableRowWithBoundary_eq_cached`).  The borrowed comparator reads
the stored slot itself: a nullable field that holds `Null` is `Some(Null)`
there, which `canonical_value_compare` ranks between the numeric kinds and
`Text` instead of first.  It agrees with the other two exactly when no direct
slot of either row holds `Null` (`compareBorrowedDirectOrderableRows_eq_cached`).

Row types enter through `OrderReadableRow`; its two slot reads
(`read_order_slot_ref`, `read_order_slot_cow`) are one function here, since
both implementors answer both from `slot_ref`.  Compiled expressions are
evaluated by a parameter `eval` (the `.ok()` of
`eval_compiled_expr_with_value_reader`), and the float conversions by `fd`:
every result holds for all of them.  The inline and heap storage of
`CachedOrderValues` are one list.
-/

namespace IcyDb

namespace Executor

open Value

/-- `OrderDirection`. -/
inductive OrderDirection
  | asc
  | desc
deriving DecidableEq, Repr

/-- `apply_order_direction`. -/
def applyOrderDirection (ordering : Ordering) : OrderDirection → Ordering
  | .asc => ordering
  | .desc => ordering.swap

/-- `ResolvedOrderValueSource`, over the type `ε` of compiled expressions. -/
inductive ResolvedOrderValueSource (ε : Type)
  | directField (slot : Nat)
  | expression (expr : ε)
deriving DecidableEq

/-- `ResolvedOrderField`. -/
structure ResolvedOrderField (ε : Type) where
  source : ResolvedOrderValueSource ε
  direction : OrderDirection
deriving DecidableEq

/-- `ResolvedOrder`. -/
structure ResolvedOrder (ε : Type) where
  fields : List (ResolvedOrderField ε)
deriving DecidableEq

/-- `CursorBoundarySlot`. -/
inductive CursorBoundarySlot
  | missing
  | present (value : Value)

/-- `CursorBoundary`. -/
structure CursorBoundary where
  slots : List CursorBoundarySlot

/-- The `InternalError`s the ordering code raises or passes on: its own
executor invariant error, and the errors of the persisted-row decoder, which
is not modelled. -/
inductive InternalError
  | queryExecutorInvariant
  | rowDecode
deriving DecidableEq, Repr

/-- `OrderReadableRow`: a row's slot read, and whether its slots are stable
borrowed views. -/
class OrderReadableRow (ρ : Type) where
  readOrderSlot : ρ → Nat → Option Value
  orderSlotsAreBorrowed : ρ → Bool

/-- `RetainedSlotRow` with indexed storage: the layout's slot-to-index table
and the compact decoded values. -/
structure RetainedSlotRow where
  slotToValueIndex : List (Option Nat)
  values : List (Option Value)

/-- `RetainedSlotRow::slot_ref`, through `RetainedSlotLayout::value_index_for_slot`. -/
def RetainedSlotRow.slotRef (row : RetainedSlotRow) (slot : Nat) : Option Value :=
  (row.slotToValueIndex[slot]?).join.bind fun index => (row.values[index]?).join

instance : OrderReadableRow RetainedSlotRow where
  readOrderSlot := RetainedSlotRow.slotRef
  orderSlotsAreBorrowed _ := true

/-- `KernelRowSlots`. -/
inductive KernelRowSlots
  | notMaterialized
  | retained (slots : RetainedSlotRow)

/-- `KernelRow`, reduced to its slots; its data row is not read by ordering. -/
structure KernelRow where
  slots : KernelRowSlots

/-- `KernelRow::slot_ref`. -/
def KernelRow.slotRef (row : KernelRow) (slot : Nat) : Option Value :=
  match row.slots with
  | .notMaterialized => none
  | .retained slots => slots.slotRef slot

/-- `KernelRow::has_materialized_slots`. -/
def KernelRow.hasMaterializedSlots (row : KernelRow) : Bool :=
  match row.slots with
  | .notMaterialized => false
  | .retained _ => true

instance : OrderReadableRow KernelRow where
  readOrderSlot := KernelRow.slotRef
  orderSlotsAreBorrowed := KernelRow.hasMaterializedSlots

/-- `!matches!(value, Value::Null)`. -/
def notNull : Value → Bool
  | .null => false
  | _ => true

/-- The first ordering that is not `Equal`, else `Equal`: the loops that
return at the first term that decides. -/
def firstNonEqual : List Ordering → Ordering
  | [] => .eq
  | ordering :: rest => if ordering ≠ .eq then ordering else firstNonEqual rest

section Comparators

variable {ρ ε : Type} [OrderReadableRow ρ] (fd : FloatDecimal)
  (eval : ε → (Nat → Option Value) → Option Value)

open OrderReadableRow

/-- `order_value_from_row`: the slot's value or the expression's, with `Null`
and a failed evaluation both missing. -/
def orderValueFromRow (row : ρ) (source : ResolvedOrderValueSource ε) : Option Value :=
  let value := match source with
    | .directField slot => readOrderSlot row slot
    | .expression expr => eval expr (readOrderSlot row)
  value.filter notNull

/-- `CachedOrderValues::push`: `Null` and absence are stored as one missing
value. -/
def CachedOrderValues.push (values : List (Option Value)) (value : Option Value) :
    List (Option Value) :=
  let value := match value with
    | some .null | none => none
    | value => value
  values ++ [value]

/-- `cache_order_values_from_row`. -/
def cacheOrderValuesFromRow (row : ρ) (order : ResolvedOrder ε) : List (Option Value) :=
  order.fields.foldl (fun cached field => CachedOrderValues.push cached
    (orderValueFromRow eval row field.source)) []

/-- `compare_cached_order_values`: missing first. -/
def compareCachedOrderValues : Option Value → Option Value → Ordering
  | none, none => .eq
  | none, some _ => .lt
  | some _, none => .gt
  | some left, some right => canonicalValueCompare fd left right

/-- `compare_cached_order_value_lists`, which is `compare_cached_orderable_rows`
for every storage of the two tuples. -/
def compareCachedOrderableRows (left right : List (Option Value)) (order : ResolvedOrder ε) :
    Ordering :=
  firstNonEqual (((left.zip right).zip order.fields).map fun ((l, r), field) =>
    applyOrderDirection (compareCachedOrderValues fd l r) field.direction)

/-- `compare_borrowed_direct_orderable_rows`: the stored slots themselves; an
expression term ends the comparison with `Equal`. -/
def compareBorrowedDirectOrderableRows (left right : ρ) (order : ResolvedOrder ε) : Ordering :=
  go order.fields
where
  go : List (ResolvedOrderField ε) → Ordering
    | [] => .eq
    | field :: rest =>
      match field.source with
      | .expression _ => .eq
      | .directField slot =>
        let ordering := applyOrderDirection
          (compareCachedOrderValues fd (readOrderSlot left slot) (readOrderSlot right slot))
          field.direction
        if ordering ≠ .eq then ordering else go rest

/-- `cursor_boundary_from_orderable_row`. -/
def cursorBoundaryFromOrderableRow (row : ρ) (order : ResolvedOrder ε) : CursorBoundary :=
  ⟨order.fields.map fun field =>
    match orderValueFromRow eval row field.source with
    | some value => .present value
    | none => .missing⟩

/-- `compare_order_value_with_boundary`. -/
def compareOrderValueWithBoundary : Option Value → CursorBoundarySlot → Ordering
  | none, .missing => .eq
  | none, .present _ => .lt
  | some _, .missing => .gt
  | some value, .present boundary => canonicalValueCompare fd value boundary

/-- `compare_structural_order_slots_fallible`: the terms in order with their
indices, returning at the first error or the first term that decides. -/
def compareStructuralOrderSlotsFallible {σ : Type}
    (compareSlot : Nat → ResolvedOrderValueSource ε → OrderDirection → Except σ Ordering) :
    Nat → List (ResolvedOrderField ε) → Except σ Ordering
  | _, [] => .ok .eq
  | slotIndex, field :: rest => do
    let ordering ← compareSlot slotIndex field.source field.direction
    if ordering ≠ .eq then .ok ordering
    else compareStructuralOrderSlotsFallible compareSlot (slotIndex + 1) rest

/-- `compare_orderable_row_with_boundary`: a boundary with fewer slots than
the order has terms is an invariant error. -/
def compareOrderableRowWithBoundary (row : ρ) (order : ResolvedOrder ε)
    (boundary : CursorBoundary) : Except InternalError Ordering :=
  compareStructuralOrderSlotsFallible (fun slotIndex source direction =>
    match boundary.slots[slotIndex]? with
    | none => .error .queryExecutorInvariant
    | some boundarySlot => .ok (applyOrderDirection
        (compareOrderValueWithBoundary fd (orderValueFromRow eval row source) boundarySlot)
        direction)) 0 order.fields

/-- `resolved_order_uses_only_direct_fields`. -/
def resolvedOrderUsesOnlyDirectFields (order : ResolvedOrder ε) : Bool :=
  order.fields.all fun field =>
    match field.source with
    | .directField _ => true
    | .expression _ => false

end Comparators

/-! ### The cached tuple and the boundary -/

section Cached

variable {ρ ε : Type} [OrderReadableRow ρ] (fd : FloatDecimal)
  (eval : ε → (Nat → Option Value) → Option Value)

open OrderReadableRow

theorem notNull_of_orderValueFromRow {row : ρ} {source : ResolvedOrderValueSource ε} {v : Value}
    (h : orderValueFromRow eval row source = some v) : notNull v = true :=
  (Option.filter_eq_some_iff.mp h).2

/-- A value that is not `Null` is pushed as it is. -/
theorem CachedOrderValues.push_of_notNull (values : List (Option Value)) {value : Option Value}
    (h : ∀ v, value = some v → notNull v = true) :
    CachedOrderValues.push values value = values ++ [value] := by
  unfold CachedOrderValues.push
  match value with
  | none => rfl
  | some .null => simp [notNull] at h
  | some (.account _) | some (.blob _) | some (.bool _) | some (.date _) | some (.decimal _)
  | some (.duration _) | some (.enum _ _ _) | some (.float32 _) | some (.float64 _)
  | some (.int64 _) | some (.int128 _) | some (.intBig _) | some (.list _) | some (.map _)
  | some (.principal _) | some (.subaccount _) | some (.text _) | some (.timestamp _)
  | some (.nat64 _) | some (.nat128 _) | some (.natBig _) | some (.ulid _) | some .unit => rfl

/-- The cached tuple is the order values of the terms, in order. -/
theorem cacheOrderValuesFromRow_eq_map (row : ρ) (order : ResolvedOrder ε) :
    cacheOrderValuesFromRow eval row order =
      order.fields.map fun field => orderValueFromRow eval row field.source := by
  -- the loop appends one value per term to what it has cached so far
  suffices h : ∀ (fields : List (ResolvedOrderField ε)) (cached : List (Option Value)),
      fields.foldl (fun cached field => CachedOrderValues.push cached
        (orderValueFromRow eval row field.source)) cached =
        cached ++ fields.map fun field => orderValueFromRow eval row field.source from
    h order.fields []
  intro fields
  induction fields with
  | nil => simp
  | cons field rest ih =>
    intro cached
    rw [List.foldl_cons, CachedOrderValues.push_of_notNull _
      (fun _ hv => notNull_of_orderValueFromRow eval hv), ih]
    simp

/-- Comparing two tuples of per-term values is comparing term by term. -/
theorem compareCachedOrderableRows_map (fields : List (ResolvedOrderField ε))
    (f g : ResolvedOrderField ε → Option Value) :
    compareCachedOrderableRows fd (fields.map f) (fields.map g) ⟨fields⟩ =
      firstNonEqual (fields.map fun field =>
        applyOrderDirection (compareCachedOrderValues fd (f field) (g field)) field.direction) := by
  unfold compareCachedOrderableRows
  congr 1
  induction fields with
  | nil => rfl
  | cons field rest ih => simp only [List.map_cons, List.zip_cons_cons, ih]

/-- The boundary slot recorded for an order value. -/
def boundarySlotOf : Option Value → CursorBoundarySlot
  | some value => .present value
  | none => .missing

theorem compareOrderValueWithBoundary_boundarySlotOf (v w : Option Value) :
    compareOrderValueWithBoundary fd v (boundarySlotOf w) = compareCachedOrderValues fd v w := by
  cases v <;> cases w <;> rfl

theorem cursorBoundaryFromOrderableRow_eq (row : ρ) (order : ResolvedOrder ε) :
    cursorBoundaryFromOrderableRow eval row order =
      ⟨order.fields.map fun field => boundarySlotOf (orderValueFromRow eval row field.source)⟩ :=
  rfl

/-- Against a boundary with one slot per term, the fallible loop never fails
and decides at the first term that decides.  The terms already compared are
`done`, so the next term's slot is at index `done.length`. -/
theorem compareStructuralOrderSlotsFallible_boundary (row : ρ)
    (g : ResolvedOrderField ε → CursorBoundarySlot) :
    ∀ (done rest : List (ResolvedOrderField ε)),
    compareStructuralOrderSlotsFallible (fun slotIndex source direction =>
      match ((done ++ rest).map g)[slotIndex]? with
      | none => .error InternalError.queryExecutorInvariant
      | some boundarySlot => .ok (applyOrderDirection
          (compareOrderValueWithBoundary fd (orderValueFromRow eval row source) boundarySlot)
          direction)) done.length rest =
      .ok (firstNonEqual (rest.map fun field => applyOrderDirection
        (compareOrderValueWithBoundary fd (orderValueFromRow eval row field.source) (g field))
        field.direction))
  | _, [] => rfl
  | done, field :: rest => by
    have hslot : ((done ++ field :: rest).map g)[done.length]? = some (g field) := by
      simp
    have ih := compareStructuralOrderSlotsFallible_boundary row g (done ++ [field]) rest
    rw [List.append_assoc, List.singleton_append, List.length_append,
      List.length_singleton] at ih
    simp only [compareStructuralOrderSlotsFallible, hslot, List.map_cons, firstNonEqual,
      Except.ok_bind]
    split
    · rfl
    · exact ih

/-- Comparing a row with the boundary recorded for another row is comparing
their cached tuples: both read `Null` and absence as one missing value. -/
theorem compareOrderableRowWithBoundary_eq_cached (left right : ρ) (order : ResolvedOrder ε) :
    compareOrderableRowWithBoundary fd eval left order
        (cursorBoundaryFromOrderableRow eval right order) =
      .ok (compareCachedOrderableRows fd (cacheOrderValuesFromRow eval left order)
        (cacheOrderValuesFromRow eval right order) order) := by
  rw [cursorBoundaryFromOrderableRow_eq, cacheOrderValuesFromRow_eq_map,
    cacheOrderValuesFromRow_eq_map, compareOrderableRowWithBoundary]
  have h := compareStructuralOrderSlotsFallible_boundary fd eval left
    (fun field => boundarySlotOf (orderValueFromRow eval right field.source)) [] order.fields
  rw [List.nil_append, List.length_nil] at h
  rw [h, compareCachedOrderableRows_map]
  simp only [compareOrderValueWithBoundary_boundarySlotOf]

end Cached

/-! ### The borrowed comparator -/

section Borrowed

variable {ρ ε : Type} [OrderReadableRow ρ] (fd : FloatDecimal)
  (eval : ε → (Nat → Option Value) → Option Value)

open OrderReadableRow

/-- No direct slot the order reads holds `Null` in this row. -/
def DirectSlotsNotNull (row : ρ) (order : ResolvedOrder ε) : Prop :=
  ∀ field ∈ order.fields, ∀ slot, field.source = .directField slot →
    readOrderSlot row slot ≠ some .null

/-- Filtering out `Null` keeps every other optional value. -/
theorem filter_notNull_of_ne_null {value : Option Value} (h : value ≠ some .null) :
    value.filter notNull = value := by
  match value with
  | none => rfl
  | some v => cases v <;> first | exact absurd rfl h | rfl

theorem orderValueFromRow_directField {row : ρ} {slot : Nat}
    (h : readOrderSlot row slot ≠ some .null) :
    orderValueFromRow eval row (.directField slot : ResolvedOrderValueSource ε) =
      readOrderSlot row slot :=
  filter_notNull_of_ne_null h

theorem compareBorrowedDirectOrderableRows_go_eq (left right : ρ) :
    ∀ fields : List (ResolvedOrderField ε),
    (∀ field ∈ fields, ∃ slot, field.source = .directField slot ∧
      readOrderSlot left slot ≠ some .null ∧ readOrderSlot right slot ≠ some .null) →
    compareBorrowedDirectOrderableRows.go fd left right fields =
      firstNonEqual (fields.map fun field => applyOrderDirection (compareCachedOrderValues fd
        (orderValueFromRow eval left field.source) (orderValueFromRow eval right field.source))
        field.direction)
  | [], _ => rfl
  | field :: rest, h => by
    obtain ⟨slot, hsource, hleft, hright⟩ := h field (List.mem_cons_self ..)
    have ih := compareBorrowedDirectOrderableRows_go_eq left right rest
      fun f hf => h f (List.mem_cons_of_mem _ hf)
    simp only [compareBorrowedDirectOrderableRows.go, hsource, List.map_cons, firstNonEqual,
      orderValueFromRow_directField eval hleft, orderValueFromRow_directField eval hright, ih]

/-- When every term is a direct field and no slot it reads holds `Null`, the
borrowed comparator is the cached one. -/
theorem compareBorrowedDirectOrderableRows_eq_cached {left right : ρ} {order : ResolvedOrder ε}
    (hdirect : resolvedOrderUsesOnlyDirectFields order = true)
    (hleft : DirectSlotsNotNull left order) (hright : DirectSlotsNotNull right order) :
    compareBorrowedDirectOrderableRows fd left right order =
      compareCachedOrderableRows fd (cacheOrderValuesFromRow eval left order)
        (cacheOrderValuesFromRow eval right order) order := by
  rw [cacheOrderValuesFromRow_eq_map, cacheOrderValuesFromRow_eq_map]
  obtain ⟨fields⟩ := order
  rw [compareCachedOrderableRows_map, compareBorrowedDirectOrderableRows,
    compareBorrowedDirectOrderableRows_go_eq fd eval]
  intro field hfield
  have hsource : ∃ slot, field.source = .directField slot := by
    have := List.all_eq_true.mp hdirect field hfield
    revert this
    cases field.source with
    | directField slot => exact fun _ => ⟨slot, rfl⟩
    | expression _ => simp
  obtain ⟨slot, hslot⟩ := hsource
  exact ⟨slot, hslot, hleft field hfield slot hslot, hright field hfield slot hslot⟩

end Borrowed

/-! ### A stored `Null` -/

section StoredNull

variable {ρ ε : Type} [OrderReadableRow ρ] (fd : FloatDecimal)
  (eval : ε → (Nat → Option Value) → Option Value)

open OrderReadableRow

/-- `Null` has no `Decimal` form, so `canonical_value_compare` ranks it:
above every value of a lower rank. -/
theorem canonicalValueCompare_null_of_rank_lt {v : Value}
    (hrank : v.canonicalRank.toNat < Value.null.canonicalRank.toNat) :
    canonicalValueCompare fd .null v = .gt := by
  have htag : Value.null.canonicalTag ≠ v.canonicalTag := fun h => by
    rw [Value.canonicalRank, Value.canonicalRank, h] at hrank
    exact lt_irrefl _ hrank
  rw [canonicalValueCompare_of_not_decimal fd (.inl rfl), canonicalCmp_of_tag_ne htag,
    ByteOrder.compare_uint8]
  exact compare_gt_iff_gt.mpr hrank

/-- A row whose first ordered slot stores `Null` and a row whose slot holds a
value of lower rank: the borrowed comparator puts the `Null` row after the
other, while the cached comparator and the cursor boundary put it before. -/
theorem borrowed_direct_order_misplaces_stored_null {left right : ρ} {slot : Nat} {v : Value}
    (rest : List (ResolvedOrderField ε)) (hleft : readOrderSlot left slot = some .null)
    (hright : readOrderSlot right slot = some v)
    (hrank : v.canonicalRank.toNat < Value.null.canonicalRank.toNat) :
    compareBorrowedDirectOrderableRows fd left right ⟨⟨.directField slot, .asc⟩ :: rest⟩ = .gt ∧
      compareCachedOrderableRows fd
        (cacheOrderValuesFromRow eval left ⟨⟨.directField slot, .asc⟩ :: rest⟩)
        (cacheOrderValuesFromRow eval right ⟨⟨.directField slot, .asc⟩ :: rest⟩)
        ⟨⟨.directField slot, .asc⟩ :: rest⟩ = .lt ∧
      compareOrderableRowWithBoundary fd eval left ⟨⟨.directField slot, .asc⟩ :: rest⟩
        (cursorBoundaryFromOrderableRow eval right ⟨⟨.directField slot, .asc⟩ :: rest⟩) =
        .ok .lt := by
  have hgt := canonicalValueCompare_null_of_rank_lt fd hrank
  have hvnull : v ≠ .null := fun h => by
    rw [h] at hrank
    exact lt_irrefl _ hrank
  -- the cached tuples read the `Null` as missing and keep `v`
  have hleftValue : orderValueFromRow eval left (.directField slot : ResolvedOrderValueSource ε) =
      none := by
    simp [orderValueFromRow, hleft, notNull]
  have hrightValue : orderValueFromRow eval right (.directField slot : ResolvedOrderValueSource ε) =
      some v :=
    (orderValueFromRow_directField eval
      (by rw [hright]; exact fun h => hvnull (Option.some.inj h))).trans
      hright
  have hcached : compareCachedOrderableRows fd
      (cacheOrderValuesFromRow eval left ⟨⟨.directField slot, .asc⟩ :: rest⟩)
      (cacheOrderValuesFromRow eval right ⟨⟨.directField slot, .asc⟩ :: rest⟩)
      ⟨⟨.directField slot, .asc⟩ :: rest⟩ = .lt := by
    rw [cacheOrderValuesFromRow_eq_map, cacheOrderValuesFromRow_eq_map,
      compareCachedOrderableRows_map]
    simp [hleftValue, hrightValue, firstNonEqual, compareCachedOrderValues, applyOrderDirection]
  refine ⟨?_, hcached, ?_⟩
  · simp [compareBorrowedDirectOrderableRows, compareBorrowedDirectOrderableRows.go, hleft, hright,
      compareCachedOrderValues, hgt, applyOrderDirection]
  · rw [compareOrderableRowWithBoundary_eq_cached, hcached]

/-- The ordered slot of a test entity: slot 0 is a nullable score, slot 1 the
primary key. -/
def scoreSlotLayout : List (Option Nat) := [some 0, some 1]

/-- `ORDER BY score ASC, id ASC`. -/
def scoreThenIdOrder : ResolvedOrder Empty := ⟨[⟨.directField 0, .asc⟩, ⟨.directField 1, .asc⟩]⟩

theorem nullScore_row_misplaced :
    RetainedSlotRow.slotRef ⟨scoreSlotLayout, [some .null, some (.nat64 1)]⟩ 0 = some .null ∧
      RetainedSlotRow.slotRef ⟨scoreSlotLayout, [some (.int64 5), some (.nat64 2)]⟩ 0 =
        some (.int64 5) ∧
      (Value.int64 5).canonicalRank.toNat < Value.null.canonicalRank.toNat ∧
      compareBorrowedDirectOrderableRows rejectAllFloats
          (⟨scoreSlotLayout, [some .null, some (.nat64 1)]⟩ : RetainedSlotRow)
          ⟨scoreSlotLayout, [some (.int64 5), some (.nat64 2)]⟩ scoreThenIdOrder = .gt ∧
      compareCachedOrderableRows rejectAllFloats
          (cacheOrderValuesFromRow Empty.elim
            (⟨scoreSlotLayout, [some .null, some (.nat64 1)]⟩ : RetainedSlotRow)
            scoreThenIdOrder)
          (cacheOrderValuesFromRow Empty.elim
            (⟨scoreSlotLayout, [some (.int64 5), some (.nat64 2)]⟩ : RetainedSlotRow)
            scoreThenIdOrder) scoreThenIdOrder = .lt ∧
      compareOrderableRowWithBoundary rejectAllFloats Empty.elim
          (⟨scoreSlotLayout, [some .null, some (.nat64 1)]⟩ : RetainedSlotRow) scoreThenIdOrder
          (cursorBoundaryFromOrderableRow Empty.elim
            (⟨scoreSlotLayout, [some (.int64 5), some (.nat64 2)]⟩ : RetainedSlotRow)
            scoreThenIdOrder) =
        .ok .lt :=
  ⟨rfl, rfl, by decide,
    borrowed_direct_order_misplaces_stored_null rejectAllFloats Empty.elim _ rfl rfl (by decide)⟩

end StoredNull

section Agreement

variable {ρ ε : Type} [OrderReadableRow ρ] (fd : FloatDecimal)
  (eval : ε → (Nat → Option Value) → Option Value)

/-- Where no ordered slot stores `Null` the three comparators agree: the
boundary comparison is the cached one for every order, and for an order of
direct fields so is the borrowed one. -/
theorem orderComparators_agree_without_stored_null (left right : ρ) (order : ResolvedOrder ε) :
    compareOrderableRowWithBoundary fd eval left order
        (cursorBoundaryFromOrderableRow eval right order) =
      .ok (compareCachedOrderableRows fd (cacheOrderValuesFromRow eval left order)
        (cacheOrderValuesFromRow eval right order) order) ∧
    (resolvedOrderUsesOnlyDirectFields order = true → DirectSlotsNotNull left order →
      DirectSlotsNotNull right order →
      compareBorrowedDirectOrderableRows fd left right order =
        compareCachedOrderableRows fd (cacheOrderValuesFromRow eval left order)
          (cacheOrderValuesFromRow eval right order) order) :=
  ⟨compareOrderableRowWithBoundary_eq_cached fd eval left right order,
    fun hdirect hleft hright =>
      compareBorrowedDirectOrderableRows_eq_cached fd eval hdirect hleft hright⟩

/-- A score row reads no `Null` when neither its score nor its key is `Null`. -/
theorem directSlotsNotNull_scoreThenIdOrder {score key : Value} (hscore : score ≠ .null)
    (hkey : key ≠ .null) :
    DirectSlotsNotNull (⟨scoreSlotLayout, [some score, some key]⟩ : RetainedSlotRow)
      scoreThenIdOrder := by
  intro field hfield slot hslot
  simp only [scoreThenIdOrder, List.mem_cons, List.not_mem_nil, or_false] at hfield
  rcases hfield with rfl | rfl <;> cases hslot <;>
    simpa [OrderReadableRow.readOrderSlot, RetainedSlotRow.slotRef, scoreSlotLayout]

theorem scored_rows_comparators_agree :
    resolvedOrderUsesOnlyDirectFields scoreThenIdOrder = true ∧
      DirectSlotsNotNull (⟨scoreSlotLayout, [some (.int64 3), some (.nat64 1)]⟩ : RetainedSlotRow)
        scoreThenIdOrder ∧
      DirectSlotsNotNull (⟨scoreSlotLayout, [some (.int64 5), some (.nat64 2)]⟩ : RetainedSlotRow)
        scoreThenIdOrder ∧
      compareBorrowedDirectOrderableRows rejectAllFloats
          (⟨scoreSlotLayout, [some (.int64 3), some (.nat64 1)]⟩ : RetainedSlotRow)
          ⟨scoreSlotLayout, [some (.int64 5), some (.nat64 2)]⟩ scoreThenIdOrder =
        compareCachedOrderableRows rejectAllFloats
          (cacheOrderValuesFromRow Empty.elim
            (⟨scoreSlotLayout, [some (.int64 3), some (.nat64 1)]⟩ : RetainedSlotRow)
            scoreThenIdOrder)
          (cacheOrderValuesFromRow Empty.elim
            (⟨scoreSlotLayout, [some (.int64 5), some (.nat64 2)]⟩ : RetainedSlotRow)
            scoreThenIdOrder)
          scoreThenIdOrder := by
  have hleft : DirectSlotsNotNull
      (⟨scoreSlotLayout, [some (.int64 3), some (.nat64 1)]⟩ : RetainedSlotRow) scoreThenIdOrder :=
    directSlotsNotNull_scoreThenIdOrder Value.noConfusion Value.noConfusion
  have hright : DirectSlotsNotNull
      (⟨scoreSlotLayout, [some (.int64 5), some (.nat64 2)]⟩ : RetainedSlotRow) scoreThenIdOrder :=
    directSlotsNotNull_scoreThenIdOrder Value.noConfusion Value.noConfusion
  exact ⟨rfl, hleft, hright, (orderComparators_agree_without_stored_null rejectAllFloats Empty.elim
    _ _ scoreThenIdOrder).2 rfl hleft hright⟩

end Agreement

end Executor

end IcyDb
