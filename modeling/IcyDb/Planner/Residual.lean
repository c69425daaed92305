import IcyDb.Planner.Implication
import IcyDb.Order.Bound

/-!
# Residual filters after index access

Once the planner has chosen an access path, `planner::index_select` drops
from the query predicate the clauses the access already guarantees, so that
execution does not filter on them again.  Two guarantees are used:

* a filtered index holds only rows that satisfy its predicate, so a query
  clause implied by that predicate is dropped
  (`residual_query_predicate_after_filtered_access_contract`);
* an index path fixes the values of some key fields: equalities for a
  prefix, a value set for a multi-lookup or branch slot, and bounds for the
  range slot; a clause these imply is dropped
  (`residual_query_predicate_after_access_path_bounds`).

`strip_query_clauses` walks the conjunction and removes what a test calls
redundant; `None` is the predicate `True`.

An index contract is modelled by the two things these functions read: its
key items (a field, or an expression, which names no field) and its
predicate.
-/

namespace IcyDb

namespace Planner

open Value

/-- `SemanticIndexKeyItem`: a field, or an accepted expression. -/
inductive SemanticIndexKeyItem
  | field (name : String)
  | expression

/-- `SemanticIndexAccessContract`, reduced to its key items and predicate. -/
structure SemanticIndexAccessContract where
  keyItems : List SemanticIndexKeyItem
  predicateSemantics : Option Predicate

/-- `SemanticIndexAccessContract::key_field_at`. -/
def SemanticIndexAccessContract.keyFieldAt (index : SemanticIndexAccessContract) (slot : Nat) :
    Option String :=
  match index.keyItems[slot]? with
  | some (.field name) => some name
  | _ => none

/-- `IndexBranchSetSpec`: fixed values for the leading slots and a value set
for the next one. -/
structure IndexBranchSetSpec where
  index : SemanticIndexAccessContract
  fixedValues : List Value
  branchValues : List Value

/-- `IndexBranchSetSpec::branch_slot`. -/
def IndexBranchSetSpec.branchSlot (spec : IndexBranchSetSpec) : Nat := spec.fixedValues.length

/-- `SemanticIndexRangeSpec`. -/
structure SemanticIndexRangeSpec where
  index : SemanticIndexAccessContract
  fieldSlots : List Nat
  prefixValues : List Value
  lower : Bound Value
  upper : Bound Value

/-- `AccessPath`, over primary keys of type `K`. -/
inductive AccessPath (K : Type)
  | byKey (key : K)
  | byKeys (keys : List K)
  | keyRange (start stop : K)
  | indexPrefix (index : SemanticIndexAccessContract) (values : List Value)
  | indexMultiLookup (index : SemanticIndexAccessContract) (values : List Value)
  | indexBranchSet (spec : IndexBranchSetSpec)
  | indexRange (spec : SemanticIndexRangeSpec)
  | fullScan

/-! ### Clause stripping -/

mutual

/-- `strip_query_clauses`: drop redundant clauses from a conjunction; `none`
when nothing is left. -/
def stripQueryClauses (compareIsRedundant : ComparePredicate → Bool)
    (nonNullIsRedundant : String → Bool) : Predicate → Option Predicate
  | .and children =>
    match stripChildren compareIsRedundant nonNullIsRedundant children with
    | [] => none
    | [child] => some child
    | residual => some (.and residual)
  | .compare cmp => if compareIsRedundant cmp then none else some (.compare cmp)
  | .isNotNull field => if nonNullIsRedundant field then none else some (.isNotNull field)
  | .true => none
  | predicate => some predicate

/-- The loop over the children of an `And`, keeping their residuals. -/
def stripChildren (compareIsRedundant : ComparePredicate → Bool)
    (nonNullIsRedundant : String → Bool) : List Predicate → List Predicate
  | [] => []
  | child :: rest =>
    match stripQueryClauses compareIsRedundant nonNullIsRedundant child with
    | some residual => residual :: stripChildren compareIsRedundant nonNullIsRedundant rest
    | none => stripChildren compareIsRedundant nonNullIsRedundant rest

end

section Residual

variable (fd : FloatDecimal)

/-- `strip_query_clauses_satisfied_by_filtered_guard`. -/
def stripQueryClausesSatisfiedByFilteredGuard (queryPredicate indexPredicate : Predicate) :
    Option Predicate :=
  stripQueryClauses
    (fun cmp => compareClauseSupported cmp &&
      predicateImpliesPredicateForPlanner fd indexPredicate (.compare cmp))
    (fun field => predicateImpliesPredicateForPlanner fd indexPredicate (.isNotNull field))
    queryPredicate

/-- `residual_query_predicate_after_filtered_access_contract`. -/
def residualQueryPredicateAfterFilteredAccessContract (index : SemanticIndexAccessContract)
    (queryPredicate : Predicate) : Option Predicate :=
  match index.predicateSemantics with
  | none => some queryPredicate
  | some indexPredicate =>
    if !predicateImpliesPredicateForPlanner fd queryPredicate indexPredicate then some queryPredicate
    else stripQueryClausesSatisfiedByFilteredGuard fd queryPredicate indexPredicate

end Residual

/-! ### Bounds of an access path -/

/-- `access_bound_equalities`: each fixed value as a strict equality on its
key field; expression slots give none. -/
def accessBoundEqualities (index : SemanticIndexAccessContract) (values : List Value) :
    List ComparePredicate :=
  (List.range values.length).zip values |>.filterMap fun (slot, value) =>
    (index.keyFieldAt slot).map fun field => ⟨field, .eq, value, .strict⟩

/-- `AccessBoundBranchIn`: a field and the value set it is bound to. -/
structure AccessBoundBranchIn where
  field : String
  values : List Value

/-- `AccessBoundClauses`. -/
structure AccessBoundClauses where
  equalities : List ComparePredicate
  ranges : List ComparePredicate
  branchIn : Option AccessBoundBranchIn

/-- `AccessBoundClauses::is_empty`. -/
def AccessBoundClauses.isEmpty (c : AccessBoundClauses) : Bool :=
  c.equalities.isEmpty && c.ranges.isEmpty && c.branchIn.isNone

/-- `access_bound_lower_range_clause`. -/
def accessBoundLowerRangeClause (field : String) : Bound Value → Option ComparePredicate
  | .included value => some ⟨field, .gte, value, .strict⟩
  | .excluded value => some ⟨field, .gt, value, .strict⟩
  | .unbounded => none

/-- `access_bound_upper_range_clause`. -/
def accessBoundUpperRangeClause (field : String) : Bound Value → Option ComparePredicate
  | .included value => some ⟨field, .lte, value, .strict⟩
  | .excluded value => some ⟨field, .lt, value, .strict⟩
  | .unbounded => none

/-- `access_bound_range_clauses`: the bounds, on the field of the last slot. -/
def accessBoundRangeClauses (index : SemanticIndexAccessContract) (fieldSlots : List Nat)
    (lower upper : Bound Value) : List ComparePredicate :=
  match fieldSlots.getLast? with
  | none => []
  | some rangeSlot =>
    match index.keyFieldAt rangeSlot with
    | none => []
    | some field =>
      (accessBoundLowerRangeClause field lower).toList ++
        (accessBoundUpperRangeClause field upper).toList

/-- `access_bound_branch_in`. -/
def accessBoundBranchIn (index : SemanticIndexAccessContract) (branchSlot : Nat)
    (branchValues : List Value) : Option AccessBoundBranchIn :=
  (index.keyFieldAt branchSlot).map fun field => ⟨field, branchValues⟩

/-- The bound clauses `residual_query_predicate_after_access_path_bounds`
reads off each kind of path (its phase 1). -/
def AccessPath.impliedBounds {K : Type} : AccessPath K → AccessBoundClauses
  | .indexPrefix index values => ⟨accessBoundEqualities index values, [], none⟩
  | .indexMultiLookup index values => ⟨[], [], accessBoundBranchIn index 0 values⟩
  | .indexBranchSet spec =>
    ⟨accessBoundEqualities spec.index spec.fixedValues, [],
      accessBoundBranchIn spec.index spec.branchSlot spec.branchValues⟩
  | .indexRange spec =>
    ⟨accessBoundEqualities spec.index spec.prefixValues,
      accessBoundRangeClauses spec.index spec.fieldSlots spec.lower spec.upper, none⟩
  | _ => ⟨[], [], none⟩

/-! ### Text prefixes -/

/-- `next_unicode_scalar`: the next scalar value, skipping the surrogates. -/
def nextUnicodeScalar (c : Char) : Option Char :=
  if c.val = 0x10FFFF then none
  else
    let next := c.val.toNat + 1
    let next := if 0xD800 ≤ next ∧ next ≤ 0xDFFF then 0xE000 else next
    if h : next.isValidChar then some (Char.ofNatAux next h) else none

/-- The loop of `next_text_prefix`, on the characters from the last: the
last one that has a successor is replaced by it and the rest dropped. -/
def bumpLastChar : List Char → Option (List Char)
  | [] => none
  | c :: earlier =>
    match nextUnicodeScalar c with
    | some next => some (next :: earlier)
    | none => bumpLastChar earlier

/-- `next_text_prefix`: the least string above every string with the prefix. -/
def nextTextPrefix (pfx : List Char) : Option (List Char) :=
  (bumpLastChar pfx.reverse).map List.reverse

/-- The characters of UTF-8 text.  A `String` is valid UTF-8, so decoding
never fails on text the engine holds. -/
def textChars (utf8 : List UInt8) : Option (List Char) :=
  (String.fromUTF8? ⟨utf8.toArray⟩).map String.toList

/-- The UTF-8 bytes of characters. -/
def charsText (chars : List Char) : List UInt8 := (String.ofList chars).toUTF8.toList

/-- `text_prefix_component_bounds` in `Strict` mode, which
`starts_with_component_bounds` is here: from the prefix up to, excluding,
the next prefix. -/
def startsWithComponentBounds (pfx : List UInt8) : Option (Bound Value × Bound Value) :=
  if pfx.isEmpty then none
  else
    let upper :=
      match (textChars pfx).bind nextTextPrefix with
      | some next => Bound.excluded (.text (charsText next))
      | none => Bound.unbounded
    some (.included (.text pfx), upper)

section Bounds

variable (fd : FloatDecimal)

/-- `values_equal`. -/
def valuesEqual (left right : Value) : Bool := orderingSatisfies (compareValues fd left right) (· == .eq)

/-- `list_contains_value`. -/
def listContainsValue (list value : Value) : Bool :=
  match list with
  | .list values => values.any fun candidate => valuesEqual fd candidate value
  | _ => false

/-- `list_contains_all_values`. -/
def listContainsAllValues (list : Value) (requiredValues : List Value) : Bool :=
  match list with
  | .list values =>
    Value.beqList values requiredValues ||
      requiredValues.all fun value => values.any fun candidate => valuesEqual fd candidate value
  | _ => false

/-- `equality_bound_implies_required`: a fixed strict equality proves a
clause on its field. -/
def equalityBoundImpliesRequired (bound cmp : ComparePredicate) : Bool :=
  if bound.field ≠ cmp.field || bound.op != .eq then false
  else
    match cmp.op with
    | .eq | .gt | .gte | .lt | .lte =>
      compareClauseSupported cmp && queryClauseImpliesRequired fd bound cmp
    | .ne => !valuesEqual fd bound.value cmp.value
    | .in_ => listContainsValue fd cmp.value bound.value
    | .notIn => !listContainsValue fd cmp.value bound.value
    | .contains | .startsWith | .endsWith => false

/-- `range_bound_implies_required`. -/
def rangeBoundImpliesRequired (bound cmp : ComparePredicate) : Bool :=
  if bound.field ≠ cmp.field then false
  else compareClauseSupported cmp && queryClauseImpliesRequired fd bound cmp

/-- `branch_in_clause_implies_required`: a value set proves a clause every
one of its values satisfies. -/
def branchInClauseImpliesRequired (branchIn : Option AccessBoundBranchIn) (cmp : ComparePredicate) :
    Bool :=
  match branchIn with
  | none => false
  | some branchIn =>
    if cmp.field ≠ branchIn.field then false
    else
      match cmp.op with
      | .eq => branchIn.values.all fun branchValue => valuesEqual fd branchValue cmp.value
      | .ne => branchIn.values.all fun branchValue => !valuesEqual fd branchValue cmp.value
      | .in_ => listContainsAllValues fd cmp.value branchIn.values
      | .notIn => branchIn.values.all fun branchValue => !listContainsValue fd cmp.value branchValue
      | _ => false

/-- `access_bound_ranges_include_lower_bound`. -/
def accessBoundRangesIncludeLowerBound (field : String) (ranges : List ComparePredicate)
    (required : Bound Value) : Bool :=
  match accessBoundLowerRangeClause field required with
  | none => true
  | some requiredClause => ranges.any fun bound => rangeBoundImpliesRequired fd bound requiredClause

/-- `access_bound_ranges_include_upper_bound`. -/
def accessBoundRangesIncludeUpperBound (field : String) (ranges : List ComparePredicate)
    (required : Bound Value) : Bool :=
  match accessBoundUpperRangeClause field required with
  | none => true
  | some requiredClause => ranges.any fun bound => rangeBoundImpliesRequired fd bound requiredClause

/-- `access_bound_text_prefix_range_implies_required`: a strict `STARTS WITH`
whose prefix interval the range bounds contain. -/
def accessBoundTextPrefixRangeImpliesRequired (impliedBounds : AccessBoundClauses)
    (cmp : ComparePredicate) : Bool :=
  if cmp.op != .startsWith || cmp.coercion != .strict then false
  else
    match cmp.value with
    | .text pfx =>
      match startsWithComponentBounds pfx with
      | none => false
      | some (lower, upper) =>
        accessBoundRangesIncludeLowerBound fd cmp.field impliedBounds.ranges lower &&
          accessBoundRangesIncludeUpperBound fd cmp.field impliedBounds.ranges upper
    | _ => false

/-- `access_bound_clauses_imply_required`. -/
def accessBoundClausesImplyRequired (impliedBounds : AccessBoundClauses) (cmp : ComparePredicate) :
    Bool :=
  accessBoundTextPrefixRangeImpliesRequired fd impliedBounds cmp ||
    branchInClauseImpliesRequired fd impliedBounds.branchIn cmp ||
    impliedBounds.equalities.any (fun bound => equalityBoundImpliesRequired fd bound cmp) ||
    impliedBounds.ranges.any fun bound => rangeBoundImpliesRequired fd bound cmp

/-- `strip_query_clauses_satisfied_by_access_bounds`. -/
def stripQueryClausesSatisfiedByAccessBounds (queryPredicate : Predicate)
    (impliedBounds : AccessBoundClauses) : Option Predicate :=
  stripQueryClauses (accessBoundClausesImplyRequired fd impliedBounds) (fun _ => false) queryPredicate

/-- `residual_query_predicate_after_access_path_bounds`. -/
def residualQueryPredicateAfterAccessPathBounds {K : Type} (accessPath : Option (AccessPath K))
    (queryPredicate : Predicate) : Option Predicate :=
  match accessPath with
  | none => some queryPredicate
  | some path =>
    let impliedBounds := path.impliedBounds
    if impliedBounds.isEmpty then some queryPredicate
    else stripQueryClausesSatisfiedByAccessBounds fd queryPredicate impliedBounds

end Bounds

end Planner

end IcyDb
