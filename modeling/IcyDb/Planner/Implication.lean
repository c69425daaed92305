import IcyDb.Predicate.Semantics

/-!
# Predicate implication for the planner

`predicate_implies_predicate_for_planner` decides, conservatively, whether a
query predicate implies an index predicate (`planner::index_select`).  Both
predicates are flattened into conjunctions of supported comparison clauses
(`=`, `<`, `<=`, `>`, `>=` under `Strict` or `NumericWiden`) and non-null
fields; every required clause must then follow from one query clause, the
two literals compared by `compare_numeric_or_strict_order`, which compares
numbers across variants.

The query side keeps the clauses it understands and ignores the rest, which
can only weaken it; a `False` conjunct makes it unsatisfiable.  The required
side must be understood whole.
-/

namespace IcyDb

namespace Planner

open Value

/-- `compare_clause_supported`. -/
def compareClauseSupported (cmp : ComparePredicate) : Bool :=
  (match cmp.op with
    | .eq | .gt | .gte | .lt | .lte => true
    | _ => false) &&
  (match cmp.coercion with
    | .strict | .numericWiden => true
    | _ => false)

section Clauses

variable (fd : FloatDecimal)

/-- `compare_values`. -/
def compareValues (left right : Value) : Option Ordering := compareNumericOrStrictOrder fd left right

/-- `Ordering::is_eq`, `is_gt`, ... applied to an optional ordering. -/
def orderingSatisfies (o : Option Ordering) (p : Ordering → Bool) : Bool :=
  match o with
  | some ordering => p ordering
  | none => false

/-- The operator table of `query_clause_implies_required`: which order of
the query literal against the required one lets a query operator prove a
required operator. -/
def clauseOpImplies (queryOp requiredOp : CompareOp) (o : Option Ordering) : Bool :=
  match requiredOp with
  | .eq => queryOp == .eq && orderingSatisfies o (· == .eq)
  | .gt =>
    match queryOp with
    | .eq | .gte => orderingSatisfies o (· == .gt)
    | .gt => orderingSatisfies o (· != .lt)
    | _ => false
  | .gte =>
    match queryOp with
    | .eq | .gt | .gte => orderingSatisfies o (· != .lt)
    | _ => false
  | .lt =>
    match queryOp with
    | .eq | .lte => orderingSatisfies o (· == .lt)
    | .lt => orderingSatisfies o (· != .gt)
    | _ => false
  | .lte =>
    match queryOp with
    | .eq | .lt | .lte => orderingSatisfies o (· != .gt)
    | _ => false
  | _ => false

/-- `query_clause_implies_required`: one query clause proves one required
clause on the same field. -/
def queryClauseImpliesRequired (query required : ComparePredicate) : Bool :=
  if query.field ≠ required.field then false
  else if !compareClauseSupported query || !compareClauseSupported required then false
  else clauseOpImplies query.op required.op (compareValues fd query.value required.value)

end Clauses

/-- `ImplicationClauses`: the comparison clauses and non-null fields read
off a conjunction. -/
structure ImplicationClauses where
  compares : List ComparePredicate
  nonNullFields : List String

/-- The empty `ImplicationClauses::default()`. -/
def ImplicationClauses.empty : ImplicationClauses := ⟨[], []⟩

/-- `QueryImplicationClauses`. -/
inductive QueryImplicationClauses
  | clauses (c : ImplicationClauses)
  | unsatisfiable
  | unknown

/-- `RequiredImplicationClauses`. -/
inductive RequiredImplicationClauses
  | clauses (c : ImplicationClauses)
  | unsatisfiable

/-- `CompareClauseMode`. -/
inductive CompareClauseMode
  | query | required
deriving DecidableEq

/-- `CompareClauseCollect`. -/
inductive CompareClauseCollect
  | known | unsatisfiable | unknown
deriving DecidableEq

mutual

/-- `collect_implication_clauses`, with the `&mut` output threaded through:
the status, and the clauses collected so far. -/
def collectImplicationClauses (mode : CompareClauseMode) :
    Predicate → ImplicationClauses → CompareClauseCollect × ImplicationClauses
  | .and children, out => collectChildren mode children out
  | .compare cmp, out =>
    if !compareClauseSupported cmp then (.unknown, out)
    else (.known, { out with compares := out.compares ++ [cmp] })
  | .isNotNull field, out =>
    if out.nonNullFields.contains field then (.known, out)
    else (.known, { out with nonNullFields := out.nonNullFields ++ [field] })
  | .true, out => (.known, out)
  | .false, out =>
    match mode with
    | .query => (.unsatisfiable, out)
    | .required => (.unknown, out)
  | _, out => (.unknown, out)

/-- The loop over the children of an `And`: an unsatisfiable child ends it,
and an unknown one ends it in required mode only. -/
def collectChildren (mode : CompareClauseMode) :
    List Predicate → ImplicationClauses → CompareClauseCollect × ImplicationClauses
  | [], out => (.known, out)
  | child :: rest, out =>
    match collectImplicationClauses mode child out with
    | (.known, out') => collectChildren mode rest out'
    | (.unsatisfiable, out') => (.unsatisfiable, out')
    | (.unknown, out') =>
      match mode with
      | .required => (.unknown, out')
      | .query => collectChildren mode rest out'

end

/-- `query_implication_clauses`. -/
def queryImplicationClauses : Predicate → QueryImplicationClauses
  | .false => .unsatisfiable
  | .true => .clauses .empty
  | .compare cmp => if compareClauseSupported cmp then .clauses ⟨[cmp], []⟩ else .unknown
  | .isNotNull field => .clauses ⟨[], [field]⟩
  | .and children =>
    match collectChildren .query children .empty with
    | (.unsatisfiable, _) => .unsatisfiable
    | (_, clauses) => .clauses clauses
  | _ => .unknown

/-- `required_implication_clauses`: `None` when part of the predicate is not
understood. -/
def requiredImplicationClauses : Predicate → Option RequiredImplicationClauses
  | .true => some (.clauses .empty)
  | .false => some .unsatisfiable
  | predicate =>
    match collectImplicationClauses .required predicate .empty with
    | (.known, clauses) => some (.clauses clauses)
    | (.unsatisfiable, _) => some .unsatisfiable
    | (.unknown, _) => none

/-- `comparison_proves_field_non_null`. -/
def comparisonProvesFieldNonNull (cmp : ComparePredicate) (field : String) : Bool :=
  decide (cmp.field = field) && compareClauseSupported cmp &&
    (match cmp.value with
      | .null | .unit => false
      | _ => true)

section Implication

variable (fd : FloatDecimal)

/-- `predicate_implies_predicate_for_planner`. -/
def predicateImpliesPredicateForPlanner (implying required : Predicate) : Bool :=
  match requiredImplicationClauses required with
  | none => false
  | some requiredClauses =>
    match queryImplicationClauses implying with
    | .unsatisfiable => true
    | .unknown => false
    | .clauses queryClauses =>
      match requiredClauses with
      | .unsatisfiable => false
      | .clauses requiredClauses =>
        requiredClauses.compares.all (fun requiredClause =>
          queryClauses.compares.any fun queryClause =>
            queryClauseImpliesRequired fd queryClause requiredClause) &&
        requiredClauses.nonNullFields.all fun requiredField =>
          queryClauses.nonNullFields.contains requiredField ||
            queryClauses.compares.any fun queryClause =>
              comparisonProvesFieldNonNull queryClause requiredField

end Implication

end Planner

end IcyDb
