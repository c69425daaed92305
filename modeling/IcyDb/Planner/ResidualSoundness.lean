import IcyDb.Planner.Residual
import IcyDb.Planner.ImplicationSoundness

/-!
# When dropping residual clauses is exact

`strip_query_clauses` is exact on a row whenever its two tests are sound
there: every comparison clause it calls redundant holds on the row, and so
does every non-null test it calls redundant.  Both residual functions are
instances, with tests built from the planner's implication check, so their
exactness comes down to that check.

It is not sound in general.  The access-bound tests decide `!=`, `IN` and
`NOT IN` clauses by `compare_numeric_or_strict_order` whatever the clause's
own coercion, so a case-insensitive `!=` is dropped beside an equality bound
it does not follow from.  (The implication check also equates `Int64(1)` and
`Nat64(1)`, which a `Strict` comparison at run time does not; that matters
only for a field holding values of two kinds.)
-/

namespace IcyDb

namespace Planner

open Value

/-! ### Stripping is exact where its tests are sound -/

section Strip

variable (F : ComparePredicate → Bool) (N : String → Bool)

theorem stripQueryClauses_and (children : List Predicate) :
    stripQueryClauses F N (.and children) =
      match stripChildren F N children with
      | [] => none
      | [child] => some child
      | residual => some (.and residual) := rfl

theorem stripChildren_cons (child : Predicate) (rest : List Predicate) :
    stripChildren F N (child :: rest) =
      match stripQueryClauses F N child with
      | some residual => residual :: stripChildren F N rest
      | none => stripChildren F N rest := rfl

variable {fd : FloatDecimal} {lower : List UInt8 → List UInt8} {row : Row}

mutual

/-- The residual (`None` read as `True`) holds on a row exactly when the
predicate does, if every clause the tests drop holds there. -/
theorem eval_stripQueryClauses
    (hN : ∀ field, N field = true → eval fd lower row (.isNotNull field) = true) :
    (q : Predicate) →
      (∀ cmp ∈ q.conjunctCompares, F cmp = true → evalCompare fd lower row cmp = true) →
      eval fd lower row ((stripQueryClauses F N q).getD .true) = eval fd lower row q
  | .and children, hF => by
    have ih := evalAll_stripChildren hN children hF
    rw [stripQueryClauses_and, eval_and]
    -- the collapse of zero, one or more residual children
    match hs : stripChildren F N children with
    | [] =>
      rw [hs, evalAll_nil] at ih
      rw [← ih]
      rfl
    | [child] =>
      rw [hs, evalAll_cons, evalAll_nil, Bool.and_true] at ih
      exact ih
    | c :: d :: rest =>
      rw [hs] at ih
      exact ih
  | .compare cmp, hF => by
    by_cases h : F cmp = true
    · have hdrop : stripQueryClauses F N (.compare cmp) = none := by
        simp only [stripQueryClauses, h, if_true]
      rw [hdrop, eval_compare, hF cmp (List.mem_singleton_self cmp) h]
      rfl
    · have hkeep : stripQueryClauses F N (.compare cmp) = some (.compare cmp) := by
        simp only [stripQueryClauses, h, Bool.false_eq_true, if_false]
      rw [hkeep]
      rfl
  | .isNotNull field, _ => by
    by_cases h : N field = true
    · have hdrop : stripQueryClauses F N (.isNotNull field) = none := by
        simp only [stripQueryClauses, h, if_true]
      rw [hdrop, hN field h]
      rfl
    · have hkeep : stripQueryClauses F N (.isNotNull field) = some (.isNotNull field) := by
        simp only [stripQueryClauses, h, Bool.false_eq_true, if_false]
      rw [hkeep]
      rfl
  | .true, _ | .false, _ | .or _, _ | .not _, _ | .compareFields _, _ | .isNull _, _
  | .isMissing _, _ | .isEmpty _, _ | .isNotEmpty _, _ | .textContains _ _, _
  | .textContainsCi _ _, _ => rfl

/-- The children loop keeps the conjunction's value. -/
theorem evalAll_stripChildren
    (hN : ∀ field, N field = true → eval fd lower row (.isNotNull field) = true) :
    (children : List Predicate) →
      (∀ cmp ∈ Predicate.conjunctComparesList children, F cmp = true →
        evalCompare fd lower row cmp = true) →
      evalAll fd lower row (stripChildren F N children) = evalAll fd lower row children
  | [], _ => rfl
  | child :: rest, hF => by
    have ihc := eval_stripQueryClauses hN child fun cmp hcmp =>
      hF cmp (List.mem_append_left _ hcmp)
    have ihr := evalAll_stripChildren hN rest fun cmp hcmp =>
      hF cmp (List.mem_append_right _ hcmp)
    rw [stripChildren_cons, evalAll_cons]
    cases hc : stripQueryClauses F N child with
    | some residual =>
      rw [hc] at ihc
      rw [evalAll_cons, ← ihc, ihr]
      rfl
    | none =>
      -- a dropped child holds on the row
      rw [hc] at ihc
      rw [ihr, ← ihc]
      rfl

end

end Strip

/-! ### Filtered index contracts -/

section Filtered

variable {fd : FloatDecimal} {lower : List UInt8 → List UInt8} {row : Row}

/-- A non-null test the index predicate implies holds on each row of the
index: no comparison step is taken, and the collection and the non-null
step are sound. -/
theorem eval_isNotNull_of_filteredGuard {indexPredicate : Predicate} {field : String}
    (hindex : eval fd lower row indexPredicate = true)
    (himp : predicateImpliesPredicateForPlanner fd indexPredicate (.isNotNull field) = true) :
    eval fd lower row (.isNotNull field) = true :=
  eval_of_predicateImpliesPredicateForPlanner (fun _ _ _ hrc => nomatch hrc) himp hindex

/-- On the rows of an index whose predicate has only numeric-widened
comparisons on its conjunctive spine, the residual left after the index's
guarantee is exact for a query whose comparisons there are numeric-widened
with literals that have a `Decimal` form. -/
theorem residualAfterFilteredAccessContract_exact_of_numericWiden
    {index : SemanticIndexAccessContract} {q : Predicate}
    (hindex : ∀ indexPredicate, index.predicateSemantics = some indexPredicate →
      eval fd lower row indexPredicate = true ∧
        ∀ cmp ∈ indexPredicate.conjunctCompares, cmp.coercion = .numericWiden)
    (hq : ∀ cmp ∈ q.conjunctCompares,
      cmp.coercion = .numericWiden ∧ ∃ d, cmp.value.coerceNumericDecimal fd = some d) :
    eval fd lower row ((residualQueryPredicateAfterFilteredAccessContract fd index q).getD .true) =
      eval fd lower row q := by
  unfold residualQueryPredicateAfterFilteredAccessContract
  cases hpred : index.predicateSemantics with
  | none => rfl
  | some indexPredicate =>
    obtain ⟨hrow, hwiden⟩ := hindex indexPredicate hpred
    dsimp only
    split
    · rfl
    · apply eval_stripQueryClauses
      · intro field hfield
        exact eval_isNotNull_of_filteredGuard hrow hfield
      · -- a dropped comparison is implied by the index predicate, clause by clause
        intro cmp hcmp hdrop
        rw [Bool.and_eq_true] at hdrop
        obtain ⟨hcoercion, hliteral⟩ := hq cmp hcmp
        refine eval_of_predicateImpliesPredicateForPlanner ?_ hdrop.2 hrow
        intro qc hqc rc hrc hstep hqeval
        rw [List.mem_singleton.mp hrc] at hstep ⊢
        exact evalCompare_of_queryClauseImpliesRequired (hwiden qc hqc) hcoercion hliteral hstep
          hqeval

/-- An index filtered on `x > Int64(0)` serves the query
`x > Int64(0) AND y >= Nat64(0)`: the first clause is dropped, and on the
index row `x = Int64(7), y = Nat64(3)` the residual agrees with the query. -/
theorem positive_filtered_index_residual :
    (∀ indexPredicate, (⟨[.field "x"], some (.compare ⟨"x", .gt, .int64 0#64, .numericWiden⟩)⟩ :
        SemanticIndexAccessContract).predicateSemantics = some indexPredicate →
      eval ⟨fun _ => none, fun _ => none⟩ id
          (fun f => if f = "x" then some (.int64 7#64) else if f = "y" then some (.nat64 3#64)
            else none) indexPredicate = true ∧
        ∀ cmp ∈ indexPredicate.conjunctCompares, cmp.coercion = .numericWiden) ∧
      (∀ cmp ∈ (Predicate.and [.compare ⟨"x", .gt, .int64 0#64, .numericWiden⟩,
          .compare ⟨"y", .gte, .nat64 0#64, .numericWiden⟩]).conjunctCompares,
        cmp.coercion = .numericWiden ∧
          ∃ d, cmp.value.coerceNumericDecimal ⟨fun _ => none, fun _ => none⟩ = some d) ∧
      residualQueryPredicateAfterFilteredAccessContract ⟨fun _ => none, fun _ => none⟩
          ⟨[.field "x"], some (.compare ⟨"x", .gt, .int64 0#64, .numericWiden⟩)⟩
          (.and [.compare ⟨"x", .gt, .int64 0#64, .numericWiden⟩,
            .compare ⟨"y", .gte, .nat64 0#64, .numericWiden⟩]) =
        some (.compare ⟨"y", .gte, .nat64 0#64, .numericWiden⟩) ∧
      eval ⟨fun _ => none, fun _ => none⟩ id
          (fun f => if f = "x" then some (.int64 7#64) else if f = "y" then some (.nat64 3#64)
            else none)
          ((residualQueryPredicateAfterFilteredAccessContract ⟨fun _ => none, fun _ => none⟩
            ⟨[.field "x"], some (.compare ⟨"x", .gt, .int64 0#64, .numericWiden⟩)⟩
            (.and [.compare ⟨"x", .gt, .int64 0#64, .numericWiden⟩,
              .compare ⟨"y", .gte, .nat64 0#64, .numericWiden⟩])).getD .true) =
        eval ⟨fun _ => none, fun _ => none⟩ id
          (fun f => if f = "x" then some (.int64 7#64) else if f = "y" then some (.nat64 3#64)
            else none)
          (.and [.compare ⟨"x", .gt, .int64 0#64, .numericWiden⟩,
            .compare ⟨"y", .gte, .nat64 0#64, .numericWiden⟩]) := by
  have hindex : ∀ indexPredicate, (⟨[.field "x"],
      some (.compare ⟨"x", .gt, .int64 0#64, .numericWiden⟩)⟩ :
        SemanticIndexAccessContract).predicateSemantics = some indexPredicate →
      eval ⟨fun _ => none, fun _ => none⟩ id
          (fun f => if f = "x" then some (.int64 7#64) else if f = "y" then some (.nat64 3#64)
            else none) indexPredicate = true ∧
        ∀ cmp ∈ indexPredicate.conjunctCompares, cmp.coercion = .numericWiden := by
    intro indexPredicate hpred
    cases hpred
    exact ⟨by decide, by decide⟩
  have hq : ∀ cmp ∈ (Predicate.and [.compare ⟨"x", .gt, .int64 0#64, .numericWiden⟩,
      .compare ⟨"y", .gte, .nat64 0#64, .numericWiden⟩]).conjunctCompares,
      cmp.coercion = .numericWiden ∧
        ∃ d, cmp.value.coerceNumericDecimal ⟨fun _ => none, fun _ => none⟩ = some d := by
    intro cmp hcmp
    simp only [Predicate.conjunctCompares, Predicate.conjunctComparesList, List.cons_append,
      List.nil_append, List.append_nil, List.mem_cons, List.not_mem_nil, or_false] at hcmp
    rcases hcmp with rfl | rfl <;> exact ⟨rfl, _, rfl⟩
  exact ⟨hindex, hq, rfl, residualAfterFilteredAccessContract_exact_of_numericWiden hindex hq⟩

end Filtered

/-! ### The residual filters drop clauses their guarantees do not imply -/

/-- The access-bound residual drops a case-insensitive `!=` beside an equality
bound it does not follow from.  The access path `name = 'Alice'` (an index
prefix) is taken to imply `name != 'alice'` under `TextCasefold`, since the
two literals differ as strings; the clause is dropped, and the row
`name = 'Alice'`, which satisfies the bound and fails the clause, passes. -/
theorem residual_filters_drop_unimplied_clauses (fd : FloatDecimal)
    (lower : List UInt8 → List UInt8) :
    residualQueryPredicateAfterAccessPathBounds fd
        (some (AccessPath.indexPrefix (K := Value) ⟨[.field "name"], none⟩
          [.text [0x41, 0x6C, 0x69, 0x63, 0x65]]))
        (.compare ⟨"name", .ne, .text [0x61, 0x6C, 0x69, 0x63, 0x65], .textCasefold⟩) = none ∧
      eval fd lower (fun f => if f = "name" then some (.text [0x41, 0x6C, 0x69, 0x63, 0x65]) else none)
        (.compare ⟨"name", .eq, .text [0x41, 0x6C, 0x69, 0x63, 0x65], .strict⟩) = true ∧
      eval fd lower (fun f => if f = "name" then some (.text [0x41, 0x6C, 0x69, 0x63, 0x65]) else none)
        (.compare ⟨"name", .ne, .text [0x61, 0x6C, 0x69, 0x63, 0x65], .textCasefold⟩) = false :=
  ⟨rfl, rfl, rfl⟩

end Planner

end IcyDb
