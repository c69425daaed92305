import IcyDb.Planner.Implication
import IcyDb.Types.DecimalOrder

/-!
# When the planner's implication check is sound

`predicate_implies_predicate_for_planner` reads both predicates as
conjunctions of clauses and proves each required clause from one query
clause.  The reading itself is sound: the clauses collected from a query
predicate hold on every row the predicate accepts, and a required predicate
holds on every row where the clauses collected from it hold.  The non-null
step is sound as well, under either supported coercion.  So the whole check
is sound on a row as soon as each clause-to-clause step it takes is.

A step compares the two literals with `compare_numeric_or_strict_order`.
That is what a `NumericWiden` clause whose literal has a `Decimal` form means
at run time, so such clauses are proved soundly; `Strict` clauses across
numeric variants are not.
-/

namespace IcyDb

namespace Predicate

mutual

/-- The comparison clauses on the conjunctive spine of a predicate: the
ones the clause collection and the residual stripping look at. -/
def conjunctCompares : Predicate → List ComparePredicate
  | .and children => conjunctComparesList children
  | .compare cmp => [cmp]
  | _ => []

/-- The clauses of the children of an `And`. -/
def conjunctComparesList : List Predicate → List ComparePredicate
  | [] => []
  | p :: ps => p.conjunctCompares ++ conjunctComparesList ps

end

end Predicate

namespace Planner

open Value

/-! ### The operator table -/

/-- The operator table is right for any linear order: if `x qop y` holds and
the table lets `qop` against `y` prove `rop` against `z`, then `x rop z`. -/
theorem evalOrdered_of_clauseOpImplies {α : Type} [LinearOrder α] {x y z : α}
    {queryOp requiredOp : CompareOp}
    (hq : evalOrderedCompareResult queryOp (compare x y) = true)
    (himp : clauseOpImplies queryOp requiredOp (some (compare y z)) = true) :
    evalOrderedCompareResult requiredOp (compare x z) = true := by
  -- one case per row and column of the table; each is a fact about `≤`
  cases requiredOp <;> cases queryOp <;>
    simp only [clauseOpImplies, orderingSatisfies, evalOrderedCompareResult, beq_iff_eq,
      bne_iff_ne, Bool.and_eq_true, Bool.false_eq_true, reduceCtorEq, false_and, true_and,
      compare_eq_iff_eq, compare_lt_iff_lt, compare_gt_iff_gt, compare_le_iff_le,
      compare_ge_iff_ge] at hq himp ⊢
  all_goals order

/-! ### Numeric comparison through the rationals -/

section Numeric

variable {fd : FloatDecimal}

theorem compareNumericOrder_of_decimal {l r : Value} {a b : Decimal}
    (ha : l.coerceNumericDecimal fd = some a) (hb : r.coerceNumericDecimal fd = some b) :
    compareNumericOrder fd l r = some (compare a.toRat b.toRat) := by
  rw [compareNumericOrder, ha, hb]
  exact congrArg some (Decimal.cmpDecimal_eq_compare_toRat a b)

theorem exists_decimal_of_compareNumericOrder {l r : Value} {o : Ordering}
    (h : compareNumericOrder fd l r = some o) :
    ∃ a b, l.coerceNumericDecimal fd = some a ∧ r.coerceNumericDecimal fd = some b ∧
      o = compare a.toRat b.toRat := by
  cases ha : l.coerceNumericDecimal fd with
  | none => simp only [compareNumericOrder, ha, reduceCtorEq] at h
  | some a =>
    cases hb : r.coerceNumericDecimal fd with
    | none => simp only [compareNumericOrder, ha, hb, reduceCtorEq] at h
    | some b =>
      rw [compareNumericOrder_of_decimal ha hb, Option.some.injEq] at h
      exact ⟨a, b, rfl, rfl, h.symm⟩

end Numeric

/-! ### One clause from another -/

section Clause

variable {fd : FloatDecimal} {lower : List UInt8 → List UInt8} {row : Row}

theorem compareClauseSupported_op {cmp : ComparePredicate}
    (h : compareClauseSupported cmp = true) :
    cmp.op = .eq ∨ cmp.op = .gt ∨ cmp.op = .gte ∨ cmp.op = .lt ∨ cmp.op = .lte := by
  obtain ⟨field, op, value, coercion⟩ := cmp
  cases op <;> simp_all [compareClauseSupported]

theorem compareEq_numericWiden (l r : Value) :
    compareEq fd lower l r .numericWiden = (compareNumericOrder fd l r).map (· == .eq) := rfl

theorem compareOrder_numericWiden (l r : Value) :
    compareOrder fd lower l r .numericWiden = compareNumericOrder fd l r := rfl

/-- Under `NumericWiden` each operator the planner reasons about is decided
by the numeric order; `=` goes through `compare_numeric_eq`, the others
through `compare_order`, and the two agree. -/
theorem evalCompareValues_numericWiden {actual : Value} {cmp : ComparePredicate}
    (hs : compareClauseSupported cmp = true) :
    evalCompareValues fd lower actual cmp.op cmp.value .numericWiden =
      orderingSatisfies (compareNumericOrder fd actual cmp.value)
        (evalOrderedCompareResult cmp.op) := by
  rcases compareClauseSupported_op hs with hop | hop | hop | hop | hop <;> rw [hop] <;>
    simp only [evalCompareValues, compareEq_numericWiden, compareOrder_numericWiden] <;>
    rcases compareNumericOrder fd actual cmp.value with _ | (_ | _ | _) <;> rfl

/-- What a numeric-widened clause means: the field's value and the literal
both have a `Decimal` form, and the rationals they denote are in the
clause's relation. -/
theorem evalCompare_numericWiden_iff {cmp : ComparePredicate}
    (hc : cmp.coercion = .numericWiden) (hs : compareClauseSupported cmp = true) :
    evalCompare fd lower row cmp = true ↔
      ∃ actual a b, row cmp.field = some actual ∧ actual.coerceNumericDecimal fd = some a ∧
        cmp.value.coerceNumericDecimal fd = some b ∧
        evalOrderedCompareResult cmp.op (compare a.toRat b.toRat) = true := by
  unfold evalCompare
  cases hrow : row cmp.field with
  | none => simp
  | some actual =>
    dsimp only
    rw [hc, evalCompareValues_numericWiden hs]
    constructor
    · intro h
      cases ho : compareNumericOrder fd actual cmp.value with
      | none => rw [ho] at h; cases h
      | some o =>
        obtain ⟨a, b, ha, hb, rfl⟩ := exists_decimal_of_compareNumericOrder ho
        rw [ho] at h
        exact ⟨actual, a, b, rfl, ha, hb, h⟩
    · rintro ⟨_, a, b, hactual, ha, hb, h⟩
      cases hactual
      rw [compareNumericOrder_of_decimal ha hb]
      exact h

theorem queryClauseImpliesRequired_eq_true {query required : ComparePredicate} :
    queryClauseImpliesRequired fd query required = true ↔
      query.field = required.field ∧ compareClauseSupported query = true ∧
        compareClauseSupported required = true ∧
        clauseOpImplies query.op required.op (compareValues fd query.value required.value) = true := by
  unfold queryClauseImpliesRequired
  by_cases hf : query.field = required.field
  · cases hq : compareClauseSupported query <;> cases hr : compareClauseSupported required <;>
      simp [hf]
  · simp [hf]

/-- One numeric-widened clause proves another soundly: the field's value,
the query literal and the required literal all denote rationals, and the
operator table is right for the order of the rationals. -/
theorem evalCompare_of_queryClauseImpliesRequired {query required : ComparePredicate}
    (hqc : query.coercion = .numericWiden) (hrc : required.coercion = .numericWiden)
    (hlit : ∃ d, required.value.coerceNumericDecimal fd = some d)
    (himp : queryClauseImpliesRequired fd query required = true)
    (hq : evalCompare fd lower row query = true) : evalCompare fd lower row required = true := by
  obtain ⟨hfield, hqs, hrs, hops⟩ := queryClauseImpliesRequired_eq_true.mp himp
  obtain ⟨actual, a, b, hrow, ha, hb, hqop⟩ := (evalCompare_numericWiden_iff hqc hqs).mp hq
  obtain ⟨c, hc⟩ := hlit
  -- the planner compares the two literals numerically, as the rationals do
  have hliterals : compareValues fd query.value required.value = some (compare b.toRat c.toRat) := by
    rw [compareValues, compareNumericOrStrictOrder, compareNumericOrder_of_decimal hb hc]
    rfl
  rw [hliterals] at hops
  refine (evalCompare_numericWiden_iff hrc hrs).mpr ⟨actual, a, c, hfield ▸ hrow, ha, hc, ?_⟩
  exact evalOrdered_of_clauseOpImplies hqop hops

theorem compareClauseSupported_coercion {cmp : ComparePredicate}
    (h : compareClauseSupported cmp = true) :
    cmp.coercion = .strict ∨ cmp.coercion = .numericWiden := by
  obtain ⟨field, op, value, coercion⟩ := cmp
  cases coercion <;> simp_all [compareClauseSupported]

theorem compareNumericOrder_null_left (v : Value) : compareNumericOrder fd .null v = none := by
  cases v.coerceNumericDecimal fd <;> rfl

/-- No supported comparison holds of a null field against a literal that is
not null: `Strict` needs the two in one variant, `NumericWiden` a `Decimal`
form, and null has neither. -/
theorem evalCompareValues_null {cmp : ComparePredicate} (hs : compareClauseSupported cmp = true)
    (hv : cmp.value ≠ .null) :
    evalCompareValues fd lower .null cmp.op cmp.value cmp.coercion = false := by
  have hvariant := sameVariant_null_left hv
  rcases compareClauseSupported_op hs with hop | hop | hop | hop | hop <;>
    rcases compareClauseSupported_coercion hs with hc | hc <;> rw [hop, hc] <;>
    simp only [evalCompareValues, evalEqualityCompareResult, compareEq, compareOrder, hvariant,
      compareNumericEq, compareNumericOrder_null_left] <;> rfl

/-- `comparison_proves_field_non_null` is sound under both supported
coercions. -/
theorem eval_isNotNull_of_comparisonProvesFieldNonNull {cmp : ComparePredicate} {field : String}
    (hproves : comparisonProvesFieldNonNull cmp field = true)
    (hcmp : evalCompare fd lower row cmp = true) : eval fd lower row (.isNotNull field) = true := by
  simp only [comparisonProvesFieldNonNull, Bool.and_eq_true, decide_eq_true_eq] at hproves
  obtain ⟨⟨rfl, hs⟩, hliteral⟩ := hproves
  have hv : cmp.value ≠ .null := by
    intro hnull
    rw [hnull] at hliteral
    cases hliteral
  unfold evalCompare at hcmp
  rw [eval_isNotNull]
  cases hrow : row cmp.field with
  | none => rw [hrow] at hcmp; cases hcmp
  | some actual =>
    rw [hrow] at hcmp
    dsimp only at hcmp
    by_cases hnull : actual = .null
    · subst hnull
      rw [evalCompareValues_null hs hv] at hcmp
      cases hcmp
    · split <;> simp_all

end Clause

/-! ### Reading a predicate as clauses -/

section Collect

variable (fd : FloatDecimal) (lower : List UInt8 → List UInt8) (row : Row)

/-- Every clause collected so far holds on the row. -/
def ImplicationClauses.Hold (c : ImplicationClauses) : Prop :=
  (∀ cmp ∈ c.compares, evalCompare fd lower row cmp = true) ∧
    ∀ field ∈ c.nonNullFields, eval fd lower row (.isNotNull field) = true

variable {fd lower row}

theorem ImplicationClauses.hold_empty : ImplicationClauses.empty.Hold fd lower row :=
  ⟨nofun, nofun⟩

theorem ImplicationClauses.hold_addCompare_iff {c : ImplicationClauses} {cmp : ComparePredicate} :
    ({ c with compares := c.compares ++ [cmp] } : ImplicationClauses).Hold fd lower row ↔
      c.Hold fd lower row ∧ evalCompare fd lower row cmp = true := by
  simp only [Hold, List.mem_append, List.mem_singleton, or_imp, forall_and, forall_eq]
  tauto

theorem ImplicationClauses.hold_addField_iff {c : ImplicationClauses} {field : String} :
    ({ c with nonNullFields := c.nonNullFields ++ [field] } : ImplicationClauses).Hold fd lower row ↔
      c.Hold fd lower row ∧ eval fd lower row (.isNotNull field) = true := by
  simp only [Hold, List.mem_append, List.mem_singleton, or_imp, forall_and, forall_eq]
  tauto

theorem collectChildren_cons (mode : CompareClauseMode) (child : Predicate) (rest : List Predicate)
    (out : ImplicationClauses) :
    collectChildren mode (child :: rest) out =
      match collectImplicationClauses mode child out with
      | (.known, out') => collectChildren mode rest out'
      | (.unsatisfiable, out') => (.unsatisfiable, out')
      | (.unknown, out') =>
        match mode with
        | .required => (.unknown, out')
        | .query => collectChildren mode rest out' := rfl

theorem collectImplicationClauses_compare (mode : CompareClauseMode) (cmp : ComparePredicate)
    (out : ImplicationClauses) :
    collectImplicationClauses mode (.compare cmp) out =
      if compareClauseSupported cmp then (.known, { out with compares := out.compares ++ [cmp] })
      else (.unknown, out) := by
  cases h : compareClauseSupported cmp <;> simp [collectImplicationClauses, h]

theorem collectImplicationClauses_isNotNull (mode : CompareClauseMode) (field : String)
    (out : ImplicationClauses) :
    collectImplicationClauses mode (.isNotNull field) out =
      if out.nonNullFields.contains field then (.known, out)
      else (.known, { out with nonNullFields := out.nonNullFields ++ [field] }) := rfl

mutual

/-- In query mode the clauses collected from a predicate that holds on the
row hold there too, and the predicate is not found unsatisfiable. -/
theorem collectImplicationClauses_query {out : ImplicationClauses} (hout : out.Hold fd lower row) :
    (p : Predicate) → eval fd lower row p = true →
      (collectImplicationClauses .query p out).1 ≠ .unsatisfiable ∧
        (collectImplicationClauses .query p out).2.Hold fd lower row
  | .and children, hp => collectChildren_query hout children hp
  | .compare cmp, hp => by
    rw [collectImplicationClauses_compare]
    split
    · exact ⟨nofun, ImplicationClauses.hold_addCompare_iff.mpr ⟨hout, hp⟩⟩
    · exact ⟨nofun, hout⟩
  | .isNotNull field, hp => by
    rw [collectImplicationClauses_isNotNull]
    split
    · exact ⟨nofun, hout⟩
    · exact ⟨nofun, ImplicationClauses.hold_addField_iff.mpr ⟨hout, hp⟩⟩
  | .false, hp => absurd hp Bool.false_ne_true
  | .true, _ | .or _, _ | .not _, _ | .compareFields _, _ | .isNull _, _ | .isMissing _, _
  | .isEmpty _, _ | .isNotEmpty _, _ | .textContains _ _, _ | .textContainsCi _ _, _ =>
    ⟨nofun, hout⟩

/-- The children loop in query mode: an unknown child is skipped, and no
child that holds is unsatisfiable. -/
theorem collectChildren_query {out : ImplicationClauses} (hout : out.Hold fd lower row) :
    (children : List Predicate) → evalAll fd lower row children = true →
      (collectChildren .query children out).1 ≠ .unsatisfiable ∧
        (collectChildren .query children out).2.Hold fd lower row
  | [], _ => ⟨nofun, hout⟩
  | child :: rest, hall => by
    rw [evalAll_cons, Bool.and_eq_true] at hall
    have hchild := collectImplicationClauses_query hout child hall.1
    rw [collectChildren_cons]
    rcases hc : collectImplicationClauses .query child out with ⟨status, out'⟩
    rw [hc] at hchild
    cases status with
    | known => exact collectChildren_query hchild.2 rest hall.2
    | unsatisfiable => exact absurd rfl hchild.1
    | unknown => exact collectChildren_query hchild.2 rest hall.2

end

mutual

/-- In required mode a predicate read whole holds wherever the clauses
collected from it do. -/
theorem collectImplicationClauses_required {out out' : ImplicationClauses} :
    (p : Predicate) → collectImplicationClauses .required p out = (.known, out') →
      out'.Hold fd lower row → out.Hold fd lower row ∧ eval fd lower row p = true
  | .and children, h, hold => collectChildren_required children h hold
  | .compare cmp, h, hold => by
    rw [collectImplicationClauses_compare] at h
    split at h
    · cases h
      exact ImplicationClauses.hold_addCompare_iff.mp hold
    · cases h
  | .isNotNull field, h, hold => by
    rw [collectImplicationClauses_isNotNull] at h
    split at h
    · next hmem =>
      cases h
      exact ⟨hold, hold.2 field (List.contains_iff_mem.mp hmem)⟩
    · cases h
      exact ImplicationClauses.hold_addField_iff.mp hold
  | .true, h, hold => by
    cases h
    exact ⟨hold, rfl⟩
  | .false, h, _ | .or _, h, _ | .not _, h, _ | .compareFields _, h, _ | .isNull _, h, _
  | .isMissing _, h, _ | .isEmpty _, h, _ | .isNotEmpty _, h, _ | .textContains _ _, h, _
  | .textContainsCi _ _, h, _ => by cases h

/-- The children loop in required mode stops at the first child it does not
understand, so a known result read every child. -/
theorem collectChildren_required {out out' : ImplicationClauses} :
    (children : List Predicate) → collectChildren .required children out = (.known, out') →
      out'.Hold fd lower row → out.Hold fd lower row ∧ evalAll fd lower row children = true
  | [], h, hold => by
    cases h
    exact ⟨hold, rfl⟩
  | child :: rest, h, hold => by
    rw [collectChildren_cons] at h
    rcases hc : collectImplicationClauses .required child out with ⟨status, mid⟩
    rw [hc] at h
    cases status with
    | known =>
      obtain ⟨hmid, hrest⟩ := collectChildren_required rest h hold
      obtain ⟨hout, hchild⟩ := collectImplicationClauses_required child hc hmid
      exact ⟨hout, by rw [evalAll_cons, hchild, hrest]; rfl⟩
    | unsatisfiable => cases h
    | unknown => cases h

end

/-! Where the collected comparison clauses come from. -/

mutual

theorem compares_collectImplicationClauses (mode : CompareClauseMode) :
    (p : Predicate) → (out : ImplicationClauses) →
      ∀ cmp ∈ (collectImplicationClauses mode p out).2.compares,
        cmp ∈ out.compares ∨ cmp ∈ p.conjunctCompares
  | .and children, out => compares_collectChildren mode children out
  | .compare cmp, out => by
    rw [collectImplicationClauses_compare]
    split
    · intro c hc
      simpa [Predicate.conjunctCompares] using hc
    · exact fun _ hc => .inl hc
  | .isNotNull field, out => by
    rw [collectImplicationClauses_isNotNull]
    split <;> exact fun _ hc => .inl hc
  | .false, out => by
    cases mode <;> exact fun _ hc => .inl hc
  | .true, _ | .or _, _ | .not _, _ | .compareFields _, _ | .isNull _, _ | .isMissing _, _
  | .isEmpty _, _ | .isNotEmpty _, _ | .textContains _ _, _ | .textContainsCi _ _, _ =>
    fun _ hc => .inl hc

theorem compares_collectChildren (mode : CompareClauseMode) :
    (children : List Predicate) → (out : ImplicationClauses) →
      ∀ cmp ∈ (collectChildren mode children out).2.compares,
        cmp ∈ out.compares ∨ cmp ∈ Predicate.conjunctComparesList children
  | [], out => fun _ hc => .inl hc
  | child :: rest, out => by
    have hchild := compares_collectImplicationClauses mode child out
    rw [collectChildren_cons]
    rcases hc : collectImplicationClauses mode child out with ⟨status, mid⟩
    rw [hc] at hchild
    -- a clause of the result is in `mid`, or comes from the rest
    have hrest : ∀ cmp ∈ (collectChildren mode rest mid).2.compares,
        cmp ∈ out.compares ∨ cmp ∈ Predicate.conjunctComparesList (child :: rest) := by
      intro cmp hcmp
      rcases compares_collectChildren mode rest mid cmp hcmp with hmid | hrest
      · rcases hchild cmp hmid with hout | hfrom
        · exact .inl hout
        · exact .inr (List.mem_append_left _ hfrom)
      · exact .inr (List.mem_append_right _ hrest)
    have hmid : ∀ cmp ∈ mid.compares,
        cmp ∈ out.compares ∨ cmp ∈ Predicate.conjunctComparesList (child :: rest) := by
      intro cmp hcmp
      rcases hchild cmp hcmp with hout | hfrom
      · exact .inl hout
      · exact .inr (List.mem_append_left _ hfrom)
    cases status with
    | known => exact hrest
    | unsatisfiable => exact hmid
    | unknown => cases mode with
      | required => exact hmid
      | query => exact hrest

end

theorem queryImplicationClauses_and (children : List Predicate) :
    queryImplicationClauses (.and children) =
      match collectChildren .query children .empty with
      | (.unsatisfiable, _) => .unsatisfiable
      | (_, clauses) => .clauses clauses := rfl

/-- `query_implication_clauses` of a predicate that holds: not unsatisfiable,
and its clauses hold and come from the predicate. -/
theorem queryImplicationClauses_sound {q : Predicate} (hq : eval fd lower row q = true) :
    queryImplicationClauses q ≠ .unsatisfiable ∧
      ∀ c, queryImplicationClauses q = .clauses c →
        c.Hold fd lower row ∧ ∀ cmp ∈ c.compares, cmp ∈ q.conjunctCompares := by
  cases q with
  | false => exact absurd hq Bool.false_ne_true
  | true =>
    refine ⟨nofun, fun c hc => ?_⟩
    cases hc
    exact ⟨ImplicationClauses.hold_empty, nofun⟩
  | compare cmp =>
    by_cases hs : compareClauseSupported cmp = true
    · have hclauses : queryImplicationClauses (.compare cmp) = .clauses ⟨[cmp], []⟩ := by
        simp [queryImplicationClauses, hs]
      rw [hclauses]
      refine ⟨nofun, fun c hc => ?_⟩
      cases hc
      exact ⟨⟨fun c hc => List.mem_singleton.mp hc ▸ hq, nofun⟩, fun _ h => h⟩
    · have hunknown : queryImplicationClauses (.compare cmp) = .unknown := by
        simp [queryImplicationClauses, hs]
      rw [hunknown]
      exact ⟨nofun, nofun⟩
  | isNotNull field =>
    refine ⟨nofun, fun c hc => ?_⟩
    cases hc
    exact ⟨⟨nofun, by simpa using hq⟩, nofun⟩
  | and children =>
    have ⟨hstatus, hhold⟩ := collectChildren_query ImplicationClauses.hold_empty children hq
    have hfrom := compares_collectChildren .query children .empty
    rw [queryImplicationClauses_and]
    generalize collectChildren .query children .empty = result at hstatus hhold hfrom ⊢
    obtain ⟨status, clauses⟩ := result
    cases status with
    | unsatisfiable => exact absurd rfl hstatus
    | known | unknown =>
      refine ⟨nofun, fun c hclauses => ?_⟩
      cases hclauses
      refine ⟨hhold, fun cmp hcmp => ?_⟩
      rcases hfrom cmp hcmp with hempty | hchildren
      · cases hempty
      · exact hchildren
  | or _ | not _ | compareFields _ | isNull _ | isMissing _ | isEmpty _ | isNotEmpty _
  | textContains _ _ | textContainsCi _ _ => exact ⟨nofun, nofun⟩

theorem requiredImplicationClauses_of_ne {g : Predicate} (htrue : g ≠ .true) (hfalse : g ≠ .false) :
    requiredImplicationClauses g =
      match collectImplicationClauses .required g .empty with
      | (.known, clauses) => some (.clauses clauses)
      | (.unsatisfiable, _) => some .unsatisfiable
      | (.unknown, _) => none := by
  cases g <;> first | rfl | contradiction

/-- What `required_implication_clauses` can return as clauses: nothing for
`True`, else the clauses of a known required-mode collection. -/
theorem requiredImplicationClauses_cases {g : Predicate} {c : ImplicationClauses}
    (h : requiredImplicationClauses g = some (.clauses c)) :
    (g = .true ∧ c = .empty) ∨ collectImplicationClauses .required g .empty = (.known, c) := by
  by_cases htrue : g = .true
  · subst htrue
    cases h
    exact .inl ⟨rfl, rfl⟩
  by_cases hfalse : g = .false
  · subst hfalse
    cases h
  rw [requiredImplicationClauses_of_ne htrue hfalse] at h
  rcases hc : collectImplicationClauses .required g .empty with ⟨status, clauses⟩
  rw [hc] at h
  cases status with
  | known =>
    cases h
    exact .inr rfl
  | unsatisfiable | unknown => cases h

/-- `required_implication_clauses` reads a predicate whole: it holds
wherever its clauses do. -/
theorem eval_of_requiredImplicationClauses {g : Predicate} {c : ImplicationClauses}
    (h : requiredImplicationClauses g = some (.clauses c)) (hold : c.Hold fd lower row) :
    eval fd lower row g = true := by
  rcases requiredImplicationClauses_cases h with ⟨rfl, -⟩ | hc
  · rfl
  · exact (collectImplicationClauses_required g hc hold).2

theorem compares_requiredImplicationClauses {g : Predicate} {c : ImplicationClauses}
    (h : requiredImplicationClauses g = some (.clauses c)) :
    ∀ cmp ∈ c.compares, cmp ∈ g.conjunctCompares := by
  rcases requiredImplicationClauses_cases h with ⟨-, rfl⟩ | hc
  · exact nofun
  · intro cmp hcmp
    have hfrom := compares_collectImplicationClauses .required g .empty cmp
    rw [hc] at hfrom
    rcases hfrom hcmp with hempty | hg
    · cases hempty
    · exact hg

end Collect

/-! ### The check is as sound as its clause steps -/

section Implication

variable {fd : FloatDecimal} {lower : List UInt8 → List UInt8} {row : Row}

/-- The final test of `predicate_implies_predicate_for_planner`: if the query
clauses hold, so do the required ones, as far as each clause step is sound. -/
theorem hold_of_clausesImply {qcs rcs : ImplicationClauses} (hq : qcs.Hold fd lower row)
    (hstep : ∀ qc ∈ qcs.compares, ∀ rc ∈ rcs.compares, queryClauseImpliesRequired fd qc rc = true →
      evalCompare fd lower row qc = true → evalCompare fd lower row rc = true)
    (himp : (rcs.compares.all (fun requiredClause =>
        qcs.compares.any fun queryClause => queryClauseImpliesRequired fd queryClause requiredClause) &&
      rcs.nonNullFields.all fun requiredField =>
        qcs.nonNullFields.contains requiredField ||
          qcs.compares.any fun queryClause => comparisonProvesFieldNonNull queryClause requiredField) =
        true) :
    rcs.Hold fd lower row := by
  simp only [Bool.and_eq_true, List.all_eq_true, List.any_eq_true, Bool.or_eq_true,
    List.contains_iff_mem] at himp
  obtain ⟨hcompares, hfields⟩ := himp
  constructor
  · intro rc hrc
    obtain ⟨qc, hqc, hqcrc⟩ := hcompares rc hrc
    exact hstep qc hqc rc hrc hqcrc (hq.1 qc hqc)
  · intro field hfield
    rcases hfields field hfield with hmem | ⟨qc, hqc, hproves⟩
    · exact hq.2 field hmem
    · exact eval_isNotNull_of_comparisonProvesFieldNonNull hproves (hq.1 qc hqc)

/-- `predicate_implies_predicate_for_planner` is sound on a row whenever
every step from a query clause to a required clause that it takes is. -/
theorem eval_of_predicateImpliesPredicateForPlanner {implying required : Predicate}
    (hstep : ∀ qc ∈ implying.conjunctCompares, ∀ rc ∈ required.conjunctCompares,
      queryClauseImpliesRequired fd qc rc = true → evalCompare fd lower row qc = true →
        evalCompare fd lower row rc = true)
    (himp : predicateImpliesPredicateForPlanner fd implying required = true)
    (hq : eval fd lower row implying = true) : eval fd lower row required = true := by
  obtain ⟨hnotUnsat, hqueryClauses⟩ := queryImplicationClauses_sound hq
  unfold predicateImpliesPredicateForPlanner at himp
  cases hr : requiredImplicationClauses required with
  | none => rw [hr] at himp; cases himp
  | some rcs =>
    rw [hr] at himp
    cases hqc : queryImplicationClauses implying with
    | unsatisfiable => exact absurd hqc hnotUnsat
    | unknown => rw [hqc] at himp; cases himp
    | clauses qcs =>
      rw [hqc] at himp
      cases rcs with
      | unsatisfiable => cases himp
      | clauses rcs =>
        obtain ⟨hqhold, hqfrom⟩ := hqueryClauses qcs hqc
        refine eval_of_requiredImplicationClauses hr (hold_of_clausesImply hqhold ?_ himp)
        intro qc hqc rc hrc
        exact hstep qc (hqfrom qc hqc) rc (compares_requiredImplicationClauses hr rc hrc)

/-- The implication check is sound for numeric-widened clauses: when every
comparison on the query's conjunctive spine is numeric-widened, and every one
on the required predicate's is too with a literal that has a `Decimal` form,
each row the query accepts satisfies the required predicate. -/
theorem predicateImpliesPredicateForPlanner_sound_of_numericWiden {implying required : Predicate}
    (hq : ∀ cmp ∈ implying.conjunctCompares, cmp.coercion = .numericWiden)
    (hr : ∀ cmp ∈ required.conjunctCompares,
      cmp.coercion = .numericWiden ∧ ∃ d, cmp.value.coerceNumericDecimal fd = some d)
    (himp : predicateImpliesPredicateForPlanner fd implying required = true)
    (hrow : eval fd lower row implying = true) : eval fd lower row required = true := by
  refine eval_of_predicateImpliesPredicateForPlanner ?_ himp hrow
  intro qc hqc rc hrc hstep hqeval
  obtain ⟨hrcoercion, hliteral⟩ := hr rc hrc
  exact evalCompare_of_queryClauseImpliesRequired (hq qc hqc) hrcoercion hliteral hstep hqeval

/-- `x > Int64(0)` and `x` not null imply `x >= Nat64(0)` and `x` not null,
on the row `x = Int64(7)`. -/
theorem numericWiden_positive_implies_nonnegative :
    (∀ cmp ∈ (Predicate.and [.compare ⟨"x", .gt, .int64 0#64, .numericWiden⟩,
        .isNotNull "x"]).conjunctCompares, cmp.coercion = .numericWiden) ∧
      (∀ cmp ∈ (Predicate.and [.compare ⟨"x", .gte, .nat64 0#64, .numericWiden⟩,
          .isNotNull "x"]).conjunctCompares,
        cmp.coercion = .numericWiden ∧
          ∃ d, cmp.value.coerceNumericDecimal ⟨fun _ => none, fun _ => none⟩ = some d) ∧
      predicateImpliesPredicateForPlanner ⟨fun _ => none, fun _ => none⟩
        (.and [.compare ⟨"x", .gt, .int64 0#64, .numericWiden⟩, .isNotNull "x"])
        (.and [.compare ⟨"x", .gte, .nat64 0#64, .numericWiden⟩, .isNotNull "x"]) = true ∧
      eval ⟨fun _ => none, fun _ => none⟩ id
        (fun f => if f = "x" then some (.int64 7#64) else none)
        (.and [.compare ⟨"x", .gt, .int64 0#64, .numericWiden⟩, .isNotNull "x"]) = true ∧
      eval ⟨fun _ => none, fun _ => none⟩ id
        (fun f => if f = "x" then some (.int64 7#64) else none)
        (.and [.compare ⟨"x", .gte, .nat64 0#64, .numericWiden⟩, .isNotNull "x"]) = true := by
  have hq : ∀ cmp ∈ (Predicate.and [.compare ⟨"x", .gt, .int64 0#64, .numericWiden⟩,
      .isNotNull "x"]).conjunctCompares, cmp.coercion = .numericWiden := by decide
  have hr : ∀ cmp ∈ (Predicate.and [.compare ⟨"x", .gte, .nat64 0#64, .numericWiden⟩,
      .isNotNull "x"]).conjunctCompares, cmp.coercion = .numericWiden ∧
        ∃ d, cmp.value.coerceNumericDecimal ⟨fun _ => none, fun _ => none⟩ = some d := by
    intro cmp hcmp
    rw [List.mem_singleton.mp hcmp]
    exact ⟨rfl, _, rfl⟩
  have hrow : eval ⟨fun _ => none, fun _ => none⟩ id
      (fun f => if f = "x" then some (.int64 7#64) else none)
      (.and [.compare ⟨"x", .gt, .int64 0#64, .numericWiden⟩, .isNotNull "x"]) = true := by
    decide
  exact ⟨hq, hr, rfl, hrow,
    predicateImpliesPredicateForPlanner_sound_of_numericWiden hq hr rfl hrow⟩

end Implication

end Planner

end IcyDb
