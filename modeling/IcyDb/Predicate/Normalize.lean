import IcyDb.Predicate.SortKey

/-!
# Predicate normalization

`db::predicate::normalize` rewrites a predicate tree into a canonical form:
nested `And` and `Or` nodes are flattened, the neutral constant of each is
dropped and the absorbing one absorbs, a double negation is removed, and the
children of each node are put in a deterministic order and deduplicated.  Two
rewrites go further.  The comparisons of one conjunction on one field under
one coercion are simplified pairwise (`db::predicate::simplify`): a bound
implied by another goes, contradictory bounds make the conjunction `False`,
and `>= a AND <= a` becomes `= a`.  A disjunction of equalities of one field
becomes one `IN` comparison (`db::predicate::membership`).

Children are ordered by evaluation cost first and by sort key (`SortKey`)
second, with Rust's stable `sort_by`; `Vec::dedup` then drops each child
equal (`==`) to the one kept before it.

The double-negation rule normalizes the inner predicate of a normalized
`NOT NOT x` once more, which is not a structural recursion: the model's
normalizer returns its result together with the bound that it is no larger
than its input (`normalizeBounded`), and that bound is what makes the
recursion well founded.
-/

namespace IcyDb

open Comparator

/-! ### Equality and size of predicates -/

namespace Predicate

mutual

/-- `PartialEq for Predicate`, derived: literals compare with `==` of
`Value`. -/
def beq : Predicate → Predicate → Bool
  | .true, .true => Bool.true
  | .false, .false => Bool.true
  | .and cs, .and ds => beqChildren cs ds
  | .or cs, .or ds => beqChildren cs ds
  | .not p, .not q => beq p q
  | .compare a, .compare b =>
    a.field == b.field && a.op == b.op && a.value.beq b.value && a.coercion == b.coercion
  | .compareFields a, .compareFields b =>
    a.leftField == b.leftField && a.op == b.op && a.rightField == b.rightField &&
      a.coercion == b.coercion
  | .isNull f, .isNull g | .isNotNull f, .isNotNull g | .isMissing f, .isMissing g
  | .isEmpty f, .isEmpty g | .isNotEmpty f, .isNotEmpty g => f == g
  | .textContains f v, .textContains g w | .textContainsCi f v, .textContainsCi g w =>
    f == g && v.beq w
  | _, _ => Bool.false

/-- `PartialEq for Vec<Predicate>`. -/
def beqChildren : List Predicate → List Predicate → Bool
  | [], [] => Bool.true
  | c :: cs, d :: ds => beq c d && beqChildren cs ds
  | _, _ => Bool.false

end

mutual

/-- The nodes of a predicate, counting one more for each child of a node. -/
def size : Predicate → Nat
  | .and cs => sizeChildren cs + 1
  | .or cs => sizeChildren cs + 1
  | .not p => p.size + 1
  | _ => 1

/-- The size of a list of children: each child and one for its place. -/
def sizeChildren : List Predicate → Nat
  | [] => 0
  | c :: cs => c.size + sizeChildren cs + 1

end

end Predicate

/-! ### Ordering children -/

/-- `compare_eval_cost_rank`. -/
def compareEvalCostRank : CompareOp → UInt8
  | .eq | .ne | .lt | .lte | .gt | .gte => 1
  | .in_ | .notIn => 2
  | .contains | .startsWith | .endsWith => 3

/-- `predicate_eval_cost_rank`: cheap leaves first, connectives last. -/
def predicateEvalCostRank : Predicate → UInt8
  | .true | .false => 0
  | .compare cmp => compareEvalCostRank cmp.op
  | .compareFields _ | .isNull _ | .isNotNull _ | .isMissing _ | .isEmpty _ | .isNotEmpty _ => 1
  | .not _ => 4
  | .textContains .. | .textContainsCi .. => 3
  | .and _ | .or _ => 5

section Canonicalize

variable (fd : FloatDecimal) (unicodeLowercase : List UInt8 → List UInt8) (leb : Leb128)

/-- `canonical_cmp_predicate_for_eval`: rank, then sort key. -/
def canonicalCmpPredicateForEval (left right : Predicate) : Ordering :=
  (compare (predicateEvalCostRank left) (predicateEvalCostRank right)).then
    (compare (encodePredicateSortKeyOf fd unicodeLowercase leb left)
      (encodePredicateSortKeyOf fd unicodeLowercase leb right))

/-- `canonicalize_predicate_children_for_eval`: `sort_by`, then
`Vec::dedup`. -/
def canonicalizePredicateChildrenForEval (out : List Predicate) : List Predicate :=
  (sortBy (canonicalCmpPredicateForEval fd unicodeLowercase leb) out).destutter
    fun a b => Predicate.beq a b = Bool.false

end Canonicalize

/-! ### Pairwise simplification of a conjunction -/

/-- `ComparePairSimplification`. -/
inductive ComparePairSimplification
  | noChange
  | contradiction
  | keepFirst
  | keepSecond
  | replaceFirst (cmp : ComparePredicate)
  | replaceSecond (cmp : ComparePredicate)

/-- The answer for the pair taken the other way round, as
`simplify_constraint_constraint_pair` maps an upper-then-lower pair. -/
def ComparePairSimplification.swapSides : ComparePairSimplification → ComparePairSimplification
  | .keepFirst => .keepSecond
  | .keepSecond => .keepFirst
  | .replaceFirst cmp => .replaceSecond cmp
  | .replaceSecond cmp => .replaceFirst cmp
  | s => s

/-- `CompareOp::lower_bound_inclusive`. -/
def CompareOp.lowerBoundInclusive : CompareOp → Option Bool
  | .gt => some false
  | .gte => some true
  | _ => none

/-- `CompareOp::upper_bound_inclusive`. -/
def CompareOp.upperBoundInclusive : CompareOp → Option Bool
  | .lt => some false
  | .lte => some true
  | _ => none

section Simplify

variable (fd : FloatDecimal) (unicodeLowercase : List UInt8 → List UInt8)

/-- `simplify_eq_eq_pair`: `field = a AND field = b`. -/
def simplifyEqEqPair (left right : ComparePredicate) : ComparePairSimplification :=
  match compareEq fd unicodeLowercase left.value right.value left.coercion with
  | some true => .keepFirst
  | some false => .contradiction
  | none => .noChange

/-- `simplify_eq_with_constraint_pair`: `field = a AND field <op> b` for one
bound `<op>`; the equality stays, or the two contradict. -/
def simplifyEqWithConstraintPair (eq constraint : ComparePredicate) (eqIsFirst : Bool) :
    ComparePairSimplification :=
  match compareOrder fd unicodeLowercase eq.value constraint.value eq.coercion with
  | none => .noChange
  | some ordering =>
    let satisfies? : Option Bool :=
      match constraint.op with
      | .gt => some (ordering == .gt)
      | .gte => some (ordering == .gt || ordering == .eq)
      | .lt => some (ordering == .lt)
      | .lte => some (ordering == .lt || ordering == .eq)
      | _ => none
    match satisfies? with
    | none => .noChange
    | some false => .contradiction
    | some true => if eqIsFirst then .keepFirst else .keepSecond

/-- `simplify_two_lower_bounds` (`boundInclusive` the lower-bound test,
`tighter` `Greater`) and `simplify_two_upper_bounds` (the upper-bound test,
`Less`): the tighter bound stays; of two equal bounds the exclusive one, or
the first. -/
def simplifyTwoBounds (boundInclusive : CompareOp → Option Bool) (tighter : Ordering)
    (left right : ComparePredicate) : ComparePairSimplification :=
  match compareOrder fd unicodeLowercase left.value right.value left.coercion with
  | none => .noChange
  | some ordering =>
    match boundInclusive left.op, boundInclusive right.op with
    | some leftInclusive, some rightInclusive =>
      if ordering = tighter then .keepFirst
      else if ordering = tighter.swap then .keepSecond
      else if !leftInclusive && rightInclusive then .keepFirst
      else if leftInclusive && !rightInclusive then .keepSecond
      else .keepFirst
    | _, _ => .noChange

/-- `simplify_two_lower_bounds`. -/
def simplifyTwoLowerBounds (left right : ComparePredicate) : ComparePairSimplification :=
  simplifyTwoBounds fd unicodeLowercase CompareOp.lowerBoundInclusive .gt left right

/-- `simplify_two_upper_bounds`. -/
def simplifyTwoUpperBounds (left right : ComparePredicate) : ComparePairSimplification :=
  simplifyTwoBounds fd unicodeLowercase CompareOp.upperBoundInclusive .lt left right

/-- `simplify_lower_upper_pair`: a lower bound above the upper bound
contradicts it; equal bounds collapse to an equality when both are inclusive
and contradict otherwise. -/
def simplifyLowerUpperPair (lower upper : ComparePredicate) : ComparePairSimplification :=
  match compareOrder fd unicodeLowercase lower.value upper.value lower.coercion with
  | none => .noChange
  | some ordering =>
    match lower.op.lowerBoundInclusive, upper.op.upperBoundInclusive with
    | some lowerInclusive, some upperInclusive =>
      match ordering with
      | .lt => .noChange
      | .gt => .contradiction
      | .eq =>
        if lowerInclusive && upperInclusive then
          .replaceFirst ⟨lower.field, .eq, lower.value, lower.coercion⟩
        else .contradiction
    | _, _ => .noChange

/-- `simplify_constraint_constraint_pair`. -/
def simplifyConstraintConstraintPair (left right : ComparePredicate) :
    ComparePairSimplification :=
  if left.op.lowerBoundInclusive.isSome && right.op.lowerBoundInclusive.isSome then
    simplifyTwoLowerBounds fd unicodeLowercase left right
  else if left.op.upperBoundInclusive.isSome && right.op.upperBoundInclusive.isSome then
    simplifyTwoUpperBounds fd unicodeLowercase left right
  else if left.op.lowerBoundInclusive.isSome && right.op.upperBoundInclusive.isSome then
    simplifyLowerUpperPair fd unicodeLowercase left right
  else if left.op.upperBoundInclusive.isSome && right.op.lowerBoundInclusive.isSome then
    (simplifyLowerUpperPair fd unicodeLowercase right left).swapSides
  else .noChange

/-- `simplify_compare_pair_for_and`. -/
def simplifyComparePairForAnd (left right : ComparePredicate) : ComparePairSimplification :=
  match left.op, right.op with
  | .eq, .eq => simplifyEqEqPair fd unicodeLowercase left right
  | .eq, _ => simplifyEqWithConstraintPair fd unicodeLowercase left right true
  | _, .eq => simplifyEqWithConstraintPair fd unicodeLowercase right left false
  | _, _ => simplifyConstraintConstraintPair fd unicodeLowercase left right

/-- The body of the scan for one pair: only two comparisons of one field
under one coercion are simplified; every other pair is passed over. -/
def pairSimplification : Predicate → Predicate → ComparePairSimplification
  | .compare left, .compare right =>
    if left.field = right.field ∧ left.coercion = right.coercion then
      simplifyComparePairForAnd fd unicodeLowercase left right
    else .noChange
  | _, _ => .noChange

/-- The inner loop of the scan: the first predicate after `left` that
simplifies with it, with its position. -/
def scanPartner (left : Predicate) : List Predicate → Nat → Option (Nat × ComparePairSimplification)
  | [], _ => none
  | right :: rest, j =>
    match pairSimplification fd unicodeLowercase left right with
    | .noChange => scanPartner left rest (j + 1)
    | s => some (j, s)

/-- The `'scan` loops: the first pair `i < j`, by `i` and then by `j`, whose
simplification is not `NoChange`. -/
def scanPairs : List Predicate → Nat → Option (Nat × Nat × ComparePairSimplification)
  | [], _ => none
  | left :: rest, i =>
    match scanPartner fd unicodeLowercase left rest (i + 1) with
    | some (j, s) => some (i, j, s)
    | none => scanPairs rest (i + 1)

theorem scanPartner_bounds {left : Predicate} {rest : List Predicate} {j j' : Nat}
    {s : ComparePairSimplification} (h : scanPartner fd unicodeLowercase left rest j = some (j', s)) :
    j ≤ j' ∧ j' < j + rest.length := by
  induction rest generalizing j with
  | nil => cases h
  | cons right rest ih =>
    rw [scanPartner] at h
    split at h
    · have := ih h
      simp only [List.length_cons]
      omega
    · cases h
      simp

/-- A pair the scan finds lies within the list, first before second. -/
theorem scanPairs_bounds {predicates : List Predicate} {i₀ i j : Nat}
    {s : ComparePairSimplification} (h : scanPairs fd unicodeLowercase predicates i₀ = some (i, j, s)) :
    i₀ ≤ i ∧ i < j ∧ j < i₀ + predicates.length := by
  induction predicates generalizing i₀ with
  | nil => cases h
  | cons left rest ih =>
    rw [scanPairs] at h
    split at h
    · rename_i j' s' hpartner
      cases h
      have := scanPartner_bounds fd unicodeLowercase hpartner
      simp only [List.length_cons]
      omega
    · have := ih h
      simp only [List.length_cons]
      omega

set_option linter.unusedVariables false in
/-- `simplify_and_compare_constraints`: apply the first simplification the
scan finds and scan again, until a scan finds none; `None` on a
contradiction.  Each change removes one predicate. -/
def simplifyAndCompareConstraints (predicates : List Predicate) : Option (List Predicate) :=
  match h : scanPairs fd unicodeLowercase predicates 0 with
  | none => some predicates
  | some (i, j, s) =>
    match s with
    | .noChange => some predicates
    | .contradiction => none
    | .keepFirst => simplifyAndCompareConstraints (predicates.eraseIdx j)
    | .keepSecond => simplifyAndCompareConstraints (predicates.eraseIdx i)
    | .replaceFirst replacement =>
      simplifyAndCompareConstraints ((predicates.set i (.compare replacement)).eraseIdx j)
    | .replaceSecond replacement =>
      simplifyAndCompareConstraints ((predicates.set j (.compare replacement)).eraseIdx i)
termination_by predicates.length
decreasing_by
  all_goals
    have hb := scanPairs_bounds fd unicodeLowercase h
    simp only [List.length_eraseIdx, List.length_set]
    split <;> omega

end Simplify

/-! ### Collapsing a disjunction of equalities -/

/-- `MembershipCompareLeaf`. -/
structure MembershipCompareLeaf where
  field : String
  value : Value
  coercion : CoercionId

/-- `canonical_membership_value_list`. -/
def canonicalMembershipValueList (values : List Value) : Value :=
  .list (Value.canonicalizeValueSet values)

/-- `collapse_membership_values`: two values at least. -/
def collapseMembershipValues (field : String) (targetOp : CompareOp) (values : List Value)
    (coercion : CoercionId) : Option ComparePredicate :=
  if values.length < 2 then none
  else some ⟨field, targetOp, canonicalMembershipValueList values, coercion⟩

/-- `collapse_membership_compare_leaves`: every leaf on the first leaf's
field and coercion. -/
def collapseMembershipCompareLeaves (leaves : List MembershipCompareLeaf) (targetOp : CompareOp) :
    Option ComparePredicate :=
  match leaves with
  | [] => none
  | first :: rest =>
    if rest.all fun leaf => leaf.field == first.field && leaf.coercion == first.coercion then
      collapseMembershipValues first.field targetOp (leaves.map (·.value)) first.coercion
    else none

/-- `or_eq_compare_value_is_in_safe`: no list or map literal. -/
def orEqCompareValueIsInSafe : Value → Bool
  | .list _ | .map _ => false
  | _ => true

/-- The leaf of one disjunct of `collapse_same_field_or_eq_to_in`: an
equality under `Strict` or `TextCasefold` with an in-safe literal. -/
def orEqMembershipLeaf : Predicate → Option MembershipCompareLeaf
  | .compare cmp =>
    if cmp.op = .eq ∧ (cmp.coercion = .strict ∨ cmp.coercion = .textCasefold) ∧
        orEqCompareValueIsInSafe cmp.value = true then
      some ⟨cmp.field, cmp.value, cmp.coercion⟩
    else none
  | _ => none

/-- `collapse_same_field_or_eq_to_in`. -/
def collapseSameFieldOrEqToIn (children : List Predicate) : Option Predicate :=
  if children.length < 2 then none
  else
    (children.mapM orEqMembershipLeaf).bind fun leaves =>
      (collapseMembershipCompareLeaves leaves .in_).map .compare

/-! ### Normalizing a node from its normalized children -/

/-- One step of the flattening loops of `normalize_and_from_normalized`
(`conj`) and of `normalize_or_from_normalized`: what a normalized child adds to
the output, nothing for the neutral constant, its own children for a child of
the same connective, and `none` for the absorbing constant, which ends the
loop. -/
def flattenChild (conj : Bool) : Predicate → Option (List Predicate)
  | .true => if conj then some [] else none
  | .false => if conj then none else some []
  | .and gs => some (if conj then gs else [.and gs])
  | .or gs => some (if conj then [.or gs] else gs)
  | c => some [c]

/-- The flattening loop over the normalized children. -/
def flattenChildren (conj : Bool) (children : List Predicate) : Option (List Predicate) :=
  (children.mapM (flattenChild conj)).map List.flatten

section FromNormalized

variable (fd : FloatDecimal) (unicodeLowercase : List UInt8 → List UInt8) (leb : Leb128)

/-- `normalize_and_from_normalized`. -/
def normalizeAndFromNormalized (normalizedChildren : List Predicate) : Predicate :=
  match flattenChildren true normalizedChildren with
  | none => .false
  | some [] => .true
  | some out =>
    match simplifyAndCompareConstraints fd unicodeLowercase out with
    | none => .false
    | some out =>
      match canonicalizePredicateChildrenForEval fd unicodeLowercase leb out with
      | [only] => only
      | out => .and out

/-- `normalize_or_from_normalized`. -/
def normalizeOrFromNormalized (normalizedChildren : List Predicate) : Predicate :=
  match flattenChildren false normalizedChildren with
  | none => .true
  | some [] => .false
  | some out =>
    let out := canonicalizePredicateChildrenForEval fd unicodeLowercase leb out
    match collapseSameFieldOrEqToIn out with
    | some collapsed => collapsed
    | none =>
      match out with
      | [only] => only
      | out => .or out

end FromNormalized

/-! ### Normalization never grows a predicate -/

namespace Predicate

theorem one_le_size (p : Predicate) : 1 ≤ p.size := by
  cases p <;> simp [size]

theorem sizeChildren_append (l₁ l₂ : List Predicate) :
    sizeChildren (l₁ ++ l₂) = sizeChildren l₁ + sizeChildren l₂ := by
  induction l₁ with
  | nil => simp [sizeChildren]
  | cons c cs ih =>
    simp only [List.cons_append, sizeChildren, ih]
    omega

theorem sizeChildren_le_of_sublist {l₁ l₂ : List Predicate} (h : l₁.Sublist l₂) :
    sizeChildren l₁ ≤ sizeChildren l₂ := by
  induction h with
  | slnil => exact le_rfl
  | cons a _ ih =>
    simp only [sizeChildren]
    omega
  | cons_cons a _ ih =>
    simp only [sizeChildren]
    omega

theorem sizeChildren_eq_of_perm {l₁ l₂ : List Predicate} (h : l₁.Perm l₂) :
    sizeChildren l₁ = sizeChildren l₂ := by
  induction h with
  | nil => rfl
  | cons a _ ih => simp only [sizeChildren, ih]
  | swap a b l =>
    simp only [sizeChildren]
    omega
  | trans _ _ ih₁ ih₂ => exact ih₁.trans ih₂

/-- A comparison is as small as a predicate gets. -/
theorem sizeChildren_set_compare_le (l : List Predicate) (i : Nat) (cmp : ComparePredicate) :
    sizeChildren (l.set i (.compare cmp)) ≤ sizeChildren l := by
  induction l generalizing i with
  | nil => simp
  | cons c cs ih =>
    cases i with
    | zero =>
      have := one_le_size c
      simp only [List.set_cons_zero, sizeChildren, size]
      omega
    | succ i =>
      have := ih i
      simp only [List.set_cons_succ, sizeChildren]
      omega

end Predicate

open Predicate

theorem sizeChildren_flattenChild_le {conj : Bool} {c : Predicate} {xs : List Predicate}
    (h : flattenChild conj c = some xs) : sizeChildren xs ≤ sizeChildren [c] := by
  cases c <;> cases conj <;> simp only [flattenChild, if_true, if_false, reduceCtorEq] at h <;>
    cases h <;> simp only [sizeChildren, size] <;> omega

theorem sizeChildren_flattenChildren_le {conj : Bool} {children out : List Predicate}
    (h : flattenChildren conj children = some out) : sizeChildren out ≤ sizeChildren children := by
  induction children generalizing out with
  | nil =>
    cases h
    exact le_rfl
  | cons c cs ih =>
    simp only [flattenChildren, List.mapM_cons, Option.bind_eq_bind, Option.map_eq_some_iff,
      Option.bind_eq_some_iff, Option.pure_def, Option.some.injEq] at h
    obtain ⟨_, ⟨xs, hc, ys, hcs, rfl⟩, rfl⟩ := h
    have hflat : flattenChildren conj cs = some ys.flatten := by simp [flattenChildren, hcs]
    have hrest := ih hflat
    have hchild := sizeChildren_flattenChild_le hc
    simp only [List.flatten_cons, sizeChildren_append, sizeChildren] at hrest hchild ⊢
    omega

section Sizes

variable (fd : FloatDecimal) (unicodeLowercase : List UInt8 → List UInt8) (leb : Leb128)

theorem sizeChildren_simplifyAndCompareConstraints_le {predicates out : List Predicate}
    (h : simplifyAndCompareConstraints fd unicodeLowercase predicates = some out) :
    sizeChildren out ≤ sizeChildren predicates := by
  fun_induction simplifyAndCompareConstraints fd unicodeLowercase predicates generalizing out with
  | case1 | case2 =>
    cases h
    exact le_rfl
  | case3 => cases h
  | case4 _ _ j _ _ ih | case5 _ j _ _ _ ih =>
    exact (ih h).trans (sizeChildren_le_of_sublist (List.eraseIdx_sublist _ j))
  | case6 predicates i j replacement _ _ ih | case7 predicates j i replacement _ _ ih =>
    -- the replacement is a comparison, as small as the predicate it replaces
    exact (ih h).trans ((sizeChildren_le_of_sublist (List.eraseIdx_sublist _ j)).trans
      (sizeChildren_set_compare_le predicates i replacement))

theorem sizeChildren_canonicalizePredicateChildrenForEval_le (out : List Predicate) :
    sizeChildren (canonicalizePredicateChildrenForEval fd unicodeLowercase leb out) ≤
      sizeChildren out := by
  unfold canonicalizePredicateChildrenForEval
  rw [← sizeChildren_eq_of_perm (sortBy_perm out)]
  exact sizeChildren_le_of_sublist (List.destutter_sublist _ _)

/-- `normalize_and_from_normalized` never builds more than it is given. -/
theorem size_normalizeAndFromNormalized_le (children : List Predicate) :
    (normalizeAndFromNormalized fd unicodeLowercase leb children).size ≤ sizeChildren children + 1 := by
  unfold normalizeAndFromNormalized
  split
  · simp [size]
  · simp [size]
  · rename_i out _ hflat
    have hout := sizeChildren_flattenChildren_le hflat
    split
    · simp [size]
    · rename_i simplified hsimp
      have hsimplified := sizeChildren_simplifyAndCompareConstraints_le fd unicodeLowercase hsimp
      have hcanon := sizeChildren_canonicalizePredicateChildrenForEval_le fd unicodeLowercase leb simplified
      generalize canonicalizePredicateChildrenForEval fd unicodeLowercase leb simplified = canonical
        at hcanon ⊢
      split
      · simp only [sizeChildren] at hcanon
        omega
      · simp only [size]
        omega

/-- A collapsed disjunction is one comparison. -/
theorem size_of_collapseSameFieldOrEqToIn {children : List Predicate} {collapsed : Predicate}
    (h : collapseSameFieldOrEqToIn children = some collapsed) : collapsed.size = 1 := by
  unfold collapseSameFieldOrEqToIn at h
  split at h
  · cases h
  · obtain ⟨leaves, -, hcollapse⟩ := Option.bind_eq_some_iff.mp h
    obtain ⟨cmp, -, rfl⟩ := Option.map_eq_some_iff.mp hcollapse
    rfl

/-- `normalize_or_from_normalized` never builds more than it is given. -/
theorem size_normalizeOrFromNormalized_le (children : List Predicate) :
    (normalizeOrFromNormalized fd unicodeLowercase leb children).size ≤ sizeChildren children + 1 := by
  unfold normalizeOrFromNormalized
  split
  · simp [size]
  · simp [size]
  · rename_i out _ hflat
    have hout := sizeChildren_flattenChildren_le hflat
    have hcanon := sizeChildren_canonicalizePredicateChildrenForEval_le fd unicodeLowercase leb out
    dsimp only
    generalize canonicalizePredicateChildrenForEval fd unicodeLowercase leb out = canonical
      at hcanon ⊢
    split
    · rename_i collapsed hcollapse
      rw [size_of_collapseSameFieldOrEqToIn hcollapse]
      omega
    · split
      · simp only [sizeChildren] at hcanon
        omega
      · simp only [size]
        omega

end Sizes

/-! ### Normalization -/

/-- The `if let Predicate::Not(double)` test of `normalize_not_from_normalized`. -/
def Predicate.notInner? : Predicate → Option Predicate
  | .not inner => some inner
  | _ => none

theorem eq_not_of_notInner? {p double : Predicate} (h : p.notInner? = some double) :
    p = .not double := by
  cases p <;> simp_all [Predicate.notInner?]

theorem size_lt_of_notInner? {p double : Predicate} (h : p.notInner? = some double) :
    double.size < p.size := by
  rw [eq_not_of_notInner? h, Predicate.size]
  omega

section Normalize

variable (fd : FloatDecimal) (unicodeLowercase : List UInt8 → List UInt8) (leb : Leb128)

mutual

/-- `normalize`, with the bound that the result is no larger than the
predicate. -/
def normalizeBounded : (p : Predicate) → {q : Predicate // q.size ≤ p.size}
  | .and children =>
    let normalized := normalizeChildrenBounded children
    ⟨normalizeAndFromNormalized fd unicodeLowercase leb normalized.1,
      (size_normalizeAndFromNormalized_le fd unicodeLowercase leb _).trans
        (Nat.succ_le_succ normalized.2)⟩
  | .or children =>
    let normalized := normalizeChildrenBounded children
    ⟨normalizeOrFromNormalized fd unicodeLowercase leb normalized.1,
      (size_normalizeOrFromNormalized_le fd unicodeLowercase leb _).trans
        (Nat.succ_le_succ normalized.2)⟩
  | .not inner =>
    -- `normalize_not_from_normalized`: under the `NOT`, a normalized `NOT x`
    -- is a double negation, and `x` is normalized once more
    match normalizeBounded inner with
    | ⟨normalized, hle⟩ =>
      match hdouble : normalized.notInner? with
      | some double =>
        let renormalized := normalizeBounded double
        ⟨renormalized.1, by
          have := renormalized.2
          rw [eq_not_of_notInner? hdouble] at hle
          simp only [size] at hle ⊢
          omega⟩
      | none => ⟨.not normalized, by simp only [size]; omega⟩
  | p => ⟨p, le_rfl⟩
termination_by p => p.size
decreasing_by
  all_goals simp only [size]
  all_goals first
    | omega
    | have hsize := size_lt_of_notInner? ‹Predicate.notInner? _ = some _›
      omega

/-- The children of a node, each normalized. -/
def normalizeChildrenBounded : (children : List Predicate) →
    {normalized : List Predicate // sizeChildren normalized ≤ sizeChildren children}
  | [] => ⟨[], le_rfl⟩
  | c :: cs =>
    let head := normalizeBounded c
    let tail := normalizeChildrenBounded cs
    ⟨head.1 :: tail.1, by
      have := head.2
      have := tail.2
      simp only [sizeChildren]
      omega⟩
termination_by children => sizeChildren children
decreasing_by
  all_goals simp only [sizeChildren]
  all_goals omega

end

/-- `normalize`. -/
def normalize (p : Predicate) : Predicate := (normalizeBounded fd unicodeLowercase leb p).1

theorem normalizeChildrenBounded_val (children : List Predicate) :
    (normalizeChildrenBounded fd unicodeLowercase leb children).1 =
      children.map (normalize fd unicodeLowercase leb) := by
  induction children with
  | nil =>
    rw [normalizeChildrenBounded]
    rfl
  | cons c cs ih =>
    rw [normalizeChildrenBounded]
    simp only [ih, List.map_cons, normalize]

theorem normalize_and (children : List Predicate) :
    normalize fd unicodeLowercase leb (.and children) =
      normalizeAndFromNormalized fd unicodeLowercase leb
        (children.map (normalize fd unicodeLowercase leb)) := by
  rw [normalize, normalizeBounded]
  dsimp only
  rw [normalizeChildrenBounded_val]

theorem normalize_or (children : List Predicate) :
    normalize fd unicodeLowercase leb (.or children) =
      normalizeOrFromNormalized fd unicodeLowercase leb
        (children.map (normalize fd unicodeLowercase leb)) := by
  rw [normalize, normalizeBounded]
  dsimp only
  rw [normalizeChildrenBounded_val]

theorem normalize_not (inner : Predicate) :
    normalize fd unicodeLowercase leb (.not inner) =
      match (normalize fd unicodeLowercase leb inner).notInner? with
      | some double => normalize fd unicodeLowercase leb double
      | none => .not (normalize fd unicodeLowercase leb inner) := by
  rw [normalize, normalizeBounded, normalize]
  split
  rename_i normalized hle hinner
  rw [hinner]
  split <;> rename_i h <;> simp only [h, normalize]

/-- A leaf is its own normal form. -/
theorem normalize_compare (cmp : ComparePredicate) :
    normalize fd unicodeLowercase leb (.compare cmp) = .compare cmp := by
  rw [normalize, normalizeBounded] <;> intro _ h <;> cases h

end Normalize

end IcyDb
