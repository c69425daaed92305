import IcyDb.Predicate.Normalize
import IcyDb.Predicate.CoercionLaws
import IcyDb.Logic.ListAll

/-!
# Normalization preserves evaluation

Every rewrite `normalize` makes keeps the value of the predicate on every
row.  The conjunction simplifier is the part that reads literals: each of its
rules is sound because the comparison of its coercion satisfies the laws of
`PartialCompare.Laws` (`CoercionLaws`).  A rule's answer is read as a promise
about the two comparisons it was given (`ComparePairSimplification.Sound`):
that they contradict, that one implies the other, or that the replacement is
their conjunction.  The simplifier's loop keeps the conjunction of its list
because every answer it acts on keeps that promise.

Flattening, ordering and deduplication keep the value of a conjunction or
disjunction of the children, since `Vec::dedup` drops only children `==` to
the one kept before them and `==` predicates evaluate alike.  A disjunction
of equalities of one field is equivalent to the `IN` comparison it becomes.
-/

namespace IcyDb

open PartialCompare Value

/-! ### What a pair simplification promises -/

/-- What the answer for a pair `p, q` promises about a test `ev`: nothing,
that the two contradict, that one implies the other, or that the
replacement is their conjunction. -/
def ComparePairSimplification.Sound {α : Type} (ev : α → Bool) (rep : ComparePredicate → α)
    (p q : α) : ComparePairSimplification → Prop
  | .noChange => True
  | .contradiction => ev p = true → ev q = true → False
  | .keepFirst => ev p = true → ev q = true
  | .keepSecond => ev q = true → ev p = true
  | .replaceFirst r | .replaceSecond r => ev (rep r) = (ev p && ev q)

namespace ComparePairSimplification

variable {α : Type} {ev : α → Bool} {rep : ComparePredicate → α} {p q : α}

/-- The answer for the pair read the other way round keeps the promise. -/
theorem Sound.swapSides {s : ComparePairSimplification} (h : s.Sound ev rep p q) :
    s.swapSides.Sound ev rep q p := by
  cases s with
  | noChange => trivial
  | contradiction => exact fun hq hp => h hp hq
  | keepFirst => exact h
  | keepSecond => exact h
  | replaceFirst r | replaceSecond r =>
    show ev (rep r) = (ev q && ev p)
    rw [h, Bool.and_comm]

/-- The promise carries over to another test that agrees with the first on
the pair and on what replaces it. -/
theorem Sound.of_eq {β : Type} {ev' : β → Bool} {rep' : ComparePredicate → β} {p' q' : β}
    {s : ComparePairSimplification} (h : s.Sound ev rep p q) (hp : ev' p' = ev p) (hq : ev' q' = ev q)
    (hr : ∀ r, (s = .replaceFirst r ∨ s = .replaceSecond r) → ev' (rep' r) = ev (rep r)) :
    s.Sound ev' rep' p' q' := by
  cases s with
  | noChange => trivial
  | contradiction => exact fun h₁ h₂ => h (hp ▸ h₁) (hq ▸ h₂)
  | keepFirst => exact fun h₁ => hq ▸ h (hp ▸ h₁)
  | keepSecond => exact fun h₁ => hp ▸ h (hq ▸ h₁)
  | replaceFirst r | replaceSecond r =>
    show ev' (rep' r) = (ev' p' && ev' q')
    rw [hr r (by simp), hp, hq]
    exact h

/-- Every answer keeps its promise about two tests that fail, where what
replaces them fails too. -/
theorem Sound.of_false {s : ComparePairSimplification} (hp : ev p = false) (hq : ev q = false)
    (hr : ∀ r, (s = .replaceFirst r ∨ s = .replaceSecond r) → ev (rep r) = false) :
    s.Sound ev rep p q := by
  cases s with
  | noChange => trivial
  | contradiction => exact fun h₁ _ => by rw [hp] at h₁; cases h₁
  | keepFirst => exact fun h₁ => by rw [hp] at h₁; cases h₁
  | keepSecond => exact fun h₁ => by rw [hq] at h₁; cases h₁
  | replaceFirst r | replaceSecond r =>
    show ev (rep r) = (ev p && ev q)
    rw [hr r (by simp), hp]
    rfl

/-- Every comparison the answer puts in place of the pair satisfies `P`. -/
def Replaces (P : ComparePredicate → Prop) : ComparePairSimplification → Prop
  | .replaceFirst r | .replaceSecond r => P r
  | _ => True

end ComparePairSimplification

/-! ### The rules on the value of the field -/

section Rules

variable (fd : FloatDecimal) (unicodeLowercase : List UInt8 → List UInt8)

/-- A comparison evaluated against the value its field holds. -/
def evalCompareAt (actual : Value) (cmp : ComparePredicate) : Bool :=
  evalCompareValues fd unicodeLowercase actual cmp.op cmp.value cmp.coercion

/-- Whether an ordering satisfies a bound whose strict side is `tighter`. -/
def boundTest (tighter : Ordering) (inclusive : Bool) (o : Ordering) : Bool :=
  o == tighter || (inclusive && o == .eq)

theorem evalCompareAt_of_eq {actual : Value} {cmp : ComparePredicate} (h : cmp.op = .eq) :
    evalCompareAt fd unicodeLowercase actual cmp =
      (compareEq fd unicodeLowercase actual cmp.value cmp.coercion == some true) := by
  rw [evalCompareAt, h]
  rfl

theorem evalCompareAt_of_lowerBound {actual : Value} {cmp : ComparePredicate} {inclusive : Bool}
    (h : cmp.op.lowerBoundInclusive = some inclusive) :
    evalCompareAt fd unicodeLowercase actual cmp =
      (compareOrder fd unicodeLowercase actual cmp.value cmp.coercion).any
        (boundTest .gt inclusive) := by
  unfold evalCompareAt
  obtain ⟨field, op, value, coercion⟩ := cmp
  cases op <;> cases h <;> unfold evalCompareValues <;>
    cases compareOrder fd unicodeLowercase actual value coercion
  all_goals first | rfl | (rename_i o; cases o <;> rfl)

theorem evalCompareAt_of_upperBound {actual : Value} {cmp : ComparePredicate} {inclusive : Bool}
    (h : cmp.op.upperBoundInclusive = some inclusive) :
    evalCompareAt fd unicodeLowercase actual cmp =
      (compareOrder fd unicodeLowercase actual cmp.value cmp.coercion).any
        (boundTest .lt inclusive) := by
  unfold evalCompareAt
  obtain ⟨field, op, value, coercion⟩ := cmp
  cases op <;> cases h <;> unfold evalCompareValues <;>
    cases compareOrder fd unicodeLowercase actual value coercion
  all_goals first | rfl | (rename_i o; cases o <;> rfl)

theorem boundTest_eq_true_iff {tighter : Ordering} (ht : tighter ≠ .eq) {inclusive : Bool}
    {o : Ordering} : boundTest tighter inclusive o = true ↔ o = tighter ∨ (inclusive = true ∧ o = .eq) := by
  unfold boundTest
  cases o <;> cases tighter <;> cases inclusive <;> simp_all

theorem boundTest_of_exclusive {tighter : Ordering} {o : Ordering} (inclusive : Bool)
    (h : boundTest tighter false o = true) : boundTest tighter inclusive o = true := by
  unfold boundTest at h ⊢
  simp only [Bool.false_and, Bool.or_false] at h
  rw [h, Bool.true_or]

end Rules

section RuleSoundness

variable {fd unicodeLowercase} (actual : Value)

/-- `field = a AND field = b`: if `b` equals `a` the second equality follows
from the first, and if it does not the two contradict. -/
theorem simplifyEqEqPair_sound {left right : ComparePredicate} (hl : left.op = .eq)
    (hr : right.op = .eq) (hc : left.coercion = right.coercion) :
    (simplifyEqEqPair fd unicodeLowercase left right).Sound
      (evalCompareAt fd unicodeLowercase actual) id left right := by
  unfold simplifyEqEqPair
  cases hab : compareEq fd unicodeLowercase left.value right.value left.coercion with
  | none => trivial
  | some matched =>
    have hA : evalCompareAt fd unicodeLowercase actual left = true →
        compareEq fd unicodeLowercase left.value right.value left.coercion =
          compareEq fd unicodeLowercase actual right.value right.coercion := by
      intro hA
      rw [evalCompareAt_of_eq fd unicodeLowercase hl, beq_iff_eq] at hA
      rw [← hc, compareEq_trans hA]
    cases matched with
    | true =>
      show evalCompareAt fd unicodeLowercase actual left = true →
        evalCompareAt fd unicodeLowercase actual right = true
      intro h
      rw [evalCompareAt_of_eq fd unicodeLowercase hr, beq_iff_eq, ← hA h, hab]
    | false =>
      show evalCompareAt fd unicodeLowercase actual left = true →
        evalCompareAt fd unicodeLowercase actual right = true → False
      intro h hB
      rw [evalCompareAt_of_eq fd unicodeLowercase hr, beq_iff_eq, ← hA h, hab] at hB
      cases hB

/-- Where the field equals `a`, a bound on the field holds exactly when it
holds of `a`. -/
theorem evalCompareAt_bound_of_compareEq {a : Value} {constraint : ComparePredicate}
    (hbound : constraint.op.lowerBoundInclusive.isSome ∨ constraint.op.upperBoundInclusive.isSome)
    (h : compareEq fd unicodeLowercase actual a constraint.coercion = some true) :
    evalCompareAt fd unicodeLowercase actual constraint =
      evalCompareAt fd unicodeLowercase a constraint := by
  obtain ⟨field, op, value, coercion⟩ := constraint
  unfold evalCompareAt evalCompareValues
  cases op <;> simp only [CompareOp.lowerBoundInclusive, CompareOp.upperBoundInclusive,
    Option.isSome_none, Bool.false_eq_true, or_self] at hbound <;>
    rw [compareOrder_congr_left_of_compareEq h]

/-- What `simplify_eq_with_constraint_pair` answers: nothing, a contradiction
where the equality makes the bound fail, or to keep the equality where it
makes the bound hold. -/
theorem simplifyEqWithConstraintPair_cases {eq constraint : ComparePredicate} (heq : eq.op = .eq)
    (hc : eq.coercion = constraint.coercion) (eqIsFirst : Bool) :
    simplifyEqWithConstraintPair fd unicodeLowercase eq constraint eqIsFirst = .noChange ∨
      (simplifyEqWithConstraintPair fd unicodeLowercase eq constraint eqIsFirst = .contradiction ∧
        (evalCompareAt fd unicodeLowercase actual eq = true →
          evalCompareAt fd unicodeLowercase actual constraint = false)) ∨
      (simplifyEqWithConstraintPair fd unicodeLowercase eq constraint eqIsFirst =
          (if eqIsFirst then .keepFirst else .keepSecond) ∧
        (evalCompareAt fd unicodeLowercase actual eq = true →
          evalCompareAt fd unicodeLowercase actual constraint = true)) := by
  -- where the equality holds, the bound holds as it holds of the equality's literal
  have hkey : (constraint.op.lowerBoundInclusive.isSome ∨ constraint.op.upperBoundInclusive.isSome) →
      evalCompareAt fd unicodeLowercase actual eq = true →
        evalCompareAt fd unicodeLowercase actual constraint =
          evalCompareAt fd unicodeLowercase eq.value constraint := by
    intro hbound h
    rw [evalCompareAt_of_eq fd unicodeLowercase heq, beq_iff_eq, hc] at h
    exact evalCompareAt_bound_of_compareEq actual hbound h
  unfold simplifyEqWithConstraintPair
  cases hab : compareOrder fd unicodeLowercase eq.value constraint.value eq.coercion with
  | none => exact .inl rfl
  | some o =>
    obtain ⟨field, op, value, coercion⟩ := constraint
    simp only at hc hkey hab ⊢
    subst hc
    cases op <;> simp only [CompareOp.lowerBoundInclusive, CompareOp.upperBoundInclusive,
      Option.isSome_some, Option.isSome_none, true_or, or_true, forall_const] at hkey <;> cases o
    -- the operators that are not bounds leave the pair alone; for a bound the
    -- code's test of the ordering is the bound's evaluation
    all_goals first
      | exact .inl rfl
      | exact .inr (.inl ⟨rfl, fun h => by rw [hkey h]; simp only [evalCompareAt, evalCompareValues, hab]; rfl⟩)
      | exact .inr (.inr ⟨rfl, fun h => by rw [hkey h]; simp only [evalCompareAt, evalCompareValues, hab]; rfl⟩)

/-- A bound met by the field, on a literal that lies beyond another bound's
literal on the bound's strict side, makes the other bound met. -/
theorem any_boundTest_of_beyond {tighter : Ordering} (ht : tighter ≠ .eq) {a b : Value}
    {coercion : CoercionId} {inclusive : Bool}
    (hva : (compareOrder fd unicodeLowercase actual a coercion).any (boundTest tighter inclusive) = true)
    (hab : compareOrder fd unicodeLowercase a b coercion = some tighter) (inclusive' : Bool) :
    (compareOrder fd unicodeLowercase actual b coercion).any (boundTest tighter inclusive') = true := by
  obtain ⟨o, hvo, ho⟩ := (Option.any_eq_true _ _).mp hva
  rcases (boundTest_eq_true_iff ht).mp ho with rfl | ⟨-, rfl⟩
  · rw [compareOrder_trans hvo hab (.inl rfl)]
    cases o <;> simp_all [boundTest]
  · rw [compareOrder_trans hvo hab (.inr (.inl rfl))]
    simp [boundTest]

/-- `simplify_two_lower_bounds` and `simplify_two_upper_bounds`: of two bounds
on the same side the tighter one implies the other. -/
theorem simplifyTwoBounds_sound {boundInclusive : CompareOp → Option Bool} {tighter : Ordering}
    (ht : tighter ≠ .eq)
    (hsem : ∀ (cmp : ComparePredicate) (inclusive : Bool), boundInclusive cmp.op = some inclusive →
      evalCompareAt fd unicodeLowercase actual cmp =
        (compareOrder fd unicodeLowercase actual cmp.value cmp.coercion).any
          (boundTest tighter inclusive))
    {left right : ComparePredicate} (hc : left.coercion = right.coercion) :
    (simplifyTwoBounds fd unicodeLowercase boundInclusive tighter left right).Sound
      (evalCompareAt fd unicodeLowercase actual) id left right := by
  unfold simplifyTwoBounds
  cases hab : compareOrder fd unicodeLowercase left.value right.value left.coercion with
  | none => trivial
  | some o =>
    cases hl : boundInclusive left.op with
    | none => trivial
    | some inclL =>
      cases hr : boundInclusive right.op with
      | none => trivial
      | some inclR =>
        have hevL := hsem left inclL hl
        have hevR := hsem right inclR hr
        rw [← hc] at hevR
        dsimp only
        split_ifs with h₁ h₂ h₃ h₄
        · -- the first literal lies beyond the second: the first bound implies it
          subst h₁
          show evalCompareAt fd unicodeLowercase actual left = true → _
          rw [hevL, hevR]
          exact fun h => any_boundTest_of_beyond actual ht h hab inclR
        · -- the second literal lies beyond the first
          subst h₂
          have hba := compareOrder_swap_eq_some hab
          rw [Ordering.swap_swap] at hba
          show evalCompareAt fd unicodeLowercase actual right = true → _
          rw [hevL, hevR]
          exact fun h => any_boundTest_of_beyond actual ht h hba inclL
        all_goals
          -- equal literals: the two bounds read the same ordering of the field
          have ho : o = .eq := by cases o <;> cases tighter <;> simp_all
          subst ho
          have hsame := compareOrder_congr_right_of_eq hab actual
          simp only [ComparePairSimplification.Sound]
          rw [hevL, hevR, ← hsame]
        · -- the first is exclusive, the second inclusive
          simp only [Bool.and_eq_true, Bool.not_eq_eq_eq_not, Bool.not_true] at h₃
          rw [h₃.1]
          intro h
          obtain ⟨o, hvo, ho⟩ := (Option.any_eq_true _ _).mp h
          exact (Option.any_eq_true _ _).mpr ⟨o, hvo, boundTest_of_exclusive inclR ho⟩
        · simp only [Bool.and_eq_true, Bool.not_eq_eq_eq_not, Bool.not_true] at h₄
          rw [h₄.2]
          intro h
          obtain ⟨o, hvo, ho⟩ := (Option.any_eq_true _ _).mp h
          exact (Option.any_eq_true _ _).mpr ⟨o, hvo, boundTest_of_exclusive inclL ho⟩
        · -- both inclusive or both exclusive: the two bounds are the same
          have hincl : inclL = inclR := by
            cases inclL <;> cases inclR <;> simp_all
          rw [hincl]
          exact id

/-- `simplify_lower_upper_pair`: a lower bound above the upper bound leaves
nothing between them; equal inclusive bounds meet exactly at an equality,
and equal bounds of which one is exclusive meet nowhere. -/
theorem simplifyLowerUpperPair_sound {lower upper : ComparePredicate}
    (hc : lower.coercion = upper.coercion) :
    (simplifyLowerUpperPair fd unicodeLowercase lower upper).Sound
      (evalCompareAt fd unicodeLowercase actual) id lower upper := by
  unfold simplifyLowerUpperPair
  cases hab : compareOrder fd unicodeLowercase lower.value upper.value lower.coercion with
  | none => trivial
  | some o =>
    cases hl : lower.op.lowerBoundInclusive with
    | none => trivial
    | some inclL =>
      cases hu : upper.op.upperBoundInclusive with
      | none => trivial
      | some inclU =>
        have hevL := @evalCompareAt_of_lowerBound fd unicodeLowercase actual _ _ hl
        have hevU := @evalCompareAt_of_upperBound fd unicodeLowercase actual _ _ hu
        rw [← hc] at hevU
        dsimp only
        cases o with
        | lt => trivial
        | gt =>
          -- the field would lie at or above the lower literal and at or below
          -- the upper one, so the lower literal would not lie above the upper
          show evalCompareAt fd unicodeLowercase actual lower = true → _ → False
          rw [hevL, hevU]
          intro hL hU
          obtain ⟨o₁, h₁, ho₁⟩ := (Option.any_eq_true _ _).mp hL
          obtain ⟨o₂, h₂, ho₂⟩ := (Option.any_eq_true _ _).mp hU
          rcases (boundTest_eq_true_iff (by decide)).mp ho₁ with rfl | ⟨-, rfl⟩ <;>
            rcases (boundTest_eq_true_iff (by decide)).mp ho₂ with rfl | ⟨-, rfl⟩ <;>
            · have hlu := compareOrder_trans (compareOrder_swap_eq_some h₁) h₂ (by decide)
              rw [hab] at hlu
              cases hlu
        | eq =>
          -- equal literals: both bounds read the ordering of the field against one literal
          have hsame := compareOrder_congr_right_of_eq hab actual
          dsimp only
          by_cases hboth : (inclL && inclU) = true
          · rw [if_pos hboth]
            simp only [Bool.and_eq_true] at hboth
            obtain ⟨rfl, rfl⟩ := hboth
            show evalCompareAt fd unicodeLowercase actual ⟨lower.field, .eq, lower.value, lower.coercion⟩ = _
            rw [evalCompareAt_of_eq fd unicodeLowercase rfl, hevL, hevU, ← hsame]
            -- the literal is ordered equal to itself, so the field equals it exactly
            -- when it is ordered equal to it
            have hself := (compareOrder_congr_right_of_eq hab lower.value).trans hab
            cases hva : compareOrder fd unicodeLowercase actual lower.value lower.coercion with
            | none =>
              have hne : compareEq fd unicodeLowercase actual lower.value lower.coercion ≠ some true :=
                fun h => by rw [compareOrder_congr_left_of_compareEq h, hself] at hva; cases hva
              simp [hne]
            | some o =>
              cases o
              case eq => simp [compareEq_of_compareOrder_eq hva, boundTest]
              all_goals
                have hne : compareEq fd unicodeLowercase actual lower.value lower.coercion ≠
                    some true :=
                  fun h => by rw [compareOrder_congr_left_of_compareEq h, hself] at hva; cases hva
                simp [hne, boundTest]
          · rw [if_neg hboth]
            show evalCompareAt fd unicodeLowercase actual lower = true → _ → False
            rw [hevL, hevU, ← hsame]
            intro hL hU
            obtain ⟨o₁, h₁, ho₁⟩ := (Option.any_eq_true _ _).mp hL
            obtain ⟨o₂, h₂, ho₂⟩ := (Option.any_eq_true _ _).mp hU
            rw [h₁, Option.some_inj] at h₂
            subst h₂
            rcases (boundTest_eq_true_iff (by decide)).mp ho₁ with h | ⟨hiL, rfl⟩
            · subst h
              simp [boundTest] at ho₂
            · rcases (boundTest_eq_true_iff (by decide)).mp ho₂ with h | ⟨hiU, -⟩
              · cases h
              · rw [hiL, hiU] at hboth
                exact hboth rfl

theorem simplifyConstraintConstraintPair_sound {left right : ComparePredicate}
    (hc : left.coercion = right.coercion) :
    (simplifyConstraintConstraintPair fd unicodeLowercase left right).Sound
      (evalCompareAt fd unicodeLowercase actual) id left right := by
  unfold simplifyConstraintConstraintPair
  split_ifs
  · exact simplifyTwoBounds_sound actual (by decide)
      (fun _ _ h => evalCompareAt_of_lowerBound fd unicodeLowercase h) hc
  · exact simplifyTwoBounds_sound actual (by decide)
      (fun _ _ h => evalCompareAt_of_upperBound fd unicodeLowercase h) hc
  · exact simplifyLowerUpperPair_sound actual hc
  · exact (simplifyLowerUpperPair_sound actual hc.symm).swapSides
  · trivial

/-- Every answer of `simplify_compare_pair_for_and` for two comparisons under
one coercion keeps its promise on every value of the field. -/
theorem simplifyComparePairForAnd_sound {left right : ComparePredicate}
    (hc : left.coercion = right.coercion) :
    (simplifyComparePairForAnd fd unicodeLowercase left right).Sound
      (evalCompareAt fd unicodeLowercase actual) id left right := by
  unfold simplifyComparePairForAnd
  split
  · rename_i hl hr
    exact simplifyEqEqPair_sound actual hl hr hc
  · -- an equality first: it is kept where it makes the bound hold
    rename_i hl _
    rcases simplifyEqWithConstraintPair_cases actual hl hc true with h | ⟨h, himp⟩ | ⟨h, himp⟩ <;>
      rw [h]
    · trivial
    · exact fun hA hB => by rw [himp hA] at hB; cases hB
    · exact himp
  · -- an equality second
    rename_i hr _
    rcases simplifyEqWithConstraintPair_cases actual hr hc.symm false with h | ⟨h, himp⟩ | ⟨h, himp⟩ <;>
      rw [h]
    · trivial
    · exact fun hA hB => by rw [himp hB] at hA; cases hA
    · exact himp
  · exact simplifyConstraintConstraintPair_sound actual hc

/-- The only comparison the simplifier makes up is an equality on the field of
the pair. -/
theorem simplifyComparePairForAnd_replaces {left right : ComparePredicate}
    (hf : left.field = right.field) :
    (simplifyComparePairForAnd fd unicodeLowercase left right).Replaces
      (fun r => r.field = left.field) := by
  unfold simplifyComparePairForAnd simplifyEqEqPair simplifyEqWithConstraintPair
    simplifyConstraintConstraintPair simplifyTwoLowerBounds simplifyTwoUpperBounds simplifyTwoBounds
    simplifyLowerUpperPair
  -- the rules' tests of the orderings are local definitions to unfold before splitting
  repeat' (first | split | (dsimp only; split))
  all_goals first | trivial | exact hf.symm

end RuleSoundness

/-! ### The rules on rows -/

section Pairs

variable {fd unicodeLowercase} (row : Row)

theorem eval_compare_of_field {cmp : ComparePredicate} {actual : Value}
    (h : row cmp.field = some actual) :
    eval fd unicodeLowercase row (.compare cmp) = evalCompareAt fd unicodeLowercase actual cmp := by
  rw [eval_compare, evalCompare, h]
  rfl

theorem eval_compare_of_field_none {cmp : ComparePredicate} (h : row cmp.field = none) :
    eval fd unicodeLowercase row (.compare cmp) = false := by
  rw [eval_compare, evalCompare, h]

/-- Every answer the scan reads for a pair of predicates keeps its promise on
every row. -/
theorem pairSimplification_sound (p q : Predicate) :
    (pairSimplification fd unicodeLowercase p q).Sound (eval fd unicodeLowercase row) .compare p q := by
  unfold pairSimplification
  split
  · rename_i left right
    split_ifs with h
    · obtain ⟨hf, hc⟩ := h
      have hrep := @simplifyComparePairForAnd_replaces fd unicodeLowercase _ _ hf
      have hsound := fun actual =>
        @simplifyComparePairForAnd_sound fd unicodeLowercase actual _ _ hc
      generalize simplifyComparePairForAnd fd unicodeLowercase left right = s at hrep hsound ⊢
      -- what replaces the pair is a comparison of the pair's field
      have hfield : ∀ r, (s = .replaceFirst r ∨ s = .replaceSecond r) → r.field = left.field := by
        rintro r (rfl | rfl) <;> exact hrep
      cases hrow : row left.field with
      | none =>
        -- a missing field fails every comparison of it
        exact ComparePairSimplification.Sound.of_false (eval_compare_of_field_none row hrow)
          (eval_compare_of_field_none row (hf ▸ hrow))
          fun r hr => eval_compare_of_field_none row ((hfield r hr).symm ▸ hrow)
      | some actual =>
        exact (hsound actual).of_eq (eval_compare_of_field row hrow)
          (eval_compare_of_field row (hf ▸ hrow))
          fun r hr => eval_compare_of_field row ((hfield r hr).symm ▸ hrow)
    · trivial
  · trivial

/-! ### The simplifier's loop -/

theorem scanPartner_spec {left : Predicate} {rest : List Predicate} {j₀ j : Nat}
    {s : ComparePairSimplification} (h : scanPartner fd unicodeLowercase left rest j₀ = some (j, s)) :
    ∃ hj : j - j₀ < rest.length, s = pairSimplification fd unicodeLowercase left rest[j - j₀] := by
  induction rest generalizing j₀ with
  | nil => cases h
  | cons right rest ih =>
    rw [scanPartner] at h
    split at h
    · obtain ⟨hj, hs⟩ := ih h
      have hb := scanPartner_bounds fd unicodeLowercase h
      have hshift : j - j₀ = (j - (j₀ + 1)) + 1 := by omega
      refine ⟨by simp only [List.length_cons]; omega, ?_⟩
      simp only [hshift, List.getElem_cons_succ]
      exact hs
    · -- the partner found is the first predicate after `left`
      simp only [Option.some.injEq, Prod.mk.injEq] at h
      obtain ⟨rfl, rfl⟩ := h
      exact ⟨by simp, by simp⟩

/-- The pair the scan reports is the pair at those positions, with the answer
the scan read for it. -/
theorem scanPairs_spec {predicates : List Predicate} {i₀ i j : Nat} {s : ComparePairSimplification}
    (h : scanPairs fd unicodeLowercase predicates i₀ = some (i, j, s)) :
    ∃ (hi : i - i₀ < predicates.length) (hj : j - i₀ < predicates.length),
      s = pairSimplification fd unicodeLowercase predicates[i - i₀] predicates[j - i₀] := by
  induction predicates generalizing i₀ with
  | nil => cases h
  | cons left rest ih =>
    rw [scanPairs] at h
    split at h
    · -- `left` has a partner: the pair starts at `left`
      rename_i j' s' hpartner
      simp only [Option.some.injEq, Prod.mk.injEq] at h
      obtain ⟨rfl, rfl, rfl⟩ := h
      obtain ⟨hj, hs⟩ := scanPartner_spec hpartner
      have hb := scanPartner_bounds fd unicodeLowercase hpartner
      have hshift : j' - i₀ = (j' - (i₀ + 1)) + 1 := by omega
      refine ⟨by simp, by simp only [List.length_cons]; omega, ?_⟩
      simp only [Nat.sub_self, List.getElem_cons_zero, hshift, List.getElem_cons_succ]
      exact hs
    · -- the pair lies in the rest
      obtain ⟨hi, hj, hs⟩ := ih h
      have hb := scanPairs_bounds fd unicodeLowercase h
      have hshifti : i - i₀ = (i - (i₀ + 1)) + 1 := by omega
      have hshiftj : j - i₀ = (j - (i₀ + 1)) + 1 := by omega
      refine ⟨by simp only [List.length_cons]; omega, by simp only [List.length_cons]; omega, ?_⟩
      simp only [hshifti, hshiftj, List.getElem_cons_succ]
      exact hs

theorem eval_or (children : List Predicate) :
    eval fd unicodeLowercase row (.or children) = evalAny fd unicodeLowercase row children := rfl

theorem eval_not (inner : Predicate) :
    eval fd unicodeLowercase row (.not inner) = !eval fd unicodeLowercase row inner := rfl

theorem evalAll_eq_all (ps : List Predicate) :
    evalAll fd unicodeLowercase row ps = ps.all (eval fd unicodeLowercase row) := by
  induction ps with
  | nil => rfl
  | cons p ps ih =>
    rw [evalAll_cons, ih]
    rfl

theorem evalAny_eq_any (ps : List Predicate) :
    evalAny fd unicodeLowercase row ps = ps.any (eval fd unicodeLowercase row) := by
  induction ps with
  | nil => rfl
  | cons p ps ih =>
    rw [evalAny, ih]
    rfl

/-- The pair a scan from the start reports: two positions of the list, the
first before the second, whose answer keeps its promise on the row. -/
theorem scanPairs_sound {predicates : List Predicate} {i j : Nat} {s : ComparePairSimplification}
    (h : scanPairs fd unicodeLowercase predicates 0 = some (i, j, s)) :
    ∃ (hi : i < predicates.length) (hj : j < predicates.length), i < j ∧
      s.Sound (eval fd unicodeLowercase row) .compare predicates[i] predicates[j] := by
  obtain ⟨hi, hj, hs⟩ := scanPairs_spec h
  have hb := scanPairs_bounds fd unicodeLowercase h
  simp only [Nat.sub_zero] at hi hj hs
  exact ⟨hi, hj, hb.2.1, hs ▸ pairSimplification_sound row _ _⟩

/-- The simplified conjunction evaluates as the original one, and a
contradiction is reported only for a conjunction that fails. -/
theorem evalAll_simplifyAndCompareConstraints (predicates : List Predicate) :
    ((simplifyAndCompareConstraints fd unicodeLowercase predicates).map
        (evalAll fd unicodeLowercase row)).getD false =
      evalAll fd unicodeLowercase row predicates := by
  fun_induction simplifyAndCompareConstraints fd unicodeLowercase predicates with
  | case1 => rfl
  | case2 => rfl
  | case3 predicates i j hscan =>
    obtain ⟨hi, hj, -, hsound⟩ := scanPairs_sound row hscan
    rw [evalAll_eq_all]
    exact (ListAll.all_eq_false_of_contra _ hi hj hsound).symm
  | case4 predicates i j hscan _ ih =>
    -- the second of the pair is implied by the first and goes
    obtain ⟨hi, hj, hij, hsound⟩ := scanPairs_sound row hscan
    rw [ih, evalAll_eq_all, evalAll_eq_all]
    exact ListAll.all_eraseIdx_of_imp _ hi (Nat.ne_of_lt hij) fun h _ => hsound h
  | case5 predicates i j hscan _ ih =>
    obtain ⟨hi, hj, hij, hsound⟩ := scanPairs_sound row hscan
    rw [ih, evalAll_eq_all, evalAll_eq_all]
    exact ListAll.all_eraseIdx_of_imp _ hj (Nat.ne_of_gt hij) fun h _ => hsound h
  | case6 predicates i j replacement hscan _ ih =>
    -- the replacement is the conjunction of the pair
    obtain ⟨hi, hj, hij, hsound⟩ := scanPairs_sound row hscan
    rw [ih, evalAll_eq_all, evalAll_eq_all]
    exact ListAll.all_set_eraseIdx _ hi hj (Nat.ne_of_lt hij) _ hsound
  | case7 predicates i j replacement hscan _ ih =>
    obtain ⟨hi, hj, hij, hsound⟩ := scanPairs_sound row hscan
    rw [ih, evalAll_eq_all, evalAll_eq_all]
    exact ListAll.all_set_eraseIdx _ hj hi (Nat.ne_of_gt hij) _ (hsound.trans (Bool.and_comm _ _))

/-! ### `==` predicates evaluate alike -/

theorem evalCompare_congr_of_beq {a b : ComparePredicate}
    (h : (a.field == b.field && a.op == b.op && a.value.beq b.value && a.coercion == b.coercion) = true) :
    evalCompare fd unicodeLowercase row a = evalCompare fd unicodeLowercase row b := by
  simp only [Bool.and_eq_true, beq_iff_eq] at h
  obtain ⟨⟨⟨hf, hop⟩, hv⟩, hc⟩ := h
  unfold evalCompare
  rw [hf, hop, hc]
  cases row b.field with
  | none => rfl
  | some actual => exact evalCompareValues_congr_right fd unicodeLowercase actual b.op hv b.coercion

mutual

/-- Two predicates equal under the derived `==` evaluate alike on every row:
their literals are `==`, and every comparison reads a literal up to `==`. -/
theorem eval_congr_of_beq : (p q : Predicate) → Predicate.beq p q = true →
    eval fd unicodeLowercase row p = eval fd unicodeLowercase row q
  | .true, q, h | .false, q, h => by
    cases q <;> simp [Predicate.beq] at h
    rfl
  | .and cs, q, h => by
    cases q
    case and ds =>
      simp only [Predicate.beq] at h
      rw [eval_and, eval_and]
      exact (evalAll_congr_of_beqChildren cs ds h).1
    all_goals simp [Predicate.beq] at h
  | .or cs, q, h => by
    cases q
    case or ds =>
      simp only [Predicate.beq] at h
      simp only [eval]
      exact (evalAll_congr_of_beqChildren cs ds h).2
    all_goals simp [Predicate.beq] at h
  | .not p, q, h => by
    cases q
    case not q =>
      simp only [Predicate.beq] at h
      simp only [eval, eval_congr_of_beq p q h]
    all_goals simp [Predicate.beq] at h
  | .compare a, q, h => by
    cases q
    case compare b =>
      simp only [Predicate.beq] at h
      rw [eval_compare, eval_compare]
      exact evalCompare_congr_of_beq row h
    all_goals simp [Predicate.beq] at h
  | .compareFields a, q, h => by
    cases q
    case compareFields b =>
      simp only [Predicate.beq, Bool.and_eq_true, beq_iff_eq] at h
      obtain ⟨⟨⟨hl, hop⟩, hr⟩, hc⟩ := h
      obtain ⟨_, _, _, _⟩ := a
      obtain ⟨_, _, _, _⟩ := b
      simp only at hl hop hr hc
      subst hl hop hr hc
      rfl
    all_goals simp [Predicate.beq] at h
  | .isNull f, q, h | .isNotNull f, q, h | .isMissing f, q, h | .isEmpty f, q, h
  | .isNotEmpty f, q, h => by
    cases q <;> simp [Predicate.beq] at h
    rw [h]
  | .textContains f v, q, h | .textContainsCi f v, q, h => by
    cases q <;> simp only [Predicate.beq, Bool.and_eq_true, beq_iff_eq, Bool.false_eq_true] at h
    all_goals
      obtain ⟨rfl, hv⟩ := h
      simp only [eval]
      cases row f with
      | none => rfl
      | some actual => simp only [textContains, textOp_congr_right unicodeLowercase actual hv]

/-- Children lists equal under `==` make equal conjunctions and disjunctions. -/
theorem evalAll_congr_of_beqChildren : (cs ds : List Predicate) → Predicate.beqChildren cs ds = true →
    evalAll fd unicodeLowercase row cs = evalAll fd unicodeLowercase row ds ∧
      evalAny fd unicodeLowercase row cs = evalAny fd unicodeLowercase row ds
  | [], [], _ => ⟨rfl, rfl⟩
  | [], _ :: _, h | _ :: _, [], h => by simp [Predicate.beqChildren] at h
  | c :: cs, d :: ds, h => by
    simp only [Predicate.beqChildren, Bool.and_eq_true] at h
    have hhead := eval_congr_of_beq c d h.1
    have htail := evalAll_congr_of_beqChildren cs ds h.2
    rw [evalAll_cons, evalAll_cons, evalAny, evalAny, hhead, htail.1, htail.2]
    exact ⟨rfl, rfl⟩

end

end Pairs

/-! ### Ordering, deduplication and flattening -/

section Children

variable {fd unicodeLowercase} (leb : Leb128) (row : Row)

theorem eval_congr_of_beq_ne_false {p q : Predicate} (h : ¬ Predicate.beq p q = false) :
    eval fd unicodeLowercase row p = eval fd unicodeLowercase row q :=
  eval_congr_of_beq row p q (by simpa using h)

/-- Ordering and deduplicating the children keeps their conjunction: the
sort is a permutation, and `Vec::dedup` drops a child only after one `==`
to it. -/
theorem evalAll_canonicalizePredicateChildrenForEval (out : List Predicate) :
    evalAll fd unicodeLowercase row (canonicalizePredicateChildrenForEval fd unicodeLowercase leb out) =
      evalAll fd unicodeLowercase row out := by
  rw [evalAll_eq_all, evalAll_eq_all, canonicalizePredicateChildrenForEval,
    ListAll.all_destutter _ (fun _ _ h => eval_congr_of_beq_ne_false row h), (Comparator.sortBy_perm out).all_eq]

theorem evalAny_canonicalizePredicateChildrenForEval (out : List Predicate) :
    evalAny fd unicodeLowercase row (canonicalizePredicateChildrenForEval fd unicodeLowercase leb out) =
      evalAny fd unicodeLowercase row out := by
  rw [evalAny_eq_any, evalAny_eq_any, canonicalizePredicateChildrenForEval,
    ListAll.any_destutter _ (fun _ _ h => eval_congr_of_beq_ne_false row h), (Comparator.sortBy_perm out).any_eq]

theorem flattenChildren_cons (conj : Bool) (c : Predicate) (cs : List Predicate) :
    flattenChildren conj (c :: cs) =
      (flattenChild conj c).bind fun gs => (flattenChildren conj cs).map (gs ++ ·) := by
  simp only [flattenChildren, List.mapM_cons, Option.bind_eq_bind, Option.pure_def]
  cases flattenChild conj c with
  | none => rfl
  | some gs => cases List.mapM (flattenChild conj) cs <;> rfl

/-- What a child of a conjunction flattens to has the child's value; only
the constant `false` ends the loop. -/
theorem evalAll_flattenChild_true (c : Predicate) :
    ((flattenChild true c).map (evalAll fd unicodeLowercase row)).getD false =
      eval fd unicodeLowercase row c := by
  cases c <;> simp [flattenChild, evalAll_cons, evalAll_nil] <;> rfl

theorem evalAny_flattenChild_false (c : Predicate) :
    ((flattenChild false c).map (evalAny fd unicodeLowercase row)).getD true =
      eval fd unicodeLowercase row c := by
  cases c <;> simp [flattenChild, evalAny] <;> rfl

/-- Flattening the children of a conjunction keeps the conjunction. -/
theorem evalAll_flattenChildren_true (cs : List Predicate) :
    ((flattenChildren true cs).map (evalAll fd unicodeLowercase row)).getD false =
      evalAll fd unicodeLowercase row cs := by
  induction cs with
  | nil => rfl
  | cons c cs ih =>
    rw [flattenChildren_cons, evalAll_cons, ← evalAll_flattenChild_true row c, ← ih]
    cases flattenChild true c with
    | none => rfl
    | some gs =>
      cases flattenChildren true cs with
      | none => simp
      | some out => simp [evalAll_eq_all, List.all_append]

theorem evalAny_flattenChildren_false (cs : List Predicate) :
    ((flattenChildren false cs).map (evalAny fd unicodeLowercase row)).getD true =
      evalAny fd unicodeLowercase row cs := by
  induction cs with
  | nil => rfl
  | cons c cs ih =>
    rw [flattenChildren_cons, evalAny, ← evalAny_flattenChild_false row c, ← ih]
    cases flattenChild false c with
    | none => rfl
    | some gs =>
      cases flattenChildren false cs with
      | none => simp
      | some out => simp [evalAny_eq_any, List.any_append]

end Children

/-! ### A disjunction of equalities is an `IN` -/

section Collapse

variable {fd unicodeLowercase}

/-- `IN` reads only whether the loop found an item equal to the value. -/
theorem inListLoop_beq_some_true (actual : Value) (coercion : CoercionId) (items : List Value)
    (sawValid : Bool) :
    (inListLoop fd unicodeLowercase actual coercion items sawValid == some true) =
      items.any fun item => compareEq fd unicodeLowercase actual item coercion == some true := by
  induction items generalizing sawValid with
  | nil => cases sawValid <;> rfl
  | cons item items ih =>
    rw [inListLoop, List.any_cons]
    split <;> rename_i h <;> simp [h, ih]

/-- Canonicalizing a value set keeps every test that reads values up to
`==`. -/
theorem any_canonicalizeValueSet {f : Value → Bool} (hf : ∀ a b, beq a b = true → f a = f b)
    (values : List Value) : (canonicalizeValueSet values).any f = values.any f := by
  unfold canonicalizeValueSet
  split
  · rfl
  · rw [ListAll.any_destutter _ (fun a b h => hf a b (by simpa using h)),
      (Comparator.sortBy_perm values).any_eq]

/-- The disjunct a leaf was read from. -/
theorem eq_of_orEqMembershipLeaf {c : Predicate} {leaf : MembershipCompareLeaf}
    (h : orEqMembershipLeaf c = some leaf) :
    c = .compare ⟨leaf.field, .eq, leaf.value, leaf.coercion⟩ := by
  unfold orEqMembershipLeaf at h
  split at h
  · rename_i cmp
    split_ifs at h with hleaf
    cases h
    rw [← hleaf.1]
  · cases h

/-- The leaves collapse only when they share the first leaf's field and
coercion, into a comparison of that field with the canonical value set. -/
theorem collapseMembershipCompareLeaves_eq_some {leaves : List MembershipCompareLeaf}
    {targetOp : CompareOp} {cmp : ComparePredicate}
    (h : collapseMembershipCompareLeaves leaves targetOp = some cmp) :
    ∃ first : MembershipCompareLeaf,
      (∀ leaf ∈ leaves, leaf.field = first.field ∧ leaf.coercion = first.coercion) ∧
      cmp = ⟨first.field, targetOp, canonicalMembershipValueList (leaves.map (·.value)),
        first.coercion⟩ := by
  unfold collapseMembershipCompareLeaves at h
  split at h
  · cases h
  · rename_i first rest
    split_ifs at h with hall
    unfold collapseMembershipValues at h
    split_ifs at h
    cases h
    refine ⟨first, fun leaf hleaf => ?_, rfl⟩
    rcases List.mem_cons.mp hleaf with rfl | hrest
    · exact ⟨rfl, rfl⟩
    · simpa using List.all_eq_true.mp hall leaf hrest

variable (row : Row)

/-- A disjunction of equalities of one field under one coercion evaluates
as the `IN` comparison it collapses to. -/
theorem eval_of_collapseSameFieldOrEqToIn {children : List Predicate} {collapsed : Predicate}
    (h : collapseSameFieldOrEqToIn children = some collapsed) :
    eval fd unicodeLowercase row collapsed = evalAny fd unicodeLowercase row children := by
  unfold collapseSameFieldOrEqToIn at h
  split at h
  · cases h
  obtain ⟨leaves, hleaves, hcollapse⟩ := Option.bind_eq_some_iff.mp h
  obtain ⟨cmp, hcmp, rfl⟩ := Option.map_eq_some_iff.mp hcollapse
  obtain ⟨first, hsame, rfl⟩ := collapseMembershipCompareLeaves_eq_some hcmp
  -- every disjunct is an equality of the first leaf's field under its coercion
  have hchildren : children = (leaves.map (·.value)).map
      fun v => .compare ⟨first.field, .eq, v, first.coercion⟩ := by
    rw [ListAll.eq_map_of_mapM_eq_some (fun _ _ => eq_of_orEqMembershipLeaf) hleaves, List.map_map]
    refine List.map_congr_left fun leaf hleaf => ?_
    simp only [Function.comp_apply, (hsame leaf hleaf).1, (hsame leaf hleaf).2]
  rw [hchildren, evalAny_eq_any, List.any_map]
  cases hrow : row first.field with
  | none =>
    -- a missing field fails the `IN` and every equality
    rw [eval_compare_of_field_none row hrow]
    symm
    rw [List.any_eq_false]
    intro v _
    rw [Function.comp_apply, eval_compare_of_field_none row hrow]
    exact Bool.false_ne_true
  | some actual =>
    rw [eval_compare_of_field row hrow]
    refine ((inListLoop_beq_some_true actual first.coercion _ false).trans
      (any_canonicalizeValueSet (fun a b hab => ?_) _)).trans (List.any_congr rfl fun v => ?_)
    · rw [compareEq_congr_right fd unicodeLowercase first.coercion actual hab]
    · rw [Function.comp_apply, eval_compare_of_field row hrow]
      rfl

end Collapse

/-! ### The node builders -/

section FromNormalized

variable {fd unicodeLowercase} (leb : Leb128) (row : Row)

/-- The conjunction built from normalized children evaluates as their
conjunction. -/
theorem eval_normalizeAndFromNormalized (children : List Predicate) :
    eval fd unicodeLowercase row (normalizeAndFromNormalized fd unicodeLowercase leb children) =
      evalAll fd unicodeLowercase row children := by
  have hflat := @evalAll_flattenChildren_true fd unicodeLowercase row children
  unfold normalizeAndFromNormalized
  split
  · -- a `false` child
    rename_i hnone
    rw [hnone] at hflat
    exact hflat
  · rename_i hnil
    rw [hnil] at hflat
    exact hflat
  · rename_i out _ hout
    rw [hout, Option.map_some, Option.getD_some] at hflat
    have hsimp := @evalAll_simplifyAndCompareConstraints fd unicodeLowercase row out
    rw [← hflat, ← hsimp]
    split
    · -- two children contradict
      rename_i hcontra
      rw [hcontra]
      rfl
    · rename_i simplified hs
      rw [hs, Option.map_some, Option.getD_some,
        ← evalAll_canonicalizePredicateChildrenForEval leb row simplified]
      generalize canonicalizePredicateChildrenForEval fd unicodeLowercase leb simplified = canonical
      split
      · rw [evalAll_cons, evalAll_nil, Bool.and_true]
      · rfl

/-- The disjunction built from normalized children evaluates as their
disjunction. -/
theorem eval_normalizeOrFromNormalized (children : List Predicate) :
    eval fd unicodeLowercase row (normalizeOrFromNormalized fd unicodeLowercase leb children) =
      evalAny fd unicodeLowercase row children := by
  have hflat := @evalAny_flattenChildren_false fd unicodeLowercase row children
  unfold normalizeOrFromNormalized
  split
  · -- a `true` child
    rename_i hnone
    rw [hnone] at hflat
    exact hflat
  · rename_i hnil
    rw [hnil] at hflat
    exact hflat
  · rename_i out _ hout
    rw [hout, Option.map_some, Option.getD_some] at hflat
    rw [← hflat, ← evalAny_canonicalizePredicateChildrenForEval leb row out]
    dsimp only
    generalize canonicalizePredicateChildrenForEval fd unicodeLowercase leb out = canonical
    split
    · rename_i collapsed hcollapse
      exact eval_of_collapseSameFieldOrEqToIn row hcollapse
    · split
      · rw [evalAny, evalAny, Bool.or_false]
      · rfl

end FromNormalized

/-! ### Normalization preserves evaluation -/

section Normalize

variable {fd unicodeLowercase} (leb : Leb128) (row : Row)

theorem Predicate.size_lt_sizeChildren_of_mem {c : Predicate} {cs : List Predicate} (h : c ∈ cs) :
    c.size < sizeChildren cs := by
  induction cs with
  | nil => cases h
  | cons d ds ih =>
    simp only [sizeChildren]
    rcases List.mem_cons.mp h with rfl | hmem
    · omega
    · have := ih hmem
      omega

theorem size_normalize_le (p : Predicate) : (normalize fd unicodeLowercase leb p).size ≤ p.size :=
  (normalizeBounded fd unicodeLowercase leb p).2

/-- A predicate with no children. -/
def Predicate.isLeaf : Predicate → Bool
  | .and _ | .or _ | .not _ => Bool.false
  | _ => Bool.true

/-- A leaf is its own normal form. -/
theorem normalize_of_isLeaf {p : Predicate} (h : p.isLeaf = true) :
    normalize fd unicodeLowercase leb p = p := by
  cases p <;> first
    | exact absurd h Bool.false_ne_true
    | rw [normalize, normalizeBounded] <;> intro _ hp <;> cases hp

/-- Children that each keep their value keep the conjunction and the
disjunction. -/
theorem evalAll_map_of_forall {f : Predicate → Predicate} {cs : List Predicate}
    (h : ∀ c ∈ cs, eval fd unicodeLowercase row (f c) = eval fd unicodeLowercase row c) :
    evalAll fd unicodeLowercase row (cs.map f) = evalAll fd unicodeLowercase row cs ∧
      evalAny fd unicodeLowercase row (cs.map f) = evalAny fd unicodeLowercase row cs := by
  induction cs with
  | nil => exact ⟨rfl, rfl⟩
  | cons c cs ih =>
    have hcs := ih fun d hd => h d (List.mem_cons_of_mem c hd)
    rw [List.map_cons, evalAll_cons, evalAll_cons, evalAny, evalAny, h c List.mem_cons_self, hcs.1,
      hcs.2]
    exact ⟨rfl, rfl⟩

/-- `normalize` keeps the value of every predicate on every row.  The
recursion is the normalizer's own: on the children of a node, and under a
`NOT` on the inner predicate and on what a double negation leaves. -/
theorem eval_normalize : (p : Predicate) →
    eval fd unicodeLowercase row (normalize fd unicodeLowercase leb p) = eval fd unicodeLowercase row p
  | .and children => by
    rw [normalize_and, eval_normalizeAndFromNormalized, eval_and]
    exact (evalAll_map_of_forall row fun c _ => eval_normalize c).1
  | .or children => by
    rw [normalize_or, eval_normalizeOrFromNormalized, eval_or]
    exact (evalAll_map_of_forall row fun c _ => eval_normalize c).2
  | .not inner => by
    rw [normalize_not]
    split
    · -- the normalized inner predicate is `NOT double`: the negations cancel
      rename_i double hdouble
      rw [eval_normalize double, eval_not, ← eval_normalize inner, eq_not_of_notInner? hdouble,
        eval_not, Bool.not_not]
    · rw [eval_not, eval_not, eval_normalize inner]
  | .true | .false | .compare _ | .compareFields _ | .isNull _ | .isNotNull _ | .isMissing _
  | .isEmpty _ | .isNotEmpty _ | .textContains _ _ | .textContainsCi _ _ => by
    rw [normalize_of_isLeaf leb rfl]
termination_by p => p.size
decreasing_by
  all_goals simp only [Predicate.size]
  all_goals first
    | exact Nat.lt_succ_of_lt (Predicate.size_lt_sizeChildren_of_mem ‹_›)
    | omega
    | -- what a double negation leaves is smaller than the normalized inner predicate
      have hlt := size_lt_of_notInner? ‹Predicate.notInner? _ = some _›
      have hle := @size_normalize_le fd unicodeLowercase leb inner
      omega

end Normalize

end IcyDb
