import IcyDb.Predicate.NormalizeSound

/-!
# The normal forms of `normalize`

`normalize` is idempotent (`normalize_normalize`).  Its outputs are the
predicates of `Predicate.Normal`: a leaf; a `NOT` of a normal predicate that
is not itself a `NOT`; a conjunction or a disjunction of at least two normal
children in canonical order with no two neighbours `==`, none of them a
constant or a node of the same connective, and for a conjunction no pair the
simplifier acts on, for a disjunction no collapse to `IN`.  On such a
predicate every step of the node builders does nothing: flattening keeps the
children, the simplifier's scan finds no pair, the sort keeps a sorted list
and `Vec::dedup` a list without equal neighbours.

The one step that needs the comparison laws is that the simplifier leaves a
pair alone in either order (`pairSimplification_eq_noChange_comm`): the
canonical order may put two comparisons the other way round from the order
the simplifier last scanned them in.
-/

namespace IcyDb

open Comparator Value

/-! ### The simplifier leaves a pair alone in either order -/

section NoChange

variable {fd : FloatDecimal} {unicodeLowercase : List UInt8 → List UInt8}

theorem swapSides_eq_noChange_iff {s : ComparePairSimplification} :
    s.swapSides = .noChange ↔ s = .noChange := by
  cases s <;> simp [ComparePairSimplification.swapSides]

theorem simplifyEqEqPair_eq_noChange_iff {left right : ComparePredicate} :
    simplifyEqEqPair fd unicodeLowercase left right = .noChange ↔
      compareEq fd unicodeLowercase left.value right.value left.coercion = none := by
  unfold simplifyEqEqPair
  split <;> simp_all

/-- An equality and a constraint are left alone where their values are not
ordered or the constraint is no bound, whichever comes first. -/
theorem simplifyEqWithConstraintPair_eq_noChange_iff {eq constraint : ComparePredicate}
    {eqIsFirst : Bool} :
    simplifyEqWithConstraintPair fd unicodeLowercase eq constraint eqIsFirst = .noChange ↔
      compareOrder fd unicodeLowercase eq.value constraint.value eq.coercion = none ∨
        (constraint.op.lowerBoundInclusive = none ∧ constraint.op.upperBoundInclusive = none) := by
  unfold simplifyEqWithConstraintPair
  split
  · simp_all
  · rename_i ordering hsome
    simp only [hsome, reduceCtorEq, false_or]
    -- a bound decides the pair one way or the other
    cases constraint.op <;> simp [CompareOp.lowerBoundInclusive, CompareOp.upperBoundInclusive]
    all_goals cases ordering <;> cases eqIsFirst <;> simp

/-- Two bounds of one kind are left alone exactly where their values are not
ordered or one of them is no bound of that kind. -/
theorem simplifyTwoBounds_eq_noChange_iff {boundInclusive : CompareOp → Option Bool}
    {tighter : Ordering} {left right : ComparePredicate} :
    simplifyTwoBounds fd unicodeLowercase boundInclusive tighter left right = .noChange ↔
      compareOrder fd unicodeLowercase left.value right.value left.coercion = none ∨
        boundInclusive left.op = none ∨ boundInclusive right.op = none := by
  unfold simplifyTwoBounds
  split
  · simp_all
  · rename_i ordering hsome
    simp only [hsome, reduceCtorEq, false_or]
    split
    · rename_i hl hr
      simp only [hl, hr, reduceCtorEq, or_self, iff_false]
      split_ifs <;> simp
    · rename_i hnot
      simp only [true_iff]
      cases hl : boundInclusive left.op with
      | none => exact .inl rfl
      | some l =>
        cases hr : boundInclusive right.op with
        | none => exact .inr rfl
        | some r => exact absurd (hnot l r hl hr) id

variable {left right : ComparePredicate}

theorem simplifyTwoBounds_eq_noChange_comm {boundInclusive : CompareOp → Option Bool}
    {tighter : Ordering} (hc : left.coercion = right.coercion) :
    simplifyTwoBounds fd unicodeLowercase boundInclusive tighter left right = .noChange ↔
      simplifyTwoBounds fd unicodeLowercase boundInclusive tighter right left = .noChange := by
  rw [simplifyTwoBounds_eq_noChange_iff, simplifyTwoBounds_eq_noChange_iff, hc,
    compareOrder_eq_none_comm, or_comm (a := boundInclusive left.op = none)]

/-- Two constraints go to the same rule in either order, the lower and upper
bound rule with its answer's sides swapped. -/
theorem simplifyConstraintConstraintPair_eq_noChange_comm (hc : left.coercion = right.coercion) :
    simplifyConstraintConstraintPair fd unicodeLowercase left right = .noChange ↔
      simplifyConstraintConstraintPair fd unicodeLowercase right left = .noChange := by
  unfold simplifyConstraintConstraintPair simplifyTwoLowerBounds simplifyTwoUpperBounds
  cases hll : left.op.lowerBoundInclusive <;> cases hlu : left.op.upperBoundInclusive <;>
    cases hrl : right.op.lowerBoundInclusive <;> cases hru : right.op.upperBoundInclusive <;>
    simp only [Option.isSome_none, Option.isSome_some, Bool.and_true, Bool.and_false,
      Bool.false_eq_true, if_true, if_false, swapSides_eq_noChange_iff,
      simplifyTwoBounds_eq_noChange_comm hc]

theorem simplifyComparePairForAnd_of_eq_of_eq (hl : left.op = .eq) (hr : right.op = .eq) :
    simplifyComparePairForAnd fd unicodeLowercase left right =
      simplifyEqEqPair fd unicodeLowercase left right := by
  unfold simplifyComparePairForAnd
  rw [hl, hr]

theorem simplifyComparePairForAnd_of_eq_of_ne (hl : left.op = .eq) (hr : right.op ≠ .eq) :
    simplifyComparePairForAnd fd unicodeLowercase left right =
      simplifyEqWithConstraintPair fd unicodeLowercase left right true := by
  unfold simplifyComparePairForAnd
  rw [hl]
  cases h : right.op <;> first | exact absurd h hr | rfl

theorem simplifyComparePairForAnd_of_ne_of_eq (hl : left.op ≠ .eq) (hr : right.op = .eq) :
    simplifyComparePairForAnd fd unicodeLowercase left right =
      simplifyEqWithConstraintPair fd unicodeLowercase right left false := by
  unfold simplifyComparePairForAnd
  rw [hr]
  cases h : left.op <;> first | exact absurd h hl | rfl

theorem simplifyComparePairForAnd_of_ne_of_ne (hl : left.op ≠ .eq) (hr : right.op ≠ .eq) :
    simplifyComparePairForAnd fd unicodeLowercase left right =
      simplifyConstraintConstraintPair fd unicodeLowercase left right := by
  unfold simplifyComparePairForAnd
  split
  · exact absurd ‹_› hl
  · exact absurd ‹_› hl
  · exact absurd ‹_› hr
  · rfl

/-- The rules of `simplify_compare_pair_for_and` leave two comparisons under
one coercion alone in either order: the equality test and the order test
are symmetric in whether they are defined, and an equality meets a
constraint in the same rule whichever comes first. -/
theorem simplifyComparePairForAnd_eq_noChange_comm (hc : left.coercion = right.coercion) :
    simplifyComparePairForAnd fd unicodeLowercase left right = .noChange ↔
      simplifyComparePairForAnd fd unicodeLowercase right left = .noChange := by
  by_cases hl : left.op = .eq <;> by_cases hr : right.op = .eq
  · rw [simplifyComparePairForAnd_of_eq_of_eq hl hr, simplifyComparePairForAnd_of_eq_of_eq hr hl,
      simplifyEqEqPair_eq_noChange_iff, simplifyEqEqPair_eq_noChange_iff, hc, compareEq_comm]
  · rw [simplifyComparePairForAnd_of_eq_of_ne hl hr, simplifyComparePairForAnd_of_ne_of_eq hr hl,
      simplifyEqWithConstraintPair_eq_noChange_iff, simplifyEqWithConstraintPair_eq_noChange_iff]
  · rw [simplifyComparePairForAnd_of_ne_of_eq hl hr, simplifyComparePairForAnd_of_eq_of_ne hr hl,
      simplifyEqWithConstraintPair_eq_noChange_iff, simplifyEqWithConstraintPair_eq_noChange_iff]
  · rw [simplifyComparePairForAnd_of_ne_of_ne hl hr, simplifyComparePairForAnd_of_ne_of_ne hr hl]
    exact simplifyConstraintConstraintPair_eq_noChange_comm hc

theorem pairSimplification_of_not_compare_left {p : Predicate} (hp : ∀ cmp, p ≠ .compare cmp)
    (q : Predicate) : pairSimplification fd unicodeLowercase p q = .noChange := by
  unfold pairSimplification
  split
  · exact absurd rfl (hp _)
  · rfl

theorem pairSimplification_of_not_compare_right (p : Predicate) {q : Predicate}
    (hq : ∀ cmp, q ≠ .compare cmp) : pairSimplification fd unicodeLowercase p q = .noChange := by
  unfold pairSimplification
  split
  · exact absurd rfl (hq _)
  · rfl

/-- The scan passes over a pair in one order exactly when it passes over it
in the other. -/
theorem pairSimplification_eq_noChange_comm (p q : Predicate) :
    pairSimplification fd unicodeLowercase p q = .noChange ↔
      pairSimplification fd unicodeLowercase q p = .noChange := by
  by_cases hp : ∃ left, p = .compare left
  · by_cases hq : ∃ right, q = .compare right
    · obtain ⟨left, rfl⟩ := hp
      obtain ⟨right, rfl⟩ := hq
      simp only [pairSimplification]
      by_cases h : left.field = right.field ∧ left.coercion = right.coercion
      · rw [if_pos h, if_pos ⟨h.1.symm, h.2.symm⟩]
        exact simplifyComparePairForAnd_eq_noChange_comm h.2
      · rw [if_neg h, if_neg fun h' => h ⟨h'.1.symm, h'.2.symm⟩]
    · have hq' : ∀ cmp, q ≠ .compare cmp := fun cmp hcmp => hq ⟨cmp, hcmp⟩
      rw [pairSimplification_of_not_compare_right p hq', pairSimplification_of_not_compare_left hq']
  · have hp' : ∀ cmp, p ≠ .compare cmp := fun cmp hcmp => hp ⟨cmp, hcmp⟩
    rw [pairSimplification_of_not_compare_left hp', pairSimplification_of_not_compare_right q hp']

end NoChange

/-! ### What the simplifier returns -/

section Simplifier

variable {fd : FloatDecimal} {unicodeLowercase : List UInt8 → List UInt8}

/-- The pairs the scan passes over. -/
def PassedOver (fd : FloatDecimal) (unicodeLowercase : List UInt8 → List UInt8)
    (predicates : List Predicate) : Prop :=
  predicates.Pairwise fun a b => pairSimplification fd unicodeLowercase a b = .noChange

theorem scanPartner_eq_none_iff {left : Predicate} {rest : List Predicate} {j : Nat} :
    scanPartner fd unicodeLowercase left rest j = none ↔
      ∀ right ∈ rest, pairSimplification fd unicodeLowercase left right = .noChange := by
  induction rest generalizing j with
  | nil => simp [scanPartner]
  | cons right rest ih =>
    rw [scanPartner]
    split
    · rename_i hright
      simp [hright, ih]
    · rename_i s hs
      simp only [reduceCtorEq, List.mem_cons, forall_eq_or_imp, false_iff, not_and]
      exact fun h => absurd h hs

/-- The scan finds no pair exactly when it passes over every pair. -/
theorem scanPairs_eq_none_iff {predicates : List Predicate} {i : Nat} :
    scanPairs fd unicodeLowercase predicates i = none ↔ PassedOver fd unicodeLowercase predicates := by
  induction predicates generalizing i with
  | nil => simp [scanPairs, PassedOver]
  | cons left rest ih =>
    rw [scanPairs, PassedOver, List.pairwise_cons, ← PassedOver, ← ih (i := i + 1),
      ← scanPartner_eq_none_iff (j := i + 1)]
    split <;> simp_all

theorem scanPartner_ne_noChange {left : Predicate} {rest : List Predicate} {j₀ j : Nat}
    {s : ComparePairSimplification} (h : scanPartner fd unicodeLowercase left rest j₀ = some (j, s)) :
    s ≠ .noChange := by
  induction rest generalizing j₀ with
  | nil => cases h
  | cons right rest ih =>
    rw [scanPartner] at h
    split at h
    · exact ih h
    · rename_i s' hs'
      cases h
      exact hs'

/-- The scan reports only pairs the simplifier acts on. -/
theorem scanPairs_ne_noChange {predicates : List Predicate} {i₀ i j : Nat}
    {s : ComparePairSimplification} (h : scanPairs fd unicodeLowercase predicates i₀ = some (i, j, s)) :
    s ≠ .noChange := by
  induction predicates generalizing i₀ with
  | nil => cases h
  | cons left rest ih =>
    rw [scanPairs] at h
    split at h
    · rename_i j' s' hpartner
      cases h
      exact scanPartner_ne_noChange hpartner
    · exact ih h

/-- The simplifier stops only on a list whose pairs it passes over. -/
theorem passedOver_of_simplifyAndCompareConstraints {predicates out : List Predicate}
    (h : simplifyAndCompareConstraints fd unicodeLowercase predicates = some out) :
    PassedOver fd unicodeLowercase out := by
  fun_induction simplifyAndCompareConstraints fd unicodeLowercase predicates generalizing out with
  | case1 predicates hscan =>
    cases h
    exact scanPairs_eq_none_iff.mp hscan
  | case2 predicates i j hscan => exact absurd rfl (scanPairs_ne_noChange hscan)
  | case3 => cases h
  | case4 _ _ _ _ _ ih | case5 _ _ _ _ _ ih | case6 _ _ _ _ _ _ ih | case7 _ _ _ _ _ _ ih =>
    exact ih h

/-- What the simplifier returns is made of the predicates it was given and
of the comparisons that replaced pairs of them. -/
theorem mem_of_simplifyAndCompareConstraints {predicates out : List Predicate}
    (h : simplifyAndCompareConstraints fd unicodeLowercase predicates = some out) :
    ∀ x ∈ out, x ∈ predicates ∨ ∃ cmp, x = .compare cmp := by
  fun_induction simplifyAndCompareConstraints fd unicodeLowercase predicates generalizing out with
  | case1 | case2 =>
    cases h
    exact fun x hx => .inl hx
  | case3 => cases h
  | case4 _ _ _ _ _ ih | case5 _ _ _ _ _ ih =>
    exact fun x hx => (ih h x hx).imp_left List.mem_of_mem_eraseIdx
  | case6 _ _ _ replacement _ _ ih | case7 _ _ _ replacement _ _ ih =>
    intro x hx
    rcases ih h x hx with hmem | hcmp
    · exact (List.mem_or_eq_of_mem_set (List.mem_of_mem_eraseIdx hmem)).imp_right
        fun hx => ⟨replacement, hx⟩
    · exact .inr hcmp

/-- Each simplification drops one of two predicates, so a list that was not
empty never becomes empty. -/
theorem ne_nil_of_simplifyAndCompareConstraints {predicates out : List Predicate}
    (h : simplifyAndCompareConstraints fd unicodeLowercase predicates = some out)
    (hne : predicates ≠ []) : out ≠ [] := by
  fun_induction simplifyAndCompareConstraints fd unicodeLowercase predicates generalizing out with
  | case1 | case2 =>
    cases h
    exact hne
  | case3 => cases h
  | case4 predicates i j hscan _ ih | case5 predicates i j hscan _ ih
  | case6 predicates i j _ hscan _ ih | case7 predicates i j _ hscan _ ih =>
    have hb := scanPairs_bounds fd unicodeLowercase hscan
    refine ih h ?_
    rw [Ne, ← List.length_eq_zero_iff]
    simp only [List.length_eraseIdx, List.length_set]
    split <;> omega

/-- A list whose pairs the scan passes over is its own simplification. -/
theorem simplifyAndCompareConstraints_of_passedOver {predicates : List Predicate}
    (h : PassedOver fd unicodeLowercase predicates) :
    simplifyAndCompareConstraints fd unicodeLowercase predicates = some predicates := by
  rw [simplifyAndCompareConstraints]
  split
  · rfl
  · rename_i hscan
    rw [scanPairs_eq_none_iff.mpr h] at hscan
    cases hscan

end Simplifier

/-! ### Canonical children -/

section Canonical

variable (fd : FloatDecimal) (unicodeLowercase : List UInt8 → List UInt8) (leb : Leb128)

instance : Std.TransCmp (canonicalCmpPredicateForEval fd unicodeLowercase leb) :=
  inferInstanceAs (Std.TransCmp (compareLex (compareOn predicateEvalCostRank)
    (compareOn (encodePredicateSortKeyOf fd unicodeLowercase leb))))

/-- Children in canonical order with no two neighbours `==`: what
`canonicalize_predicate_children_for_eval` returns, and leaves as it is. -/
structure CanonicalChildren (children : List Predicate) : Prop where
  sorted : children.Pairwise fun a b =>
    (canonicalCmpPredicateForEval fd unicodeLowercase leb a b).isLE = true
  deduped : children.IsChain fun a b => Predicate.beq a b = false

variable {fd unicodeLowercase leb}

theorem canonicalChildren_canonicalize (out : List Predicate) :
    CanonicalChildren fd unicodeLowercase leb
      (canonicalizePredicateChildrenForEval fd unicodeLowercase leb out) :=
  ⟨(sortBy_pairwise_isLE out).sublist (List.destutter_sublist _ _), List.isChain_destutter _ _⟩

theorem canonicalize_of_canonicalChildren {children : List Predicate}
    (h : CanonicalChildren fd unicodeLowercase leb children) :
    canonicalizePredicateChildrenForEval fd unicodeLowercase leb children = children := by
  rw [canonicalizePredicateChildrenForEval, sortBy_of_pairwise h.sorted,
    List.destutter_of_isChain _ _ h.deduped]

theorem mem_of_mem_canonicalize {out : List Predicate} {x : Predicate}
    (hx : x ∈ canonicalizePredicateChildrenForEval fd unicodeLowercase leb out) : x ∈ out :=
  mem_sortBy.mp ((List.destutter_sublist _ _).subset hx)

theorem canonicalize_ne_nil {out : List Predicate} (h : out ≠ []) :
    canonicalizePredicateChildrenForEval fd unicodeLowercase leb out ≠ [] := by
  rw [canonicalizePredicateChildrenForEval, Ne, List.destutter_eq_nil, ← List.length_eq_zero_iff,
    (sortBy_perm out).length_eq, List.length_eq_zero_iff]
  exact h

/-- A relation that holds of a pair in either order holds of the canonical
children where it held of the children. -/
theorem pairwise_canonicalize {R : Predicate → Predicate → Prop} (hsymm : ∀ {a b}, R a b → R b a)
    {out : List Predicate} (h : out.Pairwise R) :
    (canonicalizePredicateChildrenForEval fd unicodeLowercase leb out).Pairwise R :=
  ((sortBy_perm out).symm.pairwise h hsymm).sublist (List.destutter_sublist _ _)

end Canonical


/-! ### Normal forms -/

section Normal

variable (fd : FloatDecimal) (unicodeLowercase : List UInt8 → List UInt8) (leb : Leb128)

/-- The predicates `normalize` returns: each node is what its builder makes
of children already normal. -/
inductive Predicate.Normal : Predicate → Prop
  | leaf {p : Predicate} (leaf : p.isLeaf = Bool.true) : Predicate.Normal p
  /-- A negation of a normal predicate that is no negation. -/
  | not {inner : Predicate} (normal : Predicate.Normal inner) (single : inner.notInner? = none) :
      Predicate.Normal (.not inner)
  /-- A conjunction of at least two normal children, none a constant or a
  conjunction, no pair of them simplified, in canonical order. -/
  | and {children : List Predicate} (normal : ∀ c ∈ children, Predicate.Normal c)
      (flat : ∀ c ∈ children, flattenChild Bool.true c = some [c]) (two_le : 2 ≤ children.length)
      (passed : PassedOver fd unicodeLowercase children)
      (canonical : CanonicalChildren fd unicodeLowercase leb children) :
      Predicate.Normal (.and children)
  /-- A disjunction of at least two normal children, none a constant or a
  disjunction, not collapsed to `IN`, in canonical order. -/
  | or {children : List Predicate} (normal : ∀ c ∈ children, Predicate.Normal c)
      (flat : ∀ c ∈ children, flattenChild Bool.false c = some [c]) (two_le : 2 ≤ children.length)
      (uncollapsed : collapseSameFieldOrEqToIn children = none)
      (canonical : CanonicalChildren fd unicodeLowercase leb children) :
      Predicate.Normal (.or children)

variable {fd unicodeLowercase leb}

theorem two_le_length_of_ne_nil {l : List Predicate} (hne : l ≠ []) (hsingle : ∀ a, l ≠ [a]) :
    2 ≤ l.length := by
  match l, hne, hsingle with
  | [_], _, hsingle => exact absurd rfl (hsingle _)
  | _ :: _ :: _, _, _ => simp

/-! #### The node builders land in the normal forms -/

/-- A leaf child stays as it is or, as the neutral constant, goes. -/
theorem flattenChild_of_isLeaf {conj : Bool} {c : Predicate} {gs : List Predicate}
    (hleaf : c.isLeaf = true) (h : flattenChild conj c = some gs) : gs = [] ∨ gs = [c] := by
  cases c <;> cases conj <;> simp_all [flattenChild, Predicate.isLeaf]

/-- What a normal child flattens to is normal, and flattens to itself. -/
theorem normal_of_flattenChild {conj : Bool} {c : Predicate} {gs : List Predicate}
    (hc : c.Normal fd unicodeLowercase leb) (h : flattenChild conj c = some gs) :
    ∀ x ∈ gs, x.Normal fd unicodeLowercase leb ∧ flattenChild conj x = some [x] := by
  cases hc with
  | leaf hleaf =>
    rcases flattenChild_of_isLeaf hleaf h with rfl | rfl
    · simp
    · intro x hx
      rw [List.mem_singleton.mp hx]
      exact ⟨.leaf hleaf, h⟩
  | not hinner hsingle =>
    cases conj <;> cases h <;> intro x hx <;> rw [List.mem_singleton.mp hx] <;>
      exact ⟨.not hinner hsingle, rfl⟩
  | and hnormal hflat h2 hpass hcanon =>
    cases conj
    · -- a conjunction stays whole in a disjunction
      cases h
      intro x hx
      rw [List.mem_singleton.mp hx]
      exact ⟨.and hnormal hflat h2 hpass hcanon, rfl⟩
    · cases h
      exact fun x hx => ⟨hnormal x hx, hflat x hx⟩
  | or hnormal hflat h2 hcollapse hcanon =>
    cases conj
    · cases h
      exact fun x hx => ⟨hnormal x hx, hflat x hx⟩
    · cases h
      intro x hx
      rw [List.mem_singleton.mp hx]
      exact ⟨.or hnormal hflat h2 hcollapse hcanon, rfl⟩

theorem normal_of_flattenChildren {conj : Bool} {children out : List Predicate}
    (hnormal : ∀ c ∈ children, c.Normal fd unicodeLowercase leb)
    (h : flattenChildren conj children = some out) :
    ∀ x ∈ out, x.Normal fd unicodeLowercase leb ∧ flattenChild conj x = some [x] := by
  induction children generalizing out with
  | nil =>
    cases h
    simp
  | cons c cs ih =>
    rw [flattenChildren_cons] at h
    obtain ⟨gs, hgs, hmap⟩ := Option.bind_eq_some_iff.mp h
    obtain ⟨rest, hrest, rfl⟩ := Option.map_eq_some_iff.mp hmap
    intro x hx
    rcases List.mem_append.mp hx with hx | hx
    · exact normal_of_flattenChild (hnormal c List.mem_cons_self) hgs x hx
    · exact ih (fun d hd => hnormal d (List.mem_cons_of_mem c hd)) hrest x hx

theorem isLeaf_of_collapseSameFieldOrEqToIn {children : List Predicate} {collapsed : Predicate}
    (h : collapseSameFieldOrEqToIn children = some collapsed) : collapsed.isLeaf = true := by
  unfold collapseSameFieldOrEqToIn at h
  split at h
  · cases h
  · obtain ⟨leaves, -, hcollapse⟩ := Option.bind_eq_some_iff.mp h
    obtain ⟨cmp, -, rfl⟩ := Option.map_eq_some_iff.mp hcollapse
    rfl

theorem normal_normalizeAndFromNormalized {children : List Predicate}
    (hnormal : ∀ c ∈ children, c.Normal fd unicodeLowercase leb) :
    (normalizeAndFromNormalized fd unicodeLowercase leb children).Normal fd unicodeLowercase leb := by
  unfold normalizeAndFromNormalized
  split
  · exact .leaf rfl
  · exact .leaf rfl
  · rename_i out hne hout
    have hflat := normal_of_flattenChildren hnormal hout
    split
    · exact .leaf rfl
    · rename_i simplified hs
      -- every simplified child is normal and stays whole in a conjunction
      have hsimplified : ∀ x ∈ simplified,
          x.Normal fd unicodeLowercase leb ∧ flattenChild true x = some [x] := by
        intro x hx
        rcases mem_of_simplifyAndCompareConstraints hs x hx with hx | ⟨cmp, rfl⟩
        · exact hflat x hx
        · exact ⟨.leaf rfl, rfl⟩
      have hcanon := @canonicalChildren_canonicalize fd unicodeLowercase leb simplified
      have hpass : PassedOver fd unicodeLowercase
          (canonicalizePredicateChildrenForEval fd unicodeLowercase leb simplified) :=
        pairwise_canonicalize (fun h => (pairSimplification_eq_noChange_comm _ _).mp h)
          (passedOver_of_simplifyAndCompareConstraints hs)
      have hcne := @canonicalize_ne_nil fd unicodeLowercase leb _
        (ne_nil_of_simplifyAndCompareConstraints hs hne)
      have hmem : ∀ x ∈ canonicalizePredicateChildrenForEval fd unicodeLowercase leb simplified,
          x.Normal fd unicodeLowercase leb ∧ flattenChild true x = some [x] :=
        fun x hx => hsimplified x (mem_of_mem_canonicalize hx)
      generalize canonicalizePredicateChildrenForEval fd unicodeLowercase leb simplified = canonical
        at hcanon hpass hcne hmem
      split
      · exact (hmem _ (List.mem_singleton_self _)).1
      · rename_i hsingle
        exact .and (fun c hc => (hmem c hc).1) (fun c hc => (hmem c hc).2)
          (two_le_length_of_ne_nil hcne hsingle) hpass hcanon

theorem normal_normalizeOrFromNormalized {children : List Predicate}
    (hnormal : ∀ c ∈ children, c.Normal fd unicodeLowercase leb) :
    (normalizeOrFromNormalized fd unicodeLowercase leb children).Normal fd unicodeLowercase leb := by
  unfold normalizeOrFromNormalized
  split
  · exact .leaf rfl
  · exact .leaf rfl
  · rename_i out hne hout
    have hflat := normal_of_flattenChildren hnormal hout
    have hcanon := @canonicalChildren_canonicalize fd unicodeLowercase leb out
    have hcne := @canonicalize_ne_nil fd unicodeLowercase leb _ hne
    have hmem : ∀ x ∈ canonicalizePredicateChildrenForEval fd unicodeLowercase leb out,
        x.Normal fd unicodeLowercase leb ∧ flattenChild false x = some [x] :=
      fun x hx => hflat x (mem_of_mem_canonicalize hx)
    dsimp only
    generalize canonicalizePredicateChildrenForEval fd unicodeLowercase leb out = canonical
      at hcanon hcne hmem
    split
    · -- a collapsed disjunction is one comparison
      rename_i collapsed hcollapse
      exact .leaf (isLeaf_of_collapseSameFieldOrEqToIn hcollapse)
    · rename_i hcollapse
      split
      · exact (hmem _ (List.mem_singleton_self _)).1
      · rename_i hsingle
        exact .or (fun c hc => (hmem c hc).1) (fun c hc => (hmem c hc).2)
          (two_le_length_of_ne_nil hcne hsingle) hcollapse hcanon

/-- `normalize` returns a normal form.  The recursion is the normalizer's
own, as in `eval_normalize`. -/
theorem normal_normalize : (p : Predicate) →
    (normalize fd unicodeLowercase leb p).Normal fd unicodeLowercase leb
  | .and children => by
    rw [normalize_and]
    refine normal_normalizeAndFromNormalized fun c hc => ?_
    obtain ⟨d, hd, rfl⟩ := List.mem_map.mp hc
    exact normal_normalize d
  | .or children => by
    rw [normalize_or]
    refine normal_normalizeOrFromNormalized fun c hc => ?_
    obtain ⟨d, hd, rfl⟩ := List.mem_map.mp hc
    exact normal_normalize d
  | .not inner => by
    rw [normalize_not]
    split
    · -- the double negation leaves a predicate normalized once more
      rename_i double hdouble
      exact normal_normalize double
    · rename_i hsingle
      exact .not (normal_normalize inner) hsingle
  | .true | .false | .compare _ | .compareFields _ | .isNull _ | .isNotNull _ | .isMissing _
  | .isEmpty _ | .isNotEmpty _ | .textContains _ _ | .textContainsCi _ _ => by
    rw [normalize_of_isLeaf leb rfl]
    exact .leaf rfl
termination_by p => p.size
decreasing_by
  all_goals simp only [Predicate.size]
  all_goals first
    | exact Nat.lt_succ_of_lt (Predicate.size_lt_sizeChildren_of_mem ‹_›)
    | omega
    | have hlt := size_lt_of_notInner? ‹Predicate.notInner? _ = some _›
      have hle := @size_normalize_le fd unicodeLowercase leb inner
      omega

/-! #### The node builders leave the normal forms as they are -/

theorem flattenChildren_of_forall {conj : Bool} {children : List Predicate}
    (h : ∀ c ∈ children, flattenChild conj c = some [c]) :
    flattenChildren conj children = some children := by
  induction children with
  | nil => rfl
  | cons c cs ih =>
    rw [flattenChildren_cons, h c List.mem_cons_self, ih fun d hd => h d (List.mem_cons_of_mem c hd)]
    rfl

theorem normalizeAndFromNormalized_of_normal {children : List Predicate}
    (hflat : ∀ c ∈ children, flattenChild true c = some [c]) (h2 : 2 ≤ children.length)
    (hpass : PassedOver fd unicodeLowercase children)
    (hcanon : CanonicalChildren fd unicodeLowercase leb children) :
    normalizeAndFromNormalized fd unicodeLowercase leb children = .and children := by
  obtain ⟨a, b, rest, rfl⟩ : ∃ a b rest, children = a :: b :: rest := by
    match children, h2 with
    | a :: b :: rest, _ => exact ⟨a, b, rest, rfl⟩
  rw [normalizeAndFromNormalized, flattenChildren_of_forall hflat]
  dsimp only
  rw [simplifyAndCompareConstraints_of_passedOver hpass]
  dsimp only
  rw [canonicalize_of_canonicalChildren hcanon]

theorem normalizeOrFromNormalized_of_normal {children : List Predicate}
    (hflat : ∀ c ∈ children, flattenChild false c = some [c]) (h2 : 2 ≤ children.length)
    (hcollapse : collapseSameFieldOrEqToIn children = none)
    (hcanon : CanonicalChildren fd unicodeLowercase leb children) :
    normalizeOrFromNormalized fd unicodeLowercase leb children = .or children := by
  obtain ⟨a, b, rest, rfl⟩ : ∃ a b rest, children = a :: b :: rest := by
    match children, h2 with
    | a :: b :: rest, _ => exact ⟨a, b, rest, rfl⟩
  rw [normalizeOrFromNormalized, flattenChildren_of_forall hflat]
  dsimp only
  rw [canonicalize_of_canonicalChildren hcanon, hcollapse]

/-- A normal form is its own normalization. -/
theorem normalize_of_normal {p : Predicate} (h : p.Normal fd unicodeLowercase leb) :
    normalize fd unicodeLowercase leb p = p := by
  induction h with
  | leaf hleaf => exact normalize_of_isLeaf leb hleaf
  | not _ hsingle ih => rw [normalize_not, ih, hsingle]
  | and _ hflat h2 hpass hcanon ih =>
    rw [normalize_and, List.map_congr_left ih, List.map_id']
    exact normalizeAndFromNormalized_of_normal hflat h2 hpass hcanon
  | or _ hflat h2 hcollapse hcanon ih =>
    rw [normalize_or, List.map_congr_left ih, List.map_id']
    exact normalizeOrFromNormalized_of_normal hflat h2 hcollapse hcanon

/-- `normalize` is idempotent. -/
theorem normalize_normalize (p : Predicate) :
    normalize fd unicodeLowercase leb (normalize fd unicodeLowercase leb p) =
      normalize fd unicodeLowercase leb p :=
  normalize_of_normal (normal_normalize p)

/-- The predicates `normalize` leaves as they are are exactly its normal
forms. -/
theorem normalize_eq_self_iff {p : Predicate} :
    normalize fd unicodeLowercase leb p = p ↔ p.Normal fd unicodeLowercase leb :=
  ⟨fun h => h ▸ normal_normalize p, normalize_of_normal⟩

end Normal

end IcyDb
