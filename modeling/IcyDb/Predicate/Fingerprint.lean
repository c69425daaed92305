import IcyDb.Predicate.Normalize
import IcyDb.Value.EqualityLaws

/-!
# Predicate fingerprints

`db::predicate::fingerprint` hashes a predicate into plan and continuation
signatures: `hash_predicate` feeds the plan hasher the sort key of the
normalized predicate.  The hasher is modelled by what it is fed, as in
`Value.Hash`, so two predicates share a fingerprint when they feed the same
bytes.

The sort key writes a map literal in canonical entry order, whatever order
its entries are stored in, while `==` on maps, which a `Strict` equality
evaluates, compares the entries in the order they are stored.  `Value::Map`
is a public variant that a caller can build with its entries in any order,
and the encoder orders them for that reason; two such literals then share a
fingerprint and still evaluate differently.
-/

namespace IcyDb

open Comparator Value

section Fingerprint

variable (fd : FloatDecimal) (unicodeLowercase : List UInt8 → List UInt8) (leb : Leb128)

/-- The bytes `hash_predicate` feeds the plan hasher: the sort key of the
normalized predicate. -/
def hashPredicateBytes (predicate : Predicate) : List UInt8 :=
  encodePredicateSortKeyOf fd unicodeLowercase leb (normalize fd unicodeLowercase leb predicate)

/-- The sort key of a map with two entries does not depend on the order in
which the entries are stored. -/
theorem encodeValueSortKey_map_swap {k₁ k₂ : Value} (v₁ v₂ : Value)
    (hkeys : canonicalCmp k₁ k₂ = .lt) :
    encodeValueSortKey leb (.map [(k₁, v₁), (k₂, v₂)]) =
      encodeValueSortKey leb (.map [(k₂, v₂), (k₁, v₁)]) := by
  have hlt : canonicalCmpMapEntry (k₁, v₁) (k₂, v₂) = .lt := by
    simp [canonicalCmpMapEntry, hkeys]
  have hgt : canonicalCmpMapEntry (k₂, v₂) (k₁, v₁) = .gt := by
    rw [canonicalCmpMapEntry, canonicalCmp_totalPreorder.swap k₂ k₁ trivial trivial, hkeys]
    rfl
  simp only [encodeValueSortKey, encodeMapEntriesSortKey, List.length_cons, List.length_nil]
  rw [sortBy_pair (by rw [hlt]; decide),
    @sortBy_pair_of_gt _ (fun a b : (Value × Value) × List UInt8 => canonicalCmpMapEntry a.1 b.1)
      _ _ hgt]
  rfl

/-- Under `Strict`, a map equals itself. -/
theorem compareEq_map_self (entries : List (Value × Value)) :
    compareEq fd unicodeLowercase (.map entries) (.map entries) .strict = some true := by
  simp [compareEq, sameVariant, beq_refl]

/-- Under `Strict`, two maps whose first keys differ are unequal. -/
theorem compareEq_map_of_first_keys {k₁ k₂ v₁ v₂ : Value} {rest rest' : List (Value × Value)}
    (hkeys : canonicalCmp k₁ k₂ ≠ .eq) :
    compareEq fd unicodeLowercase (.map ((k₁, v₁) :: rest)) (.map ((k₂, v₂) :: rest')) .strict =
      some false := by
  have hbeq : beq k₁ k₂ = false := by
    rw [Bool.eq_false_iff, ne_eq, beq_iff_canonicalCmp_eq]
    exact hkeys
  have hmap : beq (.map ((k₁, v₁) :: rest)) (.map ((k₂, v₂) :: rest')) = false := by
    simp [beq, beqMap, hbeq]
  simp [compareEq, sameVariant, canonicalTag, hmap]

/-- Two equalities of one field with the same two map entries stored in
the two orders feed the plan hasher the same bytes, yet a row holding the map
in canonical order satisfies only the first. -/
theorem fingerprint_merges_reordered_map_literals (field : String) {k₁ k₂ : Value} (v₁ v₂ : Value)
    (hkeys : canonicalCmp k₁ k₂ = .lt) :
    let canonical : Value := .map [(k₁, v₁), (k₂, v₂)]
    let reordered : Value := .map [(k₂, v₂), (k₁, v₁)]
    let row : Row := fun f => if f = field then some canonical else none
    hashPredicateBytes fd unicodeLowercase leb (.compare ⟨field, .eq, canonical, .strict⟩) =
        hashPredicateBytes fd unicodeLowercase leb (.compare ⟨field, .eq, reordered, .strict⟩) ∧
      eval fd unicodeLowercase row (.compare ⟨field, .eq, canonical, .strict⟩) = true ∧
      eval fd unicodeLowercase row (.compare ⟨field, .eq, reordered, .strict⟩) = false := by
  intro canonical reordered row
  have hrow : row field = some canonical := if_pos rfl
  refine ⟨?_, ?_, ?_⟩
  · simp only [hashPredicateBytes, normalize_compare, encodePredicateSortKeyOf,
      encodePredicateSortKey, encodeCompareValueSortKey, canonicalizeCompareLiteralForCoercion]
    rw [encodeValueSortKey_map_swap leb v₁ v₂ hkeys]
  · simp only [eval, evalCompare, hrow, evalCompareValues, canonical, compareEq_map_self]
    rfl
  · simp only [eval, evalCompare, hrow, evalCompareValues, canonical, reordered,
      compareEq_map_of_first_keys fd unicodeLowercase (hkeys.trans_ne (by decide))]
    rfl

end Fingerprint

/-- The map `{"a": true, "b": false}` stored in the two orders. -/
theorem fingerprint_merges_reordered_text_maps :
    canonicalCmp (.text [0x61]) (.text [0x62]) = .lt ∧
      let fd : FloatDecimal := ⟨fun _ => none, fun _ => none⟩
      let leb : Leb128 := ⟨fun _ => [], fun _ => []⟩
      let canonical : Value := .map [(.text [0x61], .bool true), (.text [0x62], .bool false)]
      let reordered : Value := .map [(.text [0x62], .bool false), (.text [0x61], .bool true)]
      let row : Row := fun f => if f = "x" then some canonical else none
      hashPredicateBytes fd id leb (.compare ⟨"x", .eq, canonical, .strict⟩) =
          hashPredicateBytes fd id leb (.compare ⟨"x", .eq, reordered, .strict⟩) ∧
        eval fd id row (.compare ⟨"x", .eq, canonical, .strict⟩) = true ∧
        eval fd id row (.compare ⟨"x", .eq, reordered, .strict⟩) = false :=
  have hkeys : canonicalCmp (.text [0x61]) (.text [0x62]) = .lt := by
    rw [canonicalCmp_text]
    decide
  ⟨hkeys, fingerprint_merges_reordered_map_literals ⟨fun _ => none, fun _ => none⟩ id
    ⟨fun _ => [], fun _ => []⟩ "x" (.bool true) (.bool false) hkeys⟩

end IcyDb
