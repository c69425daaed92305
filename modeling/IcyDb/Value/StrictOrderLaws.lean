import IcyDb.Value.EqualityLaws
import IcyDb.Value.CompareLaws
import IcyDb.Order.PartialLex

/-!
# Laws of the partial orders of values

`Value::partial_cmp` and `strict_order_cmp` may leave a pair of values
unordered, and where they order it they agree with `canonical_cmp`
(`CompareLaws`).  What is left to show is where they are defined.  Both are
antisymmetric, do not tell apart two values that are `==`, and are
transitive for `Greater`; these are the laws the conjunction simplifier
relies on when it drops a bound implied by another.

Most variants are ordered by their own fields, so the order is defined
exactly for two values of one such variant and the laws come from those of
`canonical_cmp`.  A map is compared entry by entry, keys canonically and
values by the order itself, and an enum as one entry, its type and variant
as the key and its body as the value: both are the entry comparison of
`PartialLex`, whose laws hold whenever they hold for the values of the
first list.  The laws are therefore proved by recursion through the maps
and enum bodies of the first value.
-/

namespace IcyDb

/-- The variants `strict_order_cmp` orders by their own fields alone. -/
def ValueTag.strictLeaf : ValueTag → Bool
  | .blob | .enum | .list | .map | .null => false
  | _ => true

/-- The variants `Value::partial_cmp` orders by their own fields alone. -/
def ValueTag.partialLeaf : ValueTag → Bool
  | .account | .blob | .enum | .list | .map | .null | .unit => false
  | _ => true

namespace Value

open Comparator PartialLex

/-! ### The canonical order -/

instance : Std.TransCmp canonicalCmp where
  eq_swap {a b} := by
    rw [canonicalCmp_eq_compare_orderKey, canonicalCmp_eq_compare_orderKey]
    exact Std.OrientedCmp.eq_swap
  isLE_trans {a b c} hab hbc := by
    rw [canonicalCmp_eq_compare_orderKey] at hab hbc ⊢
    exact Std.TransCmp.isLE_trans hab hbc

theorem canonicalCmp_congr_right (x : Value) {y y' : Value} (h : beq y y' = true) :
    canonicalCmp x y = canonicalCmp x y' :=
  Std.TransCmp.congr_right ((beq_iff_canonicalCmp_eq y y').mp h)

theorem canonicalTag_eq_of_beq {x y : Value} (h : beq x y = true) :
    x.canonicalTag = y.canonicalTag := by
  by_contra hne
  rw [beq_of_tag_ne hne] at h
  cases h

/-! ### Definedness by variant -/

theorem strictOrderCmp_of_tag_ne {x y : Value} (h : x.canonicalTag ≠ y.canonicalTag) :
    strictOrderCmp x y = none := by
  cases x <;> cases y <;> first | rfl | exact absurd rfl h

theorem partialCmp_of_tag_ne {x y : Value} (h : x.canonicalTag ≠ y.canonicalTag) :
    partialCmp x y = none := by
  cases x <;> cases y <;> first | rfl | exact absurd rfl h

/-- A leaf variant is ordered against exactly the values of its variant. -/
theorem isSome_strictOrderCmp_of_leaf {x : Value} (hx : x.canonicalTag.strictLeaf = true) (y : Value) :
    (strictOrderCmp x y).isSome = decide (x.canonicalTag = y.canonicalTag) := by
  cases x <;> cases y <;> first | rfl | exact absurd hx Bool.false_ne_true

theorem isSome_partialCmp_of_leaf {x : Value} (hx : x.canonicalTag.partialLeaf = true) (y : Value) :
    (partialCmp x y).isSome = decide (x.canonicalTag = y.canonicalTag) := by
  cases x <;> cases y <;> first | rfl | exact absurd hx Bool.false_ne_true

/-! ### Maps and enums as entry comparisons -/

/-- The loop of `strict_order_map` is the entry comparison: keys
canonically, values strictly. -/
theorem strictOrderMap_eq_entriesCmp : (xs ys : List (Value × Value)) →
    strictOrderMap xs ys = entriesCmp canonicalCmp strictOrderCmp xs ys
  | [], [] | [], _ :: _ | (_, _) :: _, [] => rfl
  | (lk, lv) :: ls, (rk, rv) :: rs => by
    rw [strictOrderMap_cons, strictOrderMap_eq_entriesCmp ls rs]
    rfl

/-- The loop of `partial_cmp_map` is the entry comparison: keys
canonically, values partially. -/
theorem partialCmpMap_eq_entriesCmp : (xs ys : List (Value × Value)) →
    partialCmpMap xs ys = entriesCmp canonicalCmp partialCmp xs ys
  | [], [] | [], _ :: _ | (_, _) :: _, [] => rfl
  | (lk, lv) :: ls, (rk, rv) :: rs => by
    rw [partialCmpMap_cons, partialCmpMap_eq_entriesCmp ls rs]
    simp only [entriesCmp]
    split
    · rfl
    · -- equal keys: `partial_cmp_map` returns any answer but `Equal` as it is
      cases partialCmp lv rv with
      | none => rfl
      | some o => cases o <;> rfl

theorem strictOrderCmp_map_eq_entriesCmpLen (a b : List (Value × Value)) :
    strictOrderCmp (map a) (map b) = entriesCmpLen canonicalCmp strictOrderCmp a b := by
  rw [strictOrderCmp_map, strictOrderMap_eq_entriesCmp]
  rfl

theorem partialCmp_map_eq_entriesCmpLen (a b : List (Value × Value)) :
    partialCmp (map a) (map b) = entriesCmpLen canonicalCmp partialCmp a b := by
  rw [partialCmp_map, partialCmpMap_eq_entriesCmp]
  rfl

/-- The derived order of an enum's type and variant identifiers. -/
def enumHeaderCmp : EnumTypeId × EnumVariantId → EnumTypeId × EnumVariantId → Ordering :=
  compareLex (compareOn fun h => h.1.id.toNat) (compareOn fun h => h.2.id.toNat)

instance : Std.TransCmp enumHeaderCmp :=
  inferInstanceAs (Std.TransCmp
    (compareLex (compareOn fun h : EnumTypeId × EnumVariantId => h.1.id.toNat)
      (compareOn fun h : EnumTypeId × EnumVariantId => h.2.id.toNat)))

theorem enumHeaderCmp_eq (t u : EnumTypeId) (v w : EnumVariantId) :
    enumHeaderCmp (t, v) (u, w) = (compare t.id.toNat u.id.toNat).then (compare v.id.toNat w.id.toNat) :=
  rfl

/-- An enum compares as one entry: its header as the key, its body as the
value. -/
theorem partialCmp_enum_eq_entriesCmpLen (t u : EnumTypeId) (v w : EnumVariantId)
    (p q : Option Value) :
    partialCmp (enum t v p) (enum u w q) =
      entriesCmpLen enumHeaderCmp partialCmpPayload [((t, v), p)] [((u, w), q)] := by
  rw [partialCmp_enum, entriesCmpLen_cons_cons, entriesCmpLen_nil_left, ← enumHeaderCmp_eq]
  cases enumHeaderCmp (t, v) (u, w)
  case eq =>
    cases partialCmpPayload p q with
    | none => rfl
    | some o => cases o <;> rfl
  all_goals rfl

/-! ### Comparators that agree with the canonical order -/

section AgreeCanonical

variable {f : Value → Value → Option Ordering}

/-- Where the comparator is defined it answers as `canonical_cmp`, so
antisymmetry asks only that it be defined both ways or neither. -/
theorem swap_of_isSome_eq (hf : ∀ x y o, f x y = some o → canonicalCmp x y = o) {x y : Value}
    (h : (f y x).isSome = (f x y).isSome) : f y x = (f x y).map Ordering.swap := by
  cases hxy : f x y with
  | none => simpa [hxy] using h
  | some o =>
    rw [hxy] at h
    obtain ⟨o', hyx⟩ := Option.isSome_iff_exists.mp h
    rw [hyx, Option.map_some, ← hf x y o hxy, ← hf y x o' hyx]
    exact congrArg some Std.OrientedCmp.eq_swap

theorem congr_right_of_isSome_eq (hf : ∀ x y o, f x y = some o → canonicalCmp x y = o)
    {x y y' : Value} (hy : beq y y' = true) (h : (f x y).isSome = (f x y').isSome) :
    f x y = f x y' := by
  cases hxy : f x y with
  | none => exact (by simpa [hxy] using h.symm : f x y' = none).symm
  | some o =>
    rw [hxy] at h
    obtain ⟨o', hxy'⟩ := Option.isSome_iff_exists.mp h.symm
    rw [hxy', ← hf x y o hxy, ← hf x y' o' hxy', canonicalCmp_congr_right x hy]

theorem gt_trans_of_isSome (hf : ∀ x y o, f x y = some o → canonicalCmp x y = o) {x y z : Value}
    (hxy : f x y = some .gt) (hyz : f y z = some .gt) (h : (f x z).isSome) :
    f x z = some .gt := by
  obtain ⟨o, hxz⟩ := Option.isSome_iff_exists.mp h
  rw [hxz, ← hf x z o hxz]
  exact congrArg some (Std.TransCmp.gt_trans (hf x y _ hxy) (hf y z _ hyz))

/-! The laws at a value of a variant the comparator orders by its fields alone:
it is then defined exactly against the values of the same variant. -/

variable {leaf : ValueTag → Bool}
  (hdef : ∀ {x}, leaf x.canonicalTag = true → ∀ y, (f x y).isSome = decide (x.canonicalTag = y.canonicalTag))

include hdef in
theorem swap_of_leaf (hf : ∀ x y o, f x y = some o → canonicalCmp x y = o)
    (hne : ∀ {x y}, x.canonicalTag ≠ y.canonicalTag → f x y = none)
    {x : Value} (hx : leaf x.canonicalTag = true) (y : Value) :
    f y x = (f x y).map Ordering.swap := by
  apply swap_of_isSome_eq hf
  by_cases htag : x.canonicalTag = y.canonicalTag
  · have hy : leaf y.canonicalTag = true := htag ▸ hx
    rw [hdef hx, hdef hy, htag]
  · rw [hne htag, hne (Ne.symm htag)]

include hdef in
theorem congr_right_of_leaf (hf : ∀ x y o, f x y = some o → canonicalCmp x y = o)
    {x : Value} (hx : leaf x.canonicalTag = true) {y y' : Value} (hy : beq y y' = true) :
    f x y = f x y' := by
  apply congr_right_of_isSome_eq hf hy
  rw [hdef hx, hdef hx, canonicalTag_eq_of_beq hy]

include hdef in
theorem gt_trans_of_leaf (hf : ∀ x y o, f x y = some o → canonicalCmp x y = o)
    {x : Value} (hx : leaf x.canonicalTag = true) {y z : Value}
    (hxy : f x y = some .gt) (hyz : f y z = some .gt) : f x z = some .gt := by
  apply gt_trans_of_isSome hf hxy hyz
  have hxy' := hdef hx y
  rw [hxy, Option.isSome_some] at hxy'
  have htag₁ : x.canonicalTag = y.canonicalTag := of_decide_eq_true hxy'.symm
  have hyz' := hdef (htag₁ ▸ hx) z
  rw [hyz, Option.isSome_some] at hyz'
  have htag₂ : y.canonicalTag = z.canonicalTag := of_decide_eq_true hyz'.symm
  rw [hdef hx, htag₁, htag₂]
  exact decide_eq_true rfl

end AgreeCanonical

/-! ### Antisymmetry -/

mutual

/-- Read the other way round, `Value::partial_cmp` is reversed. -/
theorem partialCmp_swap : (x y : Value) → partialCmp y x = (partialCmp x y).map Ordering.swap
  | account _, y | blob _, y | list _, y | null, y | unit, y => by
    cases y <;> rfl
  | bool _, y | date _, y | decimal _, y | duration _, y | float32 _, y | float64 _, y
  | int64 _, y | int128 _, y | intBig _, y | principal _, y | subaccount _, y | text _, y
  | timestamp _, y | nat64 _, y | nat128 _, y | natBig _, y | ulid _, y =>
    swap_of_leaf isSome_partialCmp_of_leaf canonicalCmp_of_partialCmp partialCmp_of_tag_ne rfl y
  | enum t v p, y => by
    cases y
    case enum u w q =>
      rw [partialCmp_enum_eq_entriesCmpLen, partialCmp_enum_eq_entriesCmpLen]
      refine entriesCmpLen_swap enumHeaderCmp partialCmpPayload (fun b hb c => ?_) _
      rw [List.mem_singleton.mp hb]
      exact partialCmpPayload_swap p c
    all_goals rfl
  | map a, y => by
    cases y
    case map b =>
      rw [partialCmp_map_eq_entriesCmpLen, partialCmp_map_eq_entriesCmpLen]
      exact entriesCmpLen_swap canonicalCmp partialCmp (partialCmp_swap_values a) b
    all_goals rfl

/-- The values of a map's entries satisfy the antisymmetry law. -/
theorem partialCmp_swap_values : (xs : List (Value × Value)) →
    ∀ v ∈ xs.map Prod.snd, ∀ w, partialCmp w v = (partialCmp v w).map Ordering.swap
  | [], _, hv, _ => by cases hv
  | (_, x) :: xs, v, hv, w => by
    rcases List.mem_cons.mp hv with hvx | hv
    · rw [hvx]
      exact partialCmp_swap x w
    · exact partialCmp_swap_values xs v hv w

/-- Enum bodies: `Unit` first, payloads by `Value::partial_cmp`. -/
theorem partialCmpPayload_swap : (p q : Option Value) →
    partialCmpPayload q p = (partialCmpPayload p q).map Ordering.swap
  | none, none | none, some _ | some _, none => rfl
  | some x, some y => partialCmp_swap x y

end

/-! ### Congruence -/

theorem eq_map_of_canonicalTag {y : Value} (h : y.canonicalTag = .map) : ∃ b, y = map b := by
  cases y <;> first | exact ⟨_, rfl⟩ | cases h

theorem eq_enum_of_canonicalTag {y : Value} (h : y.canonicalTag = .enum) :
    ∃ u w q, y = enum u w q := by
  cases y <;> first | exact ⟨_, _, _, rfl⟩ | cases h

/-- Two `==` maps hold `==` keys and `==` values entry by entry. -/
theorem forall₂_of_beqMap : (xs ys : List (Value × Value)) → beqMap xs ys = true →
    List.Forall₂ (fun e e' => beq e.1 e'.1 = true ∧ beq e.2 e'.2 = true) xs ys
  | [], [], _ => .nil
  | [], _ :: _, h | (_, _) :: _, [], h => by simp [beqMap] at h
  | (lk, lv) :: ls, (rk, rv) :: rs, h => by
    simp only [beqMap, Bool.and_eq_true] at h
    exact .cons ⟨h.1.1, h.1.2⟩ (forall₂_of_beqMap ls rs h.2)

theorem beq_map_iff (a b : List (Value × Value)) : beq (map a) (map b) = true ↔ beqMap a b = true := by
  simp [beq]

theorem beq_enum_iff (t u : EnumTypeId) (v w : EnumVariantId) (p q : Option Value) :
    beq (enum t v p) (enum u w q) = true ↔ t = u ∧ v = w ∧ beqPayload p q = true := by
  simp [beq, and_assoc]

mutual

/-- `Value::partial_cmp` does not tell apart two `==` values on the right. -/
theorem partialCmp_congr_right : (x y y' : Value) → beq y y' = true →
    partialCmp x y = partialCmp x y'
  | account _, y, y', _ | blob _, y, y', _ | list _, y, y', _ | null, y, y', _
  | unit, y, y', _ =>
    (show _ = none by cases y <;> rfl).trans (show none = _ by cases y' <;> rfl)
  | bool _, _, _, hy | date _, _, _, hy | decimal _, _, _, hy | duration _, _, _, hy
  | float32 _, _, _, hy | float64 _, _, _, hy | int64 _, _, _, hy | int128 _, _, _, hy
  | intBig _, _, _, hy | principal _, _, _, hy | subaccount _, _, _, hy | text _, _, _, hy
  | timestamp _, _, _, hy | nat64 _, _, _, hy | nat128 _, _, _, hy | natBig _, _, _, hy
  | ulid _, _, _, hy =>
    congr_right_of_leaf isSome_partialCmp_of_leaf canonicalCmp_of_partialCmp rfl hy
  | enum t v p, y, y', hy => by
    by_cases htag : y.canonicalTag = .enum
    · obtain ⟨u, w, q, rfl⟩ := eq_enum_of_canonicalTag htag
      obtain ⟨u', w', q', rfl⟩ := eq_enum_of_canonicalTag ((canonicalTag_eq_of_beq hy).symm.trans htag)
      obtain ⟨rfl, rfl, hq⟩ := (beq_enum_iff u u' w w' q q').mp hy
      rw [partialCmp_enum_eq_entriesCmpLen, partialCmp_enum_eq_entriesCmpLen]
      refine @entriesCmpLen_congr_right _ _ enumHeaderCmp partialCmpPayload Eq
        (fun q q' => beqPayload q q' = true) (fun _ _ _ h => by rw [h]) _
        (fun b hb c c' hc => ?_) _ _ (.cons ⟨rfl, hq⟩ .nil)
      rw [List.mem_singleton.mp hb]
      exact partialCmpPayload_congr_right p c c' hc
    · have htag' : y'.canonicalTag ≠ .enum := (canonicalTag_eq_of_beq hy) ▸ htag
      rw [partialCmp_of_tag_ne (Ne.symm htag), partialCmp_of_tag_ne (Ne.symm htag')]
  | map a, y, y', hy => by
    by_cases htag : y.canonicalTag = .map
    · obtain ⟨b, rfl⟩ := eq_map_of_canonicalTag htag
      obtain ⟨b', rfl⟩ := eq_map_of_canonicalTag ((canonicalTag_eq_of_beq hy).symm.trans htag)
      rw [partialCmp_map_eq_entriesCmpLen, partialCmp_map_eq_entriesCmpLen]
      exact entriesCmpLen_congr_right canonicalCmp partialCmp
        (fun z _ _ h => canonicalCmp_congr_right z h) (partialCmp_congr_right_values a)
        (forall₂_of_beqMap b b' ((beq_map_iff b b').mp hy))
    · have htag' : y'.canonicalTag ≠ .map := (canonicalTag_eq_of_beq hy) ▸ htag
      rw [partialCmp_of_tag_ne (Ne.symm htag), partialCmp_of_tag_ne (Ne.symm htag')]

/-- The values of a map's entries satisfy the congruence law. -/
theorem partialCmp_congr_right_values : (xs : List (Value × Value)) →
    ∀ v ∈ xs.map Prod.snd, ∀ w w', beq w w' = true → partialCmp v w = partialCmp v w'
  | [], _, hv, _, _, _ => by cases hv
  | (_, x) :: xs, v, hv, w, w', hw => by
    rcases List.mem_cons.mp hv with hvx | hv
    · rw [hvx]
      exact partialCmp_congr_right x w w' hw
    · exact partialCmp_congr_right_values xs v hv w w' hw

/-- Enum bodies: two `==` bodies on the right compare alike. -/
theorem partialCmpPayload_congr_right : (p q q' : Option Value) → beqPayload q q' = true →
    partialCmpPayload p q = partialCmpPayload p q'
  | none, none, none, _ | none, some _, some _, _ | some _, none, none, _ => rfl
  | _, none, some _, h | _, some _, none, h => by simp [beqPayload] at h
  | some x, some y, some y', h => by
    simp only [beqPayload] at h
    exact partialCmp_congr_right x y y' h

end

theorem partialCmp_congr_left {x x' : Value} (h : beq x x' = true) (y : Value) :
    partialCmp x y = partialCmp x' y := by
  rw [partialCmp_swap y x, partialCmp_swap y x', partialCmp_congr_right y x x' h]

theorem beq_of_partialCmp_eq {x y : Value} (h : partialCmp x y = some .eq) : beq x y = true :=
  (beq_iff_canonicalCmp_eq x y).mpr (canonicalCmp_of_partialCmp x y _ h)

/-- Two values `Value::partial_cmp` finds `Equal` compare alike with every
third, on the left. -/
theorem partialCmp_eq_left (v w u : Value) (h : partialCmp v w = some .eq) :
    partialCmp v u = partialCmp w u :=
  partialCmp_congr_left (beq_of_partialCmp_eq h) u

/-- Two values `Value::partial_cmp` finds `Equal` compare alike with every
third, on the right. -/
theorem partialCmp_eq_right (v w u : Value) (h : partialCmp w u = some .eq) :
    partialCmp v w = partialCmp v u :=
  partialCmp_congr_right v w u (beq_of_partialCmp_eq h)

theorem partialCmpPayload_eq_left (p q r : Option Value) (h : partialCmpPayload p q = some .eq) :
    partialCmpPayload p r = partialCmpPayload q r := by
  have hpq : beqPayload p q = true :=
    (beqPayload_iff_canonicalCmpPayload_eq p q).mpr (canonicalCmpPayload_of_partialCmpPayload p q _ h)
  rw [partialCmpPayload_swap r p, partialCmpPayload_swap r q, partialCmpPayload_congr_right r p q hpq]

theorem partialCmpPayload_eq_right (p q r : Option Value) (h : partialCmpPayload q r = some .eq) :
    partialCmpPayload p q = partialCmpPayload p r :=
  partialCmpPayload_congr_right p q r
    ((beqPayload_iff_canonicalCmpPayload_eq q r).mpr (canonicalCmpPayload_of_partialCmpPayload q r _ h))

/-! ### Transitivity -/

mutual

/-- `Greater` twice is `Greater` for `Value::partial_cmp`. -/
theorem partialCmp_gt_trans : (x y z : Value) → partialCmp x y = some .gt →
    partialCmp y z = some .gt → partialCmp x z = some .gt
  | account _, _, _, h, _ | blob _, _, _, h, _ | list _, _, _, h, _ | null, _, _, h, _
  | unit, _, _, h, _ => by cases h
  | bool _, _, _, hxy, hyz | date _, _, _, hxy, hyz | decimal _, _, _, hxy, hyz
  | duration _, _, _, hxy, hyz | float32 _, _, _, hxy, hyz | float64 _, _, _, hxy, hyz
  | int64 _, _, _, hxy, hyz | int128 _, _, _, hxy, hyz | intBig _, _, _, hxy, hyz
  | principal _, _, _, hxy, hyz | subaccount _, _, _, hxy, hyz | text _, _, _, hxy, hyz
  | timestamp _, _, _, hxy, hyz | nat64 _, _, _, hxy, hyz | nat128 _, _, _, hxy, hyz
  | natBig _, _, _, hxy, hyz | ulid _, _, _, hxy, hyz =>
    gt_trans_of_leaf isSome_partialCmp_of_leaf canonicalCmp_of_partialCmp rfl hxy hyz
  | enum t v p, y, z, hxy, hyz => by
    -- the middle and last values are enums, or the comparisons are undefined
    obtain ⟨u, w, q, rfl⟩ : ∃ u w q, y = enum u w q := by
      cases y <;> first | exact ⟨_, _, _, rfl⟩ | cases hxy
    obtain ⟨u', w', q', rfl⟩ : ∃ u w q, z = enum u w q := by
      cases z <;> first | exact ⟨_, _, _, rfl⟩ | cases hyz
    rw [partialCmp_enum_eq_entriesCmpLen] at hxy hyz ⊢
    refine entriesCmpLen_gt_trans enumHeaderCmp partialCmpPayload partialCmpPayload_eq_left
      partialCmpPayload_eq_right (fun b hb c d hbc hcd => ?_) hxy hyz
    rw [List.mem_singleton.mp hb] at hbc ⊢
    exact partialCmpPayload_gt_trans p c d hbc hcd
  | map a, y, z, hxy, hyz => by
    obtain ⟨b, rfl⟩ : ∃ b, y = map b := by
      cases y <;> first | exact ⟨_, rfl⟩ | cases hxy
    obtain ⟨c, rfl⟩ : ∃ c, z = map c := by
      cases z <;> first | exact ⟨_, rfl⟩ | cases hyz
    rw [partialCmp_map_eq_entriesCmpLen] at hxy hyz ⊢
    exact entriesCmpLen_gt_trans canonicalCmp partialCmp partialCmp_eq_left partialCmp_eq_right
      (partialCmp_gt_trans_values a) hxy hyz

/-- The values of a map's entries satisfy the transitivity law. -/
theorem partialCmp_gt_trans_values : (xs : List (Value × Value)) →
    ∀ v ∈ xs.map Prod.snd, ∀ w u, partialCmp v w = some .gt → partialCmp w u = some .gt →
      partialCmp v u = some .gt
  | [], _, hv, _, _, _, _ => by cases hv
  | (_, x) :: xs, v, hv, w, u, hvw, hwu => by
    rcases List.mem_cons.mp hv with hvx | hv
    · rw [hvx] at hvw ⊢
      exact partialCmp_gt_trans x w u hvw hwu
    · exact partialCmp_gt_trans_values xs v hv w u hvw hwu

/-- Enum bodies: `Greater` twice is `Greater`. -/
theorem partialCmpPayload_gt_trans : (p q r : Option Value) → partialCmpPayload p q = some .gt →
    partialCmpPayload q r = some .gt → partialCmpPayload p r = some .gt
  | none, none, _, h, _ | none, some _, _, h, _ => by cases h
  | some _, none, none, _, h | some _, none, some _, _, h => by cases h
  | some _, some _, none, _, _ => rfl
  | some x, some y, some z, hxy, hyz => partialCmp_gt_trans x y z hxy hyz

end

/-! ### The strict order -/

mutual

/-- Read the other way round, `strict_order_cmp` is reversed. -/
theorem strictOrderCmp_swap : (x y : Value) → strictOrderCmp y x = (strictOrderCmp x y).map Ordering.swap
  | blob _, y | list _, y | null, y => by
    cases y <;> rfl
  | account _, y | bool _, y | date _, y | decimal _, y | duration _, y | float32 _, y
  | float64 _, y | int64 _, y | int128 _, y | intBig _, y | principal _, y | subaccount _, y
  | text _, y | timestamp _, y | nat64 _, y | nat128 _, y | natBig _, y | ulid _, y | unit, y =>
    swap_of_leaf isSome_strictOrderCmp_of_leaf canonicalCmp_of_strictOrderCmp strictOrderCmp_of_tag_ne
      rfl y
  | enum t v p, y => by
    cases y
    case enum u w q =>
      rw [strictOrderCmp_enum, strictOrderCmp_enum]
      exact partialCmp_swap _ _
    all_goals rfl
  | map a, y => by
    cases y
    case map b =>
      rw [strictOrderCmp_map_eq_entriesCmpLen, strictOrderCmp_map_eq_entriesCmpLen]
      exact entriesCmpLen_swap canonicalCmp strictOrderCmp (strictOrderCmp_swap_values a) b
    all_goals rfl

/-- The values of a map's entries satisfy the antisymmetry law. -/
theorem strictOrderCmp_swap_values : (xs : List (Value × Value)) →
    ∀ v ∈ xs.map Prod.snd, ∀ w, strictOrderCmp w v = (strictOrderCmp v w).map Ordering.swap
  | [], _, hv, _ => by cases hv
  | (_, x) :: xs, v, hv, w => by
    rcases List.mem_cons.mp hv with hvx | hv
    · rw [hvx]
      exact strictOrderCmp_swap x w
    · exact strictOrderCmp_swap_values xs v hv w

end

mutual

/-- `strict_order_cmp` does not tell apart two `==` values on the right. -/
theorem strictOrderCmp_congr_right : (x y y' : Value) → beq y y' = true →
    strictOrderCmp x y = strictOrderCmp x y'
  | blob _, y, y', _ | list _, y, y', _ | null, y, y', _ =>
    (show _ = none by cases y <;> rfl).trans (show none = _ by cases y' <;> rfl)
  | account _, _, _, hy | bool _, _, _, hy | date _, _, _, hy | decimal _, _, _, hy
  | duration _, _, _, hy | float32 _, _, _, hy | float64 _, _, _, hy | int64 _, _, _, hy
  | int128 _, _, _, hy | intBig _, _, _, hy | principal _, _, _, hy | subaccount _, _, _, hy
  | text _, _, _, hy | timestamp _, _, _, hy | nat64 _, _, _, hy | nat128 _, _, _, hy
  | natBig _, _, _, hy | ulid _, _, _, hy | unit, _, _, hy =>
    congr_right_of_leaf isSome_strictOrderCmp_of_leaf canonicalCmp_of_strictOrderCmp rfl hy
  | enum t v p, y, y', hy => by
    by_cases htag : y.canonicalTag = .enum
    · obtain ⟨u, w, q, rfl⟩ := eq_enum_of_canonicalTag htag
      obtain ⟨u', w', q', rfl⟩ := eq_enum_of_canonicalTag ((canonicalTag_eq_of_beq hy).symm.trans htag)
      rw [strictOrderCmp_enum, strictOrderCmp_enum]
      exact partialCmp_congr_right _ _ _ hy
    · have htag' : y'.canonicalTag ≠ .enum := (canonicalTag_eq_of_beq hy) ▸ htag
      rw [strictOrderCmp_of_tag_ne (Ne.symm htag), strictOrderCmp_of_tag_ne (Ne.symm htag')]
  | map a, y, y', hy => by
    by_cases htag : y.canonicalTag = .map
    · obtain ⟨b, rfl⟩ := eq_map_of_canonicalTag htag
      obtain ⟨b', rfl⟩ := eq_map_of_canonicalTag ((canonicalTag_eq_of_beq hy).symm.trans htag)
      rw [strictOrderCmp_map_eq_entriesCmpLen, strictOrderCmp_map_eq_entriesCmpLen]
      exact entriesCmpLen_congr_right canonicalCmp strictOrderCmp
        (fun z _ _ h => canonicalCmp_congr_right z h) (strictOrderCmp_congr_right_values a)
        (forall₂_of_beqMap b b' ((beq_map_iff b b').mp hy))
    · have htag' : y'.canonicalTag ≠ .map := (canonicalTag_eq_of_beq hy) ▸ htag
      rw [strictOrderCmp_of_tag_ne (Ne.symm htag), strictOrderCmp_of_tag_ne (Ne.symm htag')]

/-- The values of a map's entries satisfy the congruence law. -/
theorem strictOrderCmp_congr_right_values : (xs : List (Value × Value)) →
    ∀ v ∈ xs.map Prod.snd, ∀ w w', beq w w' = true → strictOrderCmp v w = strictOrderCmp v w'
  | [], _, hv, _, _, _ => by cases hv
  | (_, x) :: xs, v, hv, w, w', hw => by
    rcases List.mem_cons.mp hv with hvx | hv
    · rw [hvx]
      exact strictOrderCmp_congr_right x w w' hw
    · exact strictOrderCmp_congr_right_values xs v hv w w' hw

end

theorem strictOrderCmp_congr_left {x x' : Value} (h : beq x x' = true) (y : Value) :
    strictOrderCmp x y = strictOrderCmp x' y := by
  rw [strictOrderCmp_swap y x, strictOrderCmp_swap y x', strictOrderCmp_congr_right y x x' h]

theorem beq_of_strictOrderCmp_eq {x y : Value} (h : strictOrderCmp x y = some .eq) :
    beq x y = true :=
  (beq_iff_canonicalCmp_eq x y).mpr (canonicalCmp_of_strictOrderCmp x y _ h)

theorem strictOrderCmp_eq_left (v w u : Value) (h : strictOrderCmp v w = some .eq) :
    strictOrderCmp v u = strictOrderCmp w u :=
  strictOrderCmp_congr_left (beq_of_strictOrderCmp_eq h) u

theorem strictOrderCmp_eq_right (v w u : Value) (h : strictOrderCmp w u = some .eq) :
    strictOrderCmp v w = strictOrderCmp v u :=
  strictOrderCmp_congr_right v w u (beq_of_strictOrderCmp_eq h)

mutual

/-- `Greater` twice is `Greater` for `strict_order_cmp`. -/
theorem strictOrderCmp_gt_trans : (x y z : Value) → strictOrderCmp x y = some .gt →
    strictOrderCmp y z = some .gt → strictOrderCmp x z = some .gt
  | blob _, _, _, h, _ | list _, _, _, h, _ | null, _, _, h, _ => by cases h
  | account _, _, _, hxy, hyz | bool _, _, _, hxy, hyz | date _, _, _, hxy, hyz
  | decimal _, _, _, hxy, hyz | duration _, _, _, hxy, hyz | float32 _, _, _, hxy, hyz
  | float64 _, _, _, hxy, hyz | int64 _, _, _, hxy, hyz | int128 _, _, _, hxy, hyz
  | intBig _, _, _, hxy, hyz | principal _, _, _, hxy, hyz | subaccount _, _, _, hxy, hyz
  | text _, _, _, hxy, hyz | timestamp _, _, _, hxy, hyz | nat64 _, _, _, hxy, hyz
  | nat128 _, _, _, hxy, hyz | natBig _, _, _, hxy, hyz | ulid _, _, _, hxy, hyz
  | unit, _, _, hxy, hyz =>
    gt_trans_of_leaf isSome_strictOrderCmp_of_leaf canonicalCmp_of_strictOrderCmp rfl hxy hyz
  | enum t v p, y, z, hxy, hyz => by
    obtain ⟨u, w, q, rfl⟩ : ∃ u w q, y = enum u w q := by
      cases y <;> first | exact ⟨_, _, _, rfl⟩ | cases hxy
    obtain ⟨u', w', q', rfl⟩ : ∃ u w q, z = enum u w q := by
      cases z <;> first | exact ⟨_, _, _, rfl⟩ | cases hyz
    rw [strictOrderCmp_enum] at hxy hyz ⊢
    exact partialCmp_gt_trans _ _ _ hxy hyz
  | map a, y, z, hxy, hyz => by
    obtain ⟨b, rfl⟩ : ∃ b, y = map b := by
      cases y <;> first | exact ⟨_, rfl⟩ | cases hxy
    obtain ⟨c, rfl⟩ : ∃ c, z = map c := by
      cases z <;> first | exact ⟨_, rfl⟩ | cases hyz
    rw [strictOrderCmp_map_eq_entriesCmpLen] at hxy hyz ⊢
    exact entriesCmpLen_gt_trans canonicalCmp strictOrderCmp strictOrderCmp_eq_left
      strictOrderCmp_eq_right (strictOrderCmp_gt_trans_values a) hxy hyz

/-- The values of a map's entries satisfy the transitivity law. -/
theorem strictOrderCmp_gt_trans_values : (xs : List (Value × Value)) →
    ∀ v ∈ xs.map Prod.snd, ∀ w u, strictOrderCmp v w = some .gt → strictOrderCmp w u = some .gt →
      strictOrderCmp v u = some .gt
  | [], _, hv, _, _, _, _ => by cases hv
  | (_, x) :: xs, v, hv, w, u, hvw, hwu => by
    rcases List.mem_cons.mp hv with hvx | hv
    · rw [hvx] at hvw ⊢
      exact strictOrderCmp_gt_trans x w u hvw hwu
    · exact strictOrderCmp_gt_trans_values xs v hv w u hvw hwu

end

end Value

end IcyDb
