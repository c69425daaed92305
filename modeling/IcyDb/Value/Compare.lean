import IcyDb.Value.Value

/-!
# Comparing runtime values

Three comparators of `value::compare` and `value::ops::partial_ord`, and the
one of `db::numeric` built from them:

* `canonical_cmp` is total: variant rank first, then a same-variant order,
  lists and maps element by element and then by length, enums by type,
  variant and payload;
* `Value::partial_cmp` is defined only for some pairs of one variant (not for
  `Account`, `Blob`, `List`, `Null` or `Unit`), and `strict_order_cmp` for a
  wider set of them; map entries compare keys canonically and values by the
  partial comparator itself;
* `canonical_value_compare` compares two values as numbers when both have a
  `Decimal` form, else strictly when the strict order is defined, else
  canonically.

Each comparator recurses into lists, maps and enum payloads, so each is a
block of mutually recursive functions, structural on the left value.  The
`zip` loops of the source return at the first unequal pair, which is
`Ordering.then`; where a loop can also fail (`?` on an undefined value
comparison) it returns an `Option`.
-/

namespace IcyDb

namespace Value

/-! ### Canonical order -/

/-- The order of the canonical tags, the fallback of
`canonical_cmp_same_rank` for mismatched variants. -/
def canonicalTagCmp (left right : Value) : Ordering :=
  compare left.canonicalTag.toU8 right.canonicalTag.toU8

mutual

/-- `canonical_cmp`: rank, then `canonical_cmp_same_rank`, which is inlined
here because it recurses through the same values. -/
def canonicalCmp (left right : Value) : Ordering :=
  let rank := compare left.canonicalRank right.canonicalRank
  if rank ≠ .eq then rank
  else
    match left with
    | account a => match right with | account b => a.cmp b | _ => canonicalTagCmp left right
    | blob a => match right with | blob b => compare a b | _ => canonicalTagCmp left right
    | bool a => match right with | bool b => compare a b | _ => canonicalTagCmp left right
    | date a => match right with | date b => a.cmp b | _ => canonicalTagCmp left right
    | decimal a => match right with | decimal b => a.cmp b | _ => canonicalTagCmp left right
    | duration a => match right with | duration b => a.cmp b | _ => canonicalTagCmp left right
    | enum t v p =>
      match right with
      | enum u w q =>
        -- `canonical_cmp_value_enum`: type, variant, then the payload
        ((compare t.id.toNat u.id.toNat).then (compare v.id.toNat w.id.toNat)).then
          (canonicalCmpPayload p q)
      | _ => canonicalTagCmp left right
    | float32 a => match right with | float32 b => a.cmp b | _ => canonicalTagCmp left right
    | float64 a => match right with | float64 b => a.cmp b | _ => canonicalTagCmp left right
    | int64 a => match right with | int64 b => compare a.toInt b.toInt | _ => canonicalTagCmp left right
    | int128 a =>
      match right with | int128 b => compare a.toInt b.toInt | _ => canonicalTagCmp left right
    | intBig a => match right with | intBig b => compare a b | _ => canonicalTagCmp left right
    | list a =>
      match right with
      | list b => (canonicalCmpValueList a b).then (compare a.length b.length)
      | _ => canonicalTagCmp left right
    | map a =>
      match right with
      | map b => (canonicalCmpValueMap a b).then (compare a.length b.length)
      | _ => canonicalTagCmp left right
    | null => match right with | null => .eq | _ => canonicalTagCmp left right
    | principal a => match right with | principal b => a.cmp b | _ => canonicalTagCmp left right
    | subaccount a => match right with | subaccount b => a.cmp b | _ => canonicalTagCmp left right
    | text a => match right with | text b => compare a b | _ => canonicalTagCmp left right
    | timestamp a => match right with | timestamp b => a.cmp b | _ => canonicalTagCmp left right
    | nat64 a => match right with | nat64 b => compare a.toNat b.toNat | _ => canonicalTagCmp left right
    | nat128 a =>
      match right with | nat128 b => compare a.toNat b.toNat | _ => canonicalTagCmp left right
    | natBig a => match right with | natBig b => compare a b | _ => canonicalTagCmp left right
    | ulid a => match right with | ulid b => a.cmp b | _ => canonicalTagCmp left right
    | unit => match right with | unit => .eq | _ => canonicalTagCmp left right
termination_by structural left

/-- The `zip` loop of `canonical_cmp_value_list`. -/
def canonicalCmpValueList : List Value → List Value → Ordering
  | l :: ls, r :: rs => (canonicalCmp l r).then (canonicalCmpValueList ls rs)
  | _, _ => .eq
termination_by structural left => left

/-- The `zip` loop of `canonical_cmp_value_map`, each entry compared by
`canonical_cmp_map_entry`: key, then value. -/
def canonicalCmpValueMap : List (Value × Value) → List (Value × Value) → Ordering
  | (lk, lv) :: ls, (rk, rv) :: rs =>
    ((canonicalCmp lk rk).then (canonicalCmp lv rv)).then (canonicalCmpValueMap ls rs)
  | _, _ => .eq
termination_by structural left => left

/-- The payload step of `canonical_cmp_value_enum`: a unit body before a
payload. -/
def canonicalCmpPayload : Option Value → Option Value → Ordering
  | none, none => .eq
  | none, some _ => .lt
  | some _, none => .gt
  | some l, some r => canonicalCmp l r
termination_by structural left => left

end

/-! ### Equations of the canonical order

Values of different variants compare by rank alone; values of one variant
pass the rank test and compare as `canonical_cmp_same_rank` says. -/

theorem toU8_sub_one_injective {t u : ValueTag} (h : t.toU8 - 1 = u.toU8 - 1) : t = u := by
  cases t <;> cases u <;> first | rfl | exact absurd h (by decide)

theorem compare_canonicalRank_of_tag_eq {x y : Value} (h : x.canonicalTag = y.canonicalTag) :
    compare x.canonicalRank y.canonicalRank = .eq := by
  rw [canonicalRank, canonicalRank, h]
  exact Std.compare_self

theorem compare_canonicalRank_ne_eq {x y : Value} (h : x.canonicalTag ≠ y.canonicalTag) :
    compare x.canonicalRank y.canonicalRank ≠ .eq := fun heq =>
  h (toU8_sub_one_injective (Std.LawfulEqOrd.eq_of_compare heq))

theorem canonicalCmp_of_tag_ne {x y : Value} (h : x.canonicalTag ≠ y.canonicalTag) :
    canonicalCmp x y = compare x.canonicalRank y.canonicalRank := by
  rw [canonicalCmp.eq_def]
  simp only [compare_canonicalRank_ne_eq h, ne_eq, not_false_eq_true, if_true]

-- The rank test of two values of one variant reduces by evaluation, which
-- needs the `UInt8` arithmetic unfolded.

@[simp] theorem canonicalCmp_account (a b : Account) :
    canonicalCmp (account a) (account b) = a.cmp b := by
  with_unfolding_all rfl

@[simp] theorem canonicalCmp_blob (a b : List UInt8) :
    canonicalCmp (blob a) (blob b) = compare a b := by
  with_unfolding_all rfl

@[simp] theorem canonicalCmp_bool (a b : Bool) :
    canonicalCmp (bool a) (bool b) = compare a b := by
  with_unfolding_all rfl

@[simp] theorem canonicalCmp_date (a b : Date) :
    canonicalCmp (date a) (date b) = a.cmp b := by
  with_unfolding_all rfl

@[simp] theorem canonicalCmp_decimal (a b : Decimal) :
    canonicalCmp (decimal a) (decimal b) = a.cmp b := by
  with_unfolding_all rfl

@[simp] theorem canonicalCmp_duration (a b : Duration) :
    canonicalCmp (duration a) (duration b) = a.cmp b := by
  with_unfolding_all rfl

@[simp] theorem canonicalCmp_enum (t u : EnumTypeId) (v w : EnumVariantId) (p q : Option Value) :
    canonicalCmp (enum t v p) (enum u w q) = ((compare t.id.toNat u.id.toNat).then (compare v.id.toNat w.id.toNat)).then
        (canonicalCmpPayload p q) := by
  with_unfolding_all rfl

@[simp] theorem canonicalCmp_float32 (a b : Float32) :
    canonicalCmp (float32 a) (float32 b) = a.cmp b := by
  with_unfolding_all rfl

@[simp] theorem canonicalCmp_float64 (a b : Float64) :
    canonicalCmp (float64 a) (float64 b) = a.cmp b := by
  with_unfolding_all rfl

@[simp] theorem canonicalCmp_int64 (a b : BitVec 64) :
    canonicalCmp (int64 a) (int64 b) = compare a.toInt b.toInt := by
  with_unfolding_all rfl

@[simp] theorem canonicalCmp_int128 (a b : BitVec 128) :
    canonicalCmp (int128 a) (int128 b) = compare a.toInt b.toInt := by
  with_unfolding_all rfl

@[simp] theorem canonicalCmp_intBig (a b : Int) :
    canonicalCmp (intBig a) (intBig b) = compare a b := by
  with_unfolding_all rfl

@[simp] theorem canonicalCmp_list (a b : List Value) :
    canonicalCmp (list a) (list b) = (canonicalCmpValueList a b).then (compare a.length b.length) := by
  with_unfolding_all rfl

@[simp] theorem canonicalCmp_map (a b : List (Value × Value)) :
    canonicalCmp (map a) (map b) = (canonicalCmpValueMap a b).then (compare a.length b.length) := by
  with_unfolding_all rfl

@[simp] theorem canonicalCmp_null :
    canonicalCmp null null = Ordering.eq := by
  with_unfolding_all rfl

@[simp] theorem canonicalCmp_principal (a b : Principal) :
    canonicalCmp (principal a) (principal b) = a.cmp b := by
  with_unfolding_all rfl

@[simp] theorem canonicalCmp_subaccount (a b : Subaccount) :
    canonicalCmp (subaccount a) (subaccount b) = a.cmp b := by
  with_unfolding_all rfl

@[simp] theorem canonicalCmp_text (a b : List UInt8) :
    canonicalCmp (text a) (text b) = compare a b := by
  with_unfolding_all rfl

@[simp] theorem canonicalCmp_timestamp (a b : Timestamp) :
    canonicalCmp (timestamp a) (timestamp b) = a.cmp b := by
  with_unfolding_all rfl

@[simp] theorem canonicalCmp_nat64 (a b : BitVec 64) :
    canonicalCmp (nat64 a) (nat64 b) = compare a.toNat b.toNat := by
  with_unfolding_all rfl

@[simp] theorem canonicalCmp_nat128 (a b : BitVec 128) :
    canonicalCmp (nat128 a) (nat128 b) = compare a.toNat b.toNat := by
  with_unfolding_all rfl

@[simp] theorem canonicalCmp_natBig (a b : Nat) :
    canonicalCmp (natBig a) (natBig b) = compare a b := by
  with_unfolding_all rfl

@[simp] theorem canonicalCmp_ulid (a b : Ulid) :
    canonicalCmp (ulid a) (ulid b) = a.cmp b := by
  with_unfolding_all rfl

@[simp] theorem canonicalCmp_unit :
    canonicalCmp unit unit = Ordering.eq := by
  with_unfolding_all rfl

/-! ### Partial order -/

mutual

/-- `PartialOrd for Value`: defined for pairs of one variant among `Bool`,
`Date`, `Decimal`, `Duration`, `Enum`, the floats and integers, `Principal`,
`Subaccount`, `Text`, `Timestamp`, `Ulid` and `Map`. -/
def partialCmp (left right : Value) : Option Ordering :=
  match left with
  | bool a => match right with | bool b => some (compare a b) | _ => none
  | date a => match right with | date b => some (a.cmp b) | _ => none
  | decimal a => match right with | decimal b => a.partialCmp b | _ => none
  | duration a => match right with | duration b => some (a.cmp b) | _ => none
  | enum t v p =>
    match right with
    | enum u w q =>
      -- the derived order of `CanonicalEnumValue`: type, variant, body
      match (compare t.id.toNat u.id.toNat).then (compare v.id.toNat w.id.toNat) with
      | .eq => partialCmpPayload p q
      | o => some o
    | _ => none
  | float32 a => match right with | float32 b => some (a.cmp b) | _ => none
  | float64 a => match right with | float64 b => some (a.cmp b) | _ => none
  | int64 a => match right with | int64 b => some (compare a.toInt b.toInt) | _ => none
  | int128 a => match right with | int128 b => some (compare a.toInt b.toInt) | _ => none
  | intBig a => match right with | intBig b => some (compare a b) | _ => none
  | principal a => match right with | principal b => some (a.cmp b) | _ => none
  | subaccount a => match right with | subaccount b => some (a.cmp b) | _ => none
  | text a => match right with | text b => some (compare a b) | _ => none
  | timestamp a => match right with | timestamp b => some (a.cmp b) | _ => none
  | nat64 a => match right with | nat64 b => some (compare a.toNat b.toNat) | _ => none
  | nat128 a => match right with | nat128 b => some (compare a.toNat b.toNat) | _ => none
  | natBig a => match right with | natBig b => some (compare a b) | _ => none
  | ulid a => match right with | ulid b => some (a.cmp b) | _ => none
  | map a =>
    match right with
    | map b => (partialCmpMap a b).bind fun o => some (o.then (compare a.length b.length))
    | _ => none
  | _ => none
termination_by structural left

/-- The loop of `partial_cmp_map`: keys canonically, values partially; an
undefined value comparison ends the loop with `None`. -/
def partialCmpMap : List (Value × Value) → List (Value × Value) → Option Ordering
  | (lk, lv) :: ls, (rk, rv) :: rs =>
    let keyCmp := canonicalCmp lk rk
    if keyCmp ≠ .eq then some keyCmp
    else
      match partialCmp lv rv with
      | some .eq => partialCmpMap ls rs
      | nonEq => nonEq
  | _, _ => some .eq
termination_by structural left => left

/-- The derived order of `CanonicalEnumBody`: `Unit` before `Payload`,
payloads by `Value::partial_cmp`. -/
def partialCmpPayload : Option Value → Option Value → Option Ordering
  | none, none => some .eq
  | none, some _ => some .lt
  | some _, none => some .gt
  | some l, some r => partialCmp l r
termination_by structural left => left

end

/-! ### Strict order -/

mutual

/-- `strict_order_cmp`: the order of two values of one orderable variant;
`None` for mismatched variants and for `Blob`, `List` and `Null`.  Enums use
their derived partial order. -/
def strictOrderCmp (left right : Value) : Option Ordering :=
  match left with
  | account a => match right with | account b => some (a.cmp b) | _ => none
  | bool a => match right with | bool b => some (compare a b) | _ => none
  | date a => match right with | date b => some (a.cmp b) | _ => none
  | decimal a => match right with | decimal b => a.partialCmp b | _ => none
  | duration a => match right with | duration b => some (a.cmp b) | _ => none
  | enum .. => match right with | enum .. => partialCmp left right | _ => none
  | float32 a => match right with | float32 b => some (a.cmp b) | _ => none
  | float64 a => match right with | float64 b => some (a.cmp b) | _ => none
  | int64 a => match right with | int64 b => some (compare a.toInt b.toInt) | _ => none
  | int128 a => match right with | int128 b => some (compare a.toInt b.toInt) | _ => none
  | intBig a => match right with | intBig b => some (compare a b) | _ => none
  | map a =>
    match right with
    | map b => (strictOrderMap a b).bind fun o => some (o.then (compare a.length b.length))
    | _ => none
  | principal a => match right with | principal b => some (a.cmp b) | _ => none
  | subaccount a => match right with | subaccount b => some (a.cmp b) | _ => none
  | text a => match right with | text b => some (compare a b) | _ => none
  | timestamp a => match right with | timestamp b => some (a.cmp b) | _ => none
  | nat64 a => match right with | nat64 b => some (compare a.toNat b.toNat) | _ => none
  | nat128 a => match right with | nat128 b => some (compare a.toNat b.toNat) | _ => none
  | natBig a => match right with | natBig b => some (compare a b) | _ => none
  | ulid a => match right with | ulid b => some (a.cmp b) | _ => none
  | unit => match right with | unit => some .eq | _ => none
  | _ => none
termination_by structural left

/-- The loop of `strict_order_map`: keys canonically, values strictly; the
`?` on an undefined value comparison ends it with `None`. -/
def strictOrderMap : List (Value × Value) → List (Value × Value) → Option Ordering
  | (lk, lv) :: ls, (rk, rv) :: rs =>
    let keyCmp := canonicalCmp lk rk
    if keyCmp ≠ .eq then some keyCmp
    else
      match strictOrderCmp lv rv with
      | none => none
      | some valueCmp => if valueCmp ≠ .eq then some valueCmp else strictOrderMap ls rs
  | _, _ => some .eq
termination_by structural left => left

end

/-! ### Equations of the partial comparators -/

theorem partialCmp_enum (t u : EnumTypeId) (v w : EnumVariantId) (p q : Option Value) :
    partialCmp (enum t v p) (enum u w q) =
      match (compare t.id.toNat u.id.toNat).then (compare v.id.toNat w.id.toNat) with
      | .eq => partialCmpPayload p q
      | o => some o := rfl

theorem partialCmp_map (a b : List (Value × Value)) :
    partialCmp (map a) (map b) =
      (partialCmpMap a b).bind fun o => some (o.then (compare a.length b.length)) := rfl

theorem partialCmpMap_cons (lk lv rk rv : Value) (ls rs : List (Value × Value)) :
    partialCmpMap ((lk, lv) :: ls) ((rk, rv) :: rs) =
      if canonicalCmp lk rk ≠ .eq then some (canonicalCmp lk rk)
      else
        match partialCmp lv rv with
        | some .eq => partialCmpMap ls rs
        | nonEq => nonEq := rfl

theorem strictOrderCmp_enum (t u : EnumTypeId) (v w : EnumVariantId) (p q : Option Value) :
    strictOrderCmp (enum t v p) (enum u w q) = partialCmp (enum t v p) (enum u w q) := rfl

theorem strictOrderCmp_map (a b : List (Value × Value)) :
    strictOrderCmp (map a) (map b) =
      (strictOrderMap a b).bind fun o => some (o.then (compare a.length b.length)) := rfl

theorem strictOrderMap_cons (lk lv rk rv : Value) (ls rs : List (Value × Value)) :
    strictOrderMap ((lk, lv) :: ls) ((rk, rv) :: rs) =
      if canonicalCmp lk rk ≠ .eq then some (canonicalCmp lk rk)
      else
        match strictOrderCmp lv rv with
        | none => none
        | some valueCmp => if valueCmp ≠ .eq then some valueCmp else strictOrderMap ls rs := rfl

end Value

/-! ### Numeric-aware comparison -/

namespace Value

variable (fd : FloatDecimal)

/-- `compare_numeric_order`: both values as decimals, when both have a
`Decimal` form. -/
def compareNumericOrder (left right : Value) : Option Ordering :=
  match left.coerceNumericDecimal fd, right.coerceNumericDecimal fd with
  | some l, some r => l.partialCmp r
  | _, _ => none

/-- `compare_numeric_or_strict_order`. -/
def compareNumericOrStrictOrder (left right : Value) : Option Ordering :=
  (compareNumericOrder fd left right).or (strictOrderCmp left right)

/-- `canonical_value_compare`: numeric, else strict, else canonical. -/
def canonicalValueCompare (left right : Value) : Ordering :=
  (compareNumericOrStrictOrder fd left right).getD (canonicalCmp left right)

end Value

end IcyDb
