import IcyDb.Value.Value

/-!
# Equality of runtime values

`Value` derives `PartialEq`: two values are equal when they are the same
variant with equal fields.  The fields compare structurally, except that a
`Decimal` compares its normal form (`normalized_parts`) and the floats
compare as IEEE numbers, which for the finite values without negative zero
that `Float32` and `Float64` hold is equality of the bits.  Lists, maps and
enum payloads recurse, so the equality is a block of mutually recursive
functions, structural on the left value.

The predicate runtime also asks whether two values are the same variant
(`mem::discriminant`); every variant has its own canonical tag.
-/

namespace IcyDb

namespace Value

mutual

/-- `PartialEq for Value`, derived. -/
def beq (left right : Value) : Bool :=
  match left with
  | account a => match right with | account b => decide (a = b) | _ => false
  | blob a => match right with | blob b => decide (a = b) | _ => false
  | bool a => match right with | bool b => a == b | _ => false
  | date a => match right with | date b => decide (a = b) | _ => false
  | decimal a =>
    match right with | decimal b => decide (a.normalizedParts = b.normalizedParts) | _ => false
  | duration a => match right with | duration b => decide (a = b) | _ => false
  | enum t v p =>
    match right with
    | enum u w q => decide (t = u) && decide (v = w) && beqPayload p q
    | _ => false
  | float32 a => match right with | float32 b => decide (a.bits = b.bits) | _ => false
  | float64 a => match right with | float64 b => decide (a.bits = b.bits) | _ => false
  | int64 a => match right with | int64 b => decide (a = b) | _ => false
  | int128 a => match right with | int128 b => decide (a = b) | _ => false
  | intBig a => match right with | intBig b => decide (a = b) | _ => false
  | list a => match right with | list b => beqList a b | _ => false
  | map a => match right with | map b => beqMap a b | _ => false
  | null => match right with | null => true | _ => false
  | principal a => match right with | principal b => decide (a = b) | _ => false
  | subaccount a => match right with | subaccount b => decide (a = b) | _ => false
  | text a => match right with | text b => decide (a = b) | _ => false
  | timestamp a => match right with | timestamp b => decide (a = b) | _ => false
  | nat64 a => match right with | nat64 b => decide (a = b) | _ => false
  | nat128 a => match right with | nat128 b => decide (a = b) | _ => false
  | natBig a => match right with | natBig b => decide (a = b) | _ => false
  | ulid a => match right with | ulid b => decide (a = b) | _ => false
  | unit => match right with | unit => true | _ => false
termination_by structural left

/-- `PartialEq for Vec<Value>`: equal lengths and equal elements. -/
def beqList : List Value → List Value → Bool
  | [], [] => true
  | l :: ls, r :: rs => beq l r && beqList ls rs
  | _, _ => false
termination_by structural left => left

/-- `PartialEq for Vec<(Value, Value)>`. -/
def beqMap : List (Value × Value) → List (Value × Value) → Bool
  | [], [] => true
  | (lk, lv) :: ls, (rk, rv) :: rs => beq lk rk && beq lv rv && beqMap ls rs
  | _, _ => false
termination_by structural left => left

/-- `PartialEq for CanonicalEnumBody<Value>`. -/
def beqPayload : Option Value → Option Value → Bool
  | none, none => true
  | some l, some r => beq l r
  | _, _ => false
termination_by structural left => left

end

/-- `discriminant(left) == discriminant(right)`. -/
def sameVariant (left right : Value) : Bool := decide (left.canonicalTag = right.canonicalTag)

/-! ### Equations -/

theorem beq_text (a b : List UInt8) : beq (text a) (text b) = decide (a = b) := by
  with_unfolding_all rfl

theorem beq_of_tag_ne {x y : Value} (h : x.canonicalTag ≠ y.canonicalTag) : beq x y = false := by
  cases x <;> cases y <;> first | rfl | exact absurd rfl h

theorem sameVariant_iff (x y : Value) : sameVariant x y = true ↔ x.canonicalTag = y.canonicalTag :=
  decide_eq_true_iff

theorem sameVariant_null_left {v : Value} (hv : v ≠ null) : sameVariant null v = false := by
  cases v <;> first | rfl | exact absurd rfl hv

end Value

end IcyDb
