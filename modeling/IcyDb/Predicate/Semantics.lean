import IcyDb.Predicate.Ast
import IcyDb.Value.Equality
import IcyDb.Value.Compare

/-!
# What a predicate means on a row

The runtime evaluation of `db::predicate::runtime` and the comparison rules
of `db::predicate::semantics`.  A comparison that is not defined for its two
values (different variants under `Strict`, a value without a `Decimal` form
under `NumericWiden`, a non-text value under `TextCasefold`) yields no
result, and a predicate over it evaluates to `false`: `x != v` is not the
negation of `x = v`.

A row is read by field name; the runtime resolves names to slots once, and a
field without a slot, like a slot without a value, reads as missing.

Case-insensitive comparison lowercases text: ASCII text byte by byte, other
text with Unicode lowercasing (`str::to_lowercase`), which is not modelled
and is a parameter of the evaluation, as the float conversions are.
-/

namespace IcyDb

/-- A row as the evaluator reads it: the value of a field, if present. -/
abbrev Row := String → Option Value

/-! ### Text -/

/-- `u8::to_ascii_lowercase`. -/
def asciiLowercase (b : UInt8) : UInt8 := if 0x41 ≤ b ∧ b ≤ 0x5A then b + 0x20 else b

/-- `TextMode`: case-sensitive or case-insensitive. -/
inductive TextMode
  | cs | ci
deriving DecidableEq

section Text

variable (unicodeLowercase : List UInt8 → List UInt8)

/-- `lowercase_text`, which `casefold_text` is: ASCII text is lowercased byte
by byte, other text by Unicode lowercasing. -/
def casefoldText (input : List UInt8) : List UInt8 :=
  if input.all (· < 0x80) then input.map asciiLowercase else unicodeLowercase input

/-- `text_with_mode`. -/
def textWithMode (s : List UInt8) : TextMode → List UInt8
  | .cs => s
  | .ci => casefoldText unicodeLowercase s

/-- `text_op`: both values must be text. -/
def textOp (left right : Value) (mode : TextMode) (f : List UInt8 → List UInt8 → Bool) :
    Option Bool :=
  match left, right with
  | .text a, .text b => some (f (textWithMode unicodeLowercase a mode) (textWithMode unicodeLowercase b mode))
  | _, _ => none

/-- `Value::text_contains`: `str::contains`, a contiguous substring. -/
def textContains (value needle : Value) (mode : TextMode) : Option Bool :=
  textOp unicodeLowercase value needle mode fun a b => decide (b <:+: a)

/-- `Value::text_starts_with`. -/
def textStartsWith (value needle : Value) (mode : TextMode) : Option Bool :=
  textOp unicodeLowercase value needle mode fun a b => b.isPrefixOf a

/-- `Value::text_ends_with`. -/
def textEndsWith (value needle : Value) (mode : TextMode) : Option Bool :=
  textOp unicodeLowercase value needle mode fun a b => b.isSuffixOf a

/-- `casefold_value`. -/
def casefoldValue : Value → Option (List UInt8)
  | .text t => some (casefoldText unicodeLowercase t)
  | _ => none

end Text

/-! ### Comparisons under a coercion policy -/

section Compare

variable (fd : FloatDecimal) (unicodeLowercase : List UInt8 → List UInt8)

/-- `compare_numeric_eq`. -/
def compareNumericEq (left right : Value) : Option Bool :=
  (Value.compareNumericOrder fd left right).map (· == .eq)

/-- `compare_eq`: equality under a coercion policy, `none` where the policy
does not compare the two values. -/
def compareEq (left right : Value) (coercion : CoercionId) : Option Bool :=
  match coercion with
  | .strict | .collectionElement =>
    if left.sameVariant right then some (left.beq right) else none
  | .numericWiden => compareNumericEq fd left right
  | .textCasefold =>
    match casefoldValue unicodeLowercase left, casefoldValue unicodeLowercase right with
    | some l, some r => some (decide (l = r))
    | _, _ => none

/-- `eval_equality_compare_result`. -/
def evalEqualityCompareResult (op : CompareOp) (matched : Option Bool) : Bool :=
  match op with
  | .eq => matched == some true
  | .ne => matched == some false
  | _ => false

/-- `compare_order`: order under a coercion policy. -/
def compareOrder (left right : Value) (coercion : CoercionId) : Option Ordering :=
  match coercion with
  | .strict | .collectionElement =>
    if !left.sameVariant right then none else Value.strictOrderCmp left right
  | .numericWiden => Value.compareNumericOrder fd left right
  | .textCasefold =>
    match casefoldValue unicodeLowercase left, casefoldValue unicodeLowercase right with
    | some l, some r => some (compare l r)
    | _, _ => none

/-- `eval_ordered_compare_result`. -/
def evalOrderedCompareResult (op : CompareOp) (ordering : Ordering) : Bool :=
  match op with
  | .eq => ordering == .eq
  | .ne => ordering != .eq
  | .lt => ordering == .lt
  | .lte => ordering != .gt
  | .gt => ordering == .gt
  | .gte => ordering != .lt
  | _ => false

/-- `eval_list_membership_compare_result`. -/
def evalListMembershipCompareResult (op : CompareOp) (matched : Option Bool) : Bool :=
  match op with
  | .in_ => matched == some true
  | .notIn => matched == some false
  | _ => false

/-- `TextOp`. -/
inductive TextOp
  | startsWith | endsWith

/-- `compare_text`: both values text, and a strict or case-folding policy. -/
def compareText (left right : Value) (coercion : CoercionId) (op : TextOp) : Option Bool :=
  match left, right with
  | .text _, .text _ =>
    let mode? : Option TextMode :=
      match coercion with
      | .strict => some .cs
      | .textCasefold => some .ci
      | _ => none
    mode?.bind fun mode =>
      match op with
      | .startsWith => textStartsWith unicodeLowercase left right mode
      | .endsWith => textEndsWith unicodeLowercase left right mode
  | _, _ => none

/-- The loop of `in_list`: a match ends it; an item the policy cannot compare
is skipped; `Some(false)` only if some item compared unequal. -/
def inListLoop (actual : Value) (coercion : CoercionId) : List Value → Bool → Option Bool
  | [], sawValid => if sawValid then some false else none
  | item :: items, sawValid =>
    match compareEq fd unicodeLowercase actual item coercion with
    | some true => some true
    | some false => inListLoop actual coercion items true
    | none => inListLoop actual coercion items sawValid

/-- `in_list`: membership in a list literal. -/
def inList (actual list : Value) (coercion : CoercionId) : Option Bool :=
  match list with
  | .list items => inListLoop fd unicodeLowercase actual coercion items false
  | _ => none

/-- `contains`: a list value holding the needle; never a text value. -/
def containsValue (actual needle : Value) (coercion : CoercionId) : Bool :=
  match actual with
  | .list items => items.any fun item => (compareEq fd unicodeLowercase item needle coercion).getD false
  | _ => false

/-- `eval_compare_values`: an undefined comparison evaluates to `false`. -/
def evalCompareValues (actual : Value) (op : CompareOp) (value : Value) (coercion : CoercionId) :
    Bool :=
  match op with
  | .eq | .ne => evalEqualityCompareResult op (compareEq fd unicodeLowercase actual value coercion)
  | .lt | .lte | .gt | .gte =>
    match compareOrder fd unicodeLowercase actual value coercion with
    | some ordering => evalOrderedCompareResult op ordering
    | none => false
  | .in_ | .notIn =>
    evalListMembershipCompareResult op (inList fd unicodeLowercase actual value coercion)
  | .contains => containsValue fd unicodeLowercase actual value coercion
  | .startsWith => (compareText unicodeLowercase actual value coercion .startsWith).getD false
  | .endsWith => (compareText unicodeLowercase actual value coercion .endsWith).getD false

/-- `is_empty_value`. -/
def isEmptyValue : Value → Bool
  | .text t => t.isEmpty
  | .list items => items.isEmpty
  | _ => false

/-- A comparison of a field with a literal; a missing field fails it. -/
def evalCompare (row : Row) (cmp : ComparePredicate) : Bool :=
  match row cmp.field with
  | some actual => evalCompareValues fd unicodeLowercase actual cmp.op cmp.value cmp.coercion
  | none => false

mutual

/-- `eval_with_executable_slot_cows`: the predicate on a row. -/
def eval (row : Row) : Predicate → Bool
  | .true => true
  | .false => false
  | .and children => evalAll row children
  | .or children => evalAny row children
  | .not inner => !eval row inner
  | .compare cmp => evalCompare fd unicodeLowercase row cmp
  | .compareFields cmp =>
    match row cmp.leftField, row cmp.rightField with
    | some left, some right => evalCompareValues fd unicodeLowercase left cmp.op right cmp.coercion
    | _, _ => false
  | .isNull field => match row field with | some .null => true | _ => false
  | .isNotNull field => match row field with | some .null => false | some _ => true | none => false
  | .isMissing field => (row field).isNone
  | .isEmpty field => match row field with | some v => isEmptyValue v | none => false
  | .isNotEmpty field => match row field with | some v => !isEmptyValue v | none => false
  | .textContains field value =>
    match row field with
    | some actual => (textContains unicodeLowercase actual value .cs).getD false
    | none => false
  | .textContainsCi field value =>
    match row field with
    | some actual => (textContains unicodeLowercase actual value .ci).getD false
    | none => false

/-- The `And` loop: false at the first false child. -/
def evalAll (row : Row) : List Predicate → Bool
  | [] => true
  | p :: ps => eval row p && evalAll row ps

/-- The `Or` loop: true at the first true child. -/
def evalAny (row : Row) : List Predicate → Bool
  | [] => false
  | p :: ps => eval row p || evalAny row ps

end

end Compare

section Eval

variable (fd : FloatDecimal) (unicodeLowercase : List UInt8 → List UInt8) (row : Row)

theorem eval_true : eval fd unicodeLowercase row .true = true := rfl

theorem eval_and (children : List Predicate) :
    eval fd unicodeLowercase row (.and children) = evalAll fd unicodeLowercase row children := rfl

theorem eval_compare (cmp : ComparePredicate) :
    eval fd unicodeLowercase row (.compare cmp) = evalCompare fd unicodeLowercase row cmp := rfl

theorem eval_isNotNull (field : String) :
    eval fd unicodeLowercase row (.isNotNull field) =
      match row field with | some .null => false | some _ => true | none => false := rfl

theorem evalAll_nil : evalAll fd unicodeLowercase row [] = true := rfl

theorem evalAll_cons (p : Predicate) (ps : List Predicate) :
    evalAll fd unicodeLowercase row (p :: ps) =
      (eval fd unicodeLowercase row p && evalAll fd unicodeLowercase row ps) := rfl

end Eval

end IcyDb
