import IcyDb.Value.Value

/-!
# Query predicates

The predicate tree of `db::predicate::model`: boolean structure over
comparisons of a field with a literal or with another field, null, missing
and emptiness tests, and substring tests.  A comparison carries its
operator and a coercion policy, which decides how the two values are
compared (`CoercionSpec`; only its identifier is read by the code modelled
here, never its parameters).
-/

namespace IcyDb

/-- `CompareOp`. -/
inductive CompareOp
  | eq | ne | lt | lte | gt | gte | in_ | notIn | contains | startsWith | endsWith
deriving DecidableEq, Repr

/-- `CoercionId`. -/
inductive CoercionId
  | strict | numericWiden | textCasefold | collectionElement
deriving DecidableEq, Repr

/-- `ComparePredicate`: a field against a literal. -/
structure ComparePredicate where
  field : String
  op : CompareOp
  value : Value
  coercion : CoercionId

/-- `CompareFieldsPredicate`: a field against another field of the row. -/
structure CompareFieldsPredicate where
  leftField : String
  op : CompareOp
  rightField : String
  coercion : CoercionId

/-- `Predicate`. -/
inductive Predicate
  | true
  | false
  | and (children : List Predicate)
  | or (children : List Predicate)
  | not (inner : Predicate)
  | compare (cmp : ComparePredicate)
  | compareFields (cmp : CompareFieldsPredicate)
  | isNull (field : String)
  | isNotNull (field : String)
  | isMissing (field : String)
  | isEmpty (field : String)
  | isNotEmpty (field : String)
  | textContains (field : String) (value : Value)
  | textContainsCi (field : String) (value : Value)

end IcyDb
