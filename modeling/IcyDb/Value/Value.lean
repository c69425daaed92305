import IcyDb.Types.Atoms
import IcyDb.Types.Decimal

/-!
# Runtime values

`Value` is the engine's dynamic value: every scalar kind a field can hold,
the collections `List` and `Map`, enum values with an optional payload, and
`Null`.  Each variant has a stable tag (`ValueTag`), which also fixes the
cross-variant order: `canonical_rank` is the tag minus one.

Values of the numeric kinds that admit coercion also have a `Decimal` form,
used when values of different kinds are compared as numbers.  The float
conversions are `Decimal::from_f32_lossy`/`from_f64_lossy`, which print the
float with Rust's shortest round-trip formatting and parse the text back;
float formatting is not modelled, so the two conversions are a parameter
(`FloatDecimal`) of everything that reads the `Decimal` form, and every result
holds for all of them.

This file embeds `value::Value`, `value::tag`, `value::rank`,
`value::semantics::supports_numeric_coercion`, `value::ops::numeric::to_decimal`
and `db::numeric::coerce_numeric_decimal`.
-/

namespace IcyDb

/-- `EnumTypeId(NonZeroU32)`. -/
structure EnumTypeId where
  id : BitVec 32
  ne_zero : id ≠ 0
deriving DecidableEq

/-- `EnumVariantId(NonZeroU32)`. -/
structure EnumVariantId where
  id : BitVec 32
  ne_zero : id ≠ 0
deriving DecidableEq

/-- `Value`.  The three fields of `ValueEnum` (type, variant and the optional
boxed payload of `CanonicalEnumBody`) are the fields of the `enum`
constructor; `Text` is the UTF-8 bytes of the string, `IntBig` and `NatBig`
are the integers they denote. -/
inductive Value where
  | account (a : Account)
  | blob (bytes : List UInt8)
  | bool (b : Bool)
  | date (d : Date)
  | decimal (d : Decimal)
  | duration (d : Duration)
  | enum (typeId : EnumTypeId) (variantId : EnumVariantId) (payload : Option Value)
  | float32 (f : Float32)
  | float64 (f : Float64)
  | int64 (n : BitVec 64)
  | int128 (n : BitVec 128)
  | intBig (n : Int)
  | list (values : List Value)
  | map (entries : List (Value × Value))
  | null
  | principal (p : Principal)
  | subaccount (s : Subaccount)
  | text (utf8 : List UInt8)
  | timestamp (t : Timestamp)
  | nat64 (n : BitVec 64)
  | nat128 (n : BitVec 128)
  | natBig (n : Nat)
  | ulid (u : Ulid)
  | unit

/-- `ValueTag`. -/
inductive ValueTag
  | account | blob | bool | date | decimal | duration | enum | float32 | float64 | int64
  | int128 | intBig | list | map | null | principal | subaccount | text | timestamp | nat64
  | nat128 | natBig | ulid | unit
deriving DecidableEq, Repr

/-- `ValueTag::to_u8`: the stable one-based discriminant. -/
def ValueTag.toU8 : ValueTag → UInt8
  | account => 1
  | blob => 2
  | bool => 3
  | date => 4
  | decimal => 5
  | duration => 6
  | enum => 7
  | float32 => 8
  | float64 => 9
  | int64 => 10
  | int128 => 11
  | intBig => 12
  | list => 13
  | map => 14
  | null => 15
  | principal => 16
  | subaccount => 17
  | text => 18
  | timestamp => 19
  | nat64 => 20
  | nat128 => 21
  | natBig => 22
  | ulid => 23
  | unit => 24

namespace Value

/-- `canonical_tag`. -/
def canonicalTag : Value → ValueTag
  | account _ => .account
  | blob _ => .blob
  | bool _ => .bool
  | date _ => .date
  | decimal _ => .decimal
  | duration _ => .duration
  | enum .. => .enum
  | float32 _ => .float32
  | float64 _ => .float64
  | int64 _ => .int64
  | int128 _ => .int128
  | intBig _ => .intBig
  | list _ => .list
  | map _ => .map
  | null => .null
  | principal _ => .principal
  | subaccount _ => .subaccount
  | text _ => .text
  | timestamp _ => .timestamp
  | nat64 _ => .nat64
  | nat128 _ => .nat128
  | natBig _ => .natBig
  | ulid _ => .ulid
  | unit => .unit

/-- `canonical_rank`: the tag minus one. -/
def canonicalRank (v : Value) : UInt8 := v.canonicalTag.toU8 - 1

/-- `supports_numeric_coercion`: the kinds that take part in numeric
comparison.  `Date`, `IntBig` and `NatBig` are numeric for other purposes but
not here. -/
def supportsNumericCoercion : Value → Bool
  | decimal _ | duration _ | float32 _ | float64 _ | int64 _ | int128 _ | timestamp _
  | nat64 _ | nat128 _ => true
  | _ => false

end Value

/-- The lossy float conversions `Decimal::from_f32_lossy` and
`Decimal::from_f64_lossy`, taken as a parameter. -/
structure FloatDecimal where
  fromF32Lossy : Float32 → Option Decimal
  fromF64Lossy : Float64 → Option Decimal

namespace Value

variable (fd : FloatDecimal)

/-- `to_decimal`: the `NumericValue::try_to_decimal` of each numeric kind.
Signed and unsigned machine integers widen to `i128`/`u128` first; `IntBig`
and `NatBig` convert only within that range. -/
def toDecimal : Value → Option Decimal
  | decimal d => some d
  | duration d => Decimal.fromU64 d.millis
  | float64 f => fd.fromF64Lossy f
  | float32 f => fd.fromF32Lossy f
  | int64 n => Decimal.fromI128 (n.signExtend 128)
  | int128 n => Decimal.fromI128 n
  | intBig n => if -2 ^ 127 ≤ n ∧ n < 2 ^ 127 then Decimal.fromI128 (BitVec.ofInt 128 n) else none
  | timestamp t => Decimal.fromI64 t.millis
  | nat64 n => Decimal.fromU128 n.toNat
  | nat128 n => Decimal.fromU128 n.toNat
  | natBig n => if n < 2 ^ 128 then Decimal.fromU128 n else none
  | _ => none

/-- `coerce_numeric_decimal`: the `Decimal` form of a value that supports
numeric coercion. -/
def coerceNumericDecimal (v : Value) : Option Decimal :=
  if !v.supportsNumericCoercion then none else v.toDecimal fd

end Value

end IcyDb
