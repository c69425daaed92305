import IcyDb.Types.DecimalOrder
import IcyDb.Control.Except

/-!
# Decimal arithmetic

The checked arithmetic of `icydb-schema`'s decimals, the saturating `+`, `-`
and `*` built on it, `/`, and `apply_decimal_arithmetic_checked`, through
which SQL expressions evaluate decimal arithmetic.

Addition aligns both mantissas to the larger scale by a power of ten and adds.
Multiplication multiplies the mantissas, adds the scales and strips trailing
zeros while the scale is above the supported bound.  Division normalizes both
sides and tries the target scales `18, 17, …, 0` in turn.  At each scale it
multiplies the numerator or the denominator by a power of ten, depending on
the sign of the exponent, and it stops at the first scale at which that
product is an `i128`.  The integer quotient is then rounded half away from
zero.  Rust's `/` on `i128` panics on `i128::MIN / -1`, and the model returns
that panic as an error.

`i128` values are integers in range (`I128`); each `checked_*` operation is
the exact result when it is in range.
-/

namespace IcyDb

namespace Decimal

/-! ### `i128` arithmetic -/

/-- A value of Rust's `i128`. -/
abbrev I128 := {m : Int // -2 ^ 127 ≤ m ∧ m < 2 ^ 127}

/-- The mantissa of a decimal as the `i128` it is. -/
def mantissaI128 (d : Decimal) : I128 := ⟨d.mantissa, d.mantissa_mem⟩

/-- The `checked_*` operations of `i128` (`checked_add`, `checked_sub`,
`checked_mul`, `checked_neg`, `checked_pow`): the exact result when it is an
`i128`.  `checked_pow` of ten fails exactly when the power does, since every
intermediate power is smaller. -/
def checkedI128 (x : Int) : Option I128 :=
  if h : -2 ^ 127 ≤ x ∧ x < 2 ^ 127 then some ⟨x, h⟩ else none

/-- `u128::checked_mul`, on the magnitudes the rounding doubles. -/
def checkedU128 (x : Nat) : Option Nat := if x < 2 ^ 128 then some x else none

/-- A panic of Rust's integer division: by zero, or `i128::MIN / -1`, whose
quotient `2 ^ 127` is no `i128` ("attempt to divide with overflow", in every
build profile). -/
inductive ArithmeticPanic
  | divideByZero
  | divideWithOverflow
  deriving DecidableEq, Repr

/-- A truncated quotient is no larger in magnitude than the numerator, and
halves it or more unless the divisor is `±1`; only `i128::MIN / -1` leaves
the range. -/
theorem tdiv_mem {n d : Int} (hn : -2 ^ 127 ≤ n ∧ n < 2 ^ 127) (hd : d ≠ 0)
    (hover : ¬ (n = -2 ^ 127 ∧ d = -1)) : -2 ^ 127 ≤ n.tdiv d ∧ n.tdiv d < 2 ^ 127 := by
  have habs : (n.tdiv d).natAbs = n.natAbs / d.natAbs := Int.natAbs_tdiv n d
  by_cases hone : d.natAbs = 1
  · rcases (by omega : d = 1 ∨ d = -1) with rfl | rfl
    · rw [Int.tdiv_one]
      exact hn
    · rw [Int.tdiv_neg, Int.tdiv_one]
      omega
  · have hhalf : n.natAbs / d.natAbs ≤ n.natAbs / 2 := Nat.div_le_div_left (by omega) (by decide)
    omega

/-- Rust's `/` on `i128`: truncating division, which panics on a zero divisor
and on `i128::MIN / -1`. -/
def divI128 (n d : I128) : Except ArithmeticPanic I128 :=
  if hd : d.1 = 0 then .error .divideByZero
  else if hover : n.1 = -2 ^ 127 ∧ d.1 = -1 then .error .divideWithOverflow
  else .ok ⟨n.1.tdiv d.1, tdiv_mem n.2 hd hover⟩

/-- `i128::checked_rem`: no result for a zero divisor or `i128::MIN % -1`;
the remainder of truncating division otherwise. -/
def checkedRemI128 (n d : I128) : Option I128 :=
  if d.1 = 0 ∨ (n.1 = -2 ^ 127 ∧ d.1 = -1) then none else checkedI128 (n.1.tmod d.1)

/-- `i128::saturating_neg`. -/
def saturatingNeg (m : Int) : Int := if m = -2 ^ 127 then 2 ^ 127 - 1 else -m

theorem saturatingNeg_mem {m : Int} (hm : -2 ^ 127 ≤ m ∧ m < 2 ^ 127) :
    -2 ^ 127 ≤ saturatingNeg m ∧ saturatingNeg m < 2 ^ 127 := by
  unfold saturatingNeg
  split <;> omega

theorem tdiv_ten_mem {m : Int} (hm : -2 ^ 127 ≤ m ∧ m < 2 ^ 127) :
    -2 ^ 127 ≤ m.tdiv 10 ∧ m.tdiv 10 < 2 ^ 127 :=
  tdiv_mem hm (by decide) (by omega)

/-! ### Checked arithmetic -/

/-- `Decimal::checked_pow10`. -/
def checkedPow10 (power : Nat) : Option I128 := checkedI128 (10 ^ power)

/-- `Decimal::align_to_scale`: the mantissa at a larger scale, multiplied by
the power of ten between the two scales.  `target_scale.checked_sub` fails
for a smaller target. -/
def alignToScale (mantissa : I128) (currentScale targetScale : Nat) : Option I128 :=
  if currentScale = targetScale then some mantissa
  else do
    let power ← if currentScale ≤ targetScale then some (targetScale - currentScale) else none
    let factor ← checkedPow10 power
    checkedI128 (mantissa.1 * factor.1)

/-- `Decimal::checked_add` and the `checked_add_impl` it calls: both sides
at the larger scale, then the `i128` sum. -/
def checkedAdd (a b : Decimal) : Option Decimal := do
  let targetScale := max a.scale b.scale
  let lhs ← alignToScale a.mantissaI128 a.scale targetScale
  let rhs ← alignToScale b.mantissaI128 b.scale targetScale
  let mantissa ← checkedI128 (lhs.1 + rhs.1)
  pure ⟨mantissa.1, targetScale, mantissa.2, max_le a.scale_le b.scale_le⟩

/-- `Decimal::checked_sub`: the right side negated, which fails for
`i128::MIN`, then added. -/
def checkedSub (a b : Decimal) : Option Decimal := do
  let mantissa ← checkedI128 (-b.mantissa)
  a.checkedAdd ⟨mantissa.1, b.scale, mantissa.2, b.scale_le⟩

/-- `Decimal::checked_from_mantissa_scale`: a scale above the supported
bound is brought down by stripping one trailing zero per step; zero lands at
the bound, and a non-zero last digit fails. -/
def checkedFromMantissaScale (mantissa : I128) : Nat → Option Decimal
  | 0 => some ⟨mantissa.1, 0, mantissa.2, Nat.zero_le _⟩
  | scale + 1 =>
    if h : scale + 1 ≤ maxSupportedScale then some ⟨mantissa.1, scale + 1, mantissa.2, h⟩
    else if mantissa.1 = 0 then some ⟨0, maxSupportedScale, by norm_num, le_rfl⟩
    else if mantissa.1.tmod 10 ≠ 0 then none
    else checkedFromMantissaScale ⟨mantissa.1.tdiv 10, tdiv_ten_mem mantissa.2⟩ scale

/-- `Decimal::checked_mul` and the `checked_mul_impl` it calls.  The `u32`
sum of two supported scales cannot overflow. -/
def checkedMul (a b : Decimal) : Option Decimal := do
  let mantissa ← checkedI128 (a.mantissa * b.mantissa)
  checkedFromMantissaScale mantissa (a.scale + b.scale)

/-- `Decimal::checked_rem` and the `checked_rem_impl` it calls. -/
def checkedRem (a b : Decimal) : Option Decimal :=
  if b.isZero then none
  else do
    let targetScale := max a.scale b.scale
    let lhs ← alignToScale a.mantissaI128 a.scale targetScale
    let rhs ← alignToScale b.mantissaI128 b.scale targetScale
    let mantissa ← checkedRemI128 lhs rhs
    pure ⟨mantissa.1, targetScale, mantissa.2, max_le a.scale_le b.scale_le⟩

/-! ### Division -/

/-- `DEFAULT_DIVISION_SCALE`. -/
def defaultDivisionScale : Nat := 18

/-- `Decimal::division_operands`: the numerator and denominator whose
integer quotient is the decimal quotient at `target_scale`.  The exponent
`target_scale + rhs.scale - lhs.scale` scales the numerator when it is
non-negative and the denominator otherwise.  The `i64` and `u32` conversions
cannot fail for supported scales. -/
def divisionOperands (lhs rhs : Decimal) (targetScale : Nat) : Option (I128 × I128) :=
  let exponent : Int := targetScale + rhs.scale - lhs.scale
  if 0 ≤ exponent then do
    let factor ← checkedPow10 exponent.toNat
    let numerator ← checkedI128 (lhs.mantissa * factor.1)
    pure (numerator, rhs.mantissaI128)
  else do
    let factor ← checkedPow10 exponent.natAbs
    let denominator ← checkedI128 (rhs.mantissa * factor.1)
    pure (lhs.mantissaI128, denominator)

/-- `Decimal::div_round_half_away_from_zero`.  The doubled remainder is
checked as a `u128`, and the step away from zero as an `i128`; a failed check
is the `?` that returns `None` from `checked_div_impl`. -/
def divRoundHalfAwayFromZero (numerator denominator : I128) :
    Except ArithmeticPanic (Option I128) :=
  if denominator.1 = 0 then pure none
  else do
    let quotient ← divI128 numerator denominator
    let remainder := numerator.1.tmod denominator.1
    pure <|
      if remainder = 0 then some quotient
      else match checkedU128 (remainder.natAbs * 2) with
        | none => none
        | some twiceRemainder =>
          if twiceRemainder < denominator.1.natAbs then some quotient
          else if (numerator.1 < 0 ↔ denominator.1 < 0) then checkedI128 (quotient.1 + 1)
          else checkedI128 (quotient.1 - 1)

/-- One pass of the retry loop of `checked_div_impl` at `target_scale`;
`retry` is what the loop does next when the operands overflow or the rounded
mantissa cannot take the scale. -/
def divisionAttempt (lhs rhs : Decimal) (targetScale : Nat)
    (retry : Except ArithmeticPanic (Option Decimal)) : Except ArithmeticPanic (Option Decimal) :=
  match divisionOperands lhs rhs targetScale with
  | none => retry
  | some (numerator, denominator) => do
    match ← divRoundHalfAwayFromZero numerator denominator with
    | none => pure none
    | some mantissa =>
      match checkedFromMantissaScale mantissa targetScale with
      | some value => pure (some value.normalize)
      | none => retry

/-- The retry loop of `checked_div_impl`, from `target_scale` down to zero. -/
def checkedDivLoop (lhs rhs : Decimal) : Nat → Except ArithmeticPanic (Option Decimal)
  | 0 => divisionAttempt lhs rhs 0 (pure none)
  | targetScale + 1 =>
    divisionAttempt lhs rhs (targetScale + 1) (checkedDivLoop lhs rhs targetScale)

/-- `Decimal::checked_div` and the `checked_div_impl` it calls. -/
def checkedDiv (a b : Decimal) : Except ArithmeticPanic (Option Decimal) :=
  if b.isZero then pure none
  else checkedDivLoop a.normalize b.normalize defaultDivisionScale

/-! ### Saturating operators -/

/-- `Decimal::ZERO`. -/
def zero : Decimal := ⟨0, 0, by norm_num, Nat.zero_le _⟩

/-- `Decimal::is_sign_negative`. -/
def isSignNegative (d : Decimal) : Bool := decide (d.mantissa < 0)

/-- `Decimal::saturating_extreme`: `i128::MIN` or `i128::MAX` at a scale,
which every caller takes within the supported bound. -/
def saturatingExtreme (scale : Nat) (h : scale ≤ maxSupportedScale) (negative : Bool) : Decimal :=
  ⟨if negative then -2 ^ 127 else 2 ^ 127 - 1, scale, by split <;> norm_num, h⟩

/-- `Decimal::saturating_add`.  When the checked sum fails, operands of one
sign saturate towards that sign, and operands of opposite signs saturate
towards the sign of the larger operand. -/
def saturatingAdd (a b : Decimal) : Decimal :=
  match a.checkedAdd b with
  | some sum => sum
  | none =>
    have h : max a.scale b.scale ≤ maxSupportedScale := max_le a.scale_le b.scale_le
    if a.isSignNegative = b.isSignNegative then
      saturatingExtreme (max a.scale b.scale) h a.isSignNegative
    else
      match a.cmpDecimal b with
      | .eq => ⟨0, max a.scale b.scale, by norm_num, h⟩
      | .gt => saturatingExtreme (max a.scale b.scale) h a.isSignNegative
      | .lt => saturatingExtreme (max a.scale b.scale) h b.isSignNegative

/-- `Decimal::saturating_sub`: the right side negated with saturation, then
added. -/
def saturatingSub (a b : Decimal) : Decimal :=
  a.saturatingAdd ⟨saturatingNeg b.mantissa, b.scale, saturatingNeg_mem b.mantissa_mem, b.scale_le⟩

/-- `Decimal::saturating_mul`: zero for a zero factor, otherwise the extreme
of the product's sign at the capped scale. -/
def saturatingMul (a b : Decimal) : Decimal :=
  if a.isZero || b.isZero then zero
  else
    saturatingExtreme (min (a.scale + b.scale) maxSupportedScale) (min_le_right _ _)
      (a.isSignNegative != b.isSignNegative)

/-- `impl Add for Decimal`. -/
instance : Add Decimal := ⟨saturatingAdd⟩

/-- `impl Sub for Decimal`. -/
instance : Sub Decimal := ⟨saturatingSub⟩

/-- `impl Mul for Decimal`: the checked product, or the saturated one. -/
instance : Mul Decimal := ⟨fun a b => (a.checkedMul b).getD (a.saturatingMul b)⟩

/-- `impl Div for Decimal`: zero for a zero divisor, and the extreme of the
quotient's sign at the division scale when no scale fits.  It panics where
`checked_div` does. -/
def div (a b : Decimal) : Except ArithmeticPanic Decimal :=
  if b.isZero then pure zero
  else do
    match ← a.checkedDiv b with
    | some quotient => pure quotient
    | none =>
      pure (saturatingExtreme defaultDivisionScale (by decide)
        (a.isSignNegative != b.isSignNegative))

/-! ### The `i128` checks -/

@[simp] theorem checkedI128_eq_some_iff {x : Int} {y : I128} : checkedI128 x = some y ↔ y.1 = x := by
  unfold checkedI128
  split
  · rename_i h
    rw [Option.some.injEq]
    exact ⟨fun hy => hy ▸ rfl, fun hy => Subtype.ext hy.symm⟩
  · rename_i h
    simp only [reduceCtorEq, false_iff]
    intro hy
    exact h (hy ▸ y.2)

theorem checkedI128_eq_none_iff {x : Int} :
    checkedI128 x = none ↔ ¬ (-2 ^ 127 ≤ x ∧ x < 2 ^ 127) := by
  unfold checkedI128
  split
  · rename_i h
    simp only [reduceCtorEq, false_iff, not_not]
    exact h
  · rename_i h
    simp only [true_iff]
    exact h

theorem checkedI128_of_mem {x : Int} (h : -2 ^ 127 ≤ x ∧ x < 2 ^ 127) :
    checkedI128 x = some ⟨x, h⟩ :=
  checkedI128_eq_some_iff.mpr rfl

@[simp] theorem divI128_eq_ok_iff {n d q : I128} :
    divI128 n d = .ok q ↔ d.1 ≠ 0 ∧ ¬ (n.1 = -2 ^ 127 ∧ d.1 = -1) ∧ q.1 = n.1.tdiv d.1 := by
  unfold divI128
  split
  · simp_all
  · split
    · simp_all
    · rename_i hd hover
      simp only [Except.ok.injEq]
      constructor
      · rintro rfl
        exact ⟨hd, hover, rfl⟩
      · rintro ⟨-, -, hq⟩
        exact Subtype.ext hq.symm

/-! ### Decimals -/

@[simp] theorem mantissaI128_val (d : Decimal) : d.mantissaI128.1 = d.mantissa := rfl

theorem eq_of_mantissa_scale {a b : Decimal} (hm : a.mantissa = b.mantissa)
    (hs : a.scale = b.scale) : a = b := by
  obtain ⟨m, s, _, _⟩ := a
  obtain ⟨n, t, _, _⟩ := b
  cases hm
  cases hs
  rfl

theorem toRat_normalize (d : Decimal) : d.normalize.toRat = d.toRat :=
  (toRat_eq_normalizedParts d).symm

theorem scale_normalize_le (d : Decimal) : d.normalize.scale ≤ d.scale := by
  obtain ⟨k, hs, -⟩ := normalizeParts_spec d.mantissa d.scale
  change d.normalizedParts.2 ≤ d.scale
  unfold normalizedParts
  omega

/-- A mantissa with a last digit other than zero is already normal. -/
theorem normalize_eq_self {d : Decimal} (h : ¬ (10 : Int) ∣ d.mantissa) : d.normalize = d := by
  have hparts : d.normalizedParts = (d.mantissa, d.scale) :=
    normalizeParts_of_normal (.inr h) fun h0 => absurd (h0 ▸ dvd_zero 10) h
  exact eq_of_mantissa_scale (congrArg Prod.fst hparts) (congrArg Prod.snd hparts)

/-- A mantissa carried to a larger scale by the power of ten between the
scales denotes the same rational. -/
theorem mul_pow_sub_div_pow {s t : Nat} (m : Int) (h : s ≤ t) :
    ((m * 10 ^ (t - s) : Int) : ℚ) / 10 ^ t = m / 10 ^ s := by
  obtain ⟨k, rfl⟩ := Nat.exists_eq_add_of_le h
  rw [Nat.add_sub_cancel_left, pow_add]
  push_cast
  field_simp

theorem checkedFromMantissaScale_of_le (m : I128) {s : Nat} (h : s ≤ maxSupportedScale) :
    checkedFromMantissaScale m s = some ⟨m.1, s, m.2, h⟩ := by
  cases s with
  | zero => rfl
  | succ s => simp [checkedFromMantissaScale, h]

theorem isSignNegative_eq_false {d : Decimal} (h : 0 ≤ d.mantissa) : d.isSignNegative = false := by
  simp [isSignNegative, not_lt.mpr h]

theorem isSignNegative_eq_true {d : Decimal} (h : d.mantissa < 0) : d.isSignNegative = true := by
  simp [isSignNegative, h]

@[simp] theorem mantissa_saturatingExtreme (scale : Nat) (h : scale ≤ maxSupportedScale)
    (negative : Bool) :
    (saturatingExtreme scale h negative).mantissa = if negative then -2 ^ 127 else 2 ^ 127 - 1 :=
  rfl

@[simp] theorem scale_saturatingExtreme (scale : Nat) (h : scale ≤ maxSupportedScale)
    (negative : Bool) : (saturatingExtreme scale h negative).scale = scale :=
  rfl

end Decimal

/-! ### Checked SQL arithmetic -/

/-- `NumericArithmeticOp`. -/
inductive NumericArithmeticOp
  | add
  | sub
  | mul
  | div
  | rem
  deriving DecidableEq, Repr

/-- `NumericEvalError`. -/
inductive NumericEvalError
  | overflow
  | notRepresentable
  deriving DecidableEq, Repr

open Except in
/-- `apply_decimal_arithmetic_checked`: the checked operation, a zero divisor
reported as not representable and every other failure as overflow. -/
def applyDecimalArithmeticChecked (op : NumericArithmeticOp) (left right : Decimal) :
    Except Decimal.ArithmeticPanic (Except NumericEvalError Decimal) :=
  match op with
  | .add => pure (okOrElse (left.checkedAdd right) .overflow)
  | .sub => pure (okOrElse (left.checkedSub right) .overflow)
  | .mul => pure (okOrElse (left.checkedMul right) .overflow)
  | .div =>
    if right.isZero then pure (.error .notRepresentable)
    else do
      let quotient ← left.checkedDiv right
      pure (okOrElse quotient .overflow)
  | .rem =>
    if right.isZero then pure (.error .notRepresentable)
    else pure (okOrElse (left.checkedRem right) .overflow)

end IcyDb
