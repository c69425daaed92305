import Mathlib.Tactic
import IcyDb.Numeral.Digits

/-!
# Fixed-point decimals

`Decimal` is an `i128` mantissa with a base-ten scale: the value
`mantissa * 10 ^ -scale`.  Equal values have many representations, so
comparison first strips trailing zeros (`normalize_parts`) and then compares
sign, decimal exponent and significant digits, printing the magnitudes as
ASCII digits the way `write_u128_decimal_digits` does.

This file embeds the representation, normalization, the exact integer
conversions, `Decimal::cmp`, `Eq` and `Hash` of `icydb-schema`'s `decimal`
module.  The float conversions (`from_f32_lossy`, `from_f64_lossy`) go
through Rust's float formatting and are not embedded here.
-/

namespace IcyDb

open Positional

/-- `MAX_SUPPORTED_SCALE`. -/
def maxSupportedScale : Nat := 28

/-- `Decimal`: an `i128` mantissa and a scale within the bound that every
checked constructor keeps. -/
structure Decimal where
  mantissa : Int
  scale : Nat
  mantissa_mem : -2 ^ 127 ≤ mantissa ∧ mantissa < 2 ^ 127
  scale_le : scale ≤ maxSupportedScale

namespace Decimal

/-! ### Normalization -/

/-- The trailing-zero loop of `normalize_parts`: while the scale is positive
and the last digit is zero, drop it.  `%` and `/` on `i128` truncate toward
zero, which is `Int.tmod` and `Int.tdiv`. -/
def normalizeLoop : Int → Nat → Int × Nat
  | m, 0 => (m, 0)
  | m, s + 1 => if m.tmod 10 ≠ 0 then (m, s + 1) else normalizeLoop (m.tdiv 10) s

/-- `Decimal::normalize_parts`. -/
def normalizeParts (mantissa : Int) (scale : Nat) : Int × Nat :=
  if mantissa = 0 then (0, 0) else normalizeLoop mantissa scale

/-- The loop divides the mantissa by a power of ten and lowers the scale by
the same exponent. -/
theorem normalizeLoop_spec (m : Int) (s : Nat) :
    ∃ k, (normalizeLoop m s).2 + k = s ∧ m = (normalizeLoop m s).1 * 10 ^ k := by
  induction s generalizing m with
  | zero => exact ⟨0, rfl, by simp [normalizeLoop]⟩
  | succ s ih =>
    unfold normalizeLoop
    split
    · exact ⟨0, rfl, by simp⟩
    · rename_i hmod
      have hdvd : (10 : Int) ∣ m := Int.dvd_of_tmod_eq_zero (not_not.mp hmod)
      obtain ⟨k, hs, hm⟩ := ih (m.tdiv 10)
      generalize normalizeLoop (m.tdiv 10) s = r at hs hm ⊢
      refine ⟨k + 1, by omega, ?_⟩
      calc m = m.tdiv 10 * 10 := (Int.tdiv_mul_cancel hdvd).symm
        _ = r.1 * 10 ^ (k + 1) := by rw [hm, pow_succ, Int.mul_assoc]

theorem normalizeParts_spec (m : Int) (s : Nat) :
    ∃ k, (normalizeParts m s).2 + k = s ∧ m = (normalizeParts m s).1 * 10 ^ k := by
  unfold normalizeParts
  split
  · rename_i hm
    exact ⟨s, by simp, by simp [hm]⟩
  · exact normalizeLoop_spec m s

/-- A mantissa that divides an `i128` by a power of ten is an `i128`. -/
theorem mantissa_mem_of_eq_mul_pow {m r : Int} {k : Nat} (h : m = r * 10 ^ k)
    (hm : -2 ^ 127 ≤ m ∧ m < 2 ^ 127) : -2 ^ 127 ≤ r ∧ r < 2 ^ 127 := by
  have hpow : (1 : Int) ≤ 10 ^ k := one_le_pow₀ (by norm_num)
  rcases le_or_gt 0 r with hr | hr
  · have : r ≤ r * 10 ^ k := le_mul_of_one_le_right hr hpow
    omega
  · have : r * 10 ^ k ≤ r := by nlinarith
    omega

/-- `Decimal::normalized_parts`. -/
def normalizedParts (d : Decimal) : Int × Nat := normalizeParts d.mantissa d.scale

/-- `Decimal::normalize`. -/
def normalize (d : Decimal) : Decimal where
  mantissa := d.normalizedParts.1
  scale := d.normalizedParts.2
  mantissa_mem :=
    mantissa_mem_of_eq_mul_pow (normalizeParts_spec d.mantissa d.scale).choose_spec.2 d.mantissa_mem
  scale_le := by
    obtain ⟨k, hs, -⟩ := normalizeParts_spec d.mantissa d.scale
    have := d.scale_le
    unfold normalizedParts
    omega

/-- `Decimal::is_zero`. -/
def isZero (d : Decimal) : Bool := d.mantissa == 0

/-! ### Digits -/

/-- `digit_to_ascii`: a digit's ASCII code; anything out of range reads as
`b'0'`, as the table lookup's default does. -/
def digitToAscii (value : Nat) : UInt8 :=
  if value < 10 then UInt8.ofNat (0x30 + value) else 0x30

/-- `write_u128_decimal_digits`: the decimal digits of `value`, most
significant first, at least one.  The loop writes the last digit first and
moves the written suffix to the front; read recursively, the digits of
`value / 10` come before the last one.  `compare.rs` and `normalize.rs` each
carry a copy of this loop; both are this function. -/
def writeU128DecimalDigits (value : Nat) : List UInt8 :=
  if value < 10 then [digitToAscii value]
  else writeU128DecimalDigits (value / 10) ++ [digitToAscii (value % 10)]
termination_by value
decreasing_by omega

/-- `compare_exponent`: the decimal exponent of the leading digit.  The
checked `i64` arithmetic cannot fail for 39-digit buffers and `u32` scales,
so the `None` branch and its `i64::MIN` default are not modelled. -/
def compareExponent (scale digitLen : Nat) : Int := (digitLen : Int) - 1 - scale

/-- `cmp_significand_digits`: the digit strings compared position by
position, the shorter one read as padded with `b'0'`. -/
def cmpSignificandDigits : List UInt8 → List UInt8 → Ordering
  | [], [] => .eq
  | l :: ls, [] => (compare l 0x30).then (cmpSignificandDigits ls [])
  | [], r :: rs => (compare 0x30 r).then (cmpSignificandDigits [] rs)
  | l :: ls, r :: rs => (compare l r).then (cmpSignificandDigits ls rs)

/-! ### Comparison -/

/-- `Decimal::cmp_decimal`: equal normal forms, then zero, then sign, then the
exponent of the leading digit and the significant digits, both reversed for
negative values. -/
def cmpDecimal (a b : Decimal) : Ordering :=
  let lhsM := a.normalizedParts.1
  let lhsS := a.normalizedParts.2
  let rhsM := b.normalizedParts.1
  let rhsS := b.normalizedParts.2
  if lhsM = rhsM ∧ lhsS = rhsS then .eq
  else if lhsM = 0 then (if rhsM < 0 then .gt else .lt)
  else if rhsM = 0 then (if lhsM < 0 then .lt else .gt)
  else if (lhsM < 0) ≠ (rhsM < 0) then (if lhsM < 0 then .lt else .gt)
  else
    let positive := !decide (lhsM < 0)
    let lhsDigits := writeU128DecimalDigits lhsM.natAbs
    let rhsDigits := writeU128DecimalDigits rhsM.natAbs
    let exponentCmp :=
      compare (compareExponent lhsS lhsDigits.length) (compareExponent rhsS rhsDigits.length)
    if exponentCmp ≠ .eq then (if positive then exponentCmp else exponentCmp.swap)
    else
      let significandCmp := cmpSignificandDigits lhsDigits rhsDigits
      if positive then significandCmp else significandCmp.swap

/-- `Ord for Decimal`. -/
def cmp (a b : Decimal) : Ordering := a.cmpDecimal b

/-- `PartialOrd for Decimal`: always defined. -/
def partialCmp (a b : Decimal) : Option Ordering := some (a.cmp b)

/-- `PartialEq for Decimal`: equal normal forms. -/
def eq (a b : Decimal) : Bool :=
  let lhs := a.normalizedParts
  let rhs := b.normalizedParts
  lhs.1 == rhs.1 && lhs.2 == rhs.2

/-- `Hash for Decimal`: the normal form's mantissa and then its scale, fed to a
hasher through its `write_i128` and `write_u32`. -/
def hash {σ : Type} (writeI128 : σ → Int → σ) (writeU32 : σ → Nat → σ) (d : Decimal)
    (state : σ) : σ :=
  let parts := d.normalizedParts
  writeU32 (writeI128 state parts.1) parts.2

/-! ### Exact integer conversions -/

/-- `Decimal::from_i64`. -/
def fromI64 (n : BitVec 64) : Option Decimal :=
  some ⟨n.toInt, 0, by have := n.le_toInt; have := n.toInt_lt; omega, by decide⟩

/-- `Decimal::from_u64`. -/
def fromU64 (n : BitVec 64) : Option Decimal :=
  some ⟨n.toNat, 0, by have := n.isLt; omega, by decide⟩

/-- `Decimal::from_i128`. -/
def fromI128 (n : BitVec 128) : Option Decimal :=
  some ⟨n.toInt, 0, by have := n.le_toInt; have := n.toInt_lt; omega, by decide⟩

/-- `Decimal::from_u128`: `i128::try_from` fails above `i128::MAX`. -/
def fromU128 (n : Nat) : Option Decimal :=
  if h : n < 2 ^ 127 then some ⟨n, 0, by omega, by decide⟩ else none

end Decimal

end IcyDb
