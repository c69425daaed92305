import Mathlib.Algebra.Order.Floor.Ring
import Mathlib.Algebra.Order.Field.Basic
import Mathlib.Tactic.FieldSimp
import Mathlib.Tactic.Linarith
import Mathlib.Tactic.Ring

/-!
# Rounding half away from zero

`roundHalfAwayFromZero x` is the integer nearest to `x`, a tie going to the
integer of larger magnitude.  `quotRoundHalfAway n d` computes that integer
for the quotient `n / d` with truncating division alone: keep the truncated
quotient while twice the remainder is below the divisor, otherwise step one
unit away from zero.  The two agree for every non-zero divisor, in every
ordered field with a floor.
-/

namespace Rounding

section Field

variable {K : Type*} [Field K] [LinearOrder K] [IsStrictOrderedRing K] [FloorRing K]

/-- The integer nearest to `x`, ties away from zero. -/
def roundHalfAwayFromZero (x : K) : ℤ := if x < 0 then -⌊-x + 1 / 2⌋ else ⌊x + 1 / 2⌋

omit [IsStrictOrderedRing K] in
theorem roundHalfAwayFromZero_of_nonneg {x : K} (hx : 0 ≤ x) :
    roundHalfAwayFromZero x = ⌊x + 1 / 2⌋ := by
  simp [roundHalfAwayFromZero, not_lt.mpr hx]

omit [IsStrictOrderedRing K] in
theorem roundHalfAwayFromZero_of_neg {x : K} (hx : x < 0) :
    roundHalfAwayFromZero x = -⌊-x + 1 / 2⌋ := by
  simp [roundHalfAwayFromZero, hx]

/-- The rule is symmetric about zero. -/
theorem roundHalfAwayFromZero_neg (x : K) :
    roundHalfAwayFromZero (-x) = -roundHalfAwayFromZero x := by
  rcases lt_trichotomy x 0 with hx | rfl | hx
  · rw [roundHalfAwayFromZero_of_nonneg (by linarith), roundHalfAwayFromZero_of_neg hx, neg_neg]
  · have hzero : roundHalfAwayFromZero (0 : K) = 0 := by
      rw [roundHalfAwayFromZero_of_nonneg le_rfl, zero_add]
      exact Int.floor_eq_zero_iff.mpr ⟨by norm_num, by norm_num⟩
    rw [neg_zero, hzero, neg_zero]
  · rw [roundHalfAwayFromZero_of_neg (by linarith), roundHalfAwayFromZero_of_nonneg hx.le,
      neg_neg]

theorem abs_sub_roundHalfAwayFromZero_of_nonneg {x : K} (hx : 0 ≤ x) :
    |x - roundHalfAwayFromZero x| ≤ 1 / 2 := by
  rw [roundHalfAwayFromZero_of_nonneg hx, abs_le]
  have hle := Int.floor_le (x + 1 / 2)
  have hlt := Int.lt_floor_add_one (x + 1 / 2)
  constructor <;> linarith

/-- The rounded value is within half a unit of `x`. -/
theorem abs_sub_roundHalfAwayFromZero_le (x : K) : |x - roundHalfAwayFromZero x| ≤ 1 / 2 := by
  rcases le_or_gt 0 x with hx | hx
  · exact abs_sub_roundHalfAwayFromZero_of_nonneg hx
  · have h := abs_sub_roundHalfAwayFromZero_of_nonneg (neg_nonneg.mpr hx.le)
    have hflip : -x - ((roundHalfAwayFromZero (-x) : ℤ) : K) = -(x - roundHalfAwayFromZero x) := by
      rw [roundHalfAwayFromZero_neg]
      push_cast
      ring
    rwa [hflip, abs_neg] at h

/-- An integer less than half a unit from `x` is its rounding. -/
theorem roundHalfAwayFromZero_eq_of_abs_sub_lt {x : K} {k : ℤ} (h : |x - k| < 1 / 2) :
    roundHalfAwayFromZero x = k := by
  rw [abs_lt] at h
  rcases le_or_gt 0 x with hx | hx
  · rw [roundHalfAwayFromZero_of_nonneg hx, Int.floor_eq_iff]
    constructor <;> linarith
  · rw [roundHalfAwayFromZero_of_neg hx, neg_eq_iff_eq_neg, Int.floor_eq_iff]
    push_cast
    constructor <;> linarith

/-- From half a unit above a non-negative integer on, `x` rounds up to the
next one. -/
theorem roundHalfAwayFromZero_eq_add_one {x : K} {k : ℤ} (hk : 0 ≤ k) (hlo : (k : K) + 1 / 2 ≤ x)
    (hhi : x < k + 1) : roundHalfAwayFromZero x = k + 1 := by
  have hk' : (0 : K) ≤ k := by exact_mod_cast hk
  rw [roundHalfAwayFromZero_of_nonneg (by linarith), Int.floor_eq_iff]
  push_cast
  constructor <;> linarith

end Field

/-! ### The integer quotient -/

/-- Truncating division rounded half away from zero: the truncated quotient,
one unit further from zero when the remainder is at least half the divisor. -/
def quotRoundHalfAway (n d : ℤ) : ℤ :=
  let q := n.tdiv d
  let r := n.tmod d
  if r = 0 then q
  else if 2 * r.natAbs < d.natAbs then q
  else if (n < 0 ↔ d < 0) then q + 1
  else q - 1

theorem tmod_eq_zero_of_eq_zero {n d : ℤ} (hn : n = 0) : n.tmod d = 0 := by
  rw [hn, Int.zero_tmod]

theorem quotRoundHalfAway_neg_left (n d : ℤ) :
    quotRoundHalfAway (-n) d = -quotRoundHalfAway n d := by
  have hn : n.tmod d ≠ 0 → n ≠ 0 := mt tmod_eq_zero_of_eq_zero
  simp only [quotRoundHalfAway, Int.neg_tdiv, Int.neg_tmod, neg_eq_zero, Int.natAbs_neg]
  split_ifs <;> omega

theorem quotRoundHalfAway_neg_right (n d : ℤ) (hd : d ≠ 0) :
    quotRoundHalfAway n (-d) = -quotRoundHalfAway n d := by
  simp only [quotRoundHalfAway, Int.tdiv_neg, Int.tmod_neg, Int.natAbs_neg]
  split_ifs <;> omega

section Field

variable {K : Type*} [Field K] [LinearOrder K] [IsStrictOrderedRing K] [FloorRing K]

/-- For a non-negative numerator and a positive divisor the quotient is the
truncated one plus the remainder's fraction `r / d ∈ [0, 1)`, which is below
one half exactly when `2 r < d`. -/
theorem roundHalfAwayFromZero_div_of_nonneg {n d : ℤ} (hn : 0 ≤ n) (hd : 0 < d) :
    roundHalfAwayFromZero ((n : K) / d) = quotRoundHalfAway n d := by
  have hq : 0 ≤ n.tdiv d := Int.tdiv_nonneg hn hd.le
  have hr : 0 ≤ n.tmod d := Int.tmod_nonneg d hn
  have hrd : n.tmod d < d := Int.tmod_lt_of_pos n hd
  have hdK : (0 : K) < d := Int.cast_pos.mpr hd
  have hsplit : (n : K) / d = n.tdiv d + (n.tmod d : K) / d := by
    have h : (n : K) = d * n.tdiv d + n.tmod d := by exact_mod_cast (Int.mul_tdiv_add_tmod n d).symm
    rw [div_eq_iff hdK.ne', add_mul, div_mul_cancel₀ _ hdK.ne', h]
    ring
  have hfrac : (n.tmod d : K) / d < 1 := (div_lt_one hdK).mpr (Int.cast_lt.mpr hrd)
  dsimp only [quotRoundHalfAway]
  by_cases hhalf : 2 * n.tmod d < d
  · -- below one half: the truncated quotient
    have hsmall : |(n : K) / d - (n.tdiv d : ℤ)| < 1 / 2 := by
      rw [hsplit, add_sub_cancel_left, abs_of_nonneg (div_nonneg (by exact_mod_cast hr) hdK.le),
        div_lt_iff₀ hdK]
      have : (2 * n.tmod d : K) < d := by exact_mod_cast hhalf
      linarith
    rw [roundHalfAwayFromZero_eq_of_abs_sub_lt hsmall]
    split_ifs <;> omega
  · -- at least one half: one unit up
    have hhalfK : (d : K) ≤ 2 * n.tmod d := by exact_mod_cast not_lt.mp hhalf
    have hlo : ((n.tdiv d : ℤ) : K) + 1 / 2 ≤ (n : K) / d := by
      rw [hsplit, add_le_add_iff_left, le_div_iff₀ hdK]
      linarith
    have hhi : (n : K) / d < (n.tdiv d : ℤ) + 1 := by
      rw [hsplit]
      linarith
    rw [roundHalfAwayFromZero_eq_add_one hq hlo hhi]
    split_ifs <;> omega

theorem roundHalfAwayFromZero_div_of_pos (n : ℤ) {d : ℤ} (hd : 0 < d) :
    roundHalfAwayFromZero ((n : K) / d) = quotRoundHalfAway n d := by
  rcases le_or_gt 0 n with hn | hn
  · exact roundHalfAwayFromZero_div_of_nonneg hn hd
  · -- a negative numerator: round the negated quotient and negate back
    have h := roundHalfAwayFromZero_div_of_nonneg (K := K) (neg_nonneg.mpr hn.le) hd
    rw [quotRoundHalfAway_neg_left, Int.cast_neg, neg_div, roundHalfAwayFromZero_neg] at h
    exact neg_inj.mp h

/-- Truncating division with the half-away correction rounds the exact
quotient half away from zero. -/
theorem roundHalfAwayFromZero_div (n : ℤ) {d : ℤ} (hd : d ≠ 0) :
    roundHalfAwayFromZero ((n : K) / d) = quotRoundHalfAway n d := by
  rcases lt_or_gt_of_ne hd with hneg | hpos
  · have h := roundHalfAwayFromZero_div_of_pos (K := K) n (neg_pos.mpr hneg)
    rw [quotRoundHalfAway_neg_right n d hd, Int.cast_neg, div_neg, roundHalfAwayFromZero_neg] at h
    exact neg_inj.mp h
  · exact roundHalfAwayFromZero_div_of_pos n hpos

end Field

end Rounding
