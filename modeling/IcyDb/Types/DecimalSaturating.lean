import IcyDb.Types.DecimalChecked

/-!
# Saturating decimal addition

`+` is `saturating_add`: the checked sum when there is one, otherwise an
extreme mantissa at the larger scale.  Where both operands align to the
larger scale, the result is the aligned sum clamped to the `i128` range.
Where an alignment overflows, the extreme is chosen by the operands' signs
and not by the sum's, so the result can land on the wrong side of the left
operand: below it for a non-negative right side, above it for a negative one.
-/

namespace IcyDb

namespace Decimal

/-! ### Saturating addition -/

theorem mul_pow_ten_neg_iff (m : Int) (k : Nat) : m * 10 ^ k < 0 ↔ m < 0 := by
  have hpos : (0 : Int) < 10 ^ k := by positivity
  exact ⟨fun h => Int.neg_of_mul_neg_left h hpos, fun h => Int.mul_neg_of_neg_of_pos h hpos⟩

/-- An aligned mantissa keeps the sign of the mantissa. -/
theorem alignToScale_neg_iff {m x : I128} {cs ts : Nat} (h : alignToScale m cs ts = some x) :
    x.1 < 0 ↔ m.1 < 0 := by
  rw [(alignToScale_spec h).2, mul_pow_ten_neg_iff]

theorem checkedAdd_eq_none_of_left {a b : Decimal}
    (h : alignToScale a.mantissaI128 a.scale (max a.scale b.scale) = none) :
    a.checkedAdd b = none := by
  rw [checkedAdd, h]
  rfl

/-- With both mantissas aligned, the checked sum is the `i128` check of their
sum. -/
theorem checkedAdd_of_aligned {a b : Decimal} {x y : I128}
    (hx : alignToScale a.mantissaI128 a.scale (max a.scale b.scale) = some x)
    (hy : alignToScale b.mantissaI128 b.scale (max a.scale b.scale) = some y) :
    a.checkedAdd b = (checkedI128 (x.1 + y.1)).map fun m =>
      ⟨m.1, max a.scale b.scale, m.2, max_le a.scale_le b.scale_le⟩ := by
  rw [checkedAdd, hx]
  show (alignToScale b.mantissaI128 b.scale (max a.scale b.scale)).bind _ = _
  rw [hy]
  show (checkedI128 (x.1 + y.1)).bind _ = _
  cases checkedI128 (x.1 + y.1) <;> rfl

theorem checkedAdd_eq_none_of_right {a b : Decimal}
    (h : alignToScale b.mantissaI128 b.scale (max a.scale b.scale) = none) :
    a.checkedAdd b = none := by
  rcases hl : alignToScale a.mantissaI128 a.scale (max a.scale b.scale) with _ | lhs
  · exact checkedAdd_eq_none_of_left hl
  · rw [checkedAdd, hl]
    show (alignToScale b.mantissaI128 b.scale (max a.scale b.scale)).bind _ = none
    rw [h]
    rfl

/-- The sign test reads the aligned mantissa as it reads the original one. -/
theorem isSignNegative_eq_of_aligned {a : Decimal} {t : Nat} {x : I128}
    (hx : alignToScale a.mantissaI128 a.scale t = some x) : a.isSignNegative = decide (x.1 < 0) := by
  rw [isSignNegative, decide_eq_decide, alignToScale_neg_iff hx, mantissaI128_val]

theorem saturatingAdd_of_checkedAdd_eq_some {a b c : Decimal} (h : a.checkedAdd b = some c) :
    a.saturatingAdd b = c := by
  rw [saturatingAdd, h]

/-- Without a checked sum, operands of one sign saturate towards it. -/
theorem saturatingAdd_of_same_sign {a b : Decimal} (h : a.checkedAdd b = none)
    (hsign : a.isSignNegative = b.isSignNegative) :
    a.saturatingAdd b =
      saturatingExtreme (max a.scale b.scale) (max_le a.scale_le b.scale_le) a.isSignNegative := by
  rw [saturatingAdd, h]
  exact if_pos hsign

/-- Without a checked sum, operands of opposite signs saturate towards the
sign of the larger one. -/
theorem saturatingAdd_of_opposite_sign {a b : Decimal} (h : a.checkedAdd b = none)
    (hsign : a.isSignNegative ≠ b.isSignNegative) (hcmp : a.cmpDecimal b = .gt) :
    a.saturatingAdd b =
      saturatingExtreme (max a.scale b.scale) (max_le a.scale_le b.scale_le) a.isSignNegative := by
  rw [saturatingAdd, h]
  dsimp only
  rw [if_neg hsign, hcmp]

/-- `+` of two decimals that align to their common scale is the aligned sum
clamped to the `i128` range: it saturates only when that sum overflows, and
towards the sum's sign. -/
theorem decimal_add_clamps_aligned_sum (a b : Decimal) {x y : I128}
    (hx : alignToScale a.mantissaI128 a.scale (max a.scale b.scale) = some x)
    (hy : alignToScale b.mantissaI128 b.scale (max a.scale b.scale) = some y) :
    (a + b).scale = max a.scale b.scale ∧
      (a + b).mantissa = max (-2 ^ 127) (min (2 ^ 127 - 1) (x.1 + y.1)) := by
  change (a.saturatingAdd b).scale = _ ∧ (a.saturatingAdd b).mantissa = _
  have hx2 := x.2
  have hy2 := y.2
  rcases hsum : checkedI128 (x.1 + y.1) with _ | m
  · have hnone : a.checkedAdd b = none := by
      rw [checkedAdd_of_aligned hx hy, hsum]
      rfl
    have hover := checkedI128_eq_none_iff.mp hsum
    have hsa := isSignNegative_eq_of_aligned hx
    -- the aligned sum overflows, which operands of opposite signs cannot do
    have hsign : a.isSignNegative = b.isSignNegative := by
      rw [hsa, isSignNegative_eq_of_aligned hy, decide_eq_decide]
      omega
    rw [saturatingAdd_of_same_sign hnone hsign, hsa]
    refine ⟨rfl, ?_⟩
    rw [mantissa_saturatingExtreme]
    by_cases hneg : x.1 < 0
    · rw [if_pos (decide_eq_true hneg)]
      omega
    · rw [if_neg (by simpa using hneg)]
      omega
  · -- the checked sum exists and is the sum itself
    have hadd : a.checkedAdd b =
        some ⟨m.1, max a.scale b.scale, m.2, max_le a.scale_le b.scale_le⟩ := by
      rw [checkedAdd_of_aligned hx hy, hsum]
      rfl
    rw [saturatingAdd_of_checkedAdd_eq_some hadd]
    have hm := checkedI128_eq_some_iff.mp hsum
    have hm2 := m.2
    refine ⟨rfl, ?_⟩
    show m.1 = _
    omega

/-- `i128::MAX` plus one, both at scale zero, stays at `i128::MAX`. -/
theorem decimal_add_max_plus_one_clamps :
    alignToScale (⟨2 ^ 127 - 1, 0, by decide, by decide⟩ : Decimal).mantissaI128 0 (max 0 0) =
        some ⟨2 ^ 127 - 1, by decide⟩ ∧
      alignToScale (⟨1, 0, by decide, by decide⟩ : Decimal).mantissaI128 0 (max 0 0) =
        some ⟨1, by decide⟩ ∧
      ((⟨2 ^ 127 - 1, 0, by decide, by decide⟩ : Decimal) + ⟨1, 0, by decide, by decide⟩).scale =
        max 0 0 ∧
      ((⟨2 ^ 127 - 1, 0, by decide, by decide⟩ : Decimal) + ⟨1, 0, by decide, by decide⟩).mantissa =
        max (-2 ^ 127) (min (2 ^ 127 - 1) ((2 ^ 127 - 1) + 1)) :=
  ⟨rfl, rfl, decimal_add_clamps_aligned_sum ⟨2 ^ 127 - 1, 0, by decide, by decide⟩
    ⟨1, 0, by decide, by decide⟩ rfl rfl⟩

/-- The positive extreme is `i128::MAX` units in the last place. -/
theorem toRat_saturatingExtreme_false (t : Nat) (h : t ≤ maxSupportedScale) :
    (saturatingExtreme t h false).toRat = ((2 ^ 127 - 1 : Int) : ℚ) / 10 ^ t :=
  rfl

/-- A mantissa whose alignment overflows upwards denotes more than the
largest decimal at the target scale. -/
theorem max_div_lt_of_align_overflow {m : Int} {s t : Nat} (hst : s ≤ t)
    (hover : 2 ^ 127 ≤ m * 10 ^ (t - s)) : ((2 ^ 127 - 1 : Int) : ℚ) / 10 ^ t < m / 10 ^ s := by
  rw [div_lt_div_iff₀ (by positivity) (by positivity)]
  have hpow : (10 : Int) ^ t = 10 ^ (t - s) * 10 ^ s := by rw [← pow_add, Nat.sub_add_cancel hst]
  have hcross : (2 ^ 127 - 1) * 10 ^ s < m * 10 ^ t := by
    have hs : (0 : Int) < 10 ^ s := by positivity
    calc (2 ^ 127 - 1) * 10 ^ s < 2 ^ 127 * 10 ^ s := by omega
      _ ≤ m * 10 ^ (t - s) * 10 ^ s := Int.mul_le_mul_of_nonneg_right hover hs.le
      _ = m * 10 ^ t := by rw [hpow, Int.mul_assoc]
  exact_mod_cast hcross

/-- Adding a non-negative decimal at a larger scale can give less than the
left operand.  When the left mantissa overflows on alignment to the larger
scale and both signs are non-negative, `saturating_add` returns `i128::MAX` at
the larger scale, which lies below the left operand. -/
theorem decimal_add_drops_below_lhs (a b : Decimal) (ha : 0 ≤ a.mantissa) (hb : 0 ≤ b.mantissa)
    (hscale : a.scale < b.scale) (hover : 2 ^ 127 ≤ a.mantissa * 10 ^ (b.scale - a.scale)) :
    0 ≤ b.toRat ∧ (a + b).toRat < a.toRat := by
  have hmax : max a.scale b.scale = b.scale := max_eq_right hscale.le
  have halign : alignToScale a.mantissaI128 a.scale (max a.scale b.scale) = none := by
    rw [hmax]
    exact alignToScale_eq_none (by rw [mantissaI128_val]; omega)
  have hsign : a.isSignNegative = b.isSignNegative := by
    rw [isSignNegative_eq_false ha, isSignNegative_eq_false hb]
  refine ⟨div_nonneg (by exact_mod_cast hb) (by positivity), ?_⟩
  change (a.saturatingAdd b).toRat < a.toRat
  rw [saturatingAdd_of_same_sign (checkedAdd_eq_none_of_left halign) hsign,
    isSignNegative_eq_false ha, toRat_saturatingExtreme_false, hmax]
  exact max_div_lt_of_align_overflow hscale.le hover

/-- `i128::MAX` plus one half: adding `0.5` to the largest integral decimal
divides it by ten. -/
theorem decimal_add_max_plus_half :
    (0 : Int) ≤ 2 ^ 127 - 1 ∧ (0 : Int) ≤ 5 ∧ 0 < 1 ∧ (2 : Int) ^ 127 ≤ (2 ^ 127 - 1) * 10 ^ (1 - 0) ∧
      0 ≤ (⟨5, 1, by decide, by decide⟩ : Decimal).toRat ∧
      ((⟨2 ^ 127 - 1, 0, by decide, by decide⟩ : Decimal) + ⟨5, 1, by decide, by decide⟩).toRat <
        (⟨2 ^ 127 - 1, 0, by decide, by decide⟩ : Decimal).toRat :=
  ⟨by decide, by decide, by decide, by decide,
    decimal_add_drops_below_lhs ⟨2 ^ 127 - 1, 0, by decide, by decide⟩ ⟨5, 1, by decide, by decide⟩
      (by decide) (by decide) (by decide) (by decide)⟩

/-- A non-negative left operand plus a negative right one whose alignment to
the left scale overflows.  The signs differ and the left operand is the
larger, so `saturating_add` returns `i128::MAX` at the left scale. -/
theorem toRat_add_of_neg_align_overflow {a b : Decimal} (ha : 0 ≤ a.mantissa)
    (hb : b.mantissa < 0) (hscale : b.scale < a.scale)
    (hover : b.mantissa * 10 ^ (a.scale - b.scale) < -2 ^ 127) :
    (a + b).toRat = ((2 ^ 127 - 1 : Int) : ℚ) / 10 ^ a.scale := by
  have hmaxs : max a.scale b.scale = a.scale := max_eq_left hscale.le
  have halign : alignToScale b.mantissaI128 b.scale (max a.scale b.scale) = none := by
    rw [hmaxs]
    exact alignToScale_eq_none (by rw [mantissaI128_val]; omega)
  have hsign : a.isSignNegative ≠ b.isSignNegative := by
    rw [isSignNegative_eq_false ha, isSignNegative_eq_true hb]
    decide
  -- `cmp_decimal` is signed: a non-negative decimal is above a negative one
  have hcmp : a.cmpDecimal b = .gt := by
    rw [cmpDecimal_eq_compare_toRat, compare_gt_iff_gt]
    have hb0 : b.toRat < 0 := div_neg_of_neg_of_pos (by exact_mod_cast hb) (by positivity)
    have ha0 : 0 ≤ a.toRat := div_nonneg (by exact_mod_cast ha) (by positivity)
    linarith
  change (a.saturatingAdd b).toRat = _
  rw [saturatingAdd_of_opposite_sign (checkedAdd_eq_none_of_right halign) hsign hcmp,
    isSignNegative_eq_false ha, toRat_saturatingExtreme_false, hmaxs]

/-- On that path the sum lies above every left operand below `i128::MAX`. -/
theorem lt_toRat_add_of_neg_align_overflow {a b : Decimal} (ha : 0 ≤ a.mantissa)
    (hmax : a.mantissa < 2 ^ 127 - 1) (hb : b.mantissa < 0) (hscale : b.scale < a.scale)
    (hover : b.mantissa * 10 ^ (a.scale - b.scale) < -2 ^ 127) : a.toRat < (a + b).toRat := by
  rw [toRat_add_of_neg_align_overflow ha hb hscale hover]
  exact div_lt_div_of_pos_right (by exact_mod_cast hmax) (by positivity)

/-- Adding a negative decimal can give more than the left operand.  When the
right mantissa overflows on alignment to the larger left scale, `+` is
`i128::MAX` at that scale, which lies above any left operand below it. -/
theorem decimal_add_rises_above_lhs (a b : Decimal) (ha : 0 ≤ a.mantissa)
    (hmax : a.mantissa < 2 ^ 127 - 1) (hb : b.mantissa < 0) (hscale : b.scale < a.scale)
    (hover : b.mantissa * 10 ^ (a.scale - b.scale) < -2 ^ 127) :
    b.toRat ≤ 0 ∧ a.toRat < (a + b).toRat := by
  exact ⟨div_nonpos_of_nonpos_of_nonneg (by exact_mod_cast hb.le) (by positivity),
    lt_toRat_add_of_neg_align_overflow ha hmax hb hscale hover⟩

/-- One tenth plus `i128::MIN` is `i128::MAX` tenths, far above one tenth. -/
theorem decimal_add_tenth_plus_min_rises :
    (0 : Int) ≤ 1 ∧ (1 : Int) < 2 ^ 127 - 1 ∧ (-2 ^ 127 : Int) < 0 ∧ 0 < 1 ∧
      (-2 ^ 127 : Int) * 10 ^ (1 - 0) < -2 ^ 127 ∧
      (⟨-2 ^ 127, 0, by decide, by decide⟩ : Decimal).toRat ≤ 0 ∧
      (⟨1, 1, by decide, by decide⟩ : Decimal).toRat <
        ((⟨1, 1, by decide, by decide⟩ : Decimal) + ⟨-2 ^ 127, 0, by decide, by decide⟩).toRat :=
  ⟨by decide, by decide, by decide, by decide, by decide,
    decimal_add_rises_above_lhs ⟨1, 1, by decide, by decide⟩
      ⟨-2 ^ 127, 0, by decide, by decide⟩ (by decide) (by decide) (by decide) (by decide)
      (by decide)⟩

/-- Adding a negative decimal whose alignment overflows can give more than the
left operand, and even a positive sum for a negative one.  Opposite signs send
`saturating_add` to the sign of the larger operand, here the left one, while
the exact sum is negative. -/
theorem decimal_add_saturates_to_wrong_sign (a b : Decimal) (ha : 0 ≤ a.mantissa)
    (hmax : a.mantissa < 2 ^ 127 - 1) (hb : b.mantissa < 0) (hscale : b.scale < a.scale)
    (hover : b.mantissa * 10 ^ (a.scale - b.scale) < -2 ^ 127) :
    a.toRat + b.toRat < 0 ∧ a.toRat < (a + b).toRat := by
  -- `b` written at `a`'s scale is below `-2 ^ 127`, and `a` is below `2 ^ 127 - 1`
  have hbval : b.toRat = ((b.mantissa * 10 ^ (a.scale - b.scale) : Int) : ℚ) / 10 ^ a.scale :=
    (mul_pow_sub_div_pow _ hscale.le).symm
  have hsum : a.toRat + b.toRat < 0 := by
    rw [hbval, toRat, ← add_div]
    apply div_neg_of_neg_of_pos _ (by positivity)
    exact_mod_cast (by omega : a.mantissa + b.mantissa * 10 ^ (a.scale - b.scale) < 0)
  exact ⟨hsum, lt_toRat_add_of_neg_align_overflow ha hmax hb hscale hover⟩

/-- One tenth plus `i128::MIN` saturates to `i128::MAX` tenths. -/
theorem decimal_add_tenth_plus_min :
    (0 : Int) ≤ 1 ∧ (1 : Int) < 2 ^ 127 - 1 ∧ (-2 ^ 127 : Int) < 0 ∧ 0 < 1 ∧
      (-2 ^ 127 : Int) * 10 ^ (1 - 0) < -2 ^ 127 ∧
      (⟨1, 1, by decide, by decide⟩ : Decimal).toRat + (⟨-2 ^ 127, 0, by decide, by decide⟩ : Decimal).toRat < 0 ∧
      (⟨1, 1, by decide, by decide⟩ : Decimal).toRat <
        ((⟨1, 1, by decide, by decide⟩ : Decimal) + ⟨-2 ^ 127, 0, by decide, by decide⟩).toRat :=
  ⟨by decide, by decide, by decide, by decide, by decide,
    decimal_add_saturates_to_wrong_sign ⟨1, 1, by decide, by decide⟩
      ⟨-2 ^ 127, 0, by decide, by decide⟩ (by decide) (by decide) (by decide) (by decide)
      (by decide)⟩

end Decimal

end IcyDb
