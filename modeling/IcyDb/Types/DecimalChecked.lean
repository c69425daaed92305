import Mathlib.Data.Rat.Floor
import IcyDb.Types.DecimalArithmetic
import IcyDb.Numeral.Rounding

/-!
# Checked decimal arithmetic is exact

Every checked result is compared with the rational `toRat` denotes.  A
checked sum, difference or product is exact.  A checked quotient is the exact
quotient rounded half away from zero at the largest scale, from
`DEFAULT_DIVISION_SCALE` down, at which the division operands are `i128`s:
the retry loop is read one pass at a time, and the rounding of the integer
quotient is `Rounding.quotRoundHalfAway`.

The same loop, followed to the scale at which the exponent is zero, shows
that `checked_div` panics on `i128::MIN` divided by `-1`.
-/

namespace IcyDb

namespace Decimal

open Rounding

/-! ### Checked addition and subtraction -/

/-- An aligned mantissa is the mantissa times the power of ten between the
scales. -/
theorem alignToScale_spec {m x : I128} {cs ts : Nat} (h : alignToScale m cs ts = some x) :
    cs ≤ ts ∧ x.1 = m.1 * 10 ^ (ts - cs) := by
  unfold alignToScale at h
  split at h
  · rename_i heq
    cases h
    subst heq
    simp
  · by_cases hle : cs ≤ ts
    · rw [if_pos hle] at h
      obtain ⟨power, hpower, h⟩ := Option.bind_eq_some_iff.mp h
      obtain ⟨factor, hfactor, hx⟩ := Option.bind_eq_some_iff.mp h
      cases hpower
      rw [checkedPow10, checkedI128_eq_some_iff] at hfactor
      rw [checkedI128_eq_some_iff, hfactor] at hx
      exact ⟨hle, hx⟩
    · rw [if_neg hle] at h
      cases h

/-- Alignment fails when the aligned mantissa is no `i128`. -/
theorem alignToScale_eq_none {m : I128} {cs ts : Nat}
    (hover : ¬ (-2 ^ 127 ≤ m.1 * 10 ^ (ts - cs) ∧ m.1 * 10 ^ (ts - cs) < 2 ^ 127)) :
    alignToScale m cs ts = none := by
  rcases halign : alignToScale m cs ts with _ | x
  · rfl
  · obtain ⟨-, hx⟩ := alignToScale_spec halign
    exact absurd (hx ▸ x.2) hover

theorem toRat_of_alignToScale {m x : I128} {cs ts : Nat} (h : alignToScale m cs ts = some x) :
    (x.1 : ℚ) / 10 ^ ts = m.1 / 10 ^ cs := by
  obtain ⟨hle, hx⟩ := alignToScale_spec h
  rw [hx, mul_pow_sub_div_pow _ hle]

/-- A checked sum is exact, at the larger scale. -/
theorem checkedAdd_spec {a b c : Decimal} (h : a.checkedAdd b = some c) :
    c.scale = max a.scale b.scale ∧ c.toRat = a.toRat + b.toRat := by
  obtain ⟨lhs, hlhs, h⟩ := Option.bind_eq_some_iff.mp h
  obtain ⟨rhs, hrhs, h⟩ := Option.bind_eq_some_iff.mp h
  obtain ⟨mantissa, hmantissa, h⟩ := Option.bind_eq_some_iff.mp h
  cases h
  refine ⟨rfl, ?_⟩
  show (mantissa.1 : ℚ) / 10 ^ max a.scale b.scale = a.toRat + b.toRat
  rw [checkedI128_eq_some_iff.mp hmantissa, Int.cast_add, add_div, toRat_of_alignToScale hlhs,
    toRat_of_alignToScale hrhs]
  rfl

/-- A checked difference is exact, at the larger scale. -/
theorem checkedSub_spec {a b c : Decimal} (h : a.checkedSub b = some c) :
    c.scale = max a.scale b.scale ∧ c.toRat = a.toRat - b.toRat := by
  obtain ⟨negated, hnegated, hsum⟩ := Option.bind_eq_some_iff.mp h
  obtain ⟨hscale, hval⟩ := checkedAdd_spec hsum
  have hneg : toRat ⟨negated.1, b.scale, negated.2, b.scale_le⟩ = -b.toRat := by
    simp only [toRat, checkedI128_eq_some_iff.mp hnegated, Int.cast_neg, neg_div]
  rw [hval, hneg, ← sub_eq_add_neg]
  exact ⟨hscale, rfl⟩

/-! ### Checked multiplication -/

/-- Stripping trailing zeros keeps the value: the loop only divides a
mantissa that ten divides. -/
theorem checkedFromMantissaScale_spec {m : I128} {s : Nat} {d : Decimal}
    (h : checkedFromMantissaScale m s = some d) : d.toRat = m.1 / 10 ^ s := by
  induction s generalizing m with
  | zero =>
    cases h
    rfl
  | succ s ih =>
    unfold checkedFromMantissaScale at h
    split at h
    · cases h
      rfl
    · split at h
      · rename_i hzero
        cases h
        simp [toRat, hzero]
      · split at h
        · cases h
        · rename_i hmod
          have hdvd : (10 : Int) ∣ m.1 := Int.dvd_of_tmod_eq_zero (not_not.mp hmod)
          have hcast : ((m.1.tdiv 10 : Int) : ℚ) = m.1 / 10 := by
            rw [eq_div_iff (by norm_num)]
            exact_mod_cast Int.tdiv_mul_cancel hdvd
          rw [ih h]
          show ((m.1.tdiv 10 : Int) : ℚ) / 10 ^ s = m.1 / 10 ^ (s + 1)
          rw [hcast, pow_succ (10 : ℚ) s, div_div, mul_comm]

/-- A checked product is exact. -/
theorem checkedMul_spec {a b c : Decimal} (h : a.checkedMul b = some c) :
    c.toRat = a.toRat * b.toRat := by
  obtain ⟨mantissa, hmantissa, hc⟩ := Option.bind_eq_some_iff.mp h
  rw [checkedFromMantissaScale_spec hc, checkedI128_eq_some_iff.mp hmantissa, toRat, toRat]
  push_cast
  rw [pow_add]
  field_simp

/-! ### Division -/

theorem checkedU128_of_lt {x : Nat} (h : x < 2 ^ 128) : checkedU128 x = some x := by
  rw [checkedU128, if_pos h]

/-- A remainder is smaller than the `i128` divisor, so doubling it fits a
`u128`. -/
theorem checkedU128_twice_tmod (n d : I128) (hd : d.1 ≠ 0) :
    checkedU128 ((n.1.tmod d.1).natAbs * 2) = some ((n.1.tmod d.1).natAbs * 2) := by
  apply checkedU128_of_lt
  have hlt : (n.1.tmod d.1).natAbs < d.1.natAbs := by
    rw [Int.natAbs_tmod]
    exact Nat.mod_lt _ (Int.natAbs_pos.mpr hd)
  have hd' : d.1.natAbs ≤ 2 ^ 127 := by omega
  omega

/-- Past the panic, `div_round_half_away_from_zero` is the truncated quotient
and one of its three corrections; the doubled remainder always fits. -/
theorem divRoundHalfAwayFromZero_eq {n d q : I128} (hd : d.1 ≠ 0) (hq : divI128 n d = .ok q) :
    divRoundHalfAwayFromZero n d = .ok
      (if n.1.tmod d.1 = 0 then some q
      else if (n.1.tmod d.1).natAbs * 2 < d.1.natAbs then some q
      else if (n.1 < 0 ↔ d.1 < 0) then checkedI128 (q.1 + 1) else checkedI128 (q.1 - 1)) := by
  rw [divRoundHalfAwayFromZero, if_neg hd]
  show divI128 n d >>= _ = _
  rw [hq, Except.ok_bind]
  dsimp only
  rw [checkedU128_twice_tmod n d hd]
  rfl

/-- `div_round_half_away_from_zero` computes the half-away rounding of the
integer quotient whenever it returns. -/
theorem divRoundHalfAwayFromZero_spec {n d m : I128}
    (h : divRoundHalfAwayFromZero n d = .ok (some m)) :
    d.1 ≠ 0 ∧ m.1 = quotRoundHalfAway n.1 d.1 := by
  by_cases hd : d.1 = 0
  · rw [divRoundHalfAwayFromZero, if_pos hd] at h
    cases h
  obtain ⟨q, hq⟩ : ∃ q, divI128 n d = .ok q := by
    unfold divRoundHalfAwayFromZero at h
    rw [if_neg hd] at h
    obtain ⟨q, hq, -⟩ := Except.bind_eq_ok_iff.mp h
    exact ⟨q, hq⟩
  rw [divRoundHalfAwayFromZero_eq hd hq, Except.ok.injEq] at h
  obtain ⟨-, -, hq⟩ := divI128_eq_ok_iff.mp hq
  refine ⟨hd, ?_⟩
  dsimp only [quotRoundHalfAway]
  rw [← hq]
  -- the branches of the source against the branches of the rule
  by_cases hr : n.1.tmod d.1 = 0
  · rw [if_pos hr] at h
    rw [if_pos hr, ← Option.some_inj.mp h]
  rw [if_neg hr] at h
  rw [if_neg hr]
  by_cases hlt : (n.1.tmod d.1).natAbs * 2 < d.1.natAbs
  · rw [if_pos hlt] at h
    rw [if_pos (by omega), ← Option.some_inj.mp h]
  rw [if_neg hlt] at h
  rw [if_neg (by omega)]
  split at h
  · rename_i hsign
    rw [if_pos hsign, checkedI128_eq_some_iff.mp h]
  · rename_i hsign
    rw [if_neg hsign, checkedI128_eq_some_iff.mp h]

/-- The integer quotient of the division operands is the decimal quotient
scaled to `target_scale`. -/
theorem divisionOperands_spec {lhs rhs : Decimal} {t : Nat} {n d : I128}
    (h : divisionOperands lhs rhs t = some (n, d)) (hrhs : rhs.mantissa ≠ 0) :
    d.1 ≠ 0 ∧ (n.1 : ℚ) / d.1 = lhs.toRat / rhs.toRat * 10 ^ t := by
  have hr : (rhs.mantissa : ℚ) ≠ 0 := Int.cast_ne_zero.mpr hrhs
  dsimp only [divisionOperands] at h
  split at h
  · -- the numerator takes the power of ten
    rename_i hexp
    obtain ⟨factor, hfactor, h⟩ := Option.bind_eq_some_iff.mp h
    obtain ⟨numerator, hnumerator, h⟩ := Option.bind_eq_some_iff.mp h
    cases h
    rw [checkedPow10, checkedI128_eq_some_iff] at hfactor
    rw [checkedI128_eq_some_iff, hfactor] at hnumerator
    obtain ⟨k, hk⟩ : ∃ k : Nat, t + rhs.scale = k + lhs.scale := ⟨(t + rhs.scale - lhs.scale : Int).toNat, by omega⟩
    have hkexp : ((t + rhs.scale - lhs.scale : Int)).toNat = k := by omega
    have hpow : (10 : ℚ) ^ t * 10 ^ rhs.scale = 10 ^ k * 10 ^ lhs.scale := by
      rw [← pow_add, ← pow_add, hk]
    refine ⟨hrhs, ?_⟩
    rw [hnumerator, hkexp, mantissaI128_val, toRat, toRat]
    push_cast
    field_simp
    linear_combination (-(lhs.mantissa : ℚ)) * hpow
  · -- the denominator takes the power of ten
    rename_i hexp
    obtain ⟨factor, hfactor, h⟩ := Option.bind_eq_some_iff.mp h
    obtain ⟨denominator, hdenominator, h⟩ := Option.bind_eq_some_iff.mp h
    cases h
    rw [checkedPow10, checkedI128_eq_some_iff] at hfactor
    rw [checkedI128_eq_some_iff, hfactor] at hdenominator
    obtain ⟨k, hk⟩ : ∃ k : Nat, lhs.scale = t + rhs.scale + k := ⟨lhs.scale - t - rhs.scale, by omega⟩
    have hkexp : ((t + rhs.scale - lhs.scale : Int)).natAbs = k := by omega
    have hpow : (10 : ℚ) ^ lhs.scale = 10 ^ t * 10 ^ rhs.scale * 10 ^ k := by
      rw [← pow_add, ← pow_add, hk]
    rw [hdenominator, hkexp]
    refine ⟨mul_ne_zero hrhs (pow_ne_zero _ (by norm_num)), ?_⟩
    rw [mantissaI128_val, toRat, toRat, hpow]
    push_cast
    field_simp

/-- One pass of the retry loop at a supported scale either found no operands
and retried, or rounded the quotient at that scale. -/
theorem divisionAttempt_eq_ok_some {lhs rhs q : Decimal} {t : Nat}
    {retry : Except ArithmeticPanic (Option Decimal)} (ht : t ≤ maxSupportedScale)
    (h : divisionAttempt lhs rhs t retry = .ok (some q)) :
    (divisionOperands lhs rhs t = none ∧ retry = .ok (some q)) ∨
      ∃ n d m, divisionOperands lhs rhs t = some (n, d) ∧
        divRoundHalfAwayFromZero n d = .ok (some m) ∧ q.toRat = m.1 / 10 ^ t ∧ q.scale ≤ t := by
  unfold divisionAttempt at h
  rcases hops : divisionOperands lhs rhs t with _ | ⟨n, d⟩
  · rw [hops] at h
    exact .inl ⟨rfl, h⟩
  · rw [hops] at h
    obtain ⟨rounded, hrounded, h⟩ := Except.bind_eq_ok_iff.mp h
    rcases rounded with _ | m
    · cases h
    · dsimp only at h
      rw [checkedFromMantissaScale_of_le m ht] at h
      cases h
      refine .inr ⟨n, d, m, rfl, hrounded, toRat_normalize _, scale_normalize_le _⟩

/-- The retry loop returns the quotient rounded at the largest scale, from
`target_scale` down, at which the operands are `i128`s. -/
theorem checkedDivLoop_spec {lhs rhs q : Decimal} :
    ∀ {t : Nat}, t ≤ maxSupportedScale → checkedDivLoop lhs rhs t = .ok (some q) →
      ∃ s ≤ t, (∀ s', s < s' → s' ≤ t → divisionOperands lhs rhs s' = none) ∧
        ∃ n d m, divisionOperands lhs rhs s = some (n, d) ∧
          divRoundHalfAwayFromZero n d = .ok (some m) ∧ q.toRat = m.1 / 10 ^ s ∧ q.scale ≤ s
  | 0, ht, h => by
    rcases divisionAttempt_eq_ok_some ht h with ⟨-, hretry⟩ | hfound
    · cases hretry
    · exact ⟨0, le_rfl, fun s' hs' hle => absurd hle (by omega), hfound⟩
  | t + 1, ht, h => by
    rcases divisionAttempt_eq_ok_some ht h with ⟨hnone, hretry⟩ | hfound
    · -- no operands at this scale: the loop's answer comes from a lower one
      obtain ⟨s, hs, habove, hfound⟩ := checkedDivLoop_spec (by omega) hretry
      refine ⟨s, by omega, fun s' hs' hle => ?_, hfound⟩
      rcases Nat.lt_or_eq_of_le hle with hlt | rfl
      · exact habove s' hs' (by omega)
      · exact hnone
    · exact ⟨t + 1, le_rfl, fun s' hs' hle => absurd hle (by omega), hfound⟩

/-- A divisor that is not zero keeps a nonzero mantissa when normalized. -/
theorem mantissa_normalize_ne_zero {b : Decimal} (hzero : ¬ b.isZero = true) :
    b.normalize.mantissa ≠ 0 := by
  intro hb
  have h0 : b.toRat = 0 := by rw [← toRat_normalize, toRat, hb, Int.cast_zero, zero_div]
  rw [toRat, div_eq_zero_iff] at h0
  simp_all [isZero]

theorem checkedDiv_of_not_isZero (a : Decimal) {b : Decimal} (hzero : ¬ b.isZero = true) :
    a.checkedDiv b = checkedDivLoop a.normalize b.normalize defaultDivisionScale := by
  rw [checkedDiv, if_neg hzero]

/-- `checked_div` rounds the exact quotient half away from zero at the
largest scale up to `DEFAULT_DIVISION_SCALE` at which the operands of the
normalized sides are `i128`s. -/
theorem checkedDiv_spec {a b q : Decimal} (h : a.checkedDiv b = .ok (some q)) :
    q.scale ≤ defaultDivisionScale ∧
      ∃ s ≤ defaultDivisionScale, (divisionOperands a.normalize b.normalize s).isSome ∧
        (∀ s', s < s' → s' ≤ defaultDivisionScale →
          divisionOperands a.normalize b.normalize s' = none) ∧
        q.toRat = roundHalfAwayFromZero (a.toRat / b.toRat * 10 ^ s) / 10 ^ s := by
  by_cases hzero : b.isZero = true
  · rw [checkedDiv, if_pos hzero] at h
    cases h
  rw [checkedDiv_of_not_isZero a hzero] at h
  obtain ⟨s, hs, habove, n, d, m, hops, hround, hq, hscale⟩ := checkedDivLoop_spec (by decide) h
  obtain ⟨hd, hquot⟩ := divisionOperands_spec hops (mantissa_normalize_ne_zero hzero)
  obtain ⟨-, hm⟩ := divRoundHalfAwayFromZero_spec hround
  refine ⟨by unfold defaultDivisionScale at hs ⊢; omega, s, hs, by rw [hops]; rfl, habove, ?_⟩
  rw [hq, hm, ← roundHalfAwayFromZero_div (K := ℚ) n.1 hd, hquot, toRat_normalize, toRat_normalize]

/-- A rounded quotient is within half a unit of its last place of the exact
quotient. -/
theorem abs_sub_div_le_of_round (x : ℚ) (s : Nat) :
    |(roundHalfAwayFromZero (x * 10 ^ s) : ℚ) / 10 ^ s - x| ≤ 1 / 10 ^ s / 2 := by
  set r := roundHalfAwayFromZero (x * 10 ^ s) with hr
  have hpos : (0 : ℚ) < 10 ^ s := by positivity
  have hbound : |x * 10 ^ s - r| ≤ 1 / 2 := abs_sub_roundHalfAwayFromZero_le (x * 10 ^ s)
  have hscaled : (r : ℚ) / 10 ^ s - x = -((x * 10 ^ s - r) / 10 ^ s) := by
    field_simp
    ring
  calc |(r : ℚ) / 10 ^ s - x| = |x * 10 ^ s - r| / 10 ^ s := by
        rw [hscaled, abs_neg, abs_div, abs_of_pos hpos]
    _ ≤ 1 / 2 / 10 ^ s := div_le_div_of_nonneg_right hbound hpos.le
    _ = 1 / 10 ^ s / 2 := by ring

/-- Checked decimal arithmetic is exact or correctly rounded.  A checked sum,
difference or product is the exact rational result at a supported scale.  A
checked quotient is the exact quotient rounded half away from zero at the
largest scale `s ≤ 18` at which the operands of the normalized sides are
`i128`s, so it is within half a unit in the `s`-th place.  A zero divisor
gives no quotient. -/
theorem decimal_checked_arithmetic_exact (a b : Decimal) :
    (∀ c, a.checkedAdd b = some c → c.scale ≤ maxSupportedScale ∧ c.toRat = a.toRat + b.toRat) ∧
    (∀ c, a.checkedSub b = some c → c.scale ≤ maxSupportedScale ∧ c.toRat = a.toRat - b.toRat) ∧
    (∀ c, a.checkedMul b = some c → c.scale ≤ maxSupportedScale ∧ c.toRat = a.toRat * b.toRat) ∧
    (∀ q, a.checkedDiv b = .ok (some q) → q.scale ≤ defaultDivisionScale ∧
      ∃ s ≤ defaultDivisionScale, (divisionOperands a.normalize b.normalize s).isSome ∧
        (∀ s', s < s' → s' ≤ defaultDivisionScale →
          divisionOperands a.normalize b.normalize s' = none) ∧
        q.toRat = roundHalfAwayFromZero (a.toRat / b.toRat * 10 ^ s) / 10 ^ s ∧
        |q.toRat - a.toRat / b.toRat| ≤ 1 / 10 ^ s / 2) ∧
    (b.isZero = true → a.checkedDiv b = .ok none) := by
  refine ⟨fun c h => ⟨c.scale_le, (checkedAdd_spec h).2⟩,
    fun c h => ⟨c.scale_le, (checkedSub_spec h).2⟩, fun c h => ⟨c.scale_le, checkedMul_spec h⟩,
    fun q h => ?_, fun hzero => ?_⟩
  · obtain ⟨hscale, s, hs, hfit, habove, hq⟩ := checkedDiv_spec h
    exact ⟨hscale, s, hs, hfit, habove, hq, hq ▸ abs_sub_div_le_of_round _ s⟩
  · rw [checkedDiv, if_pos hzero]
    rfl

/-! ### The retry loop -/

theorem divisionAttempt_of_none {lhs rhs : Decimal} {t : Nat}
    {retry : Except ArithmeticPanic (Option Decimal)} (h : divisionOperands lhs rhs t = none) :
    divisionAttempt lhs rhs t retry = retry := by
  rw [divisionAttempt, h]

theorem divisionAttempt_of_panic {lhs rhs : Decimal} {t : Nat} {n d : I128}
    {retry : Except ArithmeticPanic (Option Decimal)} {e : ArithmeticPanic}
    (hops : divisionOperands lhs rhs t = some (n, d))
    (hround : divRoundHalfAwayFromZero n d = .error e) :
    divisionAttempt lhs rhs t retry = .error e := by
  rw [divisionAttempt, hops]
  show divRoundHalfAwayFromZero n d >>= _ = _
  rw [hround]
  rfl

/-- Scales without operands are skipped: the loop goes on at the next lower
scale. -/
theorem checkedDivLoop_of_none_above {lhs rhs : Decimal} {s : Nat} :
    ∀ {t : Nat}, s ≤ t → (∀ s', s < s' → s' ≤ t → divisionOperands lhs rhs s' = none) →
      checkedDivLoop lhs rhs t = checkedDivLoop lhs rhs s
  | 0, hs, _ => by rw [Nat.le_zero.mp hs]
  | t + 1, hs, hnone => by
    rcases Nat.lt_or_eq_of_le hs with hlt | rfl
    · rw [checkedDivLoop, divisionAttempt_of_none (hnone (t + 1) hlt le_rfl)]
      exact checkedDivLoop_of_none_above (by omega) fun s' hs' hle => hnone s' hs' (by omega)
    · rfl

theorem checkedDivLoop_eq_attempt (lhs rhs : Decimal) (t : Nat) :
    ∃ retry, checkedDivLoop lhs rhs t = divisionAttempt lhs rhs t retry := by
  cases t with
  | zero => exact ⟨_, rfl⟩
  | succ t => exact ⟨_, rfl⟩

theorem divRoundHalfAwayFromZero_of_overflow {n d : I128} (hn : n.1 = -2 ^ 127) (hd : d.1 = -1) :
    divRoundHalfAwayFromZero n d = .error .divideWithOverflow := by
  have hdiv : divI128 n d = .error .divideWithOverflow := by
    rw [divI128, dif_neg (by omega), dif_pos ⟨hn, hd⟩]
  rw [divRoundHalfAwayFromZero, if_neg (by omega)]
  show divI128 n d >>= _ = _
  rw [hdiv]
  rfl

/-- The numerator scaled by a positive power of ten leaves the `i128` range
when it is `i128::MIN`. -/
theorem divisionOperands_of_min_numerator {lhs rhs : Decimal} {t : Nat}
    (hmin : lhs.mantissa = -2 ^ 127) (hexp : lhs.scale < t + rhs.scale) :
    divisionOperands lhs rhs t = none := by
  dsimp only [divisionOperands]
  rw [if_pos (by omega)]
  rcases hpow : checkedPow10 (t + rhs.scale - lhs.scale : Int).toNat with _ | factor
  · rfl
  · rw [checkedPow10, checkedI128_eq_some_iff] at hpow
    show (checkedI128 (lhs.mantissa * factor.1)).bind _ = none
    have hten : (10 : Int) ≤ factor.1 := by
      rw [hpow]
      calc (10 : Int) = 10 ^ 1 := by norm_num
        _ ≤ 10 ^ (t + rhs.scale - lhs.scale : Int).toNat :=
          pow_le_pow_right₀ (by norm_num) (by omega)
    have hover : lhs.mantissa * factor.1 < -2 ^ 127 := by
      rw [hmin]
      nlinarith
    rw [checkedI128_eq_none_iff.mpr (by omega)]
    rfl

/-- At the exponent zero the operands are the mantissas themselves. -/
theorem divisionOperands_of_exponent_zero {lhs rhs : Decimal} {t : Nat}
    (hexp : t + rhs.scale = lhs.scale) :
    divisionOperands lhs rhs t = some (lhs.mantissaI128, rhs.mantissaI128) := by
  dsimp only [divisionOperands]
  have hzero : (t + rhs.scale - lhs.scale : Int).toNat = 0 := by omega
  rw [if_pos (by omega), hzero]
  show (checkedI128 (10 ^ 0)).bind _ = _
  rw [checkedI128_of_mem (by norm_num)]
  show (checkedI128 (lhs.mantissa * 10 ^ 0)).bind _ = _
  rw [pow_zero, Int.mul_one, checkedI128_of_mem lhs.mantissa_mem]
  rfl


/-! ### When `checked_div` has no quotient -/

/-- The rounding step always returns, except where Rust's `/` panics: a
remainder at least half the divisor needs a divisor of two or more, which
halves the quotient and leaves room for the step away from zero. -/
theorem divRoundHalfAwayFromZero_isSome {n d : I128} (hd : d.1 ≠ 0)
    (hover : ¬ (n.1 = -2 ^ 127 ∧ d.1 = -1)) : ∃ m, divRoundHalfAwayFromZero n d = .ok (some m) := by
  have hq : divI128 n d = .ok ⟨n.1.tdiv d.1, tdiv_mem n.2 hd hover⟩ := divI128_eq_ok_iff.mpr ⟨hd, hover, rfl⟩
  rw [divRoundHalfAwayFromZero_eq hd hq]
  by_cases hr : n.1.tmod d.1 = 0
  · exact ⟨_, by rw [if_pos hr]⟩
  rw [if_neg hr]
  by_cases hlt : (n.1.tmod d.1).natAbs * 2 < d.1.natAbs
  · exact ⟨_, by rw [if_pos hlt]⟩
  rw [if_neg hlt]
  -- the quotient is at most half of `2 ^ 127` in magnitude
  have hrd : (n.1.tmod d.1).natAbs < d.1.natAbs :=
    Int.natAbs_tmod n.1 d.1 ▸ Nat.mod_lt _ (Int.natAbs_pos.mpr hd)
  have hqd : (n.1.tdiv d.1).natAbs = n.1.natAbs / d.1.natAbs := Int.natAbs_tdiv n.1 d.1
  have htwo : 2 ≤ d.1.natAbs := by omega
  have hhalf : n.1.natAbs / d.1.natAbs ≤ n.1.natAbs / 2 := Nat.div_le_div_left htwo (by decide)
  have hn := n.2
  have hup : -2 ^ 127 ≤ n.1.tdiv d.1 + 1 ∧ n.1.tdiv d.1 + 1 < 2 ^ 127 := by omega
  have hdown : -2 ^ 127 ≤ n.1.tdiv d.1 - 1 ∧ n.1.tdiv d.1 - 1 < 2 ^ 127 := by omega
  split
  · exact ⟨_, by rw [checkedI128_of_mem hup]⟩
  · exact ⟨_, by rw [checkedI128_of_mem hdown]⟩

/-- A retry loop that reaches a scale with operands returns there, a quotient
unless the division panics. -/
theorem checkedDivLoop_of_operands {lhs rhs : Decimal} {s t : Nat} {n d : I128}
    (ht : t ≤ maxSupportedScale) (hs : s ≤ t)
    (habove : ∀ s', s < s' → s' ≤ t → divisionOperands lhs rhs s' = none)
    (hops : divisionOperands lhs rhs s = some (n, d)) (hd : d.1 ≠ 0) :
    (∃ q, checkedDivLoop lhs rhs t = .ok (some q)) ∨
      checkedDivLoop lhs rhs t = .error .divideWithOverflow := by
  rw [checkedDivLoop_of_none_above hs habove]
  obtain ⟨retry, hretry⟩ := checkedDivLoop_eq_attempt lhs rhs s
  rw [hretry]
  by_cases hover : n.1 = -2 ^ 127 ∧ d.1 = -1
  · exact .inr (divisionAttempt_of_panic hops (divRoundHalfAwayFromZero_of_overflow hover.1 hover.2))
  · obtain ⟨m, hm⟩ := divRoundHalfAwayFromZero_isSome hd hover
    refine .inl ⟨(⟨m.1, s, m.2, hs.trans ht⟩ : Decimal).normalize, ?_⟩
    rw [divisionAttempt, hops]
    show divRoundHalfAwayFromZero n d >>= _ = _
    rw [hm]
    dsimp only [Except.ok_bind]
    rw [checkedFromMantissaScale_of_le m (hs.trans ht)]
    rfl

/-- A loop that finds operands at no scale returns no quotient. -/
theorem checkedDivLoop_of_none {lhs rhs : Decimal} {t : Nat}
    (hnone : ∀ s ≤ t, divisionOperands lhs rhs s = none) : checkedDivLoop lhs rhs t = .ok none := by
  rw [checkedDivLoop_of_none_above (Nat.zero_le t) fun s' _ hle => hnone s' hle]
  rw [checkedDivLoop, divisionAttempt_of_none (hnone 0 (Nat.zero_le t))]
  rfl

/-- `checked_div` gives no quotient exactly when the divisor is zero or no
scale up to `DEFAULT_DIVISION_SCALE` has operands that are `i128`s; every
other division returns a quotient or panics. -/
theorem decimal_checked_div_none_iff (a b : Decimal) :
    a.checkedDiv b = .ok none ↔
      b.isZero = true ∨ ∀ s ≤ defaultDivisionScale, divisionOperands a.normalize b.normalize s = none := by
  constructor
  · intro h
    by_contra hcon
    simp only [not_or, not_forall] at hcon
    obtain ⟨hnz, s₀, hs₀, hfit₀⟩ := hcon
    -- the largest scale with operands is where the loop stops
    let P : Nat → Prop := fun s => (divisionOperands a.normalize b.normalize s).isSome
    have hP := Nat.findGreatest_spec (P := P) hs₀ (Option.isSome_iff_ne_none.mpr hfit₀)
    have hle := Nat.findGreatest_le (P := P) defaultDivisionScale
    have habove : ∀ s', Nat.findGreatest P defaultDivisionScale < s' → s' ≤ defaultDivisionScale →
        divisionOperands a.normalize b.normalize s' = none := fun s' hlt hle' =>
      Option.not_isSome_iff_eq_none.mp (Nat.findGreatest_is_greatest hlt hle')
    obtain ⟨⟨n, d⟩, hops⟩ := Option.isSome_iff_exists.mp hP
    obtain ⟨hd, -⟩ := divisionOperands_spec hops (mantissa_normalize_ne_zero hnz)
    have hdiv := checkedDiv_of_not_isZero a hnz
    rcases checkedDivLoop_of_operands (by decide) hle habove hops hd with ⟨q, hq⟩ | hpanic
    · rw [hdiv, hq] at h
      cases h
    · rw [hdiv, hpanic] at h
      cases h
  · rintro (hzero | hnone)
    · rw [checkedDiv, if_pos hzero]
      rfl
    · by_cases hzero : b.isZero = true
      · rw [checkedDiv, if_pos hzero]
        rfl
      · rw [checkedDiv_of_not_isZero a hzero]
        exact checkedDivLoop_of_none hnone

end Decimal

/-- `checked_div` panics on `i128::MIN` divided by `-1` instead of returning
`None`, and so does checked SQL division.  Every scale above the one at which
the exponent is zero multiplies `i128::MIN` by a power of ten and overflows;
at that scale the operands are `i128::MIN` and `-1`, and Rust's `/` panics. -/
theorem decimal_checked_div_panics_on_min_by_neg_one (a b : Decimal) (ha : a.mantissa = -2 ^ 127)
    (hb : b.mantissa = -1) (hscale : b.scale ≤ a.scale)
    (hgap : a.scale ≤ b.scale + Decimal.defaultDivisionScale) :
    a.checkedDiv b = .error .divideWithOverflow ∧
      applyDecimalArithmeticChecked .div a b = .error .divideWithOverflow := by
  have hza : a.normalize = a := Decimal.normalize_eq_self (by rw [ha]; norm_num)
  have hzb : b.normalize = b := Decimal.normalize_eq_self (by rw [hb]; norm_num)
  have hnz : b.isZero = false := by simp [Decimal.isZero, hb]
  -- the first scale with operands is `a.scale - b.scale`, and dividing there panics
  have hloop : Decimal.checkedDivLoop a b Decimal.defaultDivisionScale =
      .error .divideWithOverflow := by
    rw [Decimal.checkedDivLoop_of_none_above (s := a.scale - b.scale) (by omega)
      fun s' hs' _ => Decimal.divisionOperands_of_min_numerator ha (by omega)]
    obtain ⟨retry, hretry⟩ := Decimal.checkedDivLoop_eq_attempt a b (a.scale - b.scale)
    rw [hretry]
    exact Decimal.divisionAttempt_of_panic (Decimal.divisionOperands_of_exponent_zero (by omega))
      (Decimal.divRoundHalfAwayFromZero_of_overflow ha hb)
  have hdiv : a.checkedDiv b = .error .divideWithOverflow := by
    rw [Decimal.checkedDiv, if_neg (by rw [hnz]; decide), hza, hzb, hloop]
  refine ⟨hdiv, ?_⟩
  rw [applyDecimalArithmeticChecked, if_neg (by rw [hnz]; decide)]
  show a.checkedDiv b >>= _ = _
  rw [hdiv]
  rfl

/-- `i128::MIN / -1` panics. -/
theorem decimal_checked_div_min_by_neg_one :
    (⟨-2 ^ 127, 0, by decide, by decide⟩ : Decimal).mantissa = -2 ^ 127 ∧
      (⟨-1, 0, by decide, by decide⟩ : Decimal).mantissa = -1 ∧ 0 ≤ 0 ∧
      0 ≤ 0 + Decimal.defaultDivisionScale ∧
      (⟨-2 ^ 127, 0, by decide, by decide⟩ : Decimal).checkedDiv ⟨-1, 0, by decide, by decide⟩ =
        .error .divideWithOverflow ∧
      applyDecimalArithmeticChecked .div ⟨-2 ^ 127, 0, by decide, by decide⟩
        ⟨-1, 0, by decide, by decide⟩ = .error .divideWithOverflow :=
  ⟨rfl, rfl, le_rfl, Nat.zero_le _,
    decimal_checked_div_panics_on_min_by_neg_one ⟨-2 ^ 127, 0, by decide, by decide⟩
      ⟨-1, 0, by decide, by decide⟩ rfl rfl le_rfl (Nat.zero_le _)⟩

end IcyDb
