import IcyDb.Types.Decimal
import IcyDb.Order.Comparator

/-!
# `Decimal::cmp` is numeric order

A decimal denotes the rational `mantissa / 10 ^ scale`.  `cmp_decimal` never
computes that rational: after normalization it compares signs, then the
decimal exponent of the leading digit (`digits - 1 - scale`), then the digit
strings padded with zeros.  This file proves that the result is nevertheless
the comparison of the denoted rationals, for every pair of decimals, so that
`Decimal::cmp` is a total preorder whose ties are exactly the equal values.

The argument for two positive magnitudes `x`, `y` at scales `s`, `t` is the
one of scientific notation: a number with `L` digits lies in
`[10 ^ (L - 1), 10 ^ L)`, so a larger exponent means a larger number, and at
equal exponents the zero-padded digit strings have one length and compare as
`x * 10 ^ t` and `y * 10 ^ s` do.
-/

namespace IcyDb

namespace Decimal

open Positional ByteOrder Comparator

/-- The rational a decimal denotes. -/
def toRat (d : Decimal) : ℚ := d.mantissa / 10 ^ d.scale

/-! ### Digit strings -/

theorem toNat_digitToAscii {x : Nat} (hx : x < 10) : (digitToAscii x).toNat = 0x30 + x := by
  simp only [digitToAscii, hx, if_true, UInt8.toNat_ofNat']
  omega

/-- ASCII codes of digits are ordered as the digits. -/
theorem compare_digitToAscii {x y : Nat} (hx : x < 10) (hy : y < 10) :
    compare (digitToAscii x) (digitToAscii y) = compare x y := by
  rw [compare_uint8, toNat_digitToAscii hx, toNat_digitToAscii hy]
  exact compare_eq_compare_of_lt_iff (by omega) (by omega)

/-- The printed digits of a non-zero magnitude are its decimal numeral. -/
theorem writeU128DecimalDigits_eq {n : Nat} (hn : n ≠ 0) :
    writeU128DecimalDigits n = (msbDigits 10 n).map digitToAscii := by
  induction n using Nat.strong_induction_on with
  | _ n ih =>
    rw [writeU128DecimalDigits]
    split
    · rename_i hlt
      rw [msbDigits, Nat.digits_of_lt 10 n hn hlt]
      rfl
    · -- the last digit is written after the digits of the quotient
      have hq : n / 10 ≠ 0 := by omega
      rw [ih (n / 10) (by omega) hq, msbDigits, msbDigits,
        Nat.digits_def' (n := n) (by norm_num) (by omega), List.reverse_cons, List.map_append,
        List.map_singleton]

theorem length_writeU128DecimalDigits {n : Nat} (hn : n ≠ 0) :
    (writeU128DecimalDigits n).length = (msbDigits 10 n).length := by
  rw [writeU128DecimalDigits_eq hn, List.length_map]

/-- The position-by-position loop compares the strings padded with zeros to
a common length. -/
theorem cmpSignificandDigits_eq (xs ys : List UInt8) :
    cmpSignificandDigits xs ys =
      compare (xs ++ List.replicate (ys.length - xs.length) 0x30)
        (ys ++ List.replicate (xs.length - ys.length) 0x30) := by
  fun_induction cmpSignificandDigits xs ys with
  | case1 => simp
  | case2 l ls ih =>
    rw [ih]
    simp [List.replicate_succ, List.compare_cons_cons]
  | case3 r rs ih =>
    rw [ih]
    simp [List.replicate_succ, List.compare_cons_cons]
  | case4 l ls r rs ih =>
    rw [ih]
    simp [List.compare_cons_cons]

/-- Printed significands compare as the magnitudes padded with zeros to a
common number of digits. -/
theorem cmpSignificandDigits_writeU128DecimalDigits {x y : Nat} (hx : x ≠ 0) (hy : y ≠ 0) :
    cmpSignificandDigits (writeU128DecimalDigits x) (writeU128DecimalDigits y) =
      compare (x * 10 ^ ((msbDigits 10 y).length - (msbDigits 10 x).length))
        (y * 10 ^ ((msbDigits 10 x).length - (msbDigits 10 y).length)) := by
  have hdig : ∀ (n k : Nat) (d : Nat), d ∈ msbDigits 10 n ++ List.replicate k 0 → d < 10 := by
    intro n k d hd
    rcases List.mem_append.mp hd with hd | hd
    · exact lt_base_of_mem_msbDigits (by norm_num) hd
    · rw [List.eq_of_mem_replicate hd]
      norm_num
  have hpad : ∀ (n k : Nat), (msbDigits 10 n).map digitToAscii ++ List.replicate k 0x30 =
      (msbDigits 10 n ++ List.replicate k 0).map digitToAscii := by
    intro n k
    rw [List.map_append, List.map_replicate]
    rfl
  rw [cmpSignificandDigits_eq, length_writeU128DecimalDigits hx, length_writeU128DecimalDigits hy,
    writeU128DecimalDigits_eq hx, writeU128DecimalDigits_eq hy, hpad, hpad,
    compare_map digitToAscii (· < 10) (fun _ _ => compare_digitToAscii) (hdig x _) (hdig y _),
    compare_eq_compare_msbValue (by norm_num) (hdig x _) (hdig y _) (by simp; omega),
    msbValue_append_replicate_zero, msbValue_append_replicate_zero, msbValue_msbDigits,
    msbValue_msbDigits]

/-! ### Magnitudes -/

theorem compare_mul_right {a b c : Nat} (hc : 0 < c) : compare (a * c) (b * c) = compare a b :=
  compare_eq_compare_of_lt_iff (Nat.mul_lt_mul_right hc) (Nat.mul_lt_mul_right hc)

/-- A smaller exponent of the leading digit means a smaller number. -/
theorem mul_pow_lt_of_exponent_lt {x y s t : Nat} (hy : y ≠ 0)
    (h : (msbDigits 10 x).length + t < (msbDigits 10 y).length + s) : x * 10 ^ t < y * 10 ^ s := by
  calc x * 10 ^ t < 10 ^ (msbDigits 10 x).length * 10 ^ t :=
        Nat.mul_lt_mul_of_pos_right (lt_pow_length_msbDigits (by norm_num) x) (by positivity)
    _ = 10 ^ ((msbDigits 10 x).length + t) := by rw [pow_add]
    _ ≤ 10 ^ ((msbDigits 10 y).length - 1 + s) := Nat.pow_le_pow_right (by norm_num) (by omega)
    _ = 10 ^ ((msbDigits 10 y).length - 1) * 10 ^ s := by rw [pow_add]
    _ ≤ y * 10 ^ s := Nat.mul_le_mul_right _ (pow_pred_length_msbDigits_le (by norm_num) hy)

/-- Scientific comparison of two positive magnitudes at two scales: the
exponents of the leading digits decide, and at equal exponents the padded
digit strings do. -/
theorem compare_mul_pow {x y : Nat} (s t : Nat) (hx : x ≠ 0) (hy : y ≠ 0) :
    compare (x * 10 ^ t) (y * 10 ^ s) =
      (compare (compareExponent s (writeU128DecimalDigits x).length)
        (compareExponent t (writeU128DecimalDigits y).length)).then
        (cmpSignificandDigits (writeU128DecimalDigits x) (writeU128DecimalDigits y)) := by
  rw [cmpSignificandDigits_writeU128DecimalDigits hx hy, length_writeU128DecimalDigits hx,
    length_writeU128DecimalDigits hy, compareExponent, compareExponent]
  set lx := (msbDigits 10 x).length with hlx
  set ly := (msbDigits 10 y).length with hly
  rcases Nat.lt_trichotomy (lx + t) (ly + s) with hlt | heq | hgt
  · have hexp : compare ((lx : Int) - 1 - s) ((ly : Int) - 1 - t) = .lt :=
      Int.compare_eq_lt.mpr (by omega)
    rw [hexp, Ordering.lt_then, Nat.compare_eq_lt.mpr (mul_pow_lt_of_exponent_lt hy hlt)]
  · have hexp : compare ((lx : Int) - 1 - s) ((ly : Int) - 1 - t) = .eq :=
      Int.compare_eq_eq.mpr (by omega)
    rw [hexp, Ordering.eq_then]
    -- at equal exponents the longer numeral has the larger scale by the difference
    rcases Nat.le_total lx ly with hle | hle
    · have hst : t = s + (ly - lx) := by omega
      rw [hst, Nat.sub_eq_zero_of_le hle, pow_zero, Nat.mul_one, pow_add, Nat.mul_comm (10 ^ s),
        ← Nat.mul_assoc, compare_mul_right (by positivity)]
    · have hst : s = t + (lx - ly) := by omega
      rw [hst, Nat.sub_eq_zero_of_le hle, pow_zero, Nat.mul_one, pow_add, Nat.mul_comm (10 ^ t),
        ← Nat.mul_assoc y, compare_mul_right (by positivity)]
  · have hexp : compare ((lx : Int) - 1 - s) ((ly : Int) - 1 - t) = .gt :=
      Int.compare_eq_gt.mpr (by omega)
    rw [hexp, Ordering.gt_then, Nat.compare_eq_gt.mpr (mul_pow_lt_of_exponent_lt hx hgt)]

/-! ### Signed values -/

theorem compare_natCast (a b : Nat) : compare (a : Int) (b : Int) = compare a b :=
  compare_eq_compare_of_lt_iff Int.ofNat_lt Int.ofNat_lt

/-- Normalization keeps the value. -/
theorem toRat_eq_normalizedParts (d : Decimal) :
    d.toRat = (d.normalizedParts.1 : ℚ) / 10 ^ d.normalizedParts.2 := by
  obtain ⟨k, hs, hm⟩ := normalizeParts_spec d.mantissa d.scale
  unfold toRat normalizedParts
  generalize normalizeParts d.mantissa d.scale = p at hs hm ⊢
  rw [hm, ← hs, pow_add]
  push_cast
  field_simp

/-- Normalization maps zero, and only zero, to the zero normal form. -/
theorem normalizeParts_eq_zero_iff (m : Int) (s : Nat) :
    (normalizeParts m s).1 = 0 ↔ m = 0 := by
  obtain ⟨k, -, hm⟩ := normalizeParts_spec m s
  constructor
  · intro h
    rw [hm, h, Int.zero_mul]
  · intro h
    simp [normalizeParts, h]

theorem normalizeParts_snd_eq_zero {m : Int} {s : Nat} (h : (normalizeParts m s).1 = 0) :
    (normalizeParts m s).2 = 0 := by
  simp [normalizeParts, (normalizeParts_eq_zero_iff m s).mp h]

/-- The loop stops at scale zero or at a mantissa that ten does not divide. -/
theorem normalizeLoop_normal (m : Int) (s : Nat) :
    (normalizeLoop m s).2 = 0 ∨ ¬ (10 : Int) ∣ (normalizeLoop m s).1 := by
  induction s generalizing m with
  | zero => exact .inl rfl
  | succ s ih =>
    unfold normalizeLoop
    split
    · rename_i h
      exact .inr fun hd => h (Int.tmod_eq_zero_of_dvd hd)
    · exact ih _

/-- A normal form has no trailing zero it could drop. -/
theorem normalizedParts_normal (d : Decimal) :
    d.normalizedParts.2 = 0 ∨ ¬ (10 : Int) ∣ d.normalizedParts.1 := by
  unfold normalizedParts normalizeParts
  split
  · exact .inl rfl
  · exact normalizeLoop_normal _ _

/-- Comparing two rationals with power-of-ten denominators is comparing the
cross products. -/
theorem compare_div_pow (m n : Int) (s t : Nat) :
    compare ((m : ℚ) / 10 ^ s) ((n : ℚ) / 10 ^ t) = compare (m * 10 ^ t) (n * 10 ^ s) := by
  have hs : (0 : ℚ) < 10 ^ s := by positivity
  have ht : (0 : ℚ) < 10 ^ t := by positivity
  apply compare_eq_compare_of_lt_iff
  · rw [div_lt_div_iff₀ hs ht]
    norm_cast
  · rw [div_lt_div_iff₀ ht hs]
    norm_cast

theorem compare_neg (a b : Int) : compare (-a) (-b) = (compare a b).swap := by
  rw [compare_eq_compare_of_lt_iff Int.neg_lt_neg_iff Int.neg_lt_neg_iff]
  exact Std.OrientedCmp.eq_swap

/-- `cmp_decimal`'s last two steps, a sign test inside each of the exponent
and significand branches, are one chain reversed for negative values. -/
theorem exponent_significand_chain (positive : Bool) (e s : Ordering) :
    (if e ≠ .eq then (if positive then e else e.swap) else (if positive then s else s.swap)) =
      if positive then e.then s else (e.then s).swap := by
  cases positive <;> cases e <;> simp

/-- Two non-zero mantissas of one sign compare, after cross-multiplication,
by the exponent of the leading digit and then the significand, reversed when
both are negative. -/
theorem compare_mul_pow_of_same_sign {lm rm : Int} (ls rs : Nat) (hl : lm ≠ 0) (hr : rm ≠ 0)
    (hsign : (lm < 0) = (rm < 0)) :
    compare (lm * 10 ^ rs) (rm * 10 ^ ls) =
      if !decide (lm < 0) then
        (compare (compareExponent ls (writeU128DecimalDigits lm.natAbs).length)
          (compareExponent rs (writeU128DecimalDigits rm.natAbs).length)).then
          (cmpSignificandDigits (writeU128DecimalDigits lm.natAbs) (writeU128DecimalDigits rm.natAbs))
      else
        ((compare (compareExponent ls (writeU128DecimalDigits lm.natAbs).length)
          (compareExponent rs (writeU128DecimalDigits rm.natAbs).length)).then
          (cmpSignificandDigits (writeU128DecimalDigits lm.natAbs)
            (writeU128DecimalDigits rm.natAbs))).swap := by
  have hmag := compare_mul_pow ls rs (Int.natAbs_ne_zero.mpr hl) (Int.natAbs_ne_zero.mpr hr)
  have hcast : compare ((lm.natAbs : Int) * 10 ^ rs) ((rm.natAbs : Int) * 10 ^ ls) =
      compare (lm.natAbs * 10 ^ rs) (rm.natAbs * 10 ^ ls) := by
    rw [← compare_natCast]
    push_cast
    rfl
  by_cases hneg : lm < 0
  · -- both negative: the magnitudes compare the other way round
    have hrneg : rm < 0 := by rwa [← hsign]
    have hlm : lm = -(lm.natAbs : Int) := by omega
    have hrm : rm = -(rm.natAbs : Int) := by omega
    rw [decide_eq_true hneg, Bool.not_true, if_neg Bool.false_ne_true, ← hmag, ← hcast,
      ← compare_neg, ← Int.neg_mul, ← Int.neg_mul, ← hlm, ← hrm]
  · have hlm : lm = (lm.natAbs : Int) := by omega
    have hrm : rm = (rm.natAbs : Int) := by
      have : ¬ rm < 0 := by rwa [← hsign]
      omega
    rw [decide_eq_false hneg, Bool.not_false, if_pos rfl, ← hmag, ← hcast, ← hlm, ← hrm]

/-- `Decimal::cmp` compares the values the decimals denote. -/
theorem cmpDecimal_eq_compare_toRat (a b : Decimal) :
    a.cmpDecimal b = compare a.toRat b.toRat := by
  rw [toRat_eq_normalizedParts a, toRat_eq_normalizedParts b, compare_div_pow]
  have hza : a.normalizedParts.1 = 0 → a.normalizedParts.2 = 0 := normalizeParts_snd_eq_zero
  have hzb : b.normalizedParts.1 = 0 → b.normalizedParts.2 = 0 := normalizeParts_snd_eq_zero
  unfold cmpDecimal
  generalize a.normalizedParts = p at hza ⊢
  generalize b.normalizedParts = q at hzb ⊢
  obtain ⟨lm, ls⟩ := p
  obtain ⟨rm, rs⟩ := q
  simp only at hza hzb ⊢
  by_cases heq : lm = rm ∧ ls = rs
  · -- one normal form
    rw [if_pos heq, heq.1, heq.2, Int.compare_eq_eq.mpr rfl]
  rw [if_neg heq]
  by_cases hl0 : lm = 0
  · -- zero against a non-zero value
    have hrm : rm ≠ 0 := fun h => heq ⟨hl0.trans h.symm, (hza hl0).trans (hzb h).symm⟩
    rw [if_pos hl0, hl0, Int.zero_mul]
    split
    · exact (Int.compare_eq_gt.mpr (Int.mul_neg_of_neg_of_pos ‹_› (by positivity))).symm
    · exact (Int.compare_eq_lt.mpr (Int.mul_pos (by omega) (by positivity))).symm
  rw [if_neg hl0]
  by_cases hr0 : rm = 0
  · rw [if_pos hr0, hr0, Int.zero_mul]
    split
    · exact (Int.compare_eq_lt.mpr (Int.mul_neg_of_neg_of_pos ‹_› (by positivity))).symm
    · exact (Int.compare_eq_gt.mpr (Int.mul_pos (by omega) (by positivity))).symm
  rw [if_neg hr0]
  by_cases hsign : (lm < 0) ≠ (rm < 0)
  · -- opposite signs: the negative side is smaller
    rw [if_pos hsign]
    split
    · have hr : 0 < rm := by
        by_contra h
        exact hsign (propext ⟨fun _ => by omega, fun _ => ‹lm < 0›⟩)
      exact (Int.compare_eq_lt.mpr (lt_trans (Int.mul_neg_of_neg_of_pos ‹_› (by positivity))
        (Int.mul_pos hr (by positivity)))).symm
    · have hl : 0 < lm := by omega
      have hr : rm < 0 := by
        by_contra h
        exact hsign (propext ⟨fun h' => absurd h' ‹¬ lm < 0›, fun h' => absurd h' h⟩)
      exact (Int.compare_eq_gt.mpr (lt_trans (Int.mul_neg_of_neg_of_pos hr (by positivity))
        (Int.mul_pos hl (by positivity)))).symm
  rw [if_neg hsign]
  simp only [exponent_significand_chain]
  exact (compare_mul_pow_of_same_sign ls rs hl0 hr0 (not_not.mp hsign)).symm

/-! ### Normal forms -/

/-- A normal pair is its own normal form. -/
theorem normalizeParts_of_normal {m : Int} {s : Nat} (hn : s = 0 ∨ ¬ (10 : Int) ∣ m)
    (hz : m = 0 → s = 0) : normalizeParts m s = (m, s) := by
  unfold normalizeParts
  split
  · rename_i hm
    rw [hm, hz hm]
  · cases s with
    | zero => rfl
    | succ s =>
      have hnd : ¬ (10 : Int) ∣ m := hn.resolve_left (Nat.succ_ne_zero s)
      have hmod : m.tmod 10 ≠ 0 := fun h => hnd (Int.dvd_of_tmod_eq_zero h)
      simp [normalizeLoop, hmod]

/-- Normalizing twice is normalizing once. -/
theorem normalizedParts_normalize (d : Decimal) :
    d.normalize.normalizedParts = d.normalizedParts :=
  normalizeParts_of_normal (normalizedParts_normal d) normalizeParts_snd_eq_zero

/-- A power of ten that scales one normal mantissa into another is `1`. -/
theorem scale_le_of_normal {m n : Int} {s t : Nat} (hn : t = 0 ∨ ¬ (10 : Int) ∣ n)
    (hcross : m * 10 ^ t = n * 10 ^ s) : t ≤ s := by
  by_contra hlt
  obtain ⟨k, rfl⟩ : ∃ k, t = s + (k + 1) := ⟨t - s - 1, by omega⟩
  have hn' : n = m * 10 ^ (k + 1) := by
    have hpos : (10 : Int) ^ s ≠ 0 := by positivity
    apply Int.eq_of_mul_eq_mul_right hpos
    rw [← hcross, pow_add, Int.mul_assoc, Int.mul_comm (10 ^ s)]
  exact hn.elim (fun h => by omega) fun h => h ⟨m * 10 ^ k, by rw [hn', pow_succ]; ring⟩

/-- One value has one normal form. -/
theorem normalizedParts_eq_of_toRat_eq {a b : Decimal} (h : a.toRat = b.toRat) :
    a.normalizedParts = b.normalizedParts := by
  rw [toRat_eq_normalizedParts, toRat_eq_normalizedParts] at h
  have hna := normalizedParts_normal a
  have hnb := normalizedParts_normal b
  generalize a.normalizedParts = p at h hna
  generalize b.normalizedParts = q at h hnb
  obtain ⟨m, s⟩ := p
  obtain ⟨n, t⟩ := q
  -- cross-multiplied, the two normal forms denote one value
  have hcross : m * 10 ^ t = n * 10 ^ s := by
    have hc := compare_div_pow m n s t
    rw [h, Std.compare_self] at hc
    exact Int.compare_eq_eq.mp hc.symm
  have hts : t ≤ s := scale_le_of_normal hnb hcross
  have hst : s ≤ t := scale_le_of_normal hna hcross.symm
  obtain rfl : s = t := Nat.le_antisymm hst hts
  have hpos : (10 : Int) ^ s ≠ 0 := by positivity
  rw [Int.eq_of_mul_eq_mul_right hpos hcross]

/-- Two decimals denote one value exactly when they have one normal form. -/
theorem toRat_eq_iff_normalizedParts_eq (a b : Decimal) :
    a.toRat = b.toRat ↔ a.normalizedParts = b.normalizedParts := by
  constructor
  · exact normalizedParts_eq_of_toRat_eq
  · intro h
    rw [toRat_eq_normalizedParts a, toRat_eq_normalizedParts b, h]

/-- `Decimal::cmp` says `Equal` exactly for one normal form. -/
theorem cmp_eq_eq_iff (a b : Decimal) : a.cmp b = .eq ↔ a.normalizedParts = b.normalizedParts := by
  rw [cmp, cmpDecimal_eq_compare_toRat, compare_eq_iff_eq, toRat_eq_iff_normalizedParts_eq]

/-! ### Equality and hashing -/

theorem eq_iff_normalizedParts_eq (a b : Decimal) :
    a.eq b = true ↔ a.normalizedParts = b.normalizedParts := by
  simp [Decimal.eq, Prod.ext_iff]

theorem hash_eq_of_normalizedParts_eq {a b : Decimal} (h : a.normalizedParts = b.normalizedParts)
    {σ : Type} (writeI128 : σ → Int → σ) (writeU32 : σ → Nat → σ) (state : σ) :
    a.hash writeI128 writeU32 state = b.hash writeI128 writeU32 state := by
  simp only [Decimal.hash, h]

/-- `Ord`, `Eq` and `Hash` of `Decimal` all read the value a decimal denotes:
the order is the order of the rationals `mantissa / 10 ^ scale`, two decimals
are equal exactly when those rationals are, and equal rationals hash alike
under every hasher. -/
theorem decimal_cmp_is_rational_order (a b : Decimal) :
    a.cmp b = compare a.toRat b.toRat ∧ (a.eq b = true ↔ a.toRat = b.toRat) ∧
      ∀ {σ : Type} (writeI128 : σ → Int → σ) (writeU32 : σ → Nat → σ) (state : σ),
        a.toRat = b.toRat → a.hash writeI128 writeU32 state = b.hash writeI128 writeU32 state := by
  refine ⟨cmpDecimal_eq_compare_toRat a b, ?_, ?_⟩
  · rw [eq_iff_normalizedParts_eq, toRat_eq_iff_normalizedParts_eq]
  · intro σ writeI128 writeU32 state h
    exact hash_eq_of_normalizedParts_eq ((toRat_eq_iff_normalizedParts_eq a b).mp h) _ _ _

/-- `1.0` and `1` compare equal and hash alike. -/
theorem decimal_ten_tenths_hash_as_one :
    (⟨10, 1, by decide, by decide⟩ : Decimal).cmp ⟨1, 0, by decide, by decide⟩ = .eq ∧
      (⟨10, 1, by decide, by decide⟩ : Decimal).hash (fun (out : List Int) m => out ++ [m])
          (fun out s => out ++ [(s : Int)]) [] =
        (⟨1, 0, by decide, by decide⟩ : Decimal).hash (fun (out : List Int) m => out ++ [m])
          (fun out s => out ++ [(s : Int)]) [] := by
  have hval : toRat ⟨10, 1, by decide, by decide⟩ = toRat ⟨1, 0, by decide, by decide⟩ := by
    norm_num [toRat]
  obtain ⟨hcmp, -, hhash⟩ := decimal_cmp_is_rational_order ⟨10, 1, by decide, by decide⟩
    ⟨1, 0, by decide, by decide⟩
  exact ⟨by rw [hcmp, hval, Std.compare_self], hhash _ _ _ hval⟩

end Decimal

end IcyDb
