import IcyDb.Index.OrderedComponentOrder
import IcyDb.Types.DecimalOrder

/-!
# Decimal index components keep numeric order

`push_decimal_payload` writes a normalised decimal as a sign marker, the
ordered `i32` exponent of its leading digit, its ASCII digits and a
terminator below every digit; a negative decimal has exponent, digits and
terminator complemented.  Two positive decimals therefore compare by exponent
and then by their digit strings read left to right, a proper prefix first.

`Decimal::cmp` compares digit strings padded with zeros instead.  The two
readings differ only when one string extends the other by zeros, and for two
normal forms with one exponent that would make the longer one a multiple of
ten at a positive scale, which normalisation has removed.  So the payloads
compare as the values do.
-/

namespace IcyDb

namespace Ordered

open ByteOrder Positional Decimal

/-! ### Digit strings -/

theorem writeU128DecimalDigits_eq_map {n : Nat} (hn : n ≠ 0) :
    ∃ ds : List Nat, (∀ d ∈ ds, d < 10) ∧ writeU128DecimalDigits n = ds.map digitToAscii :=
  ⟨msbDigits 10 n, fun _ hd => lt_base_of_mem_msbDigits (by norm_num) hd,
    writeU128DecimalDigits_eq hn⟩

/-- Every digit byte is at least `b'0'`, so above the positive terminator. -/
theorem thirty_le_of_mem_writeU128DecimalDigits {n : Nat} (hn : n ≠ 0) {b : UInt8}
    (hb : b ∈ writeU128DecimalDigits n) : (0x30 : UInt8) ≤ b := by
  obtain ⟨ds, hds, heq⟩ := writeU128DecimalDigits_eq_map hn
  rw [heq, List.mem_map] at hb
  obtain ⟨d, hd, rfl⟩ := hb
  rw [UInt8.le_iff_toNat_le, toNat_digitToAscii (hds d hd)]
  simp

theorem zero_lt_of_mem_writeU128DecimalDigits {n : Nat} (hn : n ≠ 0) {b : UInt8}
    (hb : b ∈ writeU128DecimalDigits n) : (0 : UInt8) < b := by
  have h := UInt8.le_iff_toNat_le.mp (thirty_le_of_mem_writeU128DecimalDigits hn hb)
  rw [UInt8.lt_iff_toNat_lt]
  simp only [UInt8.reduceToNat] at h ⊢
  omega

/-- A number below `10 ^ k` has at most `k` printed digits. -/
theorem length_writeU128DecimalDigits_le_of_lt {n k : Nat} (hk : 0 < k) (hlt : n < 10 ^ k) :
    (writeU128DecimalDigits n).length ≤ k := by
  by_cases hn : n = 0
  · -- zero is printed as the one digit `0`
    rw [hn, writeU128DecimalDigits, if_pos (by norm_num), List.length_singleton]
    exact hk
  · rw [length_writeU128DecimalDigits hn, length_msbDigits, Nat.digits_length_le_iff (by norm_num)]
    exact hlt

/-- An `i128` magnitude has at most 39 decimal digits. -/
theorem length_writeU128DecimalDigits_le {n : Nat} (hlt : n ≤ 2 ^ 127) :
    (writeU128DecimalDigits n).length ≤ 39 :=
  length_writeU128DecimalDigits_le_of_lt (by norm_num) (lt_of_le_of_lt hlt (by norm_num))

theorem length_writeU128DecimalDigits_pos {n : Nat} (hn : n ≠ 0) :
    0 < (writeU128DecimalDigits n).length := by
  rw [length_writeU128DecimalDigits hn]
  exact List.length_pos_iff.mpr (msbDigits_ne_nil hn)

/-- Digits that extend another number's digits by zeros denote that number
times a power of ten. -/
theorem eq_mul_pow_of_digits_append_zeros {x y k : Nat} (hx : x ≠ 0) (hy : y ≠ 0)
    (h : writeU128DecimalDigits y = writeU128DecimalDigits x ++ List.replicate k 0x30) :
    y = x * 10 ^ k := by
  -- reading each digit byte back inverts `digit_to_ascii` on digits
  have hback : ∀ ds : List Nat, (∀ d ∈ ds, d < 10) →
      (ds.map digitToAscii).map (fun b => b.toNat - 0x30) = ds := by
    intro ds hds
    rw [List.map_map]
    conv_rhs => rw [← List.map_id ds]
    apply List.map_congr_left
    intro d hd
    simp [toNat_digitToAscii (hds d hd)]
  have hzeros : List.replicate k (0x30 : UInt8) = (List.replicate k 0).map digitToAscii := by
    simp [digitToAscii]
  rw [writeU128DecimalDigits_eq hy, writeU128DecimalDigits_eq hx, hzeros, ← List.map_append] at h
  have hdig := congrArg (List.map fun b : UInt8 => b.toNat - 0x30) h
  rw [hback _ (fun _ hd => lt_base_of_mem_msbDigits (by norm_num) hd),
    hback _ (fun d hd => by
      rcases List.mem_append.mp hd with hd | hd
      · exact lt_base_of_mem_msbDigits (by norm_num) hd
      · rw [List.eq_of_mem_replicate hd]
        norm_num)] at hdig
  rw [← msbValue_msbDigits (b := 10) y, hdig, msbValue_append_replicate_zero, msbValue_msbDigits]

/-- For two normal forms with one leading exponent, reading the digit strings
left to right, a proper prefix first, agrees with reading them padded with
zeros, as `cmp_significand_digits` does. -/
theorem compare_digits_eq_cmpSignificandDigits {x y sx sy : Nat} (hx : x ≠ 0) (hy : y ≠ 0)
    (hnx : sx = 0 ∨ ¬ 10 ∣ x) (hny : sy = 0 ∨ ¬ 10 ∣ y)
    (he : compareExponent sx (writeU128DecimalDigits x).length =
      compareExponent sy (writeU128DecimalDigits y).length) :
    compare (writeU128DecimalDigits x) (writeU128DecimalDigits y) =
      cmpSignificandDigits (writeU128DecimalDigits x) (writeU128DecimalDigits y) := by
  -- a longer string that adds only zeros would leave a trailing zero at a
  -- positive scale
  have hext : ∀ {x y sx sy : Nat}, x ≠ 0 → y ≠ 0 → (sy = 0 ∨ ¬ 10 ∣ y) →
      compareExponent sx (writeU128DecimalDigits x).length =
        compareExponent sy (writeU128DecimalDigits y).length →
      ∀ r, writeU128DecimalDigits y = writeU128DecimalDigits x ++ r → r ≠ [] →
        ∃ b ∈ r, b ≠ 0x30 := by
    intro x y sx sy hx hy hny he r hr hne
    by_contra hall
    have hzero : ∀ b ∈ r, b = 0x30 := fun b hb => by_contra fun hb' => hall ⟨b, hb, hb'⟩
    have hrep : r = List.replicate r.length 0x30 := List.eq_replicate_iff.mpr ⟨rfl, hzero⟩
    rw [hrep] at hr
    have hmul := eq_mul_pow_of_digits_append_zeros hx hy hr
    have hlen := congrArg List.length hr
    rw [List.length_append, List.length_replicate] at hlen
    have hpos : 0 < r.length := List.length_pos_iff.mpr hne
    unfold compareExponent at he
    rcases hny with hs | hnd
    · omega
    · exact hnd ⟨x * 10 ^ (r.length - 1), by
        rw [hmul, ← Nat.mul_assoc, Nat.mul_comm 10, Nat.mul_assoc, ← pow_succ']
        congr 2
        omega⟩
  rw [cmpSignificandDigits_eq]
  exact (compare_pad_eq_compare (fun b hb => thirty_le_of_mem_writeU128DecimalDigits hx hb)
    (fun b hb => thirty_le_of_mem_writeU128DecimalDigits hy hb)
    (hext hx hy hny he) (hext hy hx hnx he.symm)).symm

/-! ### The exponent -/

theorem decimalExponent_eq {s L : Nat} (hs : s ≤ maxSupportedScale) (hL : 0 < L) (hL' : L ≤ 39) :
    decimalExponent s L = .ok (BitVec.ofInt 32 (compareExponent s L)) := by
  unfold maxSupportedScale at hs
  unfold decimalExponent compareExponent
  rw [if_neg (by unfold maxSupportedScale; omega), if_neg (by omega), if_neg (by omega),
    if_pos ⟨by omega, by omega⟩]
  congr 2
  omega

theorem toInt_ofInt_compareExponent {s L : Nat} (hs : s ≤ maxSupportedScale) (hL' : L ≤ 39) :
    (BitVec.ofInt 32 (compareExponent s L)).toInt = compareExponent s L := by
  unfold maxSupportedScale at hs
  rw [BitVec.toInt_ofInt]
  apply Int.bmod_eq_of_le <;> (unfold compareExponent; omega)

/-! ### The payload of a normal form -/

/-- The payload `push_decimal_payload` writes for a decimal already in normal
form, with the exponent computed. -/
def normalPayload (n : Decimal) : List UInt8 :=
  if n.mantissa = 0 then [zeroMarker]
  else
    let digits := writeU128DecimalDigits n.mantissa.natAbs
    let exponentBytes := orderedI32Bytes (BitVec.ofInt 32 (compareExponent n.scale digits.length))
    if n.mantissa < 0 then
      negativeMarker :: (pushInverted exponentBytes ++ pushInverted digits ++
        [decimalNegativeTerminator])
    else positiveMarker :: (exponentBytes ++ digits ++ [decimalPositiveTerminator])

theorem natAbs_le_of_mantissa_mem (n : Decimal) : n.mantissa.natAbs ≤ 2 ^ 127 := by
  have := n.mantissa_mem
  omega

/-- `push_decimal_payload` cannot fail: a normal form has at most 39 digits
and a scale of at most 28. -/
theorem pushDecimalPayload_eq (d : Decimal) : pushDecimalPayload d = .ok (normalPayload d.normalize) := by
  unfold pushDecimalPayload normalPayload
  by_cases h0 : d.normalize.mantissa = 0
  · rw [if_pos (by simp [isZero, h0]), if_pos h0]
  · have hn : d.normalize.mantissa.natAbs ≠ 0 := Int.natAbs_ne_zero.mpr h0
    rw [if_neg (by simp [isZero, h0]), if_neg h0]
    dsimp only
    rw [decimalExponent_eq d.normalize.scale_le (length_writeU128DecimalDigits_pos hn)
        (length_writeU128DecimalDigits_le (natAbs_le_of_mantissa_mem _))]
    rfl

/-- The normal form of a decimal has no trailing zero it could drop. -/
theorem normalize_normal (d : Decimal) :
    d.normalize.scale = 0 ∨ ¬ (10 : Int) ∣ d.normalize.mantissa :=
  normalizedParts_normal d

section SameSign

variable {a b : Decimal}

theorem length_exponentBytes (n : Decimal) (L : Nat) :
    (orderedI32Bytes (BitVec.ofInt 32 (compareExponent n.scale L))).length = 4 :=
  length_signFlipBytes _

/-- Exponent bytes compare as the exponents. -/
theorem compare_exponentBytes (a b : Decimal) :
    compare (orderedI32Bytes (BitVec.ofInt 32
        (compareExponent a.scale (writeU128DecimalDigits a.mantissa.natAbs).length)))
      (orderedI32Bytes (BitVec.ofInt 32
        (compareExponent b.scale (writeU128DecimalDigits b.mantissa.natAbs).length))) =
      compare (compareExponent a.scale (writeU128DecimalDigits a.mantissa.natAbs).length)
        (compareExponent b.scale (writeU128DecimalDigits b.mantissa.natAbs).length) := by
  rw [compare_orderedI32Bytes,
    toInt_ofInt_compareExponent a.scale_le
      (length_writeU128DecimalDigits_le (natAbs_le_of_mantissa_mem a)),
    toInt_ofInt_compareExponent b.scale_le
      (length_writeU128DecimalDigits_le (natAbs_le_of_mantissa_mem b))]

/-- Two positive normal forms: exponent first, then the digit strings. -/
theorem compare_normalPayload_of_pos (ha : 0 < a.mantissa) (hb : 0 < b.mantissa) :
    compare (normalPayload a) (normalPayload b) =
      (compare (compareExponent a.scale (writeU128DecimalDigits a.mantissa.natAbs).length)
        (compareExponent b.scale (writeU128DecimalDigits b.mantissa.natAbs).length)).then
        (compare (writeU128DecimalDigits a.mantissa.natAbs)
          (writeU128DecimalDigits b.mantissa.natAbs)) := by
  unfold normalPayload
  rw [if_neg ha.ne', if_neg hb.ne', if_neg (by omega), if_neg (by omega), List.compare_cons_cons,
    Std.compare_self, Ordering.eq_then, List.append_assoc, List.append_assoc,
    compare_append_of_length_eq (by rw [length_exponentBytes, length_exponentBytes]),
    compare_exponentBytes a b, decimalPositiveTerminator,
    compare_append_terminator_of_lt
      (fun _ hx => zero_lt_of_mem_writeU128DecimalDigits (by omega) hx)
      (fun _ hy => zero_lt_of_mem_writeU128DecimalDigits (by omega) hy)]

/-- Two negative normal forms: the complemented bytes compare the other way
round, since the digit strings end in a terminator that neither contains. -/
theorem compare_normalPayload_of_neg (ha : a.mantissa < 0) (hb : b.mantissa < 0) :
    compare (normalPayload a) (normalPayload b) =
      ((compare (compareExponent a.scale (writeU128DecimalDigits a.mantissa.natAbs).length)
        (compareExponent b.scale (writeU128DecimalDigits b.mantissa.natAbs).length)).then
        (compare (writeU128DecimalDigits a.mantissa.natAbs)
          (writeU128DecimalDigits b.mantissa.natAbs))).swap := by
  set ea := orderedI32Bytes (BitVec.ofInt 32
    (compareExponent a.scale (writeU128DecimalDigits a.mantissa.natAbs).length))
  set eb := orderedI32Bytes (BitVec.ofInt 32
    (compareExponent b.scale (writeU128DecimalDigits b.mantissa.natAbs).length))
  set da := writeU128DecimalDigits a.mantissa.natAbs
  set db := writeU128DecimalDigits b.mantissa.natAbs
  have hza : (0 : UInt8) ∉ da := fun h => absurd
    (zero_lt_of_mem_writeU128DecimalDigits (Int.natAbs_ne_zero.mpr ha.ne) h) (by decide)
  have hzb : (0 : UInt8) ∉ db := fun h => absurd
    (zero_lt_of_mem_writeU128DecimalDigits (Int.natAbs_ne_zero.mpr hb.ne) h) (by decide)
  -- complemented exponent, digits and `0xFF` are the complement of the
  -- positive layout
  have hinv : ∀ e d : List UInt8, pushInverted e ++ pushInverted d ++ [decimalNegativeTerminator] =
      (e ++ (d ++ [0])).map (~~~·) := by
    intro e d
    simp [pushInverted, decimalNegativeTerminator]
    rfl
  have hprefix : ea ++ (da ++ [0]) = eb ++ (db ++ [0]) ∨
      Diverge (ea ++ (da ++ [0])) (eb ++ (db ++ [0])) := by
    by_cases he : ea = eb
    · rcases eq_or_diverge_append_terminator hza hzb with hd | hd
      · exact .inl (by rw [he, hd])
      · exact .inr (he ▸ hd.prepend eb)
    · exact .inr ((diverge_of_length_eq (by simp [ea, eb, length_exponentBytes]) he).append _ _)
  unfold normalPayload
  rw [if_neg ha.ne, if_neg hb.ne, if_pos ha, if_pos hb, List.compare_cons_cons, Std.compare_self,
    Ordering.eq_then, hinv, hinv]
  have hswap : compare ((ea ++ (da ++ [0])).map (~~~·)) ((eb ++ (db ++ [0])).map (~~~·)) =
      compare (eb ++ (db ++ [0])) (ea ++ (da ++ [0])) := by
    rcases hprefix with heq | hdiv
    · rw [heq, Std.compare_self, Std.compare_self]
    · exact compare_map_not_of_diverge hdiv
  rw [hswap, compare_append_of_length_eq (by simp [ea, eb, length_exponentBytes]),
    compare_exponentBytes b a,
    compare_append_terminator_of_lt
      (fun _ hx => zero_lt_of_mem_writeU128DecimalDigits (Int.natAbs_ne_zero.mpr hb.ne) hx)
      (fun _ hy => zero_lt_of_mem_writeU128DecimalDigits (Int.natAbs_ne_zero.mpr ha.ne) hy),
    Ordering.swap_then, ← Std.OrientedCmp.eq_swap, ← Std.OrientedCmp.eq_swap]

end SameSign

/-- Exponents first and then the digits: once the exponents tie, the digit
strings compare as `cmp_significand_digits` compares them. -/
theorem then_compare_digits {a b : Decimal} (ha : a.mantissa ≠ 0) (hb : b.mantissa ≠ 0)
    (hna : a.scale = 0 ∨ ¬ (10 : Int) ∣ a.mantissa) (hnb : b.scale = 0 ∨ ¬ (10 : Int) ∣ b.mantissa) :
    (compare (compareExponent a.scale (writeU128DecimalDigits a.mantissa.natAbs).length)
        (compareExponent b.scale (writeU128DecimalDigits b.mantissa.natAbs).length)).then
        (compare (writeU128DecimalDigits a.mantissa.natAbs)
          (writeU128DecimalDigits b.mantissa.natAbs)) =
      (compare (compareExponent a.scale (writeU128DecimalDigits a.mantissa.natAbs).length)
        (compareExponent b.scale (writeU128DecimalDigits b.mantissa.natAbs).length)).then
        (cmpSignificandDigits (writeU128DecimalDigits a.mantissa.natAbs)
          (writeU128DecimalDigits b.mantissa.natAbs)) := by
  have hnat : ∀ {m : Int}, ¬ (10 : Int) ∣ m → ¬ 10 ∣ m.natAbs := fun h hd =>
    h (Int.ofNat_dvd_left.mpr hd)
  cases he : compare (compareExponent a.scale (writeU128DecimalDigits a.mantissa.natAbs).length)
      (compareExponent b.scale (writeU128DecimalDigits b.mantissa.natAbs).length)
  · rfl
  · rw [Ordering.eq_then, Ordering.eq_then]
    exact compare_digits_eq_cmpSignificandDigits (Int.natAbs_ne_zero.mpr ha)
      (Int.natAbs_ne_zero.mpr hb) (hna.imp_right hnat) (hnb.imp_right hnat)
      (Int.compare_eq_eq.mp he)
  · rfl

/-- The payloads of two normal forms compare as the cross-multiplied
mantissas, that is, as the values. -/
theorem compare_normalPayload {a b : Decimal} (hna : a.scale = 0 ∨ ¬ (10 : Int) ∣ a.mantissa)
    (hnb : b.scale = 0 ∨ ¬ (10 : Int) ∣ b.mantissa) :
    compare (normalPayload a) (normalPayload b) =
      compare (a.mantissa * 10 ^ b.scale) (b.mantissa * 10 ^ a.scale) := by
  have hpa : (0 : Int) < 10 ^ a.scale := by positivity
  have hpb : (0 : Int) < 10 ^ b.scale := by positivity
  have hlt : compare negativeMarker zeroMarker = .lt := by decide
  have hlt' : compare negativeMarker positiveMarker = .lt := by decide
  have hlt'' : compare zeroMarker positiveMarker = .lt := by decide
  have hgt : compare zeroMarker negativeMarker = .gt := by decide
  have hgt' : compare positiveMarker negativeMarker = .gt := by decide
  have hgt'' : compare positiveMarker zeroMarker = .gt := by decide
  rcases lt_trichotomy a.mantissa 0 with ha | ha | ha <;>
    rcases lt_trichotomy b.mantissa 0 with hb | hb | hb
  · -- both negative
    rw [compare_normalPayload_of_neg ha hb, then_compare_digits ha.ne hb.ne hna hnb,
      compare_mul_pow_of_same_sign a.scale b.scale ha.ne hb.ne (by simp [ha, hb]),
      decide_eq_true ha]
    rfl
  · -- negative against zero
    unfold normalPayload
    rw [if_neg ha.ne, if_pos ha, if_pos hb, List.compare_cons_cons, hlt, Ordering.lt_then, hb,
      Int.zero_mul]
    exact (Int.compare_eq_lt.mpr (Int.mul_neg_of_neg_of_pos ha hpb)).symm
  · -- negative against positive
    unfold normalPayload
    rw [if_neg ha.ne, if_pos ha, if_neg hb.ne', if_neg (by omega), List.compare_cons_cons, hlt',
      Ordering.lt_then]
    exact (Int.compare_eq_lt.mpr (lt_trans (Int.mul_neg_of_neg_of_pos ha hpb)
      (Int.mul_pos hb hpa))).symm
  · -- zero against negative
    unfold normalPayload
    rw [if_pos ha, if_neg hb.ne, if_pos hb, List.compare_cons_cons, hgt, Ordering.gt_then, ha,
      Int.zero_mul]
    exact (Int.compare_eq_gt.mpr (Int.mul_neg_of_neg_of_pos hb hpa)).symm
  · -- both zero
    unfold normalPayload
    rw [if_pos ha, if_pos hb, Std.compare_self, ha, hb, Int.zero_mul, Int.zero_mul,
      Std.compare_self]
  · -- zero against positive
    unfold normalPayload
    rw [if_pos ha, if_neg hb.ne', if_neg (by omega), List.compare_cons_cons, hlt'',
      Ordering.lt_then, ha, Int.zero_mul]
    exact (Int.compare_eq_lt.mpr (Int.mul_pos hb hpa)).symm
  · -- positive against negative
    unfold normalPayload
    rw [if_neg ha.ne', if_neg (by omega), if_neg hb.ne, if_pos hb, List.compare_cons_cons, hgt',
      Ordering.gt_then]
    exact (Int.compare_eq_gt.mpr (lt_trans (Int.mul_neg_of_neg_of_pos hb hpa)
      (Int.mul_pos ha hpb))).symm
  · -- positive against zero
    unfold normalPayload
    rw [if_neg ha.ne', if_neg (by omega), if_pos hb, List.compare_cons_cons, hgt'',
      Ordering.gt_then, hb, Int.zero_mul]
    exact (Int.compare_eq_gt.mpr (Int.mul_pos ha hpb)).symm
  · -- both positive
    rw [compare_normalPayload_of_pos ha hb, then_compare_digits ha.ne' hb.ne' hna hnb,
      compare_mul_pow_of_same_sign a.scale b.scale ha.ne' hb.ne' (by simp [not_lt.mpr ha.le,
        not_lt.mpr hb.le]), decide_eq_false (not_lt.mpr ha.le)]
    rfl

/-- Decimal payloads compare as `Decimal::cmp` compares the decimals. -/
theorem compare_pushDecimalPayload (a b : Decimal) :
    pushDecimalPayload a = .ok (normalPayload a.normalize) ∧
      pushDecimalPayload b = .ok (normalPayload b.normalize) ∧
      compare (normalPayload a.normalize) (normalPayload b.normalize) = a.cmp b := by
  refine ⟨pushDecimalPayload_eq a, pushDecimalPayload_eq b, ?_⟩
  rw [compare_normalPayload (normalize_normal a) (normalize_normal b), Decimal.cmp, cmpDecimal_eq_compare_toRat,
    toRat_eq_normalizedParts a, toRat_eq_normalizedParts b, compare_div_pow]
  rfl

end Ordered

end IcyDb
