import IcyDb.Index.DecimalComponentOrder

/-!
# Big-integer index components keep numeric order

`u32_limbs_to_decimal_digits` prints a big integer from its base-`2^32`
limbs.  It divides the limbs by `10^9` again and again, collecting the
remainders, then prints the most significant chunk without leading zeros and
every other chunk as exactly nine digits.  The result is the decimal numeral
of the number, the digits `write_u128_decimal_digits` prints.

A natural is written as its digit count and its digits, which compare as the
numbers do.  A signed integer puts a sign marker first, and complements count
and digits when it is negative, so a larger magnitude sorts first there.
-/

namespace IcyDb

namespace Ordered

open ByteOrder Comparator Positional Decimal

/-! ### The digit writers -/

theorem drop_set_self {α : Type} {l : List α} {i : Nat} (x : α) (h : i < l.length) :
    (l.set i x).drop i = x :: l.drop (i + 1) := by
  rw [List.drop_set, if_neg (Nat.lt_irrefl i), Nat.sub_self, List.drop_eq_getElem_cons h,
    List.set_cons_zero]

theorem toNat_mod_ten (v : UInt32) : (v % 10).toNat = v.toNat % 10 := by
  simp [UInt32.toNat_mod]

theorem toNat_div_ten (v : UInt32) : (v / 10).toNat = v.toNat / 10 := by
  simp [UInt32.toNat_div]

theorem writeU128DecimalDigits_of_lt_ten {n : Nat} (h : n < 10) :
    writeU128DecimalDigits n = [digitToAscii n] := by
  rw [writeU128DecimalDigits, if_pos h]

theorem writeU128DecimalDigits_of_ten_le {n : Nat} (h : 10 ≤ n) :
    writeU128DecimalDigits n = writeU128DecimalDigits (n / 10) ++ [digitToAscii (n % 10)] := by
  rw [writeU128DecimalDigits, if_neg (by omega)]

theorem unpaddedChunkLoop_eq (scratch : List UInt8) (writeIdx : Nat) (value : UInt32) :
    unpaddedChunkLoop scratch writeIdx value =
      if value / 10 = 0 then
        (scratch.set (writeIdx - 1) (digitToAscii (value % 10).toNat), writeIdx - 1)
      else
        unpaddedChunkLoop (scratch.set (writeIdx - 1) (digitToAscii (value % 10).toNat))
          (writeIdx - 1) (value / 10) := by
  rw [unpaddedChunkLoop]

/-- The scratch loop writes the digits of the value just below the write
index and stops with the index on the first of them, as long as they fit. -/
theorem unpaddedChunkLoop_spec (scratch : List UInt8) (writeIdx : Nat) (value : UInt32)
    (hidx : writeIdx ≤ scratch.length)
    (hroom : (writeU128DecimalDigits value.toNat).length ≤ writeIdx) :
    (unpaddedChunkLoop scratch writeIdx value).2 + (writeU128DecimalDigits value.toNat).length =
        writeIdx ∧
      (unpaddedChunkLoop scratch writeIdx value).1.drop
          (unpaddedChunkLoop scratch writeIdx value).2 =
        writeU128DecimalDigits value.toNat ++ scratch.drop writeIdx := by
  induction scratch, writeIdx, value using unpaddedChunkLoop.induct with
  | case1 scratch writeIdx value value' hlast =>
    -- one digit left: it goes just below the index
    have hv : value.toNat < 10 := by
      have h0 := congrArg UInt32.toNat hlast
      rw [toNat_div_ten] at h0
      simp only [UInt32.reduceToNat] at h0
      omega
    rw [writeU128DecimalDigits_of_lt_ten hv, List.length_singleton] at hroom ⊢
    rw [unpaddedChunkLoop_eq, if_pos hlast, toNat_mod_ten, Nat.mod_eq_of_lt hv]
    refine ⟨by omega, ?_⟩
    rw [drop_set_self _ (by omega), Nat.sub_add_cancel hroom, List.singleton_append]
  | case2 scratch writeIdx value writeIdx' scratch' value' hmore ih =>
    -- the last digit goes below the index, the quotient's digits below it
    simp only [scratch', writeIdx', value'] at ih
    have hv : 10 ≤ value.toNat := by
      have h0 : (value / 10).toNat ≠ 0 := fun h0 => hmore (UInt32.toNat_inj.mp h0)
      rw [toNat_div_ten] at h0
      omega
    have hstep := writeU128DecimalDigits_of_ten_le hv
    rw [hstep, List.length_append, List.length_singleton] at hroom
    obtain ⟨hidx', hdrop⟩ := ih (by rw [List.length_set]; omega)
      (by rw [toNat_div_ten]; omega)
    rw [toNat_div_ten] at hidx' hdrop
    rw [unpaddedChunkLoop_eq, if_neg hmore, hstep, List.length_append, List.length_singleton]
    refine ⟨by omega, ?_⟩
    rw [hdrop, drop_set_self _ (by omega), Nat.sub_add_cancel (by omega), toNat_mod_ten,
      List.append_assoc, List.singleton_append]

/-- `push_unpadded_chunk_digits` prints a chunk below `10^9` as its numeral. -/
theorem pushUnpaddedChunkDigits_eq {chunk : UInt32} (h : chunk.toNat < 10 ^ 9) :
    pushUnpaddedChunkDigits chunk = writeU128DecimalDigits chunk.toNat := by
  obtain ⟨-, hdrop⟩ := unpaddedChunkLoop_spec (List.replicate 9 0) 9 chunk (by simp)
    (length_writeU128DecimalDigits_le_of_lt (by norm_num) h)
  simp only [pushUnpaddedChunkDigits, bigintDecimalChunkWidth]
  rw [hdrop, List.drop_replicate, Nat.sub_self, List.replicate_zero, List.append_nil]

theorem toNat_div_mod_ten (chunk divisor : UInt32) :
    (chunk / divisor % 10).toNat = chunk.toNat / divisor.toNat % 10 := by
  simp [UInt32.toNat_mod, UInt32.toNat_div]

/-- With the divisor at `10^n`, the padded loop prints the lowest `n + 1`
digits of the chunk. -/
theorem paddedChunkLoop_eq (chunk : UInt32) (n : Nat) {divisor : UInt32}
    (hd : divisor.toNat = 10 ^ n) :
    paddedChunkLoop chunk (n + 1) divisor = (fixedDigits 10 (n + 1) chunk.toNat).map digitToAscii := by
  induction n generalizing divisor with
  | zero =>
    rw [paddedChunkLoop, paddedChunkLoop, fixedDigits_succ, toNat_div_mod_ten, hd]
    rfl
  | succ n ih =>
    have hgt : divisor > 1 := by
      rw [gt_iff_lt, UInt32.lt_iff_toNat_lt, hd]
      exact Nat.one_lt_pow (Nat.succ_ne_zero n) (by norm_num)
    have hnext : (divisor / 10).toNat = 10 ^ n := by
      rw [toNat_div_ten, hd, Nat.pow_succ, Nat.mul_div_cancel _ (by norm_num)]
    rw [paddedChunkLoop, if_pos hgt, ih hnext, fixedDigits_succ (n := n + 1), List.map_cons,
      toNat_div_mod_ten, hd]

/-- `push_padded_chunk_digits` prints the lowest nine digits, leading zeros
kept. -/
theorem pushPaddedChunkDigits_eq (chunk : UInt32) :
    pushPaddedChunkDigits chunk = (fixedDigits 10 9 chunk.toNat).map digitToAscii :=
  paddedChunkLoop_eq chunk 8 rfl

/-! ### Chunks of nine digits -/

theorem limbChunks_nil : limbChunks [] = [] := by
  rw [limbChunks]
  rfl

theorem limbChunks_of_ne_nil {quotient : List UInt32} (h : quotient ≠ []) :
    limbChunks quotient =
      (if (divLimbs quotient).2.toNat < 2 ^ 32 then (divLimbs quotient).2.toUInt32 else 0) ::
        limbChunks (trimZeroLimbs (divLimbs quotient).1) := by
  rw [limbChunks, if_neg (by simpa using h)]

/-- The outer loop collects the base-`10^9` digits of the number, least
significant first. -/
theorem limbChunks_trimZeroLimbs (limbs : List UInt32) :
    (limbChunks (trimZeroLimbs limbs)).map UInt32.toNat =
      Nat.digits (10 ^ 9) (limbsValue limbs) := by
  obtain ⟨v, hv⟩ : ∃ v, limbsValue limbs = v := ⟨_, rfl⟩
  -- on the number, which each turn divides by `10^9`
  induction v using Nat.strong_induction_on generalizing limbs with
  | _ v ih =>
    by_cases h0 : v = 0
    · rw [trimZeroLimbs_eq_nil (hv.trans h0), limbChunks_nil, hv, h0, Nat.digits_zero,
        List.map_nil]
    · have hq : trimZeroLimbs limbs ≠ [] := fun he =>
        h0 (by rw [← hv, ← limbsValue_trimZeroLimbs, he]; rfl)
      obtain ⟨hr, hdiv⟩ := divLimbs_spec (trimZeroLimbs limbs)
      rw [limbsValue_trimZeroLimbs, hv] at hr hdiv
      have hrlt : (divLimbs (trimZeroLimbs limbs)).2.toNat < 2 ^ 32 := by
        have := Nat.mod_lt v (show 0 < 10 ^ 9 by norm_num)
        omega
      rw [limbChunks_of_ne_nil hq, if_pos hrlt, List.map_cons, UInt64.toNat_toUInt32,
        Nat.mod_eq_of_lt hrlt, hr,
        ih (v / 10 ^ 9) (Nat.div_lt_self (Nat.pos_of_ne_zero h0) (by norm_num)) _ hdiv, hv,
        Nat.digits_def' (by norm_num) (Nat.pos_of_ne_zero h0), hdiv]

theorem chunksToDecimalDigits_of_reverse {chunks rest : List UInt32} {top : UInt32}
    (h : chunks.reverse = top :: rest) :
    chunksToDecimalDigits chunks =
      pushUnpaddedChunkDigits top ++ (rest.map pushPaddedChunkDigits).flatten := by
  simp only [chunksToDecimalDigits, h]

/-- Chunks that are the base-`10^9` digits of a positive number print its
decimal numeral: the top chunk unpadded, the others as nine digits each. -/
theorem chunksToDecimalDigits_eq {chunks : List UInt32} {v : Nat} (hv : v ≠ 0)
    (h : chunks.map UInt32.toNat = Nat.digits (10 ^ 9) v) :
    chunksToDecimalDigits chunks = writeU128DecimalDigits v := by
  have hmsb : chunks.reverse.map UInt32.toNat = msbDigits (10 ^ 9) v := by
    rw [List.map_reverse, h]
    rfl
  obtain ⟨top, rest, hsplit⟩ : ∃ top rest, chunks.reverse = top :: rest := by
    cases hc : chunks.reverse with
    | nil =>
      rw [hc] at hmsb
      exact absurd hmsb.symm (msbDigits_ne_nil hv)
    | cons top rest => exact ⟨top, rest, rfl⟩
  rw [hsplit, List.map_cons] at hmsb
  have hlt : ∀ c ∈ top :: rest, c.toNat < 10 ^ 9 := by
    intro c hc
    apply lt_base_of_mem_msbDigits (by norm_num)
    rw [← hmsb]
    exact List.mem_map_of_mem hc
  have hrest : ∀ c ∈ rest.map UInt32.toNat, c < 10 ^ 9 := by
    intro c hc
    obtain ⟨c', hc', rfl⟩ := List.mem_map.mp hc
    exact hlt c' (List.mem_cons_of_mem _ hc')
  have htop : top.toNat ≠ 0 := msbDigits_head_ne_zero hv hmsb.symm
  -- the numbers behind the printed digits, read as one numeral
  have hdigits : ∀ d ∈ msbDigits 10 top.toNat ++ ((rest.map UInt32.toNat).map
      (fixedDigits 10 9)).flatten, d < 10 := by
    intro d hd
    rcases List.mem_append.mp hd with hd | hd
    · exact lt_base_of_mem_msbDigits (by norm_num) hd
    · obtain ⟨ds, hds, hd⟩ := List.mem_flatten.mp hd
      obtain ⟨c, -, rfl⟩ := List.mem_map.mp hds
      exact lt_base_of_mem_fixedDigits (by norm_num) hd
  have hhead : ∀ d ds, msbDigits 10 top.toNat ++ ((rest.map UInt32.toNat).map
      (fixedDigits 10 9)).flatten = d :: ds → d ≠ 0 := by
    intro d ds hds
    obtain ⟨d', ds', hd'⟩ := List.exists_cons_of_ne_nil (msbDigits_ne_nil (b := 10) htop)
    rw [hd', List.cons_append, List.cons.injEq] at hds
    exact hds.1 ▸ msbDigits_head_ne_zero htop hd'
  have hvalue : msbValue 10 (msbDigits 10 top.toNat ++ ((rest.map UInt32.toNat).map
      (fixedDigits 10 9)).flatten) = v := by
    rw [msbValue_append_flatten_fixedDigits 9 _ _ hrest, msbValue_msbDigits, ← msbValue_cons,
      hmsb, msbValue_msbDigits]
  have hpadded : rest.map pushPaddedChunkDigits =
      rest.map fun c => (fixedDigits 10 9 c.toNat).map digitToAscii :=
    List.map_congr_left fun c _ => pushPaddedChunkDigits_eq c
  rw [chunksToDecimalDigits_of_reverse hsplit, pushUnpaddedChunkDigits_eq (hlt top
      List.mem_cons_self), writeU128DecimalDigits_eq htop, hpadded, writeU128DecimalDigits_eq hv,
    ← hvalue, msbDigits_msbValue (by norm_num) hdigits hhead, List.map_append, List.map_flatten,
    List.map_map, List.map_map]
  rfl

/-- `u32_limbs_to_decimal_digits` prints the decimal numeral of the number the
limbs denote, and `0` for zero. -/
theorem u32LimbsToDecimalDigits_eq (limbs : List UInt32) :
    u32LimbsToDecimalDigits limbs = writeU128DecimalDigits (limbsValue limbs) := by
  simp only [u32LimbsToDecimalDigits]
  by_cases hv : limbsValue limbs = 0
  · rw [trimZeroLimbs_eq_nil hv, hv, writeU128DecimalDigits_of_lt_ten (by norm_num)]
    rfl
  · have hq : trimZeroLimbs limbs ≠ [] := fun he =>
      hv (by rw [← limbsValue_trimZeroLimbs, he]; rfl)
    rw [if_neg (by simpa using hq), chunksToDecimalDigits_eq hv (limbChunks_trimZeroLimbs limbs)]

theorem limbsValue_u32Digits (n : Nat) : limbsValue (u32Digits n) = n := by
  have hlimbs : (Nat.digits (2 ^ 32) n).map (fun d => (UInt32.ofNat d).toNat) =
      Nat.digits (2 ^ 32) n := by
    conv_rhs => rw [← List.map_id (Nat.digits (2 ^ 32) n)]
    apply List.map_congr_left
    intro d hd
    rw [UInt32.toNat_ofNat', Nat.mod_eq_of_lt (Nat.digits_lt_base (by norm_num) hd)]
    rfl
  rw [limbsValue, u32Digits, List.map_map]
  exact (congrArg (Nat.ofDigits (2 ^ 32)) hlimbs).trans (Nat.ofDigits_digits _ n)

/-- `Nat.digits` in base `2^32` has the documented behaviour of `to_u32_digits`. -/
theorem u32Digits_spec : U32DigitsSpec u32Digits := by
  refine ⟨limbsValue_u32Digits, fun n limb hlimb => ?_⟩
  by_cases hn : n = 0
  · subst hn
    simp [u32Digits] at hlimb
  -- the top limb is the last base-`2^32` digit, which is below the base and not zero
  have hne : Nat.digits (2 ^ 32) n ≠ [] := Nat.digits_ne_nil_iff_ne_zero.mpr hn
  rw [u32Digits, List.getLast?_map, List.getLast?_eq_some_getLast hne, Option.map_some,
    Option.mem_def, Option.some.injEq] at hlimb
  subst hlimb
  have hlt : (Nat.digits (2 ^ 32) n).getLast hne < 2 ^ 32 :=
    Nat.digits_lt_base (by norm_num) (List.getLast_mem hne)
  intro h0
  apply Nat.getLast_digit_ne_zero (2 ^ 32) hn
  have h := congrArg UInt32.toNat h0
  rwa [UInt32.toNat_ofNat', Nat.mod_eq_of_lt hlt] at h

/-! ### Payloads -/

variable {toU32Digits : Nat → List UInt32}

/-- The printed digits read as the single digit `0` only for zero. -/
theorem writeU128DecimalDigits_isZero_iff (n : Nat) :
    ((writeU128DecimalDigits n).length = 1 ∧ (writeU128DecimalDigits n).head? = some 0x30) ↔
      n = 0 := by
  constructor
  · rintro ⟨-, hhead⟩
    by_contra hn
    -- a positive number's leading digit is not `0`
    obtain ⟨d, ds, hd⟩ := List.exists_cons_of_ne_nil (msbDigits_ne_nil (b := 10) hn)
    have hd0 := msbDigits_head_ne_zero hn hd
    have hdlt : d < 10 := lt_base_of_mem_msbDigits (by norm_num) (by rw [hd]; exact List.mem_cons_self)
    rw [writeU128DecimalDigits_eq hn, hd, List.map_cons, List.head?_cons, Option.some.injEq] at hhead
    have h30 := congrArg UInt8.toNat hhead
    rw [toNat_digitToAscii hdlt] at h30
    exact hd0 (by simpa using h30)
  · rintro rfl
    rw [writeU128DecimalDigits_of_lt_ten (by norm_num)]
    decide

theorem pushUnsignedBigIntegerPayload_eq (hdigits : U32DigitsSpec toU32Digits) (n : Nat) :
    pushUnsignedBigIntegerPayload toU32Digits n =
      (encodeSegmentLen (writeU128DecimalDigits n).length).map
        fun digitsLen => digitsLen ++ writeU128DecimalDigits n := by
  simp only [pushUnsignedBigIntegerPayload, u32LimbsToDecimalDigits_eq, hdigits.limbsValue_eq]

theorem pushSignedBigIntegerPayload_eq (hdigits : U32DigitsSpec toU32Digits) (v : Int) :
    pushSignedBigIntegerPayload toU32Digits v =
      if v = 0 then .ok [zeroMarker]
      else
        (encodeSegmentLen (writeU128DecimalDigits v.natAbs).length).map fun digitsLen =>
          if v < 0 then
            negativeMarker ::
              (pushInverted digitsLen ++ pushInverted (writeU128DecimalDigits v.natAbs))
          else positiveMarker :: (digitsLen ++ writeU128DecimalDigits v.natAbs) := by
  simp only [pushSignedBigIntegerPayload, intBigSignAndU32Digits, u32LimbsToDecimalDigits_eq,
    hdigits.limbsValue_eq, writeU128DecimalDigits_isZero_iff, Int.natAbs_eq_zero, decide_eq_true_eq]

/-- A length prefix that was written has fit in two bytes. -/
theorem encodeSegmentLen_map_eq_ok {len : Nat} {f : List UInt8 → List UInt8} {p : List UInt8}
    (h : (encodeSegmentLen len).map f = .ok p) : len < 2 ^ 16 ∧ p = f (beBytes 2 len) := by
  unfold encodeSegmentLen at h
  split at h
  · rename_i hlen
    exact ⟨hlen, (Except.ok.inj h).symm⟩
  · cases h

theorem then_compare_writeU128DecimalDigits_zero {n : Nat} (hn : n ≠ 0) :
    (compare (writeU128DecimalDigits 0).length (writeU128DecimalDigits n).length).then
      (compare (writeU128DecimalDigits 0) (writeU128DecimalDigits n)) = .lt := by
  rw [writeU128DecimalDigits_of_lt_ten (n := 0) (by norm_num), List.length_singleton]
  by_cases h10 : n < 10
  · -- one digit each: `0` against a non-zero digit
    rw [writeU128DecimalDigits_of_lt_ten h10, List.length_singleton, Std.compare_self,
      Ordering.eq_then, compare_singleton, compare_digitToAscii (by norm_num) h10]
    exact Nat.compare_eq_lt.mpr (Nat.pos_of_ne_zero hn)
  · -- more digits than the one `0`
    have hlen : 1 < (writeU128DecimalDigits n).length := by
      rw [writeU128DecimalDigits_of_ten_le (by omega), List.length_append, List.length_singleton]
      have := length_writeU128DecimalDigits_pos (n := n / 10) (by omega)
      omega
    rw [Nat.compare_eq_lt.mpr hlen, Ordering.lt_then]

/-- Numbers compare by the count of their printed digits first and then digit
by digit. -/
theorem compare_eq_then_writeU128DecimalDigits (m n : Nat) :
    compare m n =
      (compare (writeU128DecimalDigits m).length (writeU128DecimalDigits n).length).then
        (compare (writeU128DecimalDigits m) (writeU128DecimalDigits n)) := by
  by_cases hm : m = 0 <;> by_cases hn : n = 0
  · rw [hm, hn, Std.compare_self, Std.compare_self, Std.compare_self, Ordering.eq_then]
  · rw [hm, then_compare_writeU128DecimalDigits_zero hn]
    exact Nat.compare_eq_lt.mpr (Nat.pos_of_ne_zero hn)
  · -- the case above, swapped
    rw [hn, Nat.compare_eq_gt.mpr (Nat.pos_of_ne_zero hm),
      Std.OrientedOrd.eq_swap (a := (writeU128DecimalDigits m).length),
      Std.OrientedOrd.eq_swap (a := writeU128DecimalDigits m), ← Ordering.swap_then,
      then_compare_writeU128DecimalDigits_zero hm]
    rfl
  · have hdig : ∀ k : Nat, ∀ d ∈ msbDigits 10 k, d < 10 := fun _ _ =>
      lt_base_of_mem_msbDigits (by norm_num)
    rw [writeU128DecimalDigits_eq hm, writeU128DecimalDigits_eq hn, List.length_map,
      List.length_map, compare_map digitToAscii (· < 10) (fun _ _ => compare_digitToAscii)
        (hdig m) (hdig n), ← compare_eq_then_msbDigits (by norm_num)]

/-- `NatBig` payloads compare as the numbers. -/
theorem compare_pushUnsignedBigIntegerPayload (hdigits : U32DigitsSpec toU32Digits) {a b : Nat}
    {pa pb : List UInt8} (ha : pushUnsignedBigIntegerPayload toU32Digits a = .ok pa)
    (hb : pushUnsignedBigIntegerPayload toU32Digits b = .ok pb) : compare pa pb = compare a b := by
  rw [pushUnsignedBigIntegerPayload_eq hdigits] at ha hb
  obtain ⟨hla, rfl⟩ := encodeSegmentLen_map_eq_ok ha
  obtain ⟨hlb, rfl⟩ := encodeSegmentLen_map_eq_ok hb
  rw [compare_append_of_length_eq (by simp), compare_beBytes (by simpa using hla)
    (by simpa using hlb), compare_eq_then_writeU128DecimalDigits a b]

section SignedPayload

variable (hdigits : U32DigitsSpec toU32Digits) {v : Int} {p : List UInt8}
include hdigits

theorem pushSignedBigIntegerPayload_of_zero (hv : v = 0)
    (h : pushSignedBigIntegerPayload toU32Digits v = .ok p) : p = [zeroMarker] := by
  rw [pushSignedBigIntegerPayload_eq hdigits, if_pos hv] at h
  exact (Except.ok.inj h).symm

theorem pushSignedBigIntegerPayload_of_pos (hv : 0 < v)
    (h : pushSignedBigIntegerPayload toU32Digits v = .ok p) :
    (writeU128DecimalDigits v.natAbs).length < 2 ^ 16 ∧
      p = positiveMarker :: (beBytes 2 (writeU128DecimalDigits v.natAbs).length ++
        writeU128DecimalDigits v.natAbs) := by
  rw [pushSignedBigIntegerPayload_eq hdigits, if_neg hv.ne'] at h
  obtain ⟨hlen, rfl⟩ := encodeSegmentLen_map_eq_ok h
  exact ⟨hlen, if_neg (not_lt.mpr hv.le)⟩

theorem pushSignedBigIntegerPayload_of_neg (hv : v < 0)
    (h : pushSignedBigIntegerPayload toU32Digits v = .ok p) :
    (writeU128DecimalDigits v.natAbs).length < 2 ^ 16 ∧
      p = negativeMarker :: (pushInverted (beBytes 2 (writeU128DecimalDigits v.natAbs).length) ++
        pushInverted (writeU128DecimalDigits v.natAbs)) := by
  rw [pushSignedBigIntegerPayload_eq hdigits, if_neg hv.ne] at h
  obtain ⟨hlen, rfl⟩ := encodeSegmentLen_map_eq_ok h
  exact ⟨hlen, if_pos hv⟩

end SignedPayload

/-- `IntBig` payloads compare as the integers: zero by its marker, a positive
integer by digit count and digits, a negative one by the same read the other
way round. -/
theorem compare_pushSignedBigIntegerPayload (hdigits : U32DigitsSpec toU32Digits) {a b : Int}
    {pa pb : List UInt8} (ha : pushSignedBigIntegerPayload toU32Digits a = .ok pa)
    (hb : pushSignedBigIntegerPayload toU32Digits b = .ok pb) : compare pa pb = compare a b := by
  have hlt : compare negativeMarker zeroMarker = .lt := by decide
  have hlt' : compare negativeMarker positiveMarker = .lt := by decide
  have hlt'' : compare zeroMarker positiveMarker = .lt := by decide
  have hgt : compare zeroMarker negativeMarker = .gt := by decide
  have hgt' : compare positiveMarker negativeMarker = .gt := by decide
  have hgt'' : compare positiveMarker zeroMarker = .gt := by decide
  rcases lt_trichotomy a 0 with ha0 | ha0 | ha0 <;>
    rcases lt_trichotomy b 0 with hb0 | hb0 | hb0
  · -- both negative: complemented counts and digits order the magnitudes downwards
    obtain ⟨hla, rfl⟩ := pushSignedBigIntegerPayload_of_neg hdigits ha0 ha
    obtain ⟨hlb, rfl⟩ := pushSignedBigIntegerPayload_of_neg hdigits hb0 hb
    simp only [pushInverted]
    rw [List.compare_cons_cons, Std.compare_self, Ordering.eq_then,
      compare_append_of_length_eq (by simp), compare_map_not_of_length_eq (by simp),
      compare_beBytes (by simpa using hlb) (by simpa using hla), then_compare_map_not,
      ← compare_eq_then_writeU128DecimalDigits]
    exact compare_eq_compare_of_lt_iff (by omega) (by omega)
  · obtain ⟨-, rfl⟩ := pushSignedBigIntegerPayload_of_neg hdigits ha0 ha
    rw [pushSignedBigIntegerPayload_of_zero hdigits hb0 hb, List.compare_cons_cons, hlt, Ordering.lt_then]
    exact (Int.compare_eq_lt.mpr (by omega)).symm
  · obtain ⟨-, rfl⟩ := pushSignedBigIntegerPayload_of_neg hdigits ha0 ha
    obtain ⟨-, rfl⟩ := pushSignedBigIntegerPayload_of_pos hdigits hb0 hb
    rw [List.compare_cons_cons, hlt', Ordering.lt_then]
    exact (Int.compare_eq_lt.mpr (by omega)).symm
  · rw [pushSignedBigIntegerPayload_of_zero hdigits ha0 ha]
    obtain ⟨-, rfl⟩ := pushSignedBigIntegerPayload_of_neg hdigits hb0 hb
    rw [List.compare_cons_cons, hgt, Ordering.gt_then]
    exact (Int.compare_eq_gt.mpr (by omega)).symm
  · rw [pushSignedBigIntegerPayload_of_zero hdigits ha0 ha, pushSignedBigIntegerPayload_of_zero hdigits hb0 hb,
      ha0, hb0, Std.compare_self, Std.compare_self]
  · rw [pushSignedBigIntegerPayload_of_zero hdigits ha0 ha]
    obtain ⟨-, rfl⟩ := pushSignedBigIntegerPayload_of_pos hdigits hb0 hb
    rw [List.compare_cons_cons, hlt'', Ordering.lt_then]
    exact (Int.compare_eq_lt.mpr (by omega)).symm
  · obtain ⟨-, rfl⟩ := pushSignedBigIntegerPayload_of_pos hdigits ha0 ha
    obtain ⟨-, rfl⟩ := pushSignedBigIntegerPayload_of_neg hdigits hb0 hb
    rw [List.compare_cons_cons, hgt', Ordering.gt_then]
    exact (Int.compare_eq_gt.mpr (by omega)).symm
  · obtain ⟨-, rfl⟩ := pushSignedBigIntegerPayload_of_pos hdigits ha0 ha
    rw [pushSignedBigIntegerPayload_of_zero hdigits hb0 hb, List.compare_cons_cons, hgt'', Ordering.gt_then]
    exact (Int.compare_eq_gt.mpr (by omega)).symm
  · -- both positive: digit count, then digits
    obtain ⟨hla, rfl⟩ := pushSignedBigIntegerPayload_of_pos hdigits ha0 ha
    obtain ⟨hlb, rfl⟩ := pushSignedBigIntegerPayload_of_pos hdigits hb0 hb
    rw [List.compare_cons_cons, Std.compare_self, Ordering.eq_then,
      compare_append_of_length_eq (by simp), compare_beBytes (by simpa using hla)
        (by simpa using hlb), ← compare_eq_then_writeU128DecimalDigits]
    exact compare_eq_compare_of_lt_iff (by omega) (by omega)

end Ordered

end IcyDb
