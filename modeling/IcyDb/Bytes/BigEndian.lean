import Mathlib.Tactic
import IcyDb.Bytes.Lex

/-!
# Fixed-width big-endian integers

`to_be_bytes` writes the most significant byte first, so that the
lexicographic order of two encodings of one width is the numeric order of the
encoded values.  Signed integers are made order-preserving by flipping their
top bit before they are written, which maps two's complement order onto
unsigned order.  Both facts are proved here for every width.
-/

namespace ByteOrder

/-- `width` big-endian bytes of `value` taken modulo `256 ^ width`. -/
def beBytes : Nat → Nat → List UInt8
  | 0, _ => []
  | width + 1, value => UInt8.ofNat (value / 256 ^ width) :: beBytes width value

/-- The value of a big-endian byte string. -/
def beValue : List UInt8 → Nat
  | [] => 0
  | byte :: rest => byte.toNat * 256 ^ rest.length + beValue rest

@[simp] theorem toNat_ofNat_byte (n : Nat) : (UInt8.ofNat n).toNat = n % 256 := by
  simp only [UInt8.toNat_ofNat', Nat.reducePow]

@[simp] theorem length_beBytes (width value : Nat) : (beBytes width value).length = width := by
  induction width with
  | zero => rfl
  | succ width ih => simp [beBytes, ih]

theorem beValue_lt (bytes : List UInt8) : beValue bytes < 256 ^ bytes.length := by
  induction bytes with
  | nil => simp [beValue]
  | cons byte rest ih =>
    have hbyte : byte.toNat + 1 ≤ 256 := byte.toNat_lt
    calc beValue (byte :: rest) = byte.toNat * 256 ^ rest.length + beValue rest := rfl
      _ < byte.toNat * 256 ^ rest.length + 256 ^ rest.length := by omega
      _ = (byte.toNat + 1) * 256 ^ rest.length := by ring
      _ ≤ 256 * 256 ^ rest.length := Nat.mul_le_mul_right _ hbyte
      _ = 256 ^ (byte :: rest).length := by simp [pow_succ, mul_comm]

/-- Only the low `width` bytes of the value are written. -/
theorem beBytes_mod (width value : Nat) :
    beBytes width (value % 256 ^ width) = beBytes width value := by
  induction width generalizing value with
  | zero => rfl
  | succ width ih =>
    simp only [beBytes]
    congr 1
    · apply UInt8.toNat_inj.mp
      simp only [toNat_ofNat_byte, pow_succ]
      rw [Nat.mod_mul_right_div_self, Nat.mod_mod]
    · rw [← ih (value % 256 ^ (width + 1)),
        Nat.mod_mod_of_dvd _ (pow_dvd_pow 256 (Nat.le_succ width)), ih]

theorem beValue_beBytes (width value : Nat) :
    beValue (beBytes width value) = value % 256 ^ width := by
  induction width with
  | zero => simp [beBytes, beValue, Nat.mod_one]
  | succ width ih =>
    simp only [beBytes, beValue, length_beBytes, ih, toNat_ofNat_byte]
    rw [pow_succ, Nat.mod_mul, Nat.add_comm]
    ring

theorem beBytes_beValue (bytes : List UInt8) : beBytes bytes.length (beValue bytes) = bytes := by
  induction bytes with
  | nil => rfl
  | cons byte rest ih =>
    simp only [List.length_cons, beBytes, beValue]
    congr 1
    · apply UInt8.toNat_inj.mp
      have hrest := beValue_lt rest
      have hpos : 0 < 256 ^ rest.length := by positivity
      rw [toNat_ofNat_byte, Nat.add_comm, Nat.add_mul_div_right _ _ hpos,
        Nat.div_eq_of_lt hrest, Nat.zero_add, Nat.mod_eq_of_lt byte.toNat_lt]
    · rw [← beBytes_mod, Nat.add_comm, Nat.add_mul_mod_self_right,
        Nat.mod_eq_of_lt (beValue_lt rest), ih]

/-- A numeric comparison splits into quotient and remainder by any positive
modulus. -/
theorem compare_eq_then_div_mod {a b n : Nat} (hn : 0 < n) :
    compare a b = (compare (a / n) (b / n)).then (compare (a % n) (b % n)) := by
  have ha := Nat.div_add_mod a n
  have hb := Nat.div_add_mod b n
  have hamod := Nat.mod_lt a hn
  have hbmod := Nat.mod_lt b hn
  rcases Nat.lt_trichotomy (a / n) (b / n) with hq | hq | hq
  · have hle : n * (a / n + 1) ≤ n * (b / n) := Nat.mul_le_mul_left n hq
    have hab : a < b := by rw [Nat.mul_succ] at hle; omega
    simp [Nat.compare_eq_lt.mpr hq, Nat.compare_eq_lt.mpr hab]
  · rw [hq, Nat.compare_eq_eq.mpr rfl, Ordering.eq_then]
    rw [hq] at ha
    rcases Nat.lt_trichotomy (a % n) (b % n) with hr | hr | hr
    · rw [Nat.compare_eq_lt.mpr hr, Nat.compare_eq_lt.mpr (by omega)]
    · rw [Nat.compare_eq_eq.mpr hr, Nat.compare_eq_eq.mpr (by omega)]
    · rw [Nat.compare_eq_gt.mpr hr, Nat.compare_eq_gt.mpr (by omega)]
  · have hle : n * (b / n + 1) ≤ n * (a / n) := Nat.mul_le_mul_left n hq
    have hab : b < a := by rw [Nat.mul_succ] at hle; omega
    simp [Nat.compare_eq_gt.mpr hq, Nat.compare_eq_gt.mpr hab]

/-- Big-endian encodings of one width are ordered as the encoded values. -/
theorem compare_beBytes {width a b : Nat} (ha : a < 256 ^ width) (hb : b < 256 ^ width) :
    compare (beBytes width a) (beBytes width b) = compare a b := by
  induction width generalizing a b with
  | zero => simp_all
  | succ width ih =>
    have hpos : 0 < 256 ^ width := by positivity
    have hqa : a / 256 ^ width < 256 := Nat.div_lt_of_lt_mul (by rwa [pow_succ] at ha)
    have hqb : b / 256 ^ width < 256 := Nat.div_lt_of_lt_mul (by rwa [pow_succ] at hb)
    simp only [beBytes, List.compare_cons_cons, compare_uint8, toNat_ofNat_byte,
      Nat.mod_eq_of_lt hqa, Nat.mod_eq_of_lt hqb]
    rw [← beBytes_mod width a, ← beBytes_mod width b,
      ih (Nat.mod_lt _ hpos) (Nat.mod_lt _ hpos), ← compare_eq_then_div_mod hpos]

theorem beBytes_injective {width a b : Nat} (ha : a < 256 ^ width) (hb : b < 256 ^ width)
    (h : beBytes width a = beBytes width b) : a = b := by
  have := congrArg beValue h
  rwa [beValue_beBytes, beValue_beBytes, Nat.mod_eq_of_lt ha, Nat.mod_eq_of_lt hb] at this

/-! ### Fixed-width integers -/

section FixedWidth

variable {width w : Nat}

theorem toNat_lt_of_width (v : BitVec w) (hw : w = 8 * width) : v.toNat < 256 ^ width := by
  have hpow : 2 ^ w = 256 ^ width := by rw [hw, Nat.pow_mul]
  exact hpow ▸ v.isLt

/-- Reading back the bytes of a fixed-width integer gives the integer. -/
theorem ofNat_beValue_beBytes (v : BitVec w) (hw : w = 8 * width) :
    BitVec.ofNat w (beValue (beBytes width v.toNat)) = v := by
  rw [beValue_beBytes, Nat.mod_eq_of_lt (toNat_lt_of_width v hw), BitVec.ofNat_toNat,
    BitVec.setWidth_eq]

/-- Writing a fixed-width integer read from bytes gives the bytes back. -/
theorem beBytes_ofNat_beValue (bytes : List UInt8) (hw : w = 8 * bytes.length) :
    beBytes bytes.length (BitVec.ofNat w (beValue bytes)).toNat = bytes := by
  have hlt : beValue bytes < 2 ^ w := by
    have := beValue_lt bytes
    rwa [hw, Nat.pow_mul]
  rw [BitVec.toNat_ofNat, Nat.mod_eq_of_lt hlt, beBytes_beValue]

theorem beBytes_ofNat_beValue_of_length {bytes : List UInt8} (h : bytes.length = width)
    (hw : w = 8 * width) :
    beBytes width (BitVec.ofNat w (beValue bytes)).toNat = bytes := by
  subst h
  exact beBytes_ofNat_beValue bytes hw

/-- Unsigned integers written big-endian keep their order. -/
theorem compare_beBytes_toNat (a b : BitVec w) (hw : w = 8 * width) :
    compare (beBytes width a.toNat) (beBytes width b.toNat) = compare a.toNat b.toNat :=
  compare_beBytes (toNat_lt_of_width a hw) (toNat_lt_of_width b hw)

theorem two_pow_add_xor_two_pow {m k : Nat} (h : m < 2 ^ k) : (2 ^ k + m) ^^^ 2 ^ k = m := by
  apply Nat.eq_of_testBit_eq
  intro i
  rw [Nat.testBit_xor, Nat.testBit_two_pow]
  rcases Nat.lt_trichotomy i k with hik | rfl | hik
  · rw [Nat.testBit_two_pow_add_gt hik]
    simp [Nat.ne_of_gt hik]
  · rw [Nat.testBit_two_pow_add_eq, Nat.testBit_lt_two_pow h]
    simp
  · -- above the flipped bit both sides are already zero
    have hlt : 2 ^ k + m < 2 ^ i := by
      have : 2 ^ (k + 1) ≤ 2 ^ i := Nat.pow_le_pow_right (by norm_num) hik
      rw [Nat.pow_succ] at this
      omega
    have hm : m < 2 ^ i := lt_of_le_of_lt (Nat.le_add_left _ _) hlt
    rw [Nat.testBit_lt_two_pow hlt, Nat.testBit_lt_two_pow hm]
    simp [Nat.ne_of_lt hik]

theorem xor_two_pow_of_lt {m k : Nat} (h : m < 2 ^ k) : m ^^^ 2 ^ k = 2 ^ k + m := by
  conv_lhs => rw [← two_pow_add_xor_two_pow h]
  rw [Nat.xor_assoc, Nat.xor_self, Nat.xor_zero]

/-- Flipping the top bit of a two's complement integer adds the bias
`2 ^ k` to its signed value. -/
theorem toNat_xor_twoPow_top {k : Nat} (v : BitVec (k + 1)) :
    ((v ^^^ BitVec.twoPow (k + 1) k).toNat : Int) = v.toInt + 2 ^ k := by
  have hv := v.isLt
  have htwo : 2 ^ k % 2 ^ (k + 1) = 2 ^ k :=
    Nat.mod_eq_of_lt (Nat.pow_lt_pow_right (by norm_num) (Nat.lt_succ_self k))
  rw [BitVec.toNat_xor, BitVec.toNat_twoPow, htwo, BitVec.toInt_eq_msb_cond,
    BitVec.msb_eq_decide]
  simp only [Nat.add_sub_cancel]
  by_cases hlow : v.toNat < 2 ^ k
  · rw [xor_two_pow_of_lt hlow]
    simp [Nat.not_le.mpr hlow]
    omega
  · have hm : v.toNat - 2 ^ k < 2 ^ k := by rw [Nat.pow_succ] at hv; omega
    have hsplit : v.toNat = 2 ^ k + (v.toNat - 2 ^ k) := by omega
    rw [hsplit, two_pow_add_xor_two_pow hm]
    have : 2 ^ k ≤ 2 ^ k + (v.toNat - 2 ^ k) := Nat.le_add_right _ _
    simp [this, Nat.pow_succ]
    omega

/-- With the top bit flipped, unsigned order is signed order. -/
theorem compare_toNat_xor_twoPow_top {k : Nat} (a b : BitVec (k + 1)) :
    compare (a ^^^ BitVec.twoPow (k + 1) k).toNat (b ^^^ BitVec.twoPow (k + 1) k).toNat =
      compare a.toInt b.toInt := by
  have ha := toNat_xor_twoPow_top a
  have hb := toNat_xor_twoPow_top b
  rcases Int.lt_trichotomy a.toInt b.toInt with h | h | h
  · rw [Nat.compare_eq_lt.mpr (by omega), Int.compare_eq_lt.mpr h]
  · rw [Nat.compare_eq_eq.mpr (by omega), Int.compare_eq_eq.mpr h]
  · rw [Nat.compare_eq_gt.mpr (by omega), Int.compare_eq_gt.mpr h]

/-- A two's complement integer written big-endian with its top bit flipped,
so that unsigned byte order is signed order. -/
def signFlipBytes (width : Nat) {k : Nat} (v : BitVec (k + 1)) : List UInt8 :=
  beBytes width (v ^^^ BitVec.twoPow (k + 1) k).toNat

/-- Reading back a sign-flipped big-endian integer. -/
def signFlipValue {k : Nat} (bytes : List UInt8) : BitVec (k + 1) :=
  BitVec.ofNat (k + 1) (beValue bytes) ^^^ BitVec.twoPow (k + 1) k

@[simp] theorem length_signFlipBytes {k : Nat} (v : BitVec (k + 1)) :
    (signFlipBytes width v).length = width :=
  length_beBytes _ _

theorem signFlipValue_signFlipBytes {k : Nat} (v : BitVec (k + 1)) (hw : k + 1 = 8 * width) :
    signFlipValue (signFlipBytes width v) = v := by
  rw [signFlipValue, signFlipBytes, ofNat_beValue_beBytes _ hw, BitVec.xor_assoc,
    BitVec.xor_self, BitVec.xor_zero]

theorem signFlipBytes_signFlipValue {k : Nat} (bytes : List UInt8)
    (hw : k + 1 = 8 * bytes.length) :
    signFlipBytes bytes.length (signFlipValue bytes : BitVec (k + 1)) = bytes := by
  rw [signFlipValue, signFlipBytes, BitVec.xor_assoc, BitVec.xor_self, BitVec.xor_zero,
    beBytes_ofNat_beValue _ hw]

/-- Signed integers written big-endian with the top bit flipped keep their
order. -/
theorem compare_signFlipBytes {k : Nat} (a b : BitVec (k + 1)) (hw : k + 1 = 8 * width) :
    compare (signFlipBytes width a) (signFlipBytes width b) = compare a.toInt b.toInt := by
  rw [signFlipBytes, signFlipBytes, compare_beBytes_toNat _ _ hw, compare_toNat_xor_twoPow_top]

end FixedWidth

end ByteOrder
