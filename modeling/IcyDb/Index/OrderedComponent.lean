import Mathlib.Data.List.DropRight
import IcyDb.Value.Value
import IcyDb.Types.Account
import IcyDb.Control.Except

/-!
# Ordered index-component encoding

`encode_canonical_index_component` writes one scalar value as the bytes of an
index-key component: the canonical tag of its variant, then a payload whose
unsigned byte order is meant to be the value order within the variant.

* fixed-width integers are written big-endian, signed ones with the sign bit
  flipped; floats are written with the sign bit flipped when positive and
  every bit flipped when negative;
* byte strings (`Text`, `Principal`) are escaped (`0` becomes `0 0xFF`) and
  terminated by `0 0`;
* an account is its ordering tag, padded owner and subaccount;
* a decimal is normalised, then written as a sign marker, the exponent of its
  leading digit, its digits and a terminator, all but the marker inverted
  when it is negative;
* `IntBig` and `NatBig` are written as a sign marker, the number of their
  decimal digits and the digits, inverted for negative values.  The digits
  come from the base-`2^32` limbs of the integer by repeated long division by
  `10^9`.

`Blob`, `List`, `Map` and `Enum` values are rejected, and so is `Null`.

The caller owns the output buffer; every helper here only appends to it, so
each is modelled as the function returning the bytes it appends.
-/

namespace IcyDb

namespace Ordered

open ByteOrder

/-- `OrderedValueEncodeError`. -/
inductive OrderedValueEncodeError
  | nullNotIndexable
  | unsupportedValueKind
  | segmentTooLarge
  | accountOwnerTooLarge
  | decimalExponentOverflow
deriving DecidableEq, Repr

/-- `NEGATIVE_MARKER`. -/
def negativeMarker : UInt8 := 0x00

/-- `ZERO_MARKER`. -/
def zeroMarker : UInt8 := 0x01

/-- `POSITIVE_MARKER`. -/
def positiveMarker : UInt8 := 0x02

/-! ### Fixed-width scalars (`semantics.rs`) -/

/-- `ordered_i32_bytes`: `(value as u32 ^ 1 << 31).to_be_bytes()`. -/
def orderedI32Bytes (value : BitVec 32) : List UInt8 := signFlipBytes 4 value

/-- `ordered_i64_bytes`. -/
def orderedI64Bytes (value : BitVec 64) : List UInt8 := signFlipBytes 8 value

/-- `ordered_i128_bytes`. -/
def orderedI128Bytes (value : BitVec 128) : List UInt8 := signFlipBytes 16 value

/-- `ordered_f32_bytes`: the sign bit flipped for a positive pattern, every
bit for a negative one. -/
def orderedF32Bytes (bits : BitVec 32) : List UInt8 :=
  let ordered := if bits &&& 0x80000000#32 = 0 then bits ^^^ 0x80000000#32 else ~~~bits
  beBytes 4 ordered.toNat

/-- `ordered_f64_bytes`. -/
def orderedF64Bytes (bits : BitVec 64) : List UInt8 :=
  let ordered :=
    if bits &&& 0x8000000000000000#64 = 0 then bits ^^^ 0x8000000000000000#64 else ~~~bits
  beBytes 8 ordered.toNat

/-- `OrderedEncode for Date`: the days since the epoch as an ordered `i32`. -/
def Date.encodeOrdered (d : Date) : List UInt8 := orderedI32Bytes d.days

/-- `OrderedEncode for Duration`: the `u64` milliseconds big-endian. -/
def Duration.encodeOrdered (d : Duration) : List UInt8 := beBytes 8 d.millis.toNat

/-- `OrderedEncode for i128`. -/
def encodeOrderedI128 (n : BitVec 128) : List UInt8 := orderedI128Bytes n

/-- `OrderedEncode for u128`. -/
def encodeOrderedU128 (n : BitVec 128) : List UInt8 := beBytes 16 n.toNat

/-- `OrderedEncode for Timestamp`: `self.repr().to_be_bytes()`, the `i64`
milliseconds big-endian in two's complement, with no sign flip. -/
def Timestamp.encodeOrdered (t : Timestamp) : List UInt8 := beBytes 8 t.millis.toNat

/-! ### Byte segments (`segments.rs`) -/

/-- `ACCOUNT_OWNER_MAX_LEN`. -/
def accountOwnerMaxLen : Nat := principalMaxLength

/-- `ACCOUNT_SUBACCOUNT_TAG`. -/
def accountSubaccountTag : UInt8 := 0x80

/-- `push_account_payload`: the ordering tag, the owner padded to 29 bytes
and the subaccount, `Subaccount::MIN` when absent. -/
def pushAccountPayload (account : Account) : Except OrderedValueEncodeError (List UInt8) :=
  let owner := account.owner.bytes
  if owner.length > accountOwnerMaxLen then .error .accountOwnerTooLarge
  -- `u8::try_from(owner_len)`, which the bound above already implies
  else if owner.length ≥ 256 then .error .accountOwnerTooLarge
  else
    let tag := UInt8.ofNat owner.length
    let orderingTag := if account.subaccount.isSome then tag ||| accountSubaccountTag else tag
    .ok (orderingTag :: (padTo accountOwnerMaxLen owner ++
      (account.subaccount.getD Subaccount.min).bytes))

/-- The bytes `push_terminated_bytes` writes for one input byte. -/
def escapeByte (byte : UInt8) : List UInt8 := if byte = 0 then [0, 0xFF] else [byte]

/-- `push_terminated_bytes`: each zero byte escaped as `0 0xFF`, then the
terminator `0 0`. -/
def pushTerminatedBytes (bytes : List UInt8) : List UInt8 :=
  (bytes.map escapeByte).flatten ++ [0, 0]

/-- `push_inverted`. -/
def pushInverted (bytes : List UInt8) : List UInt8 := bytes.map (~~~·)

/-- `encode_segment_len`: a length as a big-endian `u16`. -/
def encodeSegmentLen (len : Nat) : Except OrderedValueEncodeError (List UInt8) :=
  if len < 2 ^ 16 then .ok (beBytes 2 len) else .error .segmentTooLarge

/-! ### Decimals (`normalize.rs`) -/

/-- `DECIMAL_POSITIVE_TERMINATOR`. -/
def decimalPositiveTerminator : UInt8 := 0x00

/-- `DECIMAL_NEGATIVE_TERMINATOR`. -/
def decimalNegativeTerminator : UInt8 := 0xFF

/-- `decimal_exponent`: the exponent of the leading digit, `digit_len - 1 -
scale`, as an `i32`.  The `i64` subtraction of two `u32`s cannot overflow and
is not checked here. -/
def decimalExponent (scale digitLen : Nat) : Except OrderedValueEncodeError (BitVec 32) :=
  if scale > maxSupportedScale then .error .decimalExponentOverflow
  else if digitLen ≥ 2 ^ 32 then .error .decimalExponentOverflow
  else if digitLen = 0 then .error .decimalExponentOverflow
  else
    let exponent : Int := ((digitLen - 1 : Nat) : Int) - scale
    if -2 ^ 31 ≤ exponent ∧ exponent < 2 ^ 31 then .ok (BitVec.ofInt 32 exponent)
    else .error .decimalExponentOverflow

/-- `push_decimal_payload`: sign bucket, exponent, significant digits and
terminator of the normalised decimal. -/
def pushDecimalPayload (value : Decimal) : Except OrderedValueEncodeError (List UInt8) :=
  let normalized := value.normalize
  if normalized.isZero then .ok [zeroMarker]
  else
    let mantissa := normalized.mantissa
    let digits := Decimal.writeU128DecimalDigits mantissa.natAbs
    (decimalExponent normalized.scale digits.length).map fun exponent =>
      let exponentBytes := orderedI32Bytes exponent
      if mantissa < 0 then
        negativeMarker :: (pushInverted exponentBytes ++ pushInverted digits ++
          [decimalNegativeTerminator])
      else
        positiveMarker :: (exponentBytes ++ digits ++ [decimalPositiveTerminator])

/-! ### Big integers (`normalize.rs`) -/

/-- `BIGINT_DECIMAL_CHUNK_BASE`. -/
def bigintDecimalChunkBase : UInt64 := 1000000000

/-- `BIGINT_DECIMAL_CHUNK_WIDTH`. -/
def bigintDecimalChunkWidth : Nat := 9

/-- The number little-endian base-`2^32` limbs denote. -/
def limbsValue (limbs : List UInt32) : Nat := Nat.ofDigits (2 ^ 32) (limbs.map UInt32.toNat)

/-- What `num-bigint` documents of `to_u32_digits`, which lies outside this
repository: the limbs of a number are its base-`2^32` digits, least
significant first, with no zero limb on top, so none at all for zero.  The
encoders take the function as the parameter `toU32Digits`, and their proofs
assume only this of it. -/
structure U32DigitsSpec (toU32Digits : Nat → List UInt32) : Prop where
  limbsValue_eq : ∀ n, limbsValue (toU32Digits n) = n
  getLast_ne_zero : ∀ n, ∀ limb ∈ (toU32Digits n).getLast?, limb ≠ 0

/-- A function with that behaviour: the base-`2^32` digits `Nat.digits` gives. -/
def u32Digits (n : Nat) : List UInt32 := (Nat.digits (2 ^ 32) n).map UInt32.ofNat

variable (toU32Digits : Nat → List UInt32)

/-- `IntBig::sign_and_u32_digits`. -/
def intBigSignAndU32Digits (n : Int) : Bool × List UInt32 :=
  (decide (n < 0), toU32Digits n.natAbs)

/-- One turn of the inner loop of `u32_limbs_to_decimal_digits`: bring the
next lower limb down beside the running remainder and divide by `10^9`. -/
def divLimbStep (limb : UInt32) (acc : List UInt32 × UInt64) : List UInt32 × UInt64 :=
  let value := (acc.2 <<< 32) ||| limb.toUInt64
  let quotientLimb := value / bigintDecimalChunkBase
  ((if quotientLimb.toNat < 2 ^ 32 then quotientLimb.toUInt32 else 0) :: acc.1,
    value % bigintDecimalChunkBase)

/-- The inner loop: `for limb in quotient.iter_mut().rev()`, most significant
limb first, replacing each limb by its quotient digit. -/
def divLimbs (limbs : List UInt32) : List UInt32 × UInt64 := limbs.foldr divLimbStep ([], 0)

/-- `trim_zero_limbs`: drop zero limbs from the top. -/
def trimZeroLimbs (limbs : List UInt32) : List UInt32 := limbs.rdropWhile (· == 0)

@[simp] theorem length_divLimbs (limbs : List UInt32) :
    (divLimbs limbs).1.length = limbs.length := by
  induction limbs with
  | nil => rfl
  | cons limb rest ih => simpa [divLimbs, divLimbStep] using ih

theorem length_trimZeroLimbs_le (limbs : List UInt32) :
    (trimZeroLimbs limbs).length ≤ limbs.length := by
  unfold trimZeroLimbs List.rdropWhile
  simpa using List.length_dropWhile_le (fun x => x == 0) limbs.reverse

theorem limbsValue_cons (limb : UInt32) (rest : List UInt32) :
    limbsValue (limb :: rest) = limb.toNat + 2 ^ 32 * limbsValue rest := by
  simp [limbsValue, Nat.ofDigits_cons]

/-- A remainder below `2^32` shifted past a limb: the two occupy disjoint
bits, so `|` adds them. -/
theorem toNat_shiftLeft_or (r : UInt64) (limb : UInt32) (hr : r.toNat < 2 ^ 32) :
    ((r <<< 32) ||| limb.toUInt64).toNat = r.toNat * 2 ^ 32 + limb.toNat := by
  have hlimb := limb.toNat_lt
  have hshift : (r <<< 32).toNat = r.toNat <<< 32 := by
    have hlt : r.toNat <<< 32 < 2 ^ 64 := by rw [Nat.shiftLeft_eq]; omega
    rw [UInt64.toNat_shiftLeft]
    simpa using Nat.mod_eq_of_lt hlt
  rw [UInt64.toNat_or, hshift, UInt32.toNat_toUInt64, ← Nat.shiftLeft_add_eq_or_of_lt hlimb,
    Nat.shiftLeft_eq]

/-- One division step: with a remainder below `10^9` the shifted value does
not overflow and its quotient fits a limb. -/
theorem divLimbStep_spec (limb : UInt32) (acc : List UInt32 × UInt64)
    (hr : acc.2.toNat < 10 ^ 9) :
    (divLimbStep limb acc).2.toNat = (acc.2.toNat * 2 ^ 32 + limb.toNat) % 10 ^ 9 ∧
      (divLimbStep limb acc).1.map UInt32.toNat =
        (acc.2.toNat * 2 ^ 32 + limb.toNat) / 10 ^ 9 :: acc.1.map UInt32.toNat := by
  have hvalue := toNat_shiftLeft_or acc.2 limb (by omega)
  have hqlt : (acc.2.toNat * 2 ^ 32 + limb.toNat) / 10 ^ 9 < 2 ^ 32 := by
    have := limb.toNat_lt
    rw [Nat.div_lt_iff_lt_mul (by norm_num)]
    omega
  simp only [divLimbStep, UInt64.toNat_mod, UInt64.toNat_div, hvalue, bigintDecimalChunkBase,
    UInt64.reduceToNat, List.map_cons]
  refine ⟨rfl, ?_⟩
  -- `simp` has evaluated `10 ^ 9`
  have hqlt' : (acc.2.toNat * 2 ^ 32 + limb.toNat) / 1000000000 < 2 ^ 32 := hqlt
  rw [if_pos hqlt', UInt64.toNat_toUInt32, UInt64.toNat_div, hvalue]
  simp only [UInt64.reduceToNat, Nat.mod_eq_of_lt hqlt']
  rfl

/-- The inner loop divides the number by `10^9`. -/
theorem divLimbs_spec (limbs : List UInt32) :
    (divLimbs limbs).2.toNat = limbsValue limbs % 10 ^ 9 ∧
      limbsValue (divLimbs limbs).1 = limbsValue limbs / 10 ^ 9 := by
  induction limbs with
  | nil => simp [divLimbs, limbsValue]
  | cons limb rest ih =>
    obtain ⟨hr, hq⟩ := ih
    have hrlt : (divLimbs rest).2.toNat < 10 ^ 9 := by rw [hr]; exact Nat.mod_lt _ (by norm_num)
    obtain ⟨hr', hq'⟩ := divLimbStep_spec limb (divLimbs rest) hrlt
    -- the number is `10^9 * (2^32 * quotient) + (remainder * 2^32 + limb)`
    have hsplit : limbsValue (limb :: rest) =
        10 ^ 9 * (2 ^ 32 * limbsValue (divLimbs rest).1) +
          ((divLimbs rest).2.toNat * 2 ^ 32 + limb.toNat) := by
      rw [limbsValue_cons, hq, hr]
      have := Nat.div_add_mod (limbsValue rest) (10 ^ 9)
      nlinarith
    have hstep : divLimbs (limb :: rest) = divLimbStep limb (divLimbs rest) := rfl
    rw [hstep]
    constructor
    · rw [hr', hsplit, Nat.mul_add_mod]
    · rw [limbsValue, hq', Nat.ofDigits_cons, hsplit, Nat.mul_add_div (by norm_num)]
      simp only [limbsValue]
      ring

theorem limbsValue_append_singleton (init : List UInt32) (x : UInt32) :
    limbsValue (init ++ [x]) = limbsValue init + (2 ^ 32) ^ init.length * x.toNat := by
  simp [limbsValue, Nat.ofDigits_append]

/-- Zero limbs on top add nothing. -/
theorem limbsValue_trimZeroLimbs (limbs : List UInt32) :
    limbsValue (trimZeroLimbs limbs) = limbsValue limbs := by
  induction limbs using List.reverseRecOn with
  | nil => rfl
  | append_singleton init x ih =>
    unfold trimZeroLimbs at ih ⊢
    rw [List.rdropWhile_concat]
    split
    · rename_i hx
      rw [ih, limbsValue_append_singleton, beq_iff_eq.mp hx]
      simp
    · rfl

/-- Limbs that denote zero are all trimmed away. -/
theorem trimZeroLimbs_eq_nil {limbs : List UInt32} (h : limbsValue limbs = 0) :
    trimZeroLimbs limbs = [] := by
  induction limbs using List.reverseRecOn with
  | nil => rfl
  | append_singleton init x ih =>
    rw [limbsValue_append_singleton] at h
    have hpow : 0 < (2 ^ 32) ^ init.length := by positivity
    have hx : x = 0 := by
      apply UInt32.toNat_inj.mp
      have : (2 ^ 32) ^ init.length * x.toNat = 0 := by omega
      simpa [hpow.ne'] using this
    unfold trimZeroLimbs at ih ⊢
    rw [List.rdropWhile_concat, if_pos (by simp [hx])]
    exact ih (by omega)

/-- The outer loop of `u32_limbs_to_decimal_digits`: divide by `10^9` until no
limb is left, collecting the remainders, least significant first. -/
def limbChunks (quotient : List UInt32) : List UInt32 :=
  if quotient.isEmpty then []
  else
    let divided := divLimbs quotient
    (if divided.2.toNat < 2 ^ 32 then divided.2.toUInt32 else 0) ::
      limbChunks (trimZeroLimbs divided.1)
termination_by limbsValue quotient + quotient.length
decreasing_by
  -- either the number shrinks, or it is zero and trimming empties the limbs
  rename_i h
  have hne : quotient.length ≠ 0 := by simpa using h
  have hlen := length_trimZeroLimbs_le (divLimbs quotient).1
  rw [length_divLimbs] at hlen
  rw [limbsValue_trimZeroLimbs, (divLimbs_spec quotient).2]
  by_cases hv : limbsValue quotient = 0
  · rw [trimZeroLimbs_eq_nil (by rw [(divLimbs_spec quotient).2, hv, Nat.zero_div]), hv]
    simp only [Nat.zero_div, List.length_nil]
    omega
  · have := Nat.div_lt_self (Nat.pos_of_ne_zero hv) (by norm_num : 1 < 10 ^ 9)
    omega

/-- The scratch loop of `push_unpadded_chunk_digits`: write the last digit
one index lower, the index saturating at zero, until the value runs out. -/
def unpaddedChunkLoop (scratch : List UInt8) (writeIdx : Nat) (value : UInt32) :
    List UInt8 × Nat :=
  let writeIdx := writeIdx - 1
  let scratch := scratch.set writeIdx (Decimal.digitToAscii (value % 10).toNat)
  let value' := value / 10
  if value' = 0 then (scratch, writeIdx) else unpaddedChunkLoop scratch writeIdx value'
termination_by value.toNat
decreasing_by
  rename_i h
  have hne : (value / 10).toNat ≠ 0 := fun h0 => h (UInt32.toNat_inj.mp h0)
  rw [UInt32.toNat_div] at hne ⊢
  simp only [UInt32.reduceToNat] at hne ⊢
  omega

/-- `push_unpadded_chunk_digits`: the digits of a chunk without leading
zeros, read out of a nine-byte scratch buffer. -/
def pushUnpaddedChunkDigits (chunk : UInt32) : List UInt8 :=
  let written :=
    unpaddedChunkLoop (List.replicate bigintDecimalChunkWidth 0) bigintDecimalChunkWidth chunk
  written.1.drop written.2

/-- The loop of `push_padded_chunk_digits`: one digit per divisor, the divisor
divided by ten each turn and never below one. -/
def paddedChunkLoop (chunk : UInt32) : Nat → UInt32 → List UInt8
  | 0, _ => []
  | n + 1, divisor =>
    Decimal.digitToAscii ((chunk / divisor) % 10).toNat ::
      paddedChunkLoop chunk n (if divisor > 1 then divisor / 10 else 1)

/-- `push_padded_chunk_digits`: exactly nine digits, leading zeros kept. -/
def pushPaddedChunkDigits (chunk : UInt32) : List UInt8 :=
  paddedChunkLoop chunk bigintDecimalChunkWidth 100000000

/-- `chunks_to_decimal_digits`: the chunks are popped from the most
significant end; the first is written unpadded, every later one padded. -/
def chunksToDecimalDigits (chunks : List UInt32) : List UInt8 :=
  match chunks.reverse with
  | [] => [0x30]
  | mostSignificant :: rest =>
    pushUnpaddedChunkDigits mostSignificant ++ (rest.map pushPaddedChunkDigits).flatten

/-- `u32_limbs_to_decimal_digits`: the ASCII decimal digits of the number the
limbs denote. -/
def u32LimbsToDecimalDigits (limbs : List UInt32) : List UInt8 :=
  let quotient := trimZeroLimbs limbs
  if quotient.isEmpty then [0x30] else chunksToDecimalDigits (limbChunks quotient)

/-- `push_signed_big_integer_payload`: zero as its marker alone, otherwise the
sign marker, the digit count and the digits, the last two inverted for a
negative value. -/
def pushSignedBigIntegerPayload (value : Int) : Except OrderedValueEncodeError (List UInt8) :=
  let (negative, limbs) := intBigSignAndU32Digits toU32Digits value
  let digits := u32LimbsToDecimalDigits limbs
  if digits.length = 1 ∧ digits.head? = some 0x30 then .ok [zeroMarker]
  else
    (encodeSegmentLen digits.length).map fun digitsLen =>
      if negative then negativeMarker :: (pushInverted digitsLen ++ pushInverted digits)
      else positiveMarker :: (digitsLen ++ digits)

/-- `push_unsigned_big_integer_payload`: the digit count and the digits. -/
def pushUnsignedBigIntegerPayload (value : Nat) : Except OrderedValueEncodeError (List UInt8) :=
  let digits := u32LimbsToDecimalDigits (toU32Digits value)
  (encodeSegmentLen digits.length).map fun digitsLen => digitsLen ++ digits

/-! ### Components (`mod.rs`) -/

/-- `encode_component_payload`: the payload after the tag, by variant. -/
def encodeComponentPayload : Value → Except OrderedValueEncodeError (List UInt8)
  | .account v => pushAccountPayload v
  | .blob _ | .list _ | .map _ => .error .unsupportedValueKind
  | .bool v => .ok [if v then 1 else 0]
  | .date v => .ok (Date.encodeOrdered v)
  | .decimal v => pushDecimalPayload v
  | .duration v => .ok (Duration.encodeOrdered v)
  | .enum .. => .error .unsupportedValueKind
  | .float32 v => .ok (orderedF32Bytes v.bits)
  | .float64 v => .ok (orderedF64Bytes v.bits)
  | .int64 v => .ok (orderedI64Bytes v)
  | .int128 v => .ok (encodeOrderedI128 v)
  | .intBig v => pushSignedBigIntegerPayload toU32Digits v
  | .null => .error .nullNotIndexable
  | .principal v => .ok (pushTerminatedBytes v.bytes)
  | .subaccount v => .ok v.bytes
  | .text v => .ok (pushTerminatedBytes v)
  | .timestamp v => .ok (Timestamp.encodeOrdered v)
  | .nat64 v => .ok (beBytes 8 v.toNat)
  | .nat128 v => .ok (encodeOrderedU128 v)
  | .natBig v => pushUnsignedBigIntegerPayload toU32Digits v
  | .ulid v => .ok v.bytes
  -- `Unit` has no payload: the tag alone is canonical
  | .unit => .ok []

/-- `encode_canonical_index_component`: the canonical tag, then the payload. -/
def encodeCanonicalIndexComponent (value : Value) : Except OrderedValueEncodeError (List UInt8) :=
  (encodeComponentPayload toU32Digits value).map fun payload =>
    value.canonicalTag.toU8 :: payload

end Ordered

end IcyDb
