import IcyDb.Bytes.BigEndian

/-!
# Order keys of IEEE 754 bit patterns

IEEE 754 `totalOrder` (Rust's `total_cmp`) reads the bits of a float as a
two's complement integer after flipping every magnitude bit of a negative
value: negative numbers then count down from the largest magnitude, positive
ones count up.  Key encoders write the same order as unsigned bytes by
flipping the sign bit of a positive value and every bit of a negative one.
This file proves that the second transform is the first followed by the usual
sign flip, for every width, so that the bytes compare as `totalOrder` does.
-/

namespace ByteOrder

variable {k : Nat}

/-- An arithmetic shift by one less than the width fills every bit with the
sign. -/
theorem sshiftRight_top (v : BitVec (k + 1)) :
    v.sshiftRight k = if v.msb then BitVec.allOnes (k + 1) else 0 := by
  ext i hi
  rw [BitVec.getElem_sshiftRight]
  split
  · obtain rfl : i = 0 := by omega
    have hmsb : v.msb = v[k] := by simp [BitVec.msb_eq_getLsbD_last]
    cases hm : v.msb <;> simp_all
  · cases hm : v.msb <;> simp

/-- Masking with the sign bit tests the sign. -/
theorem and_twoPow_eq_zero_iff (v : BitVec (k + 1)) :
    v &&& BitVec.twoPow (k + 1) k = 0 ↔ v.msb = false := by
  have hmsb : v.msb = v[k] := by simp [BitVec.msb_eq_getLsbD_last]
  constructor
  · intro h
    have hk : (v &&& BitVec.twoPow (k + 1) k)[k] = (0#(k + 1))[k] := by rw [h]; rfl
    simpa [hmsb] using hk
  · intro h
    ext i hi
    simp only [BitVec.getElem_and, BitVec.getElem_twoPow]
    by_cases hik : i = k
    · subst hik
      simp_all
    · simp [hik]

/-- The `totalOrder` key: `left ^= (((left >> w-1) as unsigned) >> 1)`, which
flips the magnitude bits of a negative pattern and keeps a positive one. -/
def totalOrderKey (v : BitVec (k + 1)) : BitVec (k + 1) :=
  v ^^^ ((v.sshiftRight k) >>> 1)

theorem totalOrderKey_eq (v : BitVec (k + 1)) :
    totalOrderKey v = if v.msb then v ^^^ (BitVec.allOnes (k + 1) >>> 1) else v := by
  rw [totalOrderKey, sshiftRight_top]
  cases v.msb <;> simp

/-- Flipping every bit is flipping the magnitude bits and then the sign bit. -/
theorem not_eq_xor_magnitude_xor_sign (v : BitVec (k + 1)) :
    ~~~v = v ^^^ (BitVec.allOnes (k + 1) >>> 1 ^^^ BitVec.twoPow (k + 1) k) := by
  ext i hi
  simp only [BitVec.getElem_not, BitVec.getElem_xor, BitVec.getElem_ushiftRight,
    BitVec.getElem_twoPow, BitVec.getLsbD_allOnes]
  by_cases hik : i = k
  · simp [hik]
  · have : 1 + i < k + 1 := by omega
    simp [hik, this]

/-- The unsigned key of a float (sign bit flipped for a positive pattern,
every bit for a negative one) is the `totalOrder` key with its sign bit
flipped. -/
theorem flip_eq_totalOrderKey_xor (v : BitVec (k + 1)) :
    (if v &&& BitVec.twoPow (k + 1) k = 0 then v ^^^ BitVec.twoPow (k + 1) k else ~~~v) =
      totalOrderKey v ^^^ BitVec.twoPow (k + 1) k := by
  rw [totalOrderKey_eq]
  cases hm : v.msb
  · simp [(and_twoPow_eq_zero_iff v).mpr hm]
  · have hne : ¬ v &&& BitVec.twoPow (k + 1) k = 0 := by
      rw [and_twoPow_eq_zero_iff, hm]
      exact Bool.noConfusion
    rw [if_neg hne, if_pos rfl, not_eq_xor_magnitude_xor_sign, BitVec.xor_assoc]

/-- Written big-endian, the unsigned keys of two floats compare as their
`totalOrder` keys do. -/
theorem compare_flip_beBytes {width : Nat} (a b : BitVec (k + 1)) (hw : k + 1 = 8 * width) :
    compare
        (beBytes width (if a &&& BitVec.twoPow (k + 1) k = 0 then a ^^^ BitVec.twoPow (k + 1) k
          else ~~~a).toNat)
        (beBytes width (if b &&& BitVec.twoPow (k + 1) k = 0 then b ^^^ BitVec.twoPow (k + 1) k
          else ~~~b).toNat) =
      compare (totalOrderKey a).toInt (totalOrderKey b).toInt := by
  rw [flip_eq_totalOrderKey_xor, flip_eq_totalOrderKey_xor]
  exact compare_signFlipBytes _ _ hw

/-- The magnitude mask has no sign bit. -/
theorem msb_allOnes_ushiftRight_one (k : Nat) : (BitVec.allOnes (k + 1) >>> 1).msb = false := by
  simp [BitVec.msb_eq_getLsbD_last]

/-- The key keeps the sign bit. -/
theorem msb_totalOrderKey {k : Nat} (v : BitVec (k + 1)) : (totalOrderKey v).msb = v.msb := by
  rw [totalOrderKey_eq]
  split
  · rw [BitVec.msb_xor, msb_allOnes_ushiftRight_one, Bool.xor_false]
  · rfl

/-- Taking the key twice gives the bits back. -/
theorem totalOrderKey_totalOrderKey {k : Nat} (v : BitVec (k + 1)) :
    totalOrderKey (totalOrderKey v) = v := by
  rw [totalOrderKey_eq (totalOrderKey v), msb_totalOrderKey, totalOrderKey_eq]
  split
  · rw [BitVec.xor_assoc, BitVec.xor_self, BitVec.xor_zero]
  · rfl

theorem totalOrderKey_injective {k : Nat} : Function.Injective (totalOrderKey (k := k)) :=
  Function.LeftInverse.injective totalOrderKey_totalOrderKey

end ByteOrder
