import IcyDb.Index.OrderedComponent
import IcyDb.Bytes.Complement
import IcyDb.Bytes.FloatOrder
import IcyDb.Value.Compare

/-!
# Which order the index-component bytes keep

Within one variant, the bytes `encode_canonical_index_component` writes are
meant to compare as `strict_order_cmp` compares the values.  For most
variants they do: big-endian integers with the sign bit flipped, the float
keys of `total_cmp`, the account layout, escaped text.  Two variants break
it.

* `Timestamp` is written as its `i64` in plain two's complement, so every
  negative timestamp sorts after every non-negative one.
* `Principal` is written as escaped, terminated bytes, which sort as byte
  strings, while `Principal::cmp` compares lengths first.
-/

namespace IcyDb

namespace Ordered

open ByteOrder Value

/-! ### Escaped byte strings -/

theorem pushTerminatedBytes_nil : pushTerminatedBytes [] = [0, 0] := rfl

/-- An escaped byte starts with the byte itself. -/
theorem pushTerminatedBytes_cons (b : UInt8) (bs : List UInt8) :
    pushTerminatedBytes (b :: bs) =
      b :: ((if b = 0 then [0xFF] else []) ++ pushTerminatedBytes bs) := by
  simp only [pushTerminatedBytes, List.map_cons, List.flatten_cons, List.append_assoc, escapeByte]
  split
  · rename_i hb
    rw [hb]
    rfl
  · rfl

/-- Escaped and terminated strings compare as the strings: a zero byte is
escaped to `0 0xFF`, above the terminator `0 0`, and every other byte stands
for itself. -/
theorem compare_pushTerminatedBytes (a b : List UInt8) :
    compare (pushTerminatedBytes a) (pushTerminatedBytes b) = compare a b := by
  have h0 : compare (0 : UInt8) 0xFF = .lt := by decide
  induction a generalizing b with
  | nil =>
    cases b with
    | nil => decide
    | cons y b =>
      rw [pushTerminatedBytes_nil, pushTerminatedBytes_cons, List.compare_nil_cons,
        List.compare_cons_cons]
      by_cases hy : y = 0
      · -- the terminator `0 0` against the escape `0 0xFF`
        subst hy
        rw [Std.compare_self, Ordering.eq_then, if_pos rfl, List.singleton_append,
          List.compare_cons_cons, h0, Ordering.lt_then]
      · have hlt : compare (0 : UInt8) y = .lt := by
          rw [compare_uint8]
          exact Nat.compare_eq_lt.mpr (Nat.pos_of_ne_zero fun h => hy (UInt8.toNat_inj.mp h))
        rw [hlt, Ordering.lt_then]
  | cons x a ih =>
    cases b with
    | nil =>
      rw [pushTerminatedBytes_nil, pushTerminatedBytes_cons, List.compare_cons_nil,
        List.compare_cons_cons]
      by_cases hx : x = 0
      · subst hx
        have h0' : compare (0xFF : UInt8) 0 = .gt := by decide
        rw [Std.compare_self, Ordering.eq_then, if_pos rfl, List.singleton_append,
          List.compare_cons_cons, h0', Ordering.gt_then]
      · have hgt : compare x (0 : UInt8) = .gt := by
          rw [compare_uint8]
          exact Nat.compare_eq_gt.mpr (Nat.pos_of_ne_zero fun h => hx (UInt8.toNat_inj.mp h))
        rw [hgt, Ordering.gt_then]
    | cons y b =>
      rw [pushTerminatedBytes_cons, pushTerminatedBytes_cons, List.compare_cons_cons,
        List.compare_cons_cons]
      by_cases hxy : x = y
      · -- one escape on both sides, then the rest decides
        subst hxy
        rw [Std.compare_self, Ordering.eq_then, Ordering.eq_then,
          compare_append_of_length_eq rfl, Std.compare_self, Ordering.eq_then, ih]
      · -- the first bytes differ, and each escape starts with its byte
        have hne : compare x y ≠ .eq := fun h => hxy (Std.LawfulEqOrd.eq_of_compare h)
        rw [then_of_ne_eq hne, then_of_ne_eq hne]

/-! ### Fixed-width payloads -/

theorem compare_orderedI32Bytes (a b : BitVec 32) :
    compare (orderedI32Bytes a) (orderedI32Bytes b) = compare a.toInt b.toInt :=
  compare_signFlipBytes a b rfl

theorem compare_orderedI64Bytes (a b : BitVec 64) :
    compare (orderedI64Bytes a) (orderedI64Bytes b) = compare a.toInt b.toInt :=
  compare_signFlipBytes a b rfl

theorem compare_orderedI128Bytes (a b : BitVec 128) :
    compare (orderedI128Bytes a) (orderedI128Bytes b) = compare a.toInt b.toInt :=
  compare_signFlipBytes a b rfl

/-- The float keys are the `total_cmp` keys: the literal masks are the sign
bits. -/
theorem compare_orderedF32Bytes (a b : BitVec 32) :
    compare (orderedF32Bytes a) (orderedF32Bytes b) =
      compare (totalOrderKey a).toInt (totalOrderKey b).toInt := by
  have hsign : (0x80000000#32 : BitVec 32) = BitVec.twoPow 32 31 := by decide
  simp only [orderedF32Bytes, hsign]
  exact compare_flip_beBytes a b rfl

theorem compare_orderedF64Bytes (a b : BitVec 64) :
    compare (orderedF64Bytes a) (orderedF64Bytes b) =
      compare (totalOrderKey a).toInt (totalOrderKey b).toInt := by
  have hsign : (0x8000000000000000#64 : BitVec 64) = BitVec.twoPow 64 63 := by decide
  simp only [orderedF64Bytes, hsign]
  exact compare_flip_beBytes a b rfl

/-- The account payload is the stored account layout. -/
theorem pushAccountPayload_eq (a : Account) : pushAccountPayload a = .ok a.storedLayout := by
  have hle := a.owner.bounded
  unfold pushAccountPayload
  rw [if_neg (by unfold accountOwnerMaxLen; omega),
    if_neg (by unfold principalMaxLength at hle; omega)]
  rfl

/-! ### Timestamps and principals -/

/-- Timestamps are written as unsigned 64-bit numbers. -/
theorem compare_timestamp_encodeOrdered (a b : Timestamp) :
    compare (Timestamp.encodeOrdered a) (Timestamp.encodeOrdered b) =
      compare a.millis.toNat b.millis.toNat :=
  compare_beBytes_toNat a.millis b.millis rfl

variable (toU32Digits : Nat → List UInt32)

/-- Values of one variant have encodings with one first byte, so the payloads
decide. -/
theorem compare_encodeCanonicalIndexComponent {a b : Value} {pa pb : List UInt8}
    (hab : a.canonicalTag = b.canonicalTag) (ha : encodeComponentPayload toU32Digits a = .ok pa)
    (hb : encodeComponentPayload toU32Digits b = .ok pb) :
    encodeCanonicalIndexComponent toU32Digits a = .ok (a.canonicalTag.toU8 :: pa) ∧
      encodeCanonicalIndexComponent toU32Digits b = .ok (a.canonicalTag.toU8 :: pb) ∧
      compare (a.canonicalTag.toU8 :: pa) (a.canonicalTag.toU8 :: pb) = compare pa pb := by
  refine ⟨?_, ?_, ?_⟩
  · rw [encodeCanonicalIndexComponent, ha]
    rfl
  · rw [encodeCanonicalIndexComponent, hb, hab]
    rfl
  · rw [List.compare_cons_cons, Std.compare_self, Ordering.eq_then]

/-- A negative timestamp is encoded above every non-negative one, which
`strict_order_cmp` puts below it. -/
theorem timestamp_encoding_misorders_negative (t u : Timestamp) (ht : t.millis.toInt < 0)
    (hu : 0 ≤ u.millis.toInt) :
    strictOrderCmp (.timestamp t) (.timestamp u) = some .lt ∧
      ∃ et eu, encodeCanonicalIndexComponent toU32Digits (.timestamp t) = .ok et ∧
        encodeCanonicalIndexComponent toU32Digits (.timestamp u) = .ok eu ∧ compare et eu = .gt := by
  -- in two's complement the negative one has its top bit set
  have htn : 2 ^ 63 ≤ t.millis.toNat := by
    have := BitVec.toInt_eq_toNat_cond t.millis
    split at this <;> omega
  have hun : u.millis.toNat < 2 ^ 63 := by
    have hcond := BitVec.toInt_eq_toNat_cond u.millis
    split at hcond <;> omega
  obtain ⟨het, heu, hcmp⟩ := compare_encodeCanonicalIndexComponent toU32Digits (a := .timestamp t)
    (b := .timestamp u) rfl rfl rfl
  refine ⟨?_, _, _, het, heu, ?_⟩
  · exact congrArg some (Int.compare_eq_lt.mpr (by omega))
  · rw [hcmp, compare_timestamp_encodeOrdered]
    exact Nat.compare_eq_gt.mpr (by omega)

theorem timestamp_encoding_misorders_minus_one :
    (⟨-1#64⟩ : Timestamp).millis.toInt < 0 ∧ 0 ≤ (⟨0#64⟩ : Timestamp).millis.toInt ∧
      strictOrderCmp (.timestamp ⟨-1#64⟩) (.timestamp ⟨0#64⟩) = some .lt ∧
      ∃ et eu, encodeCanonicalIndexComponent u32Digits (.timestamp ⟨-1#64⟩) = .ok et ∧
        encodeCanonicalIndexComponent u32Digits (.timestamp ⟨0#64⟩) = .ok eu ∧ compare et eu = .gt :=
  ⟨by decide, by decide, timestamp_encoding_misorders_negative u32Digits _ _ (by decide) (by decide)⟩

/-- Principals are encoded as escaped byte strings, so a shorter principal
with larger bytes is encoded above a longer one, which `Principal::cmp`, length
first, puts it below. -/
theorem principal_encoding_ignores_length (p q : Principal)
    (hlen : p.bytes.length < q.bytes.length) (hbytes : compare p.bytes q.bytes = .gt) :
    strictOrderCmp (.principal p) (.principal q) = some .lt ∧
      ∃ ep eq, encodeCanonicalIndexComponent toU32Digits (.principal p) = .ok ep ∧
        encodeCanonicalIndexComponent toU32Digits (.principal q) = .ok eq ∧ compare ep eq = .gt := by
  obtain ⟨hep, heq, hcmp⟩ := compare_encodeCanonicalIndexComponent toU32Digits (a := .principal p)
    (b := .principal q) rfl rfl rfl
  refine ⟨?_, _, _, hep, heq, ?_⟩
  · have hlt : compare p.bytes.length q.bytes.length = .lt := Nat.compare_eq_lt.mpr hlen
    exact congrArg some (by rw [Principal.cmp_eq, hlt, Ordering.lt_then])
  · rw [hcmp, compare_pushTerminatedBytes, hbytes]

theorem principal_encoding_ignores_length_example :
    [(0x02 : UInt8)].length < [(0x01 : UInt8), 0x01].length ∧
      compare [(0x02 : UInt8)] [0x01, 0x01] = .gt ∧
      strictOrderCmp (.principal ⟨[0x02], by decide⟩) (.principal ⟨[0x01, 0x01], by decide⟩) =
        some .lt ∧
      ∃ ep eq, encodeCanonicalIndexComponent u32Digits (.principal ⟨[0x02], by decide⟩) = .ok ep ∧
        encodeCanonicalIndexComponent u32Digits (.principal ⟨[0x01, 0x01], by decide⟩) = .ok eq ∧
        compare ep eq = .gt :=
  ⟨by decide, by decide,
    principal_encoding_ignores_length u32Digits ⟨[0x02], by decide⟩ ⟨[0x01, 0x01], by decide⟩
      (by decide) (by decide)⟩

end Ordered

end IcyDb
