import IcyDb.Types.Atoms

/-!
# Fixed account storage codec

`AccountStorageCodec` stores an account in 62 bytes: a tag byte holding the
owner length and the subaccount flag, the owner zero-padded to 29 bytes, and
the subaccount, all zeroes when absent.  The decoder rejects every byte
string that is not such an image: wrong size, an owner length past 29,
non-zero owner padding, and a non-zero subaccount without its flag.

The layout is also the order: the bytes of two accounts compare as
`Account::cmp` compares the accounts.
-/

namespace IcyDb

open ByteOrder

/-- `AccountStorageCodec::STORED_SIZE`. -/
def accountStoredSize : Nat := 62

/-- `AccountEncodeError`. -/
inductive AccountEncodeError
  | ownerTooLarge (len max : Nat)
deriving DecidableEq, Repr

/-- `AccountDecodeError`. -/
inductive AccountDecodeError
  | invalidSize
  | invalidPrincipalLength
  | nonZeroPrincipalPadding
  | nonZeroSubaccountWithoutFlag
deriving DecidableEq, Repr

/-- The tag byte of the stored layout: owner length, top bit for a
subaccount. -/
def Account.storedTag (a : Account) : UInt8 :=
  let tag := UInt8.ofNat a.owner.bytes.length
  if a.subaccount.isSome then tag ||| accountTagSubaccount else tag

/-- The 62 stored bytes of an account. -/
def Account.storedLayout (a : Account) : List UInt8 :=
  a.storedTag :: (padTo principalMaxLength a.owner.bytes ++ (a.subaccount.getD Subaccount.min).bytes)

/-- `AccountStorageCodec::to_stored_bytes`. -/
def Account.toStoredBytes (a : Account) : Except AccountEncodeError (List UInt8) :=
  if a.owner.bytes.length > principalMaxLength then
    .error (.ownerTooLarge a.owner.bytes.length principalMaxLength)
  else
    .ok a.storedLayout

/-- `AccountStorageCodec::try_from_bytes`. -/
def Account.tryFromBytes (bytes : List UInt8) : Except AccountDecodeError Account :=
  if hsize : bytes.length = accountStoredSize then
    match bytes, hsize with
    | [], hsize => absurd hsize (by simp [accountStoredSize])
    | tag :: body, hsize =>
      let hasSubaccount := (tag &&& accountTagSubaccount) != 0
      let principalLen := (tag &&& 0x7F).toNat
      if hlen : principalLen > principalMaxLength then .error .invalidPrincipalLength
      else if ((body.take principalMaxLength).drop principalLen).any (· != 0) then
        .error .nonZeroPrincipalPadding
      else
        let owner : Principal := ⟨body.take principalLen, by
          simp only [List.length_take]; omega⟩
        let subaccount := body.drop principalMaxLength
        have hsub : subaccount.length = 32 := by
          simp only [List.length_cons, accountStoredSize] at hsize
          simp only [subaccount, List.length_drop, principalMaxLength]
          omega
        if hasSubaccount then .ok ⟨owner, some ⟨subaccount, hsub⟩⟩
        else if subaccount.any (· != 0) then .error .nonZeroSubaccountWithoutFlag
        else .ok ⟨owner, none⟩
  else .error .invalidSize

theorem Account.toStoredBytes_eq (a : Account) : a.toStoredBytes = .ok a.storedLayout := by
  have := a.owner.bounded
  simp [Account.toStoredBytes]
  omega

theorem Account.length_storedLayout (a : Account) : a.storedLayout.length = accountStoredSize := by
  have hb := a.owner.bounded
  have hs : (a.subaccount.getD Subaccount.min).bytes.length = 32 := Subaccount.length_eq _
  rw [Account.storedLayout, List.length_cons, List.length_append, length_padTo hb, hs]
  rfl


/-! ### Tag byte arithmetic

The tag byte packs the owner length into its low seven bits and the
subaccount flag into the top bit.  Its four facts are closed computations
over all byte values or all admitted lengths.
-/

theorem tag_low_bits_of_length {len : Nat} (h : len ≤ principalMaxLength) :
    (UInt8.ofNat len &&& 0x7F).toNat = len ∧ (UInt8.ofNat len &&& accountTagSubaccount) = 0 ∧
      ((UInt8.ofNat len ||| accountTagSubaccount) &&& 0x7F).toNat = len ∧
      ((UInt8.ofNat len ||| accountTagSubaccount) &&& accountTagSubaccount) ≠ 0 := by
  unfold principalMaxLength at h
  interval_cases len <;> decide

set_option maxRecDepth 10000 in
theorem tag_of_low_bits_fin : ∀ n : Fin 256,
    ((UInt8.ofNat n &&& accountTagSubaccount) = 0 →
        UInt8.ofNat (UInt8.ofNat n &&& 0x7F).toNat = UInt8.ofNat n) ∧
      ((UInt8.ofNat n &&& accountTagSubaccount) ≠ 0 →
        (UInt8.ofNat (UInt8.ofNat n &&& 0x7F).toNat ||| accountTagSubaccount) = UInt8.ofNat n) := by
  decide

/-- A tag byte is rebuilt from its low seven bits and its flag. -/
theorem tag_of_low_bits (t : UInt8) :
    ((t &&& accountTagSubaccount) = 0 → UInt8.ofNat (t &&& 0x7F).toNat = t) ∧
      ((t &&& accountTagSubaccount) ≠ 0 →
        (UInt8.ofNat (t &&& 0x7F).toNat ||| accountTagSubaccount) = t) := by
  simpa using tag_of_low_bits_fin ⟨t.toNat, t.toNat_lt⟩

theorem Account.storedTag_eq_orderingTag (a : Account) : a.storedTag = a.orderingTag := by
  have hb := a.owner.bounded
  unfold principalMaxLength at hb
  have hmin : min a.owner.bytes.length 255 = a.owner.bytes.length := by omega
  simp [Account.storedTag, Account.orderingTag, hmin]

/-- The stored bytes compare as the accounts do. -/
theorem Account.compare_storedLayout (a b : Account) :
    compare a.storedLayout b.storedLayout = a.cmp b := by
  have hlen : (padTo principalMaxLength a.owner.bytes).length =
      (padTo principalMaxLength b.owner.bytes).length := by
    rw [length_padTo a.owner.bounded, length_padTo b.owner.bounded]
  simp only [Account.storedLayout, List.compare_cons_cons, Account.storedTag_eq_orderingTag]
  rw [compare_append_of_length_eq hlen]
  rfl

/-- A string of zero bytes has no non-zero byte. -/
theorem any_ne_zero_replicate (n : Nat) : (List.replicate n (0 : UInt8)).any (· != 0) = false := by
  simp

/-- The decoder accepts every stored layout and returns its account. -/
theorem Account.tryFromBytes_storedLayout (a : Account) :
    Account.tryFromBytes a.storedLayout = .ok a := by
  obtain ⟨⟨owner, hb⟩, sub⟩ := a
  have hbits := tag_low_bits_of_length hb
  have hsublen : (sub.getD Subaccount.min).bytes.length = 32 := Subaccount.length_eq _
  have hpadlen : (padTo principalMaxLength owner).length = principalMaxLength := length_padTo hb
  -- the three windows the decoder cuts out of the body
  have hownerWindow : (padTo principalMaxLength owner ++ (sub.getD Subaccount.min).bytes).take
      owner.length = owner := by
    simp [padTo, List.take_append_of_le_length (Nat.le_refl _)]
  have hpadWindow : ((padTo principalMaxLength owner ++ (sub.getD Subaccount.min).bytes).take
      principalMaxLength).drop owner.length = List.replicate (principalMaxLength - owner.length) 0 := by
    rw [List.take_append_of_le_length (by rw [hpadlen]), List.take_of_length_le (by rw [hpadlen])]
    simp [padTo]
  have hsubWindow : (padTo principalMaxLength owner ++ (sub.getD Subaccount.min).bytes).drop
      principalMaxLength = (sub.getD Subaccount.min).bytes := by
    rw [List.drop_append_of_le_length (by rw [hpadlen]), List.drop_of_length_le (by rw [hpadlen])]
    rfl
  unfold Account.tryFromBytes
  rw [dif_pos (Account.length_storedLayout _)]
  cases sub with
  | none =>
    simp only [Option.getD_none] at hownerWindow hpadWindow hsubWindow
    simp only [Account.storedLayout, Account.storedTag, Option.isSome_none, Bool.false_eq_true,
      if_false, Option.getD_none, hbits.1, hbits.2.1, hownerWindow, hpadWindow, hsubWindow,
      gt_iff_lt, not_lt.mpr hb, dite_false, any_ne_zero_replicate]
    simp [Subaccount.min]
  | some s =>
    simp only [Option.getD_some] at hownerWindow hpadWindow hsubWindow
    simp only [Account.storedLayout, Account.storedTag, Option.isSome_some, if_true,
      Option.getD_some, hbits.2.2.1, hownerWindow, hpadWindow, hsubWindow,
      gt_iff_lt, not_lt.mpr hb, dite_false, any_ne_zero_replicate]
    simp [hbits.2.2.2]

/-- A byte string without a non-zero byte is all zeroes. -/
theorem eq_replicate_of_any_ne_zero {bytes : List UInt8} (h : bytes.any (· != 0) = false) :
    bytes = List.replicate bytes.length 0 := by
  rw [List.eq_replicate_iff]
  refine ⟨rfl, fun b hb => ?_⟩
  simp only [List.any_eq_false, bne_iff_ne, ne_eq, not_not] at h
  exact h b hb

/-- Every accepted byte string is the stored layout of the account it
decodes to: the decoder admits no second encoding. -/
theorem Account.storedLayout_of_tryFromBytes {bytes : List UInt8} {a : Account}
    (h : Account.tryFromBytes bytes = .ok a) : a.storedLayout = bytes := by
  unfold Account.tryFromBytes at h
  split at h
  case isFalse => cases h
  case isTrue hsize =>
    match bytes, hsize with
    | tag :: body, hsize =>
      simp only [List.length_cons, accountStoredSize] at hsize
      have hbody : body.length = 61 := by omega
      dsimp only at h
      split at h
      case isTrue => cases h
      case isFalse hlen =>
        split at h
        case isTrue => cases h
        case isFalse hpad =>
          -- the decoded owner and padding window rebuild the first 29 body bytes
          have hlenNat : (tag &&& 0x7F).toNat ≤ principalMaxLength := by omega
          have htakeLen : (body.take (tag &&& 0x7F).toNat).length = (tag &&& 0x7F).toNat := by
            simp only [List.length_take]; unfold principalMaxLength at hlenNat; omega
          have hpadZero := eq_replicate_of_any_ne_zero (Bool.eq_false_iff.mpr hpad)
          have hprefix : padTo principalMaxLength (body.take (tag &&& 0x7F).toNat) =
              body.take principalMaxLength := by
            rw [padTo, htakeLen]
            conv_rhs => rw [← List.take_append_drop (tag &&& 0x7F).toNat (body.take principalMaxLength)]
            rw [List.take_take, Nat.min_eq_left hlenNat, hpadZero]
            congr 2
            simp only [List.length_drop, List.length_take]
            unfold principalMaxLength
            omega
          split at h
          case isTrue hflag =>
            cases h
            have hflag' : (tag &&& accountTagSubaccount) ≠ 0 := by simpa using hflag
            simp only [Account.storedLayout, Account.storedTag, Option.isSome_some, if_true,
              Option.getD_some, htakeLen, (tag_of_low_bits tag).2 hflag', hprefix,
              List.take_append_drop]
          case isFalse hflag =>
            split at h
            case isTrue => cases h
            case isFalse hsub =>
              cases h
              have hflag' : (tag &&& accountTagSubaccount) = 0 := by simpa using hflag
              have hsubZero := eq_replicate_of_any_ne_zero (Bool.eq_false_iff.mpr hsub)
              have hsubLen : (body.drop principalMaxLength).length = 32 := by
                simp [hbody, principalMaxLength]
              simp only [Account.storedLayout, Account.storedTag, Option.isSome_none,
                Bool.false_eq_true, if_false, Option.getD_none, htakeLen,
                (tag_of_low_bits tag).1 hflag', hprefix]
              congr 1
              rw [show Subaccount.min.bytes = body.drop principalMaxLength by
                rw [hsubZero, hsubLen]; rfl, List.take_append_drop]

end IcyDb
