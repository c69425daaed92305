import IcyDb.Types.DecimalArithmetic

/-!
# Decimal text

`Display` and `FromStr` of `icydb-schema`'s decimals.  Display prints the
normal form: the digits of the mantissa's magnitude, the point placed `scale`
digits from the right, and leading zeros written out for a value below one.
Parsing trims whitespace, takes one sign, rejects exponents, splits at the one
point, strips leading zeros from the joined digits and reads them as an
`i128`; a scale above the supported bound is brought down by stripping zeros.

Text is a list of characters.  Every length the code measures is a length of
ASCII digits, so counting bytes and counting characters agree.
-/

namespace IcyDb

namespace Decimal

open Positional Except

/-! ### Characters -/

/-- `char::is_whitespace`: the Unicode `White_Space` property. -/
def isWhitespace (c : Char) : Bool :=
  let n := c.toNat
  (0x09 ≤ n && n ≤ 0x0D) || n == 0x20 || n == 0x85 || n == 0xA0 || n == 0x1680 ||
    (0x2000 ≤ n && n ≤ 0x200A) || n == 0x2028 || n == 0x2029 || n == 0x202F || n == 0x205F ||
    n == 0x3000

/-- `char::is_ascii_digit`. -/
def isAsciiDigit (c : Char) : Bool := 0x30 ≤ c.toNat && c.toNat ≤ 0x39

/-- The value of an ASCII digit. -/
def digitValue (c : Char) : Nat := c.toNat - 0x30

/-- The ASCII digit of a value below ten. -/
def digitChar (d : Nat) : Char := Char.ofNat (0x30 + d)

/-- `str::trim`: whitespace dropped from both ends. -/
def trim (s : List Char) : List Char :=
  ((s.dropWhile isWhitespace).reverse.dropWhile isWhitespace).reverse

/-! ### Display -/

/-- `u128::to_string`: the decimal numeral, most significant digit first;
zero prints as `0`. -/
def u128ToString (n : Nat) : List Char :=
  if n = 0 then ['0'] else (msbDigits 10 n).map digitChar

/-- `impl Display for Decimal`.  The `usize` conversion of a `u32` scale
cannot fail. -/
def fmt (d : Decimal) : List Char :=
  let mantissa := d.normalizedParts.1
  let scale := d.normalizedParts.2
  if mantissa = 0 then ['0']
  else
    let negative := decide (mantissa < 0)
    let digits := u128ToString mantissa.natAbs
    if scale = 0 then
      if negative then '-' :: digits else digits
    else if digits.length ≤ scale then
      let body := '0' :: '.' :: (List.replicate (scale - digits.length) '0' ++ digits)
      if negative then '-' :: body else body
    else
      let split := digits.length - scale
      let frac := digits.drop split
      let digits := digits.take split
      if negative then '-' :: (digits ++ '.' :: frac) else digits ++ '.' :: frac

/-! ### Parsing -/

/-- `ParseDecimalErrorReason`. -/
inductive ParseDecimalErrorReason
  | empty
  | exponentNotationUnsupported
  | fractionalLengthOverflow
  | scaleOverflow
  | mantissaOverflow
  | scaleExceedsSupportedRange
  | invalidSignificand
  | invalidDigits
  deriving DecidableEq, Repr

/-- `ParseDecimalError`. -/
structure ParseDecimalError where
  reason : ParseDecimalErrorReason
  deriving DecidableEq, Repr

/-- One leading sign: `-` is negative, `+` is dropped, anything else is an
unsigned body. -/
def parseSign : List Char → Bool × List Char
  | '-' :: rest => (true, rest)
  | '+' :: rest => (false, rest)
  | input => (false, input)

/-- `e` or `E`, the exponent markers `from_str` refuses. -/
def isExponentMarker (c : Char) : Bool := c == 'e' || c == 'E'

/-- `split_decimal_significand`: the digits before and after the one point,
not both empty, all ASCII digits. -/
def splitDecimalSignificand (input : List Char) :
    Except ParseDecimalError (List Char × List Char) := do
  let segments := input.splitOn '.'
  let intDigits ← okOrElse segments.head? ⟨.invalidSignificand⟩
  let fracDigits := (segments.drop 1).head?.getD []
  failIf ((segments.drop 2).head?.isSome = true) ⟨.invalidSignificand⟩
  failIf (intDigits = [] ∧ fracDigits = []) ⟨.invalidSignificand⟩
  failIf (intDigits.all isAsciiDigit = false) ⟨.invalidDigits⟩
  failIf (fracDigits.all isAsciiDigit = false) ⟨.invalidDigits⟩
  pure (intDigits, fracDigits)

/-- `strip_leading_zeros`: leading zeros dropped, `0` if nothing is left. -/
def stripLeadingZeros (digits : List Char) : List Char :=
  let trimmed := digits.dropWhile (· == '0')
  if trimmed = [] then ['0'] else trimmed

/-- `str::parse::<i128>`: one optional sign, then one or more ASCII digits
whose value, with the sign, is an `i128`. -/
def parseI128 (src : List Char) : Option I128 :=
  let signed := parseSign src
  if signed.2 = [] ∨ signed.2.all isAsciiDigit = false then none
  else
    let magnitude : Int := msbValue 10 (signed.2.map digitValue)
    checkedI128 (if signed.1 then -magnitude else magnitude)

/-- `impl FromStr for Decimal`.  The fraction's length becomes the scale
through `i64` and `u32`, each conversion failing with its own reason. -/
def fromStr (s : List Char) : Except ParseDecimalError Decimal := do
  -- Phase 1: parse sign.
  let input := trim s
  failIf (input = []) ⟨.empty⟩
  let signed := parseSign input
  failIf (signed.2.any isExponentMarker = true) ⟨.exponentNotationUnsupported⟩
  -- Phase 2: parse base-10 digits and decimal point.
  let parts ← splitDecimalSignificand signed.2
  let digits := stripLeadingZeros (parts.1 ++ parts.2)
  failIf (2 ^ 63 ≤ parts.2.length) ⟨.fractionalLengthOverflow⟩
  failIf (2 ^ 32 ≤ parts.2.length) ⟨.scaleOverflow⟩
  -- Phase 3: materialize the mantissa.
  let signedDigits := if signed.1 then '-' :: digits else digits
  let mantissa ← okOrElse (parseI128 signedDigits) ⟨.mantissaOverflow⟩
  okOrElse (checkedFromMantissaScale mantissa parts.2.length) ⟨.scaleExceedsSupportedRange⟩

/-! ### Printed digits -/

/-- What the parser needs of a printed digit. -/
structure IsDigitChar (c : Char) : Prop where
  ascii : isAsciiDigit c = true
  not_whitespace : isWhitespace c = false
  not_exponent : isExponentMarker c = false
  ne_point : c ≠ '.'
  ne_minus : c ≠ '-'
  ne_plus : c ≠ '+'

/-- The ten digit characters, checked one by one. -/
theorem digitChar_facts : ∀ d : Fin 10,
    (isAsciiDigit (digitChar d) = true ∧ isWhitespace (digitChar d) = false ∧
      isExponentMarker (digitChar d) = false ∧ digitChar d ≠ '.' ∧ digitChar d ≠ '-' ∧
      digitChar d ≠ '+') ∧ digitValue (digitChar d) = d ∧ (digitChar d = '0' ↔ (d : Nat) = 0) := by
  decide

theorem isDigitChar_digitChar {d : Nat} (hd : d < 10) : IsDigitChar (digitChar d) :=
  let ⟨⟨h₁, h₂, h₃, h₄, h₅, h₆⟩, _⟩ := digitChar_facts ⟨d, hd⟩
  ⟨h₁, h₂, h₃, h₄, h₅, h₆⟩

theorem digitValue_digitChar {d : Nat} (hd : d < 10) : digitValue (digitChar d) = d :=
  (digitChar_facts ⟨d, hd⟩).2.1

theorem digitChar_eq_zero_iff {d : Nat} (hd : d < 10) : digitChar d = '0' ↔ d = 0 :=
  (digitChar_facts ⟨d, hd⟩).2.2

theorem u128ToString_eq_map (n : Nat) : u128ToString n = (if n = 0 then [0] else msbDigits 10 n).map digitChar := by
  unfold u128ToString
  split <;> rfl

theorem lt_ten_of_mem (n : Nat) {d : Nat} (h : d ∈ (if n = 0 then [0] else msbDigits 10 n)) : d < 10 := by
  split at h
  · rw [List.mem_singleton.mp h]
    norm_num
  · exact lt_base_of_mem_msbDigits (by norm_num) h

theorem isDigitChar_of_mem_u128ToString {n : Nat} {c : Char} (h : c ∈ u128ToString n) :
    IsDigitChar c := by
  rw [u128ToString_eq_map, List.mem_map] at h
  obtain ⟨d, hd, rfl⟩ := h
  exact isDigitChar_digitChar (lt_ten_of_mem n hd)

theorem u128ToString_ne_nil (n : Nat) : u128ToString n ≠ [] := by
  unfold u128ToString
  split
  · exact List.cons_ne_nil _ _
  · rename_i hn
    exact List.map_eq_nil_iff.not.mpr (msbDigits_ne_nil hn)

/-- Reading the printed digits back gives the number. -/
theorem msbValue_u128ToString (n : Nat) : msbValue 10 ((u128ToString n).map digitValue) = n := by
  have hid : (if n = 0 then [0] else msbDigits 10 n).map (digitValue ∘ digitChar) =
      (if n = 0 then [0] else msbDigits 10 n) :=
    (List.map_congr_left fun d hd => digitValue_digitChar (lt_ten_of_mem n hd)).trans
      (List.map_id' _)
  rw [u128ToString_eq_map, List.map_map, hid]
  split
  · rename_i hn
    rw [hn]
    rfl
  · exact msbValue_msbDigits 10 n

/-- The numeral of a positive number does not start with `0`. -/
theorem u128ToString_head_ne_zero {n : Nat} (hn : n ≠ 0) :
    ∀ c rest, u128ToString n = c :: rest → c ≠ '0' := by
  intro c rest h
  rw [u128ToString, if_neg hn] at h
  rcases hdigits : msbDigits 10 n with _ | ⟨d, ds⟩
  · exact absurd hdigits (msbDigits_ne_nil hn)
  · rw [hdigits, List.map_cons, List.cons.injEq] at h
    rw [← h.1, Ne, digitChar_eq_zero_iff (lt_base_of_mem_msbDigits (by norm_num)
      (hdigits ▸ List.mem_cons_self))]
    exact msbDigits_head_ne_zero hn hdigits

/-! ### Pieces of the parser -/

theorem trim_of_forall {s : List Char} (h : ∀ c ∈ s, isWhitespace c = false) : trim s = s := by
  have hkeep : ∀ l : List Char, (∀ c ∈ l, isWhitespace c = false) → l.dropWhile isWhitespace = l := by
    intro l hl
    cases l with
    | nil => rfl
    | cons c rest => exact List.dropWhile_cons_of_neg (by rw [hl c List.mem_cons_self]; decide)
  rw [trim, hkeep s h, hkeep s.reverse fun c hc => h c (List.mem_reverse.mp hc), List.reverse_reverse]

theorem parseSign_of_digit {c : Char} {rest : List Char} (hc : IsDigitChar c) :
    parseSign (c :: rest) = (false, c :: rest) := by
  unfold parseSign
  split
  · rename_i heq
    exact absurd (List.cons.inj heq).1 hc.ne_minus
  · rename_i heq
    exact absurd (List.cons.inj heq).1 hc.ne_plus
  · rfl

/-- Leading zeros before a numeral that does not start with one are dropped. -/
theorem stripLeadingZeros_replicate_append (k : Nat) {l : List Char} (hne : l ≠ [])
    (hhead : ∀ c rest, l = c :: rest → c ≠ '0') :
    stripLeadingZeros (List.replicate k '0' ++ l) = l := by
  have hdrop : (List.replicate k '0' ++ l).dropWhile (· == '0') = l := by
    rw [List.dropWhile_append_of_pos fun c hc => by rw [List.eq_of_mem_replicate hc]; rfl]
    cases l with
    | nil => exact absurd rfl hne
    | cons c rest => exact List.dropWhile_cons_of_neg (by simpa using hhead c rest rfl)
  rw [stripLeadingZeros, hdrop, if_neg hne]

theorem splitOn_point_of_forall {l : List Char} (h : ∀ c ∈ l, IsDigitChar c) :
    l.splitOn '.' = [l] := by
  rw [List.splitOn_eq_splitOnP]
  exact List.splitOnP_eq_singleton fun c hc => by simpa using (h c hc).ne_point

theorem splitOn_point_append {l r : List Char} (hl : ∀ c ∈ l, IsDigitChar c)
    (hr : ∀ c ∈ r, IsDigitChar c) : (l ++ '.' :: r).splitOn '.' = [l, r] := by
  rw [List.splitOn_eq_splitOnP, List.splitOnP_append_cons_of_forall_mem
    (fun c hc => by simpa using (hl c hc).ne_point) '.' (by decide), ← List.splitOn_eq_splitOnP,
    splitOn_point_of_forall hr]

theorem all_isAsciiDigit {l : List Char} (h : ∀ c ∈ l, IsDigitChar c) : l.all isAsciiDigit = true :=
  List.all_eq_true.mpr fun c hc => (h c hc).ascii

theorem splitDecimalSignificand_of_point {i f : List Char} (hi : ∀ c ∈ i, IsDigitChar c)
    (hf : ∀ c ∈ f, IsDigitChar c) (hne : i ≠ []) :
    splitDecimalSignificand (i ++ '.' :: f) = .ok (i, f) := by
  unfold splitDecimalSignificand
  simp only [splitOn_point_append hi hf, List.head?_cons, okOrElse_some, ok_bind, List.drop_succ_cons,
    List.drop_zero, List.drop_nil, Option.getD_some, List.head?_nil]
  simp only [all_isAsciiDigit hi, all_isAsciiDigit hf]
  simp [hne, pure, Except.pure]

theorem splitDecimalSignificand_of_integer {i : List Char} (hi : ∀ c ∈ i, IsDigitChar c)
    (hne : i ≠ []) : splitDecimalSignificand i = .ok (i, []) := by
  unfold splitDecimalSignificand
  simp only [splitOn_point_of_forall hi, List.head?_cons, okOrElse_some, ok_bind,
    List.drop_succ_cons, List.drop_nil, List.head?_nil, Option.getD_none]
  simp only [all_isAsciiDigit hi]
  simp [hne, pure, Except.pure]

/-- A numeral with an optional minus sign parses as its signed value. -/
theorem parseI128_of_numeral (negative : Bool) {digits : List Char} (hne : digits ≠ [])
    (hd : ∀ c ∈ digits, IsDigitChar c) {m : I128}
    (hm : m.1 = if negative then -(msbValue 10 (digits.map digitValue) : Int)
      else msbValue 10 (digits.map digitValue)) :
    parseI128 (if negative then '-' :: digits else digits) = some m := by
  have hsign : parseSign (if negative then '-' :: digits else digits) = (negative, digits) := by
    cases negative
    · obtain ⟨c, rest, rfl⟩ := List.exists_cons_of_ne_nil hne
      exact parseSign_of_digit (hd c List.mem_cons_self)
    · rfl
  unfold parseI128
  rw [hsign]
  dsimp only
  rw [if_neg (by simp [hne, all_isAsciiDigit hd]), checkedI128_eq_some_iff]
  exact hm

/-- The success path of `from_str`: trimmed text, one sign, no exponent, a
split significand, a supported scale and a mantissa that parses. -/
theorem fromStr_eq_ok {s body i f : List Char} {negative : Bool} {m : I128}
    (htrim : trim s = s) (hne : s ≠ []) (hsign : parseSign s = (negative, body))
    (hexp : body.any isExponentMarker = false) (hsplit : splitDecimalSignificand body = .ok (i, f))
    (hscale : f.length ≤ maxSupportedScale)
    (hparse : parseI128 (if negative then '-' :: stripLeadingZeros (i ++ f)
      else stripLeadingZeros (i ++ f)) = some m) :
    fromStr s = .ok ⟨m.1, f.length, m.2, hscale⟩ := by
  have h63 : ¬ 2 ^ 63 ≤ f.length := by unfold maxSupportedScale at hscale; omega
  have h32 : ¬ 2 ^ 32 ≤ f.length := by unfold maxSupportedScale at hscale; omega
  unfold fromStr
  simp only [htrim, failIf_of_not hne, ok_bind, hsign, hexp, Bool.false_eq_true, not_false_eq_true,
    failIf_of_not, hsplit, failIf_of_not h63, failIf_of_not h32, hparse, okOrElse_some,
    checkedFromMantissaScale_of_le m hscale]

/-! ### The printed text -/

/-- The text `Display` writes for a positive magnitude `n` at scale `s`,
after the sign. -/
def unsignedText (n s : Nat) : List Char :=
  let digits := u128ToString n
  if s = 0 then digits
  else if digits.length ≤ s then '0' :: '.' :: (List.replicate (s - digits.length) '0' ++ digits)
  else digits.take (digits.length - s) ++ '.' :: digits.drop (digits.length - s)

/-- A non-zero normal form prints as its sign and its unsigned text. -/
theorem fmt_of_ne_zero {d : Decimal} (h : d.normalizedParts.1 ≠ 0) :
    fmt d = (if d.normalizedParts.1 < 0 then ['-'] else []) ++
      unsignedText d.normalizedParts.1.natAbs d.normalizedParts.2 := by
  unfold fmt unsignedText
  dsimp only
  rw [if_neg h]
  by_cases hneg : d.normalizedParts.1 < 0 <;> simp only [hneg, decide_true, decide_false] <;>
    split_ifs <;> rfl

theorem isDigitChar_zero : IsDigitChar '0' := isDigitChar_digitChar (d := 0) (by norm_num)

theorem mem_unsignedText {n s : Nat} {c : Char} (h : c ∈ unsignedText n s) :
    IsDigitChar c ∨ c = '.' := by
  unfold unsignedText at h
  dsimp only at h
  split_ifs at h
  · exact .inl (isDigitChar_of_mem_u128ToString h)
  · rcases List.mem_cons.mp h with rfl | h
    · exact .inl isDigitChar_zero
    rcases List.mem_cons.mp h with rfl | h
    · exact .inr rfl
    rcases List.mem_append.mp h with h | h
    · rw [List.eq_of_mem_replicate h]
      exact .inl isDigitChar_zero
    · exact .inl (isDigitChar_of_mem_u128ToString h)
  · rcases List.mem_append.mp h with h | h
    · exact .inl (isDigitChar_of_mem_u128ToString (List.mem_of_mem_take h))
    rcases List.mem_cons.mp h with rfl | h
    · exact .inr rfl
    · exact .inl (isDigitChar_of_mem_u128ToString (List.mem_of_mem_drop h))

/-- The unsigned text starts with a digit. -/
theorem unsignedText_head (n s : Nat) : ∃ c rest, unsignedText n s = c :: rest ∧ IsDigitChar c := by
  have hdigits := u128ToString_ne_nil n
  unfold unsignedText
  dsimp only
  split_ifs with hs hlen
  · obtain ⟨c, rest, hcons⟩ := List.exists_cons_of_ne_nil hdigits
    exact ⟨c, rest, hcons, isDigitChar_of_mem_u128ToString (hcons ▸ List.mem_cons_self)⟩
  · exact ⟨'0', _, rfl, isDigitChar_zero⟩
  · have htake : (u128ToString n).take ((u128ToString n).length - s) ≠ [] := by
      simp only [Ne, List.take_eq_nil_iff, not_or]
      exact ⟨by omega, hdigits⟩
    obtain ⟨c, rest, hcons⟩ := List.exists_cons_of_ne_nil htake
    refine ⟨c, rest ++ '.' :: (u128ToString n).drop ((u128ToString n).length - s), by
      rw [hcons, List.cons_append], ?_⟩
    exact isDigitChar_of_mem_u128ToString (List.mem_of_mem_take (hcons ▸ List.mem_cons_self))

/-- The unsigned text splits at its point into digits whose fraction has
`s` digits and whose stripped concatenation is the numeral. -/
theorem unsignedText_split {n : Nat} (hn : n ≠ 0) (s : Nat) :
    ∃ i f, splitDecimalSignificand (unsignedText n s) = .ok (i, f) ∧ f.length = s ∧
      stripLeadingZeros (i ++ f) = u128ToString n := by
  have hne := u128ToString_ne_nil n
  have hhead := u128ToString_head_ne_zero hn
  have hdig : ∀ c ∈ u128ToString n, IsDigitChar c := fun c hc => isDigitChar_of_mem_u128ToString hc
  unfold unsignedText
  dsimp only
  split_ifs with hs hlen
  · -- an integer: no point
    refine ⟨u128ToString n, [], splitDecimalSignificand_of_integer hdig hne, hs.symm, ?_⟩
    rw [List.append_nil]
    exact stripLeadingZeros_replicate_append 0 hne hhead
  · -- below one: a zero, the point, and zeros padding the fraction to `s` digits
    have hfrac : ∀ c ∈ List.replicate (s - (u128ToString n).length) '0' ++ u128ToString n,
        IsDigitChar c := by
      intro c hc
      rcases List.mem_append.mp hc with hc | hc
      · rw [List.eq_of_mem_replicate hc]
        exact isDigitChar_zero
      · exact hdig c hc
    refine ⟨['0'], _, splitDecimalSignificand_of_point (i := ['0']) (fun c hc => by
      rw [List.mem_singleton.mp hc]; exact isDigitChar_zero) hfrac (List.cons_ne_nil _ _), ?_, ?_⟩
    · rw [List.length_append, List.length_replicate]
      omega
    · rw [List.singleton_append, ← List.cons_append, ← List.replicate_succ]
      exact stripLeadingZeros_replicate_append _ hne hhead
  · -- the point inside the numeral
    have htake : (u128ToString n).take ((u128ToString n).length - s) ≠ [] := by
      simp only [Ne, List.take_eq_nil_iff, not_or]
      exact ⟨by omega, hne⟩
    refine ⟨_, _, splitDecimalSignificand_of_point (fun c hc => hdig c (List.mem_of_mem_take hc))
      (fun c hc => hdig c (List.mem_of_mem_drop hc)) htake, ?_, ?_⟩
    · rw [List.length_drop]
      omega
    · rw [List.take_append_drop]
      exact stripLeadingZeros_replicate_append 0 hne hhead

/-! ### Round trip -/

theorem fmt_of_eq_zero {d : Decimal} (h : d.normalizedParts.1 = 0) : fmt d = ['0'] := by
  unfold fmt
  dsimp only
  rw [if_pos h]

/-- A printed decimal is a sign, digits and a point: no whitespace. -/
theorem isWhitespace_of_mem_fmt {d : Decimal} {x : Char} (hx : x ∈ fmt d) :
    isWhitespace x = false := by
  by_cases hzero : d.normalizedParts.1 = 0
  · rw [fmt_of_eq_zero hzero, List.mem_singleton] at hx
    rw [hx]
    decide
  · rw [fmt_of_ne_zero hzero, List.mem_append] at hx
    rcases hx with hx | hx
    · split at hx
      · rw [List.mem_singleton.mp hx]
        decide
      · cases hx
    · rcases mem_unsignedText hx with hx | rfl
      · exact hx.not_whitespace
      · decide

theorem any_isExponentMarker_unsignedText (n s : Nat) :
    (unsignedText n s).any isExponentMarker = false := by
  rw [List.any_eq_false]
  intro x hx
  rcases mem_unsignedText hx with hx | rfl
  · simp [hx.not_exponent]
  · decide

/-- The sign of a printed non-zero decimal is read back off its first
character. -/
theorem parseSign_fmt {d : Decimal} (hzero : d.normalizedParts.1 ≠ 0) :
    parseSign (fmt d) = (decide (d.normalizedParts.1 < 0),
      unsignedText d.normalizedParts.1.natAbs d.normalizedParts.2) := by
  rw [fmt_of_ne_zero hzero]
  by_cases hneg : d.normalizedParts.1 < 0
  · simp only [hneg, if_true, decide_true]
    rfl
  · simp only [hneg, if_false, decide_false, List.nil_append]
    obtain ⟨c, rest, hcons, hc⟩ := unsignedText_head d.normalizedParts.1.natAbs d.normalizedParts.2
    rw [hcons]
    exact parseSign_of_digit hc

theorem fmt_ne_nil (d : Decimal) : fmt d ≠ [] := by
  by_cases hzero : d.normalizedParts.1 = 0
  · rw [fmt_of_eq_zero hzero]
    exact List.cons_ne_nil _ _
  · obtain ⟨c, rest, hcons, -⟩ := unsignedText_head d.normalizedParts.1.natAbs d.normalizedParts.2
    rw [fmt_of_ne_zero hzero, hcons]
    simp

/-- The printed magnitude, signed back, is the mantissa of the normal form. -/
theorem parseI128_u128ToString (m : I128) :
    parseI128 (if decide (m.1 < 0) then '-' :: u128ToString m.1.natAbs else u128ToString m.1.natAbs) =
      some m := by
  apply parseI128_of_numeral _ (u128ToString_ne_nil _) fun x hx => isDigitChar_of_mem_u128ToString hx
  rw [msbValue_u128ToString]
  by_cases hneg : m.1 < 0
  · rw [if_pos (decide_eq_true hneg)]
    omega
  · rw [if_neg (by simpa using hneg)]
    omega

/-- Printing, then parsing, gives the normal form back. -/
theorem fromStr_fmt (d : Decimal) : fromStr (fmt d) = .ok d.normalize := by
  by_cases hzero : d.normalizedParts.1 = 0
  · have hnorm : d.normalize = zero := eq_of_mantissa_scale hzero (normalizeParts_snd_eq_zero hzero)
    rw [fmt_of_eq_zero hzero, hnorm]
    rfl
  · -- the unsigned text splits into a fraction of `scale` digits around the numeral
    obtain ⟨i, f, hsplit, hlen, hstrip⟩ :=
      unsignedText_split (Int.natAbs_ne_zero.mpr hzero) d.normalizedParts.2
    have hparse : parseI128 (if decide (d.normalizedParts.1 < 0) then
        '-' :: u128ToString d.normalizedParts.1.natAbs else u128ToString d.normalizedParts.1.natAbs) =
        some d.normalize.mantissaI128 :=
      parseI128_u128ToString d.normalize.mantissaI128
    rw [← hstrip] at hparse
    rw [fromStr_eq_ok (trim_of_forall fun x hx => isWhitespace_of_mem_fmt hx) (fmt_ne_nil d)
      (parseSign_fmt hzero) (any_isExponentMarker_unsignedText _ _) hsplit
      (hlen ▸ d.normalize.scale_le) hparse]
    exact congrArg Except.ok (eq_of_mantissa_scale rfl hlen)

theorem normalize_eq (d : Decimal) : d.normalize.eq d = true := by
  rw [eq_iff_normalizedParts_eq, normalizedParts_normalize]

/-- Decimal text round trip: printing any decimal, `i128::MIN` mantissas
included, and parsing the text gives a decimal equal to it, namely its normal
form; and a decimal parsed from any accepted text survives being printed and
parsed again. -/
theorem decimal_text_round_trip :
    (∀ d : Decimal, fromStr (fmt d) = .ok d.normalize ∧ d.normalize.eq d = true) ∧
    (∀ (s : List Char) (d : Decimal), fromStr s = .ok d →
      ∃ d', fromStr (fmt d) = .ok d' ∧ d'.eq d = true) :=
  ⟨fun d => ⟨fromStr_fmt d, normalize_eq d⟩,
    fun _ d _ => ⟨d.normalize, fromStr_fmt d, normalize_eq d⟩⟩

/-- `Display` is canonical: two decimals print alike exactly when they are
equal. -/
theorem decimal_display_canonical (a b : Decimal) : fmt a = fmt b ↔ a.eq b = true := by
  rw [eq_iff_normalizedParts_eq]
  constructor
  · intro h
    have hparse : a.normalize = b.normalize := by
      have := fromStr_fmt b
      rw [← h, fromStr_fmt a] at this
      exact Except.ok.inj this
    rw [← normalizedParts_normalize a, hparse, normalizedParts_normalize]
  · intro h
    unfold fmt
    rw [h]

end Decimal

end IcyDb
