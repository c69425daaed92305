import IcyDb.Value.Compare
import IcyDb.Types.Account
import IcyDb.Types.DecimalOrder
import IcyDb.Order.Comparator

/-!
# The canonical order is a lexicographic order

`canonical_cmp` is read off a key: every value is mapped to a string of
rationals, `orderKey`, whose lexicographic order is the canonical order.  The
key starts with the variant rank; fixed-size payloads contribute a fixed
number of tokens, byte strings are terminated by a token below every byte,
and lists, maps and enum bodies mark each element with a `1` and their end
with a `0`.  Each key therefore decides against another key before anything
written after it is read, which is what lets the order of a list be the order
of its elements followed by its length.

From `canonical_cmp = compare ∘ orderKey` the comparator is a total preorder
on all values: ties are exactly the values with one key, such as two
representations of one decimal.
-/

namespace IcyDb

namespace Value

open ByteOrder Comparator

/-! ### Tokens -/

/-- A byte as a token. -/
def byteToken (b : UInt8) : ℚ := b.toNat

/-- A byte string that must be followed by more tokens: each byte shifted up
by one and a terminating `0`. -/
def terminatedToken (bytes : List UInt8) : List ℚ :=
  bytes.map (fun b => (b.toNat : ℚ) + 1) ++ [0]

theorem compare_byteToken (a b : UInt8) : compare (byteToken a) (byteToken b) = compare a b := by
  rw [compare_uint8]
  exact compare_eq_compare_of_lt_iff (by simp [byteToken]) (by simp [byteToken])

theorem compare_map_byteToken (xs ys : List UInt8) :
    compare (xs.map byteToken) (ys.map byteToken) = compare xs ys :=
  compare_map byteToken (fun _ => True) (fun a b _ _ => compare_byteToken a b)
    (fun _ _ => trivial) (fun _ _ => trivial)

/-- Terminated byte strings decide before what follows them. -/
theorem compare_terminatedToken_append (xs ys : List UInt8) (s t : List ℚ) :
    compare (terminatedToken xs ++ s) (terminatedToken ys ++ t) =
      (compare xs ys).then (compare s t) := by
  induction xs generalizing ys with
  | nil =>
    cases ys with
    | nil => simp [terminatedToken, List.compare_cons_cons]
    | cons y ys =>
      have hlt : compare (0 : ℚ) ((y.toNat : ℚ) + 1) = .lt := compare_lt_iff_lt.mpr (by positivity)
      simp [terminatedToken, List.compare_cons_cons, hlt]
  | cons x xs ih =>
    cases ys with
    | nil =>
      have hgt : compare ((x.toNat : ℚ) + 1) 0 = .gt := compare_gt_iff_gt.mpr (by positivity)
      simp [terminatedToken, List.compare_cons_cons, hgt]
    | cons y ys =>
      have hxy : compare ((x.toNat : ℚ) + 1) ((y.toNat : ℚ) + 1) = compare x y := by
        rw [compare_uint8]
        exact compare_eq_compare_of_lt_iff (by simp) (by simp)
      have ih' := ih ys
      simp only [terminatedToken, List.map_cons, List.cons_append] at ih' ⊢
      rw [List.compare_cons_cons, List.compare_cons_cons, hxy, ih', Ordering.then_assoc]

/-! ### The key -/

/-- The rank as a token. -/
def rankToken (v : Value) : ℚ := v.canonicalRank.toNat

mutual

/-- The canonical order key: the rank, then the payload. -/
def orderKey : Value → List ℚ
  | account a => (account a).rankToken :: a.storedLayout.map byteToken
  | blob a => (blob a).rankToken :: terminatedToken a
  | bool a => (bool a).rankToken :: [if a then 1 else 0]
  | date a => (date a).rankToken :: [(a.days.toInt : ℚ)]
  | decimal a => (decimal a).rankToken :: [a.toRat]
  | duration a => (duration a).rankToken :: [(a.millis.toNat : ℚ)]
  | enum t v p =>
    (enum t v p).rankToken :: (t.id.toNat : ℚ) :: (v.id.toNat : ℚ) :: orderKeyPayload p
  | float32 a => (float32 a).rankToken :: [((totalOrderKey a.bits).toInt : ℚ)]
  | float64 a => (float64 a).rankToken :: [((totalOrderKey a.bits).toInt : ℚ)]
  | int64 a => (int64 a).rankToken :: [(a.toInt : ℚ)]
  | int128 a => (int128 a).rankToken :: [(a.toInt : ℚ)]
  | intBig a => (intBig a).rankToken :: [(a : ℚ)]
  | list a => (list a).rankToken :: orderKeyList a
  | map a => (map a).rankToken :: orderKeyMap a
  | null => [null.rankToken]
  | principal a =>
    (principal a).rankToken :: (a.bytes.length : ℚ) :: (padTo principalMaxLength a.bytes).map byteToken
  | subaccount a => (subaccount a).rankToken :: a.bytes.map byteToken
  | text a => (text a).rankToken :: terminatedToken a
  | timestamp a => (timestamp a).rankToken :: [(a.millis.toInt : ℚ)]
  | nat64 a => (nat64 a).rankToken :: [(a.toNat : ℚ)]
  | nat128 a => (nat128 a).rankToken :: [(a.toNat : ℚ)]
  | natBig a => (natBig a).rankToken :: [(a : ℚ)]
  | ulid a => (ulid a).rankToken :: a.bytes.map byteToken
  | unit => [unit.rankToken]
termination_by structural v => v

/-- The key of a list: each element marked by `1`, the end by `0`. -/
def orderKeyList : List Value → List ℚ
  | [] => [0]
  | v :: vs => 1 :: orderKey v ++ orderKeyList vs
termination_by structural vs => vs

/-- The key of a map: each entry, key then value, marked by `1`, the end by
`0`. -/
def orderKeyMap : List (Value × Value) → List ℚ
  | [] => [0]
  | (k, v) :: es => 1 :: orderKey k ++ orderKey v ++ orderKeyMap es
termination_by structural es => es

/-- The key of an enum body: `0` for a unit body, `1` before a payload. -/
def orderKeyPayload : Option Value → List ℚ
  | none => [0]
  | some v => 1 :: orderKey v
termination_by structural p => p

end

/-! ### Ranks -/

theorem compare_rankToken (x y : Value) :
    compare x.rankToken y.rankToken = compare x.canonicalRank y.canonicalRank := by
  rw [compare_uint8]
  exact compare_eq_compare_of_lt_iff (by simp [rankToken]) (by simp [rankToken])

theorem orderKey_cons (x : Value) : ∃ rest, orderKey x = x.rankToken :: rest := by
  cases x <;> exact ⟨_, by simp only [orderKey]; rfl⟩

/-- Keys of values of different variants decide at their first token. -/
theorem orderKey_append_of_tag_ne {x y : Value} (h : x.canonicalTag ≠ y.canonicalTag)
    (s t : List ℚ) :
    compare (orderKey x ++ s) (orderKey y ++ t) = (canonicalCmp x y).then (compare s t) := by
  obtain ⟨kx, hkx⟩ := orderKey_cons x
  obtain ⟨ky, hky⟩ := orderKey_cons y
  rw [hkx, hky, List.cons_append, List.cons_append, List.compare_cons_cons, compare_rankToken,
    canonicalCmp_of_tag_ne h, then_of_ne_eq (compare_canonicalRank_ne_eq h),
    then_of_ne_eq (compare_canonicalRank_ne_eq h)]

theorem compare_natCast_rat (a b : Nat) : compare (a : ℚ) (b : ℚ) = compare a b :=
  compare_eq_compare_of_lt_iff (by simp) (by simp)

theorem compare_intCast_rat (a b : Int) : compare (a : ℚ) (b : ℚ) = compare a b :=
  compare_eq_compare_of_lt_iff (by simp) (by simp)

theorem compare_bool_token (a b : Bool) :
    compare (if a then (1 : ℚ) else 0) (if b then 1 else 0) = compare a b := by
  cases a <;> cases b <;> decide

/-! ### The key decides the canonical order -/

mutual

/-- The key of a value decides against the key of another value before
anything written after them, and it decides as `canonical_cmp` does. -/
theorem orderKey_append : (x y : Value) → (s t : List ℚ) →
    compare (orderKey x ++ s) (orderKey y ++ t) = (canonicalCmp x y).then (compare s t)
  | account a, y, s, t => by
    cases y
    case account b =>
      have hlen : (a.storedLayout.map byteToken).length = (b.storedLayout.map byteToken).length := by
        simp [Account.length_storedLayout]
      simp only [orderKey, canonicalCmp_account, List.cons_append, List.compare_cons_cons,
        compare_rankToken, Ordering.eq_then,
        compare_canonicalRank_of_tag_eq (x := account a) (y := account b) rfl]
      rw [compare_append_of_length_eq hlen, compare_map_byteToken,
        Account.compare_storedLayout]
    all_goals exact orderKey_append_of_tag_ne (fun h => ValueTag.noConfusion h) s t
  | blob a, y, s, t => by
    cases y
    case blob b =>
      simp only [orderKey, canonicalCmp_blob, List.cons_append, List.compare_cons_cons,
        compare_rankToken, Ordering.eq_then,
        compare_canonicalRank_of_tag_eq (x := blob a) (y := blob b) rfl]
      rw [compare_terminatedToken_append]
    all_goals exact orderKey_append_of_tag_ne (fun h => ValueTag.noConfusion h) s t
  | bool a, y, s, t => by
    cases y
    case bool b =>
      simp only [orderKey, canonicalCmp_bool, List.cons_append, List.nil_append,
        List.compare_cons_cons, compare_rankToken, Ordering.eq_then,
        compare_canonicalRank_of_tag_eq (x := bool a) (y := bool b) rfl]
      rw [compare_bool_token]
    all_goals exact orderKey_append_of_tag_ne (fun h => ValueTag.noConfusion h) s t
  | date a, y, s, t => by
    cases y
    case date b =>
      simp only [orderKey, canonicalCmp_date, List.cons_append, List.nil_append,
        List.compare_cons_cons, compare_rankToken, Ordering.eq_then,
        compare_canonicalRank_of_tag_eq (x := date a) (y := date b) rfl]
      rw [compare_intCast_rat]
      rfl
    all_goals exact orderKey_append_of_tag_ne (fun h => ValueTag.noConfusion h) s t
  | decimal a, y, s, t => by
    cases y
    case decimal b =>
      simp only [orderKey, canonicalCmp_decimal, List.cons_append, List.nil_append,
        List.compare_cons_cons, compare_rankToken, Ordering.eq_then,
        compare_canonicalRank_of_tag_eq (x := decimal a) (y := decimal b) rfl]
      rw [Decimal.cmp,
        Decimal.cmpDecimal_eq_compare_toRat]
    all_goals exact orderKey_append_of_tag_ne (fun h => ValueTag.noConfusion h) s t
  | duration a, y, s, t => by
    cases y
    case duration b =>
      simp only [orderKey, canonicalCmp_duration, List.cons_append, List.nil_append,
        List.compare_cons_cons, compare_rankToken, Ordering.eq_then,
        compare_canonicalRank_of_tag_eq (x := duration a) (y := duration b) rfl]
      rw [compare_natCast_rat]
      rfl
    all_goals exact orderKey_append_of_tag_ne (fun h => ValueTag.noConfusion h) s t
  | enum ta va pa, y, s, t => by
    cases y
    case enum tb vb pb =>
      simp only [orderKey, canonicalCmp_enum, List.cons_append, List.compare_cons_cons,
        compare_rankToken, Ordering.eq_then,
        compare_canonicalRank_of_tag_eq (x := enum ta va pa) (y := enum tb vb pb) rfl]
      -- type and variant tokens, then the body
      rw [compare_natCast_rat, compare_natCast_rat, orderKeyPayload_append pa pb s t,
        Ordering.then_assoc, Ordering.then_assoc]
    all_goals exact orderKey_append_of_tag_ne (fun h => ValueTag.noConfusion h) s t
  | float32 a, y, s, t => by
    cases y
    case float32 b =>
      simp only [orderKey, canonicalCmp_float32, List.cons_append, List.nil_append,
        List.compare_cons_cons, compare_rankToken, Ordering.eq_then,
        compare_canonicalRank_of_tag_eq (x := float32 a) (y := float32 b) rfl]
      rw [compare_intCast_rat]
      rfl
    all_goals exact orderKey_append_of_tag_ne (fun h => ValueTag.noConfusion h) s t
  | float64 a, y, s, t => by
    cases y
    case float64 b =>
      simp only [orderKey, canonicalCmp_float64, List.cons_append, List.nil_append,
        List.compare_cons_cons, compare_rankToken, Ordering.eq_then,
        compare_canonicalRank_of_tag_eq (x := float64 a) (y := float64 b) rfl]
      rw [compare_intCast_rat]
      rfl
    all_goals exact orderKey_append_of_tag_ne (fun h => ValueTag.noConfusion h) s t
  | int64 a, y, s, t => by
    cases y
    case int64 b =>
      simp only [orderKey, canonicalCmp_int64, List.cons_append, List.nil_append,
        List.compare_cons_cons, compare_rankToken, Ordering.eq_then,
        compare_canonicalRank_of_tag_eq (x := int64 a) (y := int64 b) rfl]
      rw [compare_intCast_rat]
    all_goals exact orderKey_append_of_tag_ne (fun h => ValueTag.noConfusion h) s t
  | int128 a, y, s, t => by
    cases y
    case int128 b =>
      simp only [orderKey, canonicalCmp_int128, List.cons_append, List.nil_append,
        List.compare_cons_cons, compare_rankToken, Ordering.eq_then,
        compare_canonicalRank_of_tag_eq (x := int128 a) (y := int128 b) rfl]
      rw [compare_intCast_rat]
    all_goals exact orderKey_append_of_tag_ne (fun h => ValueTag.noConfusion h) s t
  | intBig a, y, s, t => by
    cases y
    case intBig b =>
      simp only [orderKey, canonicalCmp_intBig, List.cons_append, List.nil_append,
        List.compare_cons_cons, compare_rankToken, Ordering.eq_then,
        compare_canonicalRank_of_tag_eq (x := intBig a) (y := intBig b) rfl]
      rw [compare_intCast_rat]
    all_goals exact orderKey_append_of_tag_ne (fun h => ValueTag.noConfusion h) s t
  | list a, y, s, t => by
    cases y
    case list b =>
      simp only [orderKey, canonicalCmp_list, List.cons_append, List.compare_cons_cons,
        compare_rankToken, Ordering.eq_then,
        compare_canonicalRank_of_tag_eq (x := list a) (y := list b) rfl]
      rw [orderKeyList_append a b s t, Ordering.then_assoc]
    all_goals exact orderKey_append_of_tag_ne (fun h => ValueTag.noConfusion h) s t
  | map a, y, s, t => by
    cases y
    case map b =>
      simp only [orderKey, canonicalCmp_map, List.cons_append, List.compare_cons_cons,
        compare_rankToken, Ordering.eq_then,
        compare_canonicalRank_of_tag_eq (x := map a) (y := map b) rfl]
      rw [orderKeyMap_append a b s t, Ordering.then_assoc]
    all_goals exact orderKey_append_of_tag_ne (fun h => ValueTag.noConfusion h) s t
  | null, y, s, t => by
    cases y
    case null =>
      simp only [orderKey, canonicalCmp_null, List.cons_append, List.nil_append,
        List.compare_cons_cons, compare_rankToken, Ordering.eq_then,
        compare_canonicalRank_of_tag_eq (x := null) (y := null) rfl]
    all_goals exact orderKey_append_of_tag_ne (fun h => ValueTag.noConfusion h) s t
  | principal a, y, s, t => by
    cases y
    case principal b =>
      have hlen : ((padTo principalMaxLength a.bytes).map byteToken).length =
          ((padTo principalMaxLength b.bytes).map byteToken).length := by
        simp [length_padTo a.bounded, length_padTo b.bounded]
      simp only [orderKey, canonicalCmp_principal, List.cons_append, List.compare_cons_cons,
        compare_rankToken, Ordering.eq_then,
        compare_canonicalRank_of_tag_eq (x := principal a) (y := principal b) rfl]
      -- the length token, then the padded bytes
      rw [compare_natCast_rat, compare_append_of_length_eq hlen, compare_map_byteToken,
        Principal.cmp, Ordering.then_assoc]
    all_goals exact orderKey_append_of_tag_ne (fun h => ValueTag.noConfusion h) s t
  | subaccount a, y, s, t => by
    cases y
    case subaccount b =>
      have hlen : (a.bytes.map byteToken).length = (b.bytes.map byteToken).length := by
        simp [a.length_eq, b.length_eq]
      simp only [orderKey, canonicalCmp_subaccount, List.cons_append, List.compare_cons_cons,
        compare_rankToken, Ordering.eq_then,
        compare_canonicalRank_of_tag_eq (x := subaccount a) (y := subaccount b) rfl]
      rw [compare_append_of_length_eq hlen, compare_map_byteToken]
      rfl
    all_goals exact orderKey_append_of_tag_ne (fun h => ValueTag.noConfusion h) s t
  | text a, y, s, t => by
    cases y
    case text b =>
      simp only [orderKey, canonicalCmp_text, List.cons_append, List.compare_cons_cons,
        compare_rankToken, Ordering.eq_then,
        compare_canonicalRank_of_tag_eq (x := text a) (y := text b) rfl]
      rw [compare_terminatedToken_append]
    all_goals exact orderKey_append_of_tag_ne (fun h => ValueTag.noConfusion h) s t
  | timestamp a, y, s, t => by
    cases y
    case timestamp b =>
      simp only [orderKey, canonicalCmp_timestamp, List.cons_append, List.nil_append,
        List.compare_cons_cons, compare_rankToken, Ordering.eq_then,
        compare_canonicalRank_of_tag_eq (x := timestamp a) (y := timestamp b) rfl]
      rw [compare_intCast_rat]
      rfl
    all_goals exact orderKey_append_of_tag_ne (fun h => ValueTag.noConfusion h) s t
  | nat64 a, y, s, t => by
    cases y
    case nat64 b =>
      simp only [orderKey, canonicalCmp_nat64, List.cons_append, List.nil_append,
        List.compare_cons_cons, compare_rankToken, Ordering.eq_then,
        compare_canonicalRank_of_tag_eq (x := nat64 a) (y := nat64 b) rfl]
      rw [compare_natCast_rat]
    all_goals exact orderKey_append_of_tag_ne (fun h => ValueTag.noConfusion h) s t
  | nat128 a, y, s, t => by
    cases y
    case nat128 b =>
      simp only [orderKey, canonicalCmp_nat128, List.cons_append, List.nil_append,
        List.compare_cons_cons, compare_rankToken, Ordering.eq_then,
        compare_canonicalRank_of_tag_eq (x := nat128 a) (y := nat128 b) rfl]
      rw [compare_natCast_rat]
    all_goals exact orderKey_append_of_tag_ne (fun h => ValueTag.noConfusion h) s t
  | natBig a, y, s, t => by
    cases y
    case natBig b =>
      simp only [orderKey, canonicalCmp_natBig, List.cons_append, List.nil_append,
        List.compare_cons_cons, compare_rankToken, Ordering.eq_then,
        compare_canonicalRank_of_tag_eq (x := natBig a) (y := natBig b) rfl]
      rw [compare_natCast_rat]
    all_goals exact orderKey_append_of_tag_ne (fun h => ValueTag.noConfusion h) s t
  | ulid a, y, s, t => by
    cases y
    case ulid b =>
      have hlen : (a.bytes.map byteToken).length = (b.bytes.map byteToken).length := by
        simp [a.length_eq, b.length_eq]
      simp only [orderKey, canonicalCmp_ulid, List.cons_append, List.compare_cons_cons,
        compare_rankToken, Ordering.eq_then,
        compare_canonicalRank_of_tag_eq (x := ulid a) (y := ulid b) rfl]
      rw [compare_append_of_length_eq hlen, compare_map_byteToken]
      rfl
    all_goals exact orderKey_append_of_tag_ne (fun h => ValueTag.noConfusion h) s t
  | unit, y, s, t => by
    cases y
    case unit =>
      simp only [orderKey, canonicalCmp_unit, List.cons_append, List.nil_append,
        List.compare_cons_cons, compare_rankToken, Ordering.eq_then,
        compare_canonicalRank_of_tag_eq (x := unit) (y := unit) rfl]
    all_goals exact orderKey_append_of_tag_ne (fun h => ValueTag.noConfusion h) s t

/-- List keys: elements in turn, then the end marker, which orders a proper
prefix first. -/
theorem orderKeyList_append : (xs ys : List Value) → (s t : List ℚ) →
    compare (orderKeyList xs ++ s) (orderKeyList ys ++ t) =
      ((canonicalCmpValueList xs ys).then (compare xs.length ys.length)).then (compare s t)
  | [], [], s, t => by
    simp [orderKeyList, canonicalCmpValueList, List.compare_cons_cons]
  | [], y :: ys, s, t => by
    have hlt : compare (0 : ℚ) 1 = .lt := compare_lt_iff_lt.mpr one_pos
    have hlen : compare 0 (ys.length + 1) = .lt := Nat.compare_eq_lt.mpr (Nat.succ_pos _)
    simp [orderKeyList, canonicalCmpValueList, List.compare_cons_cons, hlt, hlen]
  | x :: xs, [], s, t => by
    have hgt : compare (1 : ℚ) 0 = .gt := compare_gt_iff_gt.mpr one_pos
    have hlen : compare (xs.length + 1) 0 = .gt := Nat.compare_eq_gt.mpr (Nat.succ_pos _)
    simp [orderKeyList, canonicalCmpValueList, List.compare_cons_cons, hgt, hlen]
  | x :: xs, y :: ys, s, t => by
    have hlen : compare (xs.length + 1) (ys.length + 1) = compare xs.length ys.length :=
      compare_eq_compare_of_lt_iff (by omega) (by omega)
    simp only [orderKeyList, canonicalCmpValueList, List.cons_append, List.append_assoc,
      List.length_cons, List.compare_cons_cons, Std.compare_self, Ordering.eq_then, hlen]
    rw [orderKey_append x y, orderKeyList_append xs ys s t]
    simp only [Ordering.then_assoc]

/-- Map keys: entries in turn, key then value, then the end marker. -/
theorem orderKeyMap_append : (xs ys : List (Value × Value)) → (s t : List ℚ) →
    compare (orderKeyMap xs ++ s) (orderKeyMap ys ++ t) =
      ((canonicalCmpValueMap xs ys).then (compare xs.length ys.length)).then (compare s t)
  | [], [], s, t => by
    simp [orderKeyMap, canonicalCmpValueMap, List.compare_cons_cons]
  | [], (rk, rv) :: rs, s, t => by
    have hlt : compare (0 : ℚ) 1 = .lt := compare_lt_iff_lt.mpr one_pos
    have hlen : compare 0 (rs.length + 1) = .lt := Nat.compare_eq_lt.mpr (Nat.succ_pos _)
    simp [orderKeyMap, canonicalCmpValueMap, List.compare_cons_cons, hlt, hlen]
  | (lk, lv) :: ls, [], s, t => by
    have hgt : compare (1 : ℚ) 0 = .gt := compare_gt_iff_gt.mpr one_pos
    have hlen : compare (ls.length + 1) 0 = .gt := Nat.compare_eq_gt.mpr (Nat.succ_pos _)
    simp [orderKeyMap, canonicalCmpValueMap, List.compare_cons_cons, hgt, hlen]
  | (lk, lv) :: ls, (rk, rv) :: rs, s, t => by
    have hlen : compare (ls.length + 1) (rs.length + 1) = compare ls.length rs.length :=
      compare_eq_compare_of_lt_iff (by omega) (by omega)
    simp only [orderKeyMap, canonicalCmpValueMap, List.cons_append, List.append_assoc,
      List.length_cons, List.compare_cons_cons, Std.compare_self, Ordering.eq_then, hlen]
    rw [orderKey_append lk rk, orderKey_append lv rv, orderKeyMap_append ls rs s t]
    simp only [Ordering.then_assoc]

/-- Enum bodies: a unit body first, then payloads by their keys. -/
theorem orderKeyPayload_append : (p q : Option Value) → (s t : List ℚ) →
    compare (orderKeyPayload p ++ s) (orderKeyPayload q ++ t) =
      (canonicalCmpPayload p q).then (compare s t)
  | none, none, s, t => by simp [orderKeyPayload, canonicalCmpPayload, List.compare_cons_cons]
  | none, some y, s, t => by
    have hlt : compare (0 : ℚ) 1 = .lt := compare_lt_iff_lt.mpr one_pos
    simp [orderKeyPayload, canonicalCmpPayload, List.compare_cons_cons, hlt]
  | some x, none, s, t => by
    have hgt : compare (1 : ℚ) 0 = .gt := compare_gt_iff_gt.mpr one_pos
    simp [orderKeyPayload, canonicalCmpPayload, List.compare_cons_cons, hgt]
  | some x, some y, s, t => by
    simp only [orderKeyPayload, canonicalCmpPayload, List.cons_append]
    rw [List.compare_cons_cons, Std.compare_self, Ordering.eq_then, orderKey_append x y s t]

end

/-! ### Laws of the canonical order -/

/-- `canonical_cmp` is the lexicographic order of the keys. -/
theorem canonicalCmp_eq_compare_orderKey (x y : Value) :
    canonicalCmp x y = compare (orderKey x) (orderKey y) := by
  have h := orderKey_append x y [] []
  rw [List.append_nil, List.append_nil, List.compare_nil_nil, Ordering.then_eq] at h
  exact h.symm

/-- `canonical_cmp` is a total preorder on all values. -/
theorem canonicalCmp_totalPreorder : TotalPreorderOn canonicalCmp (fun _ => True) :=
  TotalPreorderOn.of_compare_map orderKey fun x y _ _ => canonicalCmp_eq_compare_orderKey x y

end Value

end IcyDb
