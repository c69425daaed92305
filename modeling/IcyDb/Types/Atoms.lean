import IcyDb.Bytes.FloatOrder

/-!
# Scalar atoms

The fixed-shape scalar types that key encodings and value comparison read:
principals, subaccounts, ULIDs, accounts, entity tags, the integer-backed
time atoms and the finite float wrappers.  Each carries its bound as a field,
so a value the Rust type cannot hold cannot be built here either.

Rust fixed-width integers are `BitVec`s; a signed one is read through
`BitVec.toInt`, which is how derived `Ord` on `i64` or `i32` compares them.
Floats are their IEEE 754 bit patterns, ordered by `total_cmp`.
-/

namespace IcyDb

open ByteOrder

/-- Zero-padding of a byte string to a fixed buffer length, as copying it
into the front of a zeroed array does. -/
def padTo (len : Nat) (bytes : List UInt8) : List UInt8 :=
  bytes ++ List.replicate (len - bytes.length) 0

theorem length_padTo {len : Nat} {bytes : List UInt8} (h : bytes.length ≤ len) :
    (padTo len bytes).length = len := by
  simp [padTo]
  omega

/-- Padded buffers of strings of one length compare as the strings. -/
theorem compare_padTo_of_length_eq {len : Nat} {a b : List UInt8} (h : a.length = b.length) :
    compare (padTo len a) (padTo len b) = compare a b := by
  rw [padTo, padTo, compare_append_of_length_eq h, h]
  cases compare a b <;> simp

/-! ### Principal -/

/-- `Principal::MAX_LENGTH_IN_BYTES`. -/
def principalMaxLength : Nat := 29

/-- A principal: at most 29 bytes, the bound `Principal::from_slice` enforces. -/
structure Principal where
  bytes : List UInt8
  bounded : bytes.length ≤ principalMaxLength
deriving DecidableEq

/-- `Principal::cmp`, the order derived on the candid principal, whose fields
are its length byte and its zero-padded 29-byte buffer. -/
def Principal.cmp (a b : Principal) : Ordering :=
  (compare a.bytes.length b.bytes.length).then
    (compare (padTo principalMaxLength a.bytes) (padTo principalMaxLength b.bytes))

/-- Principals compare by length first and then by their bytes. -/
theorem Principal.cmp_eq (a b : Principal) :
    a.cmp b = (compare a.bytes.length b.bytes.length).then (compare a.bytes b.bytes) := by
  unfold Principal.cmp
  by_cases h : a.bytes.length = b.bytes.length
  · rw [compare_padTo_of_length_eq h]
  · have hne : compare a.bytes.length b.bytes.length ≠ .eq := by
      rwa [ne_eq, Nat.compare_eq_eq]
    cases hc : compare a.bytes.length b.bytes.length <;> simp_all

/-! ### Fixed-size byte atoms -/

/-- `Subaccount([u8; 32])`. -/
structure Subaccount where
  bytes : List UInt8
  length_eq : bytes.length = 32
deriving DecidableEq

/-- `Subaccount::MIN`, the all-zero subaccount. -/
def Subaccount.min : Subaccount := ⟨List.replicate 32 0, by simp⟩

/-- The derived order on the 32-byte array. -/
def Subaccount.cmp (a b : Subaccount) : Ordering := compare a.bytes b.bytes

/-- `Ulid([u8; 16])`. -/
structure Ulid where
  bytes : List UInt8
  length_eq : bytes.length = 16
deriving DecidableEq

/-- The derived order on the 16-byte array. -/
def Ulid.cmp (a b : Ulid) : Ordering := compare a.bytes b.bytes

/-! ### Account -/

/-- An ICRC account: an owner principal and an optional subaccount. -/
structure Account where
  owner : Principal
  subaccount : Option Subaccount
deriving DecidableEq

/-- `Account::TAG_SUBACCOUNT`. -/
def accountTagSubaccount : UInt8 := 0x80

/-- `Account::ordering_tag`: the owner length, with the top bit set when a
subaccount is present. -/
def Account.orderingTag (a : Account) : UInt8 :=
  let tag := UInt8.ofNat (min a.owner.bytes.length 255)
  if a.subaccount.isSome then tag ||| accountTagSubaccount else tag

/-- `Account::cmp`: ordering tag, then the zero-padded owner buffer, then the
subaccount with a missing one read as `Subaccount::MIN`. -/
def Account.cmp (a b : Account) : Ordering :=
  (compare a.orderingTag b.orderingTag).then
    ((compare (padTo principalMaxLength a.owner.bytes)
        (padTo principalMaxLength b.owner.bytes)).then
      ((a.subaccount.getD Subaccount.min).cmp (b.subaccount.getD Subaccount.min)))

/-! ### Integer-backed atoms -/

/-- `EntityTag(u64)`. -/
structure EntityTag where
  value : BitVec 64
deriving DecidableEq

/-- `Timestamp(i64)`: signed Unix milliseconds. -/
structure Timestamp where
  millis : BitVec 64
deriving DecidableEq

/-- The derived order on `Timestamp`, which is signed order on `i64`. -/
def Timestamp.cmp (a b : Timestamp) : Ordering := compare a.millis.toInt b.millis.toInt

/-- `Date::MIN`, 0000-01-01 in days since the epoch. -/
def Date.minDays : Int := -719528

/-- `Date::MAX`, 9999-12-31 in days since the epoch. -/
def Date.maxDays : Int := 2932896

/-- `Date(i32)`: days since the Unix epoch, within the calendar range that
`try_from_days_since_epoch` admits. -/
structure Date where
  days : BitVec 32
  bounded : Date.minDays ≤ days.toInt ∧ days.toInt ≤ Date.maxDays
deriving DecidableEq

/-- The derived order on `Date`, signed order on `i32`. -/
def Date.cmp (a b : Date) : Ordering := compare a.days.toInt b.days.toInt

/-- `Duration(u64)`: milliseconds. -/
structure Duration where
  millis : BitVec 64
deriving DecidableEq

/-- The derived order on `Duration`, unsigned order on `u64`. -/
def Duration.cmp (a b : Duration) : Ordering := compare a.millis.toNat b.millis.toNat

/-! ### Floats -/

/-- `Float32`: the bits of a finite `f32`.  `try_new` rejects NaN and the
infinities (exponent bits all set) and turns negative zero into zero. -/
structure Float32 where
  bits : BitVec 32
  finite : bits &&& 0x7F800000 ≠ 0x7F800000
  ne_neg_zero : bits ≠ 0x80000000
deriving DecidableEq

/-- `Ord for Float32`: `f32::total_cmp`, signed order on the `totalOrder`
keys of the bits. -/
def Float32.cmp (a b : Float32) : Ordering :=
  compare (totalOrderKey a.bits).toInt (totalOrderKey b.bits).toInt

/-- `Float64`: the bits of a finite `f64`, negative zero normalized away. -/
structure Float64 where
  bits : BitVec 64
  finite : bits &&& 0x7FF0000000000000 ≠ 0x7FF0000000000000
  ne_neg_zero : bits ≠ 0x8000000000000000
deriving DecidableEq

/-- `Ord for Float64`: `f64::total_cmp`. -/
def Float64.cmp (a b : Float64) : Ordering :=
  compare (totalOrderKey a.bits).toInt (totalOrderKey b.bits).toInt

end IcyDb
