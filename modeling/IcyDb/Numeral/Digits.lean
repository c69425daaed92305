import Mathlib.Data.Nat.Digits.Lemmas
import IcyDb.Bytes.BigEndian

/-!
# Positional numerals, most significant digit first

Printed numerals put the most significant digit first, the reverse of
Mathlib's `Nat.digits`.  This file reads such digit strings back as numbers
and relates their lexicographic order to numeric order: strings of one length
compare as the numbers they denote, padding a string with zeros on the right
scales its value by a power of the base, and two numbers compare by the
lengths of their numerals first and then digit by digit.
-/

namespace Positional

open ByteOrder

variable {b : Nat}

/-- The numeral of `n` in base `b`, most significant digit first; zero has
the empty numeral. -/
def msbDigits (b n : Nat) : List Nat := (Nat.digits b n).reverse

/-- The number denoted by a most-significant-first digit string. -/
def msbValue (b : Nat) (ds : List Nat) : Nat := Nat.ofDigits b ds.reverse

@[simp] theorem msbValue_nil : msbValue b [] = 0 := rfl

theorem msbValue_cons (d : Nat) (ds : List Nat) :
    msbValue b (d :: ds) = d * b ^ ds.length + msbValue b ds := by
  rw [msbValue, Nat.ofDigits_reverse_cons, msbValue, Nat.add_comm, Nat.mul_comm]

theorem msbValue_append (xs ys : List Nat) :
    msbValue b (xs ++ ys) = msbValue b xs * b ^ ys.length + msbValue b ys := by
  rw [msbValue, List.reverse_append, Nat.ofDigits_append, List.length_reverse, msbValue, msbValue,
    Nat.add_comm, Nat.mul_comm]

/-- Zeros written after a numeral multiply it by a power of the base. -/
theorem msbValue_append_replicate_zero (ds : List Nat) (k : Nat) :
    msbValue b (ds ++ List.replicate k 0) = msbValue b ds * b ^ k := by
  have hzeros : msbValue b (List.replicate k 0) = 0 := by
    rw [msbValue, List.reverse_replicate, Nat.ofDigits_replicate_zero]
  rw [msbValue_append, hzeros, List.length_replicate, Nat.add_zero]

theorem msbValue_lt (hb : 1 < b) {ds : List Nat} (h : ∀ d ∈ ds, d < b) :
    msbValue b ds < b ^ ds.length := by
  rw [msbValue, ← List.length_reverse]
  exact Nat.ofDigits_lt_base_pow_length hb (fun d hd => h d (List.mem_reverse.mp hd))

@[simp] theorem msbValue_msbDigits (b n : Nat) : msbValue b (msbDigits b n) = n := by
  rw [msbValue, msbDigits, List.reverse_reverse, Nat.ofDigits_digits]

@[simp] theorem length_msbDigits (b n : Nat) : (msbDigits b n).length = (Nat.digits b n).length :=
  List.length_reverse

@[simp] theorem msbDigits_zero (b : Nat) : msbDigits b 0 = [] := by
  simp [msbDigits]

theorem lt_base_of_mem_msbDigits (hb : 1 < b) {n d : Nat} (h : d ∈ msbDigits b n) : d < b :=
  Nat.digits_lt_base hb (List.mem_reverse.mp h)

theorem msbDigits_ne_nil {n : Nat} (hn : n ≠ 0) : msbDigits b n ≠ [] := by
  rw [msbDigits, ne_eq, List.reverse_eq_nil_iff]
  exact Nat.digits_ne_nil_iff_ne_zero.mpr hn

theorem lt_pow_length_msbDigits (hb : 1 < b) (n : Nat) : n < b ^ (msbDigits b n).length := by
  rw [length_msbDigits]
  exact Nat.lt_base_pow_length_digits hb

/-- A number is at least the base to the power of one less than the length
of its numeral. -/
theorem pow_pred_length_msbDigits_le (hb : 1 < b) {n : Nat} (hn : n ≠ 0) :
    b ^ ((msbDigits b n).length - 1) ≤ n := by
  have h := Nat.base_pow_length_digits_le b n hb hn
  have hlen : 0 < (Nat.digits b n).length :=
    List.length_pos_iff.mpr (Nat.digits_ne_nil_iff_ne_zero.mpr hn)
  rw [length_msbDigits]
  obtain ⟨k, hk⟩ : ∃ k, (Nat.digits b n).length = k + 1 := ⟨_, (Nat.succ_pred_eq_of_pos hlen).symm⟩
  rw [hk, pow_succ] at h
  rw [hk, Nat.add_sub_cancel]
  exact Nat.le_of_mul_le_mul_right (by rwa [Nat.mul_comm n]) (by omega)

/-- A leading digit and a lower part below its weight are recovered by
division and remainder. -/
theorem div_mod_of_lt {d r w : Nat} (hr : r < w) : (d * w + r) / w = d ∧ (d * w + r) % w = r := by
  have hw : 0 < w := by omega
  constructor
  · rw [Nat.add_comm, Nat.add_mul_div_right _ _ hw, Nat.div_eq_of_lt hr, Nat.zero_add]
  · rw [Nat.add_comm, Nat.add_mul_mod_self_right, Nat.mod_eq_of_lt hr]

/-- Digit strings of one length compare as the numbers they denote. -/
theorem compare_eq_compare_msbValue (hb : 1 < b) {xs ys : List Nat}
    (hx : ∀ d ∈ xs, d < b) (hy : ∀ d ∈ ys, d < b) (hlen : xs.length = ys.length) :
    compare xs ys = compare (msbValue b xs) (msbValue b ys) := by
  induction xs generalizing ys with
  | nil =>
    cases ys with
    | nil => simp
    | cons y ys => simp at hlen
  | cons x xs ih =>
    cases ys with
    | nil => simp at hlen
    | cons y ys =>
      have hlen' : xs.length = ys.length := by simpa using hlen
      have hxs : ∀ d ∈ xs, d < b := fun d hd => hx d (List.mem_cons_of_mem x hd)
      have hys : ∀ d ∈ ys, d < b := fun d hd => hy d (List.mem_cons_of_mem y hd)
      have hpos : 0 < b ^ ys.length := Nat.pow_pos (by omega)
      have hvx : msbValue b xs < b ^ ys.length := hlen' ▸ msbValue_lt hb hxs
      have hvy : msbValue b ys < b ^ ys.length := msbValue_lt hb hys
      -- the leading digit is the quotient by the weight of the rest
      obtain ⟨hqx, hrx⟩ := div_mod_of_lt (d := x) hvx
      obtain ⟨hqy, hry⟩ := div_mod_of_lt (d := y) hvy
      have hsplit := compare_eq_then_div_mod (a := x * b ^ ys.length + msbValue b xs)
        (b := y * b ^ ys.length + msbValue b ys) hpos
      rw [hqx, hqy, hrx, hry] at hsplit
      rw [List.compare_cons_cons, ih hxs hys hlen', msbValue_cons, msbValue_cons, hlen', hsplit]

/-- Two numbers compare by the lengths of their numerals first and then digit
by digit. -/
theorem compare_eq_then_msbDigits (hb : 1 < b) (m n : Nat) :
    compare m n =
      (compare (msbDigits b m).length (msbDigits b n).length).then
        (compare (msbDigits b m) (msbDigits b n)) := by
  rcases Nat.lt_trichotomy (msbDigits b m).length (msbDigits b n).length with hlt | heq | hgt
  · -- a shorter numeral denotes a smaller number
    have hn : n ≠ 0 := by rintro rfl; simp at hlt
    have hmn : m < n := calc
      m < b ^ (msbDigits b m).length := lt_pow_length_msbDigits hb m
      _ ≤ b ^ ((msbDigits b n).length - 1) := Nat.pow_le_pow_right (by omega) (by omega)
      _ ≤ n := pow_pred_length_msbDigits_le hb hn
    rw [Nat.compare_eq_lt.mpr hlt, Nat.compare_eq_lt.mpr hmn, Ordering.lt_then]
  · rw [Nat.compare_eq_eq.mpr heq, Ordering.eq_then,
      compare_eq_compare_msbValue hb (fun _ => lt_base_of_mem_msbDigits hb)
        (fun _ => lt_base_of_mem_msbDigits hb) heq, msbValue_msbDigits, msbValue_msbDigits]
  · have hm : m ≠ 0 := by rintro rfl; simp at hgt
    have hnm : n < m := calc
      n < b ^ (msbDigits b n).length := lt_pow_length_msbDigits hb n
      _ ≤ b ^ ((msbDigits b m).length - 1) := Nat.pow_le_pow_right (by omega) (by omega)
      _ ≤ m := pow_pred_length_msbDigits_le hb hm
    rw [Nat.compare_eq_gt.mpr hgt, Nat.compare_eq_gt.mpr hnm, Ordering.gt_then]

/-- The leading digit of a positive number's numeral is not zero. -/
theorem msbDigits_head_ne_zero {n d : Nat} {ds : List Nat} (hn : n ≠ 0)
    (h : msbDigits b n = d :: ds) : d ≠ 0 := by
  -- the numeral's head is the last of Mathlib's digits
  have hdigits : Nat.digits b n = ds.reverse ++ [d] := List.reverse_eq_cons_iff.mp h
  have hlast := Nat.getLast_digit_ne_zero b hn
  simpa only [hdigits, List.getLast_append_singleton] using hlast

/-- A numeral with no leading zero is the numeral of the number it denotes. -/
theorem msbDigits_msbValue (hb : 1 < b) {ds : List Nat} (hds : ∀ d ∈ ds, d < b)
    (hhead : ∀ d rest, ds = d :: rest → d ≠ 0) : msbDigits b (msbValue b ds) = ds := by
  rw [msbDigits, msbValue, Nat.digits_ofDigits b hb _ fun d hd => hds d (List.mem_reverse.mp hd),
    List.reverse_reverse]
  intro hne
  rw [List.getLast_reverse]
  cases ds with
  | nil => exact absurd rfl hne
  | cons d rest => exact hhead d rest rfl

/-! ### Numerals of a fixed width -/

/-- The lowest `n` digits of `x` in base `b`, most significant first, leading
zeros kept. -/
def fixedDigits (b n x : Nat) : List Nat := (List.range n).reverse.map fun k => x / b ^ k % b

@[simp] theorem length_fixedDigits (b n x : Nat) : (fixedDigits b n x).length = n := by
  simp [fixedDigits]

theorem fixedDigits_succ (n x : Nat) :
    fixedDigits b (n + 1) x = x / b ^ n % b :: fixedDigits b n x := by
  simp [fixedDigits, List.range_succ]

theorem lt_base_of_mem_fixedDigits (hb : 0 < b) {n x d : Nat} (h : d ∈ fixedDigits b n x) :
    d < b := by
  simp only [fixedDigits, List.mem_map] at h
  obtain ⟨k, -, rfl⟩ := h
  exact Nat.mod_lt _ hb

theorem msbValue_fixedDigits (n x : Nat) : msbValue b (fixedDigits b n x) = x % b ^ n := by
  induction n with
  | zero => simp [fixedDigits, Nat.mod_one]
  | succ n ih =>
    rw [fixedDigits_succ, msbValue_cons, length_fixedDigits, ih, Nat.mod_pow_succ]
    ring

/-- Fixed-width numerals written after a numeral append their numbers as
digits in base `b ^ n`. -/
theorem msbValue_append_flatten_fixedDigits (n : Nat) (xs cs : List Nat)
    (hcs : ∀ c ∈ cs, c < b ^ n) :
    msbValue b (xs ++ (cs.map (fixedDigits b n)).flatten) =
      msbValue b xs * (b ^ n) ^ cs.length + msbValue (b ^ n) cs := by
  induction cs generalizing xs with
  | nil => simp
  | cons c cs ih =>
    have hc : c < b ^ n := hcs c List.mem_cons_self
    rw [List.map_cons, List.flatten_cons, ← List.append_assoc,
      ih _ fun c' h => hcs c' (List.mem_cons_of_mem _ h), msbValue_append, msbValue_fixedDigits,
      Nat.mod_eq_of_lt hc, length_fixedDigits, msbValue_cons (b := b ^ n), List.length_cons]
    ring

end Positional
