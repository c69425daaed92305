import IcyDb.Bytes.Lex
import Mathlib.Data.List.Forall2

/-!
# Comparing entry lists with a partial order on values

Two lists of key-value entries are compared entry by entry: keys by a total
comparator, values by a partial one.  The first unequal key or value decides,
an undefined value comparison makes the lists incomparable, and where one
list ends the two are equal so far; the length then decides
(`entriesCmpLen`).

The comparison inherits the laws of its parts.  It is antisymmetric, a
congruence for entrywise equivalent lists, and transitive for `Greater`,
whenever the value comparator is so on the values of the first list.  The
hypotheses on values are stated for the values of one list only, so that a
comparator defined by recursion through such lists can prove its own laws by
the same recursion.
-/

namespace PartialLex

variable {α β : Type} (kcmp : α → α → Ordering) (vcmp : β → β → Option Ordering)

/-- The entry loop: the first unequal key or value decides. -/
def entriesCmp : List (α × β) → List (α × β) → Option Ordering
  | (lk, lv) :: ls, (rk, rv) :: rs =>
    if kcmp lk rk ≠ .eq then some (kcmp lk rk)
    else
      match vcmp lv rv with
      | none => none
      | some o => if o ≠ .eq then some o else entriesCmp ls rs
  | _, _ => some .eq

/-- The entry loop, then the lengths. -/
def entriesCmpLen (xs ys : List (α × β)) : Option Ordering :=
  (entriesCmp kcmp vcmp xs ys).bind fun o => some (o.then (compare xs.length ys.length))

/-! ### Equations -/

theorem entriesCmpLen_nil_left (ys : List (α × β)) :
    entriesCmpLen kcmp vcmp [] ys = some (compare 0 ys.length) := by
  cases ys <;> simp [entriesCmpLen, entriesCmp]

theorem entriesCmpLen_nil_right (xs : List (α × β)) :
    entriesCmpLen kcmp vcmp xs [] = some (compare xs.length 0) := by
  cases xs <;> simp [entriesCmpLen, entriesCmp]

/-- Two non-empty lists: the first entries decide, or the rest does. -/
theorem entriesCmpLen_cons_cons (lk rk : α) (lv rv : β) (ls rs : List (α × β)) :
    entriesCmpLen kcmp vcmp ((lk, lv) :: ls) ((rk, rv) :: rs) =
      if kcmp lk rk ≠ .eq then some (kcmp lk rk)
      else
        match vcmp lv rv with
        | none => none
        | some o => if o ≠ .eq then some o else entriesCmpLen kcmp vcmp ls rs := by
  have hlen : compare (ls.length + 1) (rs.length + 1) = compare ls.length rs.length := by
    simp [Nat.compare_eq_ite_lt]
  simp only [entriesCmpLen, entriesCmp, List.length_cons, hlen]
  split
  · rename_i hk
    simp [ByteOrder.then_of_ne_eq hk]
  · split
    · rfl
    · split
      · rename_i o _ ho
        simp [ByteOrder.then_of_ne_eq ho]
      · rfl

section Cases

variable {kcmp vcmp} {lk rk : α} {lv rv : β} {ls rs : List (α × β)}

theorem entriesCmpLen_of_key_ne (hk : kcmp lk rk ≠ .eq) :
    entriesCmpLen kcmp vcmp ((lk, lv) :: ls) ((rk, rv) :: rs) = some (kcmp lk rk) := by
  rw [entriesCmpLen_cons_cons, if_pos hk]

theorem entriesCmpLen_of_value_none (hk : kcmp lk rk = .eq) (hv : vcmp lv rv = none) :
    entriesCmpLen kcmp vcmp ((lk, lv) :: ls) ((rk, rv) :: rs) = none := by
  rw [entriesCmpLen_cons_cons, if_neg (not_not.mpr hk), hv]

theorem entriesCmpLen_of_value_ne {o : Ordering} (hk : kcmp lk rk = .eq) (hv : vcmp lv rv = some o)
    (ho : o ≠ .eq) : entriesCmpLen kcmp vcmp ((lk, lv) :: ls) ((rk, rv) :: rs) = some o := by
  rw [entriesCmpLen_cons_cons, if_neg (not_not.mpr hk), hv]
  exact if_pos ho

theorem entriesCmpLen_of_value_eq (hk : kcmp lk rk = .eq) (hv : vcmp lv rv = some .eq) :
    entriesCmpLen kcmp vcmp ((lk, lv) :: ls) ((rk, rv) :: rs) = entriesCmpLen kcmp vcmp ls rs := by
  rw [entriesCmpLen_cons_cons, if_neg (not_not.mpr hk), hv]
  exact if_neg (not_not.mpr rfl)

end Cases

/-! ### Antisymmetry -/

/-- Read the other way round, the comparison is reversed. -/
theorem entriesCmpLen_swap [Std.OrientedCmp kcmp] {xs : List (α × β)}
    (hv : ∀ v ∈ xs.map Prod.snd, ∀ w, vcmp w v = (vcmp v w).map Ordering.swap) (ys : List (α × β)) :
    entriesCmpLen kcmp vcmp ys xs = (entriesCmpLen kcmp vcmp xs ys).map Ordering.swap := by
  induction xs generalizing ys with
  | nil =>
    rw [entriesCmpLen_nil_left, entriesCmpLen_nil_right, Option.map_some]
    exact congrArg some Std.OrientedCmp.eq_swap
  | cons x xs ih =>
    obtain ⟨xk, xv⟩ := x
    cases ys with
    | nil =>
      rw [entriesCmpLen_nil_left, entriesCmpLen_nil_right, Option.map_some]
      exact congrArg some Std.OrientedCmp.eq_swap
    | cons y ys =>
      obtain ⟨yk, yv⟩ := y
      have hrest := ih (fun v hv' => hv v (List.mem_cons_of_mem _ hv')) ys
      have hval := hv xv List.mem_cons_self yv
      rw [entriesCmpLen_cons_cons, entriesCmpLen_cons_cons, @Std.OrientedCmp.eq_swap _ kcmp _ yk xk]
      by_cases hk : kcmp xk yk = .eq
      · -- equal keys: the values decide, or the rest of the lists
        rw [hk, if_neg (by decide), if_neg (by decide), hval]
        cases hxy : vcmp xv yv with
        | none => rfl
        | some o =>
          cases o
          · rfl
          · exact hrest
          · rfl
      · have hk' : (kcmp xk yk).swap ≠ .eq := by
          cases h : kcmp xk yk <;> simp_all
        rw [if_pos hk', if_pos hk]
        rfl

/-! ### Congruence -/

/-- Entrywise equivalent lists on the right compare alike. -/
theorem entriesCmpLen_congr_right {ek : α → α → Prop} {ev : β → β → Prop}
    (hk : ∀ a b b', ek b b' → kcmp a b = kcmp a b') {xs : List (α × β)}
    (hv : ∀ v ∈ xs.map Prod.snd, ∀ w w', ev w w' → vcmp v w = vcmp v w')
    {ys ys' : List (α × β)} (h : List.Forall₂ (fun e e' => ek e.1 e'.1 ∧ ev e.2 e'.2) ys ys') :
    entriesCmpLen kcmp vcmp xs ys = entriesCmpLen kcmp vcmp xs ys' := by
  induction xs generalizing ys ys' with
  | nil => rw [entriesCmpLen_nil_left, entriesCmpLen_nil_left, h.length_eq]
  | cons x xs ih =>
    obtain ⟨xk, xv⟩ := x
    cases h with
    | nil => rfl
    | @cons y y' ys ys' hy hrest =>
      obtain ⟨yk, yv⟩ := y
      obtain ⟨yk', yv'⟩ := y'
      have htail := ih (fun v hv' => hv v (List.mem_cons_of_mem _ hv')) hrest
      rw [entriesCmpLen_cons_cons, entriesCmpLen_cons_cons, hk xk yk yk' hy.1,
        hv xv List.mem_cons_self yv yv' hy.2, htail]

/-! ### Transitivity -/

/-- No length is below zero. -/
theorem compare_zero_length_ne_gt (n : Nat) : compare 0 n ≠ .gt := by
  rw [Nat.compare_eq_ite_lt]
  split <;> simp

/-- `Greater` twice is `Greater`: the first entry where the outer lists
differ decides against the middle one. -/
theorem entriesCmpLen_gt_trans [Std.TransCmp kcmp]
    (hl : ∀ v w u, vcmp v w = some .eq → vcmp v u = vcmp w u)
    (hr : ∀ v w u, vcmp w u = some .eq → vcmp v w = vcmp v u) {xs : List (α × β)}
    (hv : ∀ v ∈ xs.map Prod.snd, ∀ w u,
      vcmp v w = some .gt → vcmp w u = some .gt → vcmp v u = some .gt)
    {ys zs : List (α × β)} (hxy : entriesCmpLen kcmp vcmp xs ys = some .gt)
    (hyz : entriesCmpLen kcmp vcmp ys zs = some .gt) :
    entriesCmpLen kcmp vcmp xs zs = some .gt := by
  induction xs generalizing ys zs with
  | nil =>
    rw [entriesCmpLen_nil_left, Option.some_inj] at hxy
    exact absurd hxy (compare_zero_length_ne_gt _)
  | cons x xs ih =>
    obtain ⟨xk, xv⟩ := x
    cases ys with
    | nil =>
      rw [entriesCmpLen_nil_left, Option.some_inj] at hyz
      exact absurd hyz (compare_zero_length_ne_gt _)
    | cons y ys =>
      obtain ⟨yk, yv⟩ := y
      cases zs with
      | nil =>
        rw [entriesCmpLen_nil_right]
        simp [Nat.compare_eq_ite_lt]
      | cons z zs =>
        obtain ⟨zk, zv⟩ := z
        by_cases hk1 : kcmp xk yk = .eq
        · by_cases hk2 : kcmp yk zk = .eq
          · -- all three first keys equal: the values decide
            have hk : kcmp xk zk = .eq := Std.TransCmp.eq_trans hk1 hk2
            cases hv1 : vcmp xv yv with
            | none =>
              rw [entriesCmpLen_of_value_none hk1 hv1] at hxy
              cases hxy
            | some o1 =>
              cases hv2 : vcmp yv zv with
              | none =>
                rw [entriesCmpLen_of_value_none hk2 hv2] at hyz
                cases hyz
              | some o2 =>
                by_cases ho1 : o1 = .eq
                · -- the first two values are equal: the first compares with the last as the middle does
                  subst ho1
                  rw [entriesCmpLen_of_value_eq hk1 hv1] at hxy
                  have hxz := hl xv yv zv hv1
                  by_cases ho2 : o2 = .eq
                  · subst ho2
                    rw [entriesCmpLen_of_value_eq hk2 hv2] at hyz
                    rw [entriesCmpLen_of_value_eq hk (hxz.trans hv2)]
                    exact ih (fun v hv' => hv v (List.mem_cons_of_mem _ hv')) hxy hyz
                  · rw [entriesCmpLen_of_value_ne hk2 hv2 ho2] at hyz
                    rw [entriesCmpLen_of_value_ne hk (hxz.trans hv2) ho2, hyz]
                · rw [entriesCmpLen_of_value_ne hk1 hv1 ho1, Option.some_inj] at hxy
                  subst hxy
                  by_cases ho2 : o2 = .eq
                  · -- the last two values are equal: the first compares with the last as with the middle
                    subst ho2
                    rw [entriesCmpLen_of_value_ne hk ((hr xv yv zv hv2).symm.trans hv1) ho1]
                  · rw [entriesCmpLen_of_value_ne hk2 hv2 ho2, Option.some_inj] at hyz
                    subst hyz
                    exact entriesCmpLen_of_value_ne hk (hv xv List.mem_cons_self yv zv hv1 hv2) ho1
          · -- the middle and last keys differ, and the first key equals the middle one
            rw [entriesCmpLen_of_key_ne hk2] at hyz
            rw [entriesCmpLen_of_key_ne (by rwa [Std.TransCmp.congr_left hk1]),
              Std.TransCmp.congr_left hk1, ← Option.some_inj.mp hyz]
        · rw [entriesCmpLen_of_key_ne hk1, Option.some_inj] at hxy
          have hk : kcmp xk zk = .gt := by
            by_cases hk2 : kcmp yk zk = .eq
            · exact Std.TransCmp.gt_of_gt_of_eq hxy hk2
            · rw [entriesCmpLen_of_key_ne hk2, Option.some_inj] at hyz
              exact Std.TransCmp.gt_trans hxy hyz
          rw [entriesCmpLen_of_key_ne (by rw [hk]; decide), hk]

end PartialLex
