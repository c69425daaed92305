import Mathlib.Order.Basic
import Mathlib.Order.Lattice
import Mathlib.Data.List.Pairwise

/-!
# Merging two sorted sequences

`mergeUnion cmp xs ys` walks two sequences by comparing their heads, the
way a two-cursor merge does: the smaller head goes first, and on a tie only
the right one is kept while both are consumed.  With the comparison taken on
keys of a linear order and both inputs strictly sorted by key, the result is
the right-biased union: strictly sorted, every right element once, and every
left element whose key no right element has.
-/

namespace IcyDb

section Merge

variable {α β : Type}

/-- The merge of two sequences by a comparison of their heads; a tie keeps
the right element. -/
def mergeUnion (cmp : α → β → Ordering) : List α → List β → List (α ⊕ β)
  | [], [] => []
  | x :: xs, [] => .inl x :: mergeUnion cmp xs []
  | [], y :: ys => .inr y :: mergeUnion cmp [] ys
  | x :: xs, y :: ys =>
    match cmp x y with
    | .lt => .inl x :: mergeUnion cmp xs (y :: ys)
    | .gt => .inr y :: mergeUnion cmp (x :: xs) ys
    | .eq => .inr y :: mergeUnion cmp xs ys
termination_by xs ys => xs.length + ys.length

variable (cmp : α → β → Ordering)

theorem mergeUnion_cons_cons (x : α) (xs : List α) (y : β) (ys : List β) :
    mergeUnion cmp (x :: xs) (y :: ys) =
      match cmp x y with
      | .lt => .inl x :: mergeUnion cmp xs (y :: ys)
      | .gt => .inr y :: mergeUnion cmp (x :: xs) ys
      | .eq => .inr y :: mergeUnion cmp xs ys := by
  rw [mergeUnion]

/-- Every element of the merge comes from one of its inputs. -/
theorem mem_mergeUnion_of {e : α ⊕ β} {xs : List α} {ys : List β}
    (h : e ∈ mergeUnion cmp xs ys) : (∃ x ∈ xs, e = .inl x) ∨ ∃ y ∈ ys, e = .inr y := by
  induction xs, ys using mergeUnion.induct cmp with
  | case1 => simp [mergeUnion] at h
  | case2 x xs ih =>
    rw [mergeUnion, List.mem_cons] at h
    rcases h with rfl | h
    · exact .inl ⟨x, List.mem_cons_self, rfl⟩
    · rcases ih h with ⟨x', hx', rfl⟩ | ⟨_, hy, _⟩
      · exact .inl ⟨x', List.mem_cons_of_mem _ hx', rfl⟩
      · cases hy
  | case3 y ys ih =>
    rw [mergeUnion, List.mem_cons] at h
    rcases h with rfl | h
    · exact .inr ⟨y, List.mem_cons_self, rfl⟩
    · rcases ih h with ⟨_, hx, _⟩ | ⟨y', hy', rfl⟩
      · cases hx
      · exact .inr ⟨y', List.mem_cons_of_mem _ hy', rfl⟩
  | case4 x xs y ys hlt ih =>
    rw [mergeUnion_cons_cons, hlt, List.mem_cons] at h
    rcases h with rfl | h
    · exact .inl ⟨x, List.mem_cons_self, rfl⟩
    · rcases ih h with ⟨x', hx', rfl⟩ | ⟨y', hy', rfl⟩
      · exact .inl ⟨x', List.mem_cons_of_mem _ hx', rfl⟩
      · exact .inr ⟨y', hy', rfl⟩
  | case5 x xs y ys hgt ih =>
    rw [mergeUnion_cons_cons, hgt, List.mem_cons] at h
    rcases h with rfl | h
    · exact .inr ⟨y, List.mem_cons_self, rfl⟩
    · rcases ih h with ⟨x', hx', rfl⟩ | ⟨y', hy', rfl⟩
      · exact .inl ⟨x', hx', rfl⟩
      · exact .inr ⟨y', List.mem_cons_of_mem _ hy', rfl⟩
  | case6 x xs y ys heq ih =>
    rw [mergeUnion_cons_cons, heq, List.mem_cons] at h
    rcases h with rfl | h
    · exact .inr ⟨y, List.mem_cons_self, rfl⟩
    · rcases ih h with ⟨x', hx', rfl⟩ | ⟨y', hy', rfl⟩
      · exact .inl ⟨x', List.mem_cons_of_mem _ hx', rfl⟩
      · exact .inr ⟨y', List.mem_cons_of_mem _ hy', rfl⟩

/-- Every right element is kept. -/
theorem inr_mem_mergeUnion {y : β} {xs : List α} {ys : List β} (hy : y ∈ ys) :
    .inr y ∈ mergeUnion cmp xs ys := by
  induction xs, ys using mergeUnion.induct cmp with
  | case1 => cases hy
  | case2 x xs ih => cases hy
  | case3 y' ys ih =>
    rw [mergeUnion]
    rcases List.mem_cons.mp hy with rfl | hy
    · exact List.mem_cons_self
    · exact List.mem_cons_of_mem _ (ih hy)
  | case4 x xs y' ys hlt ih =>
    rw [mergeUnion_cons_cons, hlt]
    exact List.mem_cons_of_mem _ (ih hy)
  | case5 x xs y' ys hgt ih =>
    rw [mergeUnion_cons_cons, hgt]
    rcases List.mem_cons.mp hy with rfl | hy
    · exact List.mem_cons_self
    · exact List.mem_cons_of_mem _ (ih hy)
  | case6 x xs y' ys heq ih =>
    rw [mergeUnion_cons_cons, heq]
    rcases List.mem_cons.mp hy with rfl | hy
    · exact List.mem_cons_self
    · exact List.mem_cons_of_mem _ (ih hy)

end Merge

/-! ### Merging by key -/

section Keyed

variable {α β κ : Type} [LinearOrder κ] (kx : α → κ) (ky : β → κ)

/-- A left element is kept when no right element shares its key. -/
theorem inl_mem_mergeUnion {x : α} {xs : List α} {ys : List β} (hx : x ∈ xs)
    (hfresh : ∀ y ∈ ys, ky y ≠ kx x) :
    .inl x ∈ mergeUnion (fun x y => compare (kx x) (ky y)) xs ys := by
  induction xs, ys using mergeUnion.induct (fun x y => compare (kx x) (ky y)) with
  | case1 => cases hx
  | case2 x' xs ih =>
    rw [mergeUnion]
    rcases List.mem_cons.mp hx with rfl | hx
    · exact List.mem_cons_self
    · exact List.mem_cons_of_mem _ (ih hx hfresh)
  | case3 y ys ih => cases hx
  | case4 x' xs y ys hlt ih =>
    rw [mergeUnion_cons_cons, hlt]
    rcases List.mem_cons.mp hx with rfl | hx
    · exact List.mem_cons_self
    · exact List.mem_cons_of_mem _ (ih hx hfresh)
  | case5 x' xs y ys hgt ih =>
    rw [mergeUnion_cons_cons, hgt]
    exact List.mem_cons_of_mem _ (ih hx fun y' hy' => hfresh y' (List.mem_cons_of_mem _ hy'))
  | case6 x' xs y ys heq ih =>
    rw [mergeUnion_cons_cons, heq]
    rcases List.mem_cons.mp hx with rfl | hx
    · -- the right head shares the left head's key
      exact absurd (compare_eq_iff_eq.mp heq).symm (hfresh y List.mem_cons_self)
    · exact List.mem_cons_of_mem _
        (ih hx fun y' hy' => hfresh y' (List.mem_cons_of_mem _ hy'))

variable {kx ky}

/-- On inputs strictly sorted by key, a kept left element has a key no right
element has. -/
theorem key_ne_of_inl_mem_mergeUnion {x : α} {xs : List α} {ys : List β}
    (hxs : xs.Pairwise (fun a b => kx a < kx b)) (hys : ys.Pairwise (fun a b => ky a < ky b))
    (h : .inl x ∈ mergeUnion (fun x y => compare (kx x) (ky y)) xs ys) :
    x ∈ xs ∧ ∀ y ∈ ys, ky y ≠ kx x := by
  induction xs, ys using mergeUnion.induct (fun x y => compare (kx x) (ky y)) with
  | case1 => simp [mergeUnion] at h
  | case2 x' xs ih =>
    rw [mergeUnion, List.mem_cons] at h
    rcases h with h | h
    · cases h
      exact ⟨List.mem_cons_self, nofun⟩
    · exact ⟨List.mem_cons_of_mem _ (ih hxs.of_cons .nil h).1, nofun⟩
  | case3 y ys ih =>
    rw [mergeUnion, List.mem_cons] at h
    rcases h with h | h
    · cases h
    · exact absurd (ih .nil hys.of_cons h).1 List.not_mem_nil
  | case4 x' xs y ys hlt ih =>
    rw [mergeUnion_cons_cons, hlt, List.mem_cons] at h
    rcases h with h | h
    · -- the left head is below the right head, hence below every right key
      cases h
      refine ⟨List.mem_cons_self, fun y' hy' => ?_⟩
      have hxy : kx x < ky y := compare_lt_iff_lt.mp hlt
      rcases List.mem_cons.mp hy' with rfl | hy'
      · exact hxy.ne'
      · exact (hxy.trans (List.rel_of_pairwise_cons hys hy')).ne'
    · obtain ⟨hmem, hfresh⟩ := ih hxs.of_cons hys h
      exact ⟨List.mem_cons_of_mem _ hmem, hfresh⟩
  | case5 x' xs y ys hgt ih =>
    rw [mergeUnion_cons_cons, hgt, List.mem_cons] at h
    rcases h with h | h
    · cases h
    · obtain ⟨hmem, hfresh⟩ := ih hxs hys.of_cons h
      refine ⟨hmem, fun y' hy' => ?_⟩
      rcases List.mem_cons.mp hy' with rfl | hy'
      · -- every left key is at least the left head's, which is above `y`
        have hyx : ky y' < kx x' := compare_gt_iff_gt.mp hgt
        rcases List.mem_cons.mp hmem with rfl | hmem
        · exact hyx.ne
        · exact (hyx.trans (List.rel_of_pairwise_cons hxs hmem)).ne
      · exact hfresh y' hy'
  | case6 x' xs y ys heq ih =>
    rw [mergeUnion_cons_cons, heq, List.mem_cons] at h
    rcases h with h | h
    · cases h
    · obtain ⟨hmem, hfresh⟩ := ih hxs.of_cons hys.of_cons h
      refine ⟨List.mem_cons_of_mem _ hmem, fun y' hy' => ?_⟩
      rcases List.mem_cons.mp hy' with rfl | hy'
      · -- `y` has the left head's key, below every later left key
        rw [← compare_eq_iff_eq.mp heq]
        exact (List.rel_of_pairwise_cons hxs hmem).ne
      · exact hfresh y' hy'

/-- The merge of two strictly key-sorted sequences is strictly key-sorted. -/
theorem mergeUnion_sorted {xs : List α} {ys : List β}
    (hxs : xs.Pairwise (fun a b => kx a < kx b)) (hys : ys.Pairwise (fun a b => ky a < ky b)) :
    (mergeUnion (fun x y => compare (kx x) (ky y)) xs ys).Pairwise
      (fun a b => Sum.elim kx ky a < Sum.elim kx ky b) := by
  -- an element of the rest is above the emitted head when every input key is
  have hrest : ∀ {k : κ} {xs : List α} {ys : List β}, (∀ x ∈ xs, k < kx x) →
      (∀ y ∈ ys, k < ky y) →
      ∀ e ∈ mergeUnion (fun x y => compare (kx x) (ky y)) xs ys, k < Sum.elim kx ky e := by
    intro k xs ys hx hy e he
    rcases mem_mergeUnion_of _ he with ⟨x, hx', rfl⟩ | ⟨y, hy', rfl⟩
    · exact hx x hx'
    · exact hy y hy'
  induction xs, ys using mergeUnion.induct (fun x y => compare (kx x) (ky y)) with
  | case1 =>
    rw [mergeUnion]
    exact .nil
  | case2 x xs ih =>
    rw [mergeUnion]
    exact .cons (hrest (fun _ h => List.rel_of_pairwise_cons hxs h) nofun) (ih hxs.of_cons .nil)
  | case3 y ys ih =>
    rw [mergeUnion]
    exact .cons (hrest nofun fun _ h => List.rel_of_pairwise_cons hys h) (ih .nil hys.of_cons)
  | case4 x xs y ys hlt ih =>
    rw [mergeUnion_cons_cons, hlt]
    have hxy : kx x < ky y := compare_lt_iff_lt.mp hlt
    refine .cons (hrest (fun _ h => List.rel_of_pairwise_cons hxs h) fun y' hy' => ?_)
      (ih hxs.of_cons hys)
    rcases List.mem_cons.mp hy' with rfl | hy'
    · exact hxy
    · exact hxy.trans (List.rel_of_pairwise_cons hys hy')
  | case5 x xs y ys hgt ih =>
    rw [mergeUnion_cons_cons, hgt]
    have hyx : ky y < kx x := compare_gt_iff_gt.mp hgt
    refine .cons (hrest (fun x' hx' => ?_) fun _ h => List.rel_of_pairwise_cons hys h)
      (ih hxs hys.of_cons)
    rcases List.mem_cons.mp hx' with rfl | hx'
    · exact hyx
    · exact hyx.trans (List.rel_of_pairwise_cons hxs hx')
  | case6 x xs y ys heq ih =>
    rw [mergeUnion_cons_cons, heq]
    have hxy : kx x = ky y := compare_eq_iff_eq.mp heq
    refine .cons (hrest (fun x' hx' => ?_) fun _ h => List.rel_of_pairwise_cons hys h)
      (ih hxs.of_cons hys.of_cons)
    simpa only [Sum.elim_inr, ← hxy] using List.rel_of_pairwise_cons hxs hx'

end Keyed

end IcyDb
