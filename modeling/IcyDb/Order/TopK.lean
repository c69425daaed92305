import IcyDb.Order.Comparator
import Mathlib.Data.List.Sort
import Mathlib.Data.List.Chain

/-!
# Stable sorting and bounded selection by a three-way comparator

`sortBy` is the stable sort by a comparator (`slice::sort_by`), and
`KeepsLeast cmp k seen kept` says that `kept` holds the `k` least members of
`seen`.  A bounded window that sees its candidates one at a time keeps this
invariant under three steps: appending while it is not full, replacing its
greatest member by a smaller candidate, and passing over a candidate that is
not smaller.  Sorting what it kept gives the first `k` of the whole sorted
sequence.  A partial selection that only puts the `k`-th least member in its
place (`slice::select_nth_unstable_by`, `SelectsNth`) keeps the least `k` in
front of it the same way.

Everything is stated for a comparator that is a total order on the members
of the candidate list only, and for candidates without repeats; nothing here
needs the comparator to be lawful elsewhere.
-/

namespace Comparator

variable {α : Type}

/-! ### Strict comparisons under a total order on a subset -/

section StrictOn

variable {cmp : α → α → Ordering} {S : α → Prop}

theorem TotalOrderOn.lt_of_ne_gt (h : TotalOrderOn cmp S) {a b : α} (ha : S a) (hb : S b)
    (hab : cmp a b ≠ .gt) (hne : a ≠ b) : cmp a b = .lt := by
  cases hcmp : cmp a b with
  | lt => rfl
  | eq => exact absurd (h.eq_of_cmp_eq a b ha hb hcmp) hne
  | gt => exact absurd hcmp hab

theorem TotalOrderOn.lt_of_gt (h : TotalOrderOn cmp S) {a b : α} (ha : S a) (hb : S b)
    (hab : cmp a b = .gt) : cmp b a = .lt := by
  rw [h.swap b a hb ha, hab]
  rfl

theorem TotalOrderOn.gt_of_lt (h : TotalOrderOn cmp S) {a b : α} (ha : S a) (hb : S b)
    (hab : cmp a b = .lt) : cmp b a = .gt := by
  rw [h.swap b a hb ha, hab]
  rfl

theorem TotalOrderOn.lt_of_ne_gt_of_lt (h : TotalOrderOn cmp S) {a b c : α} (ha : S a)
    (hb : S b) (hc : S c) (hab : cmp a b ≠ .gt) (hbc : cmp b c = .lt) : cmp a c = .lt := by
  have hac : cmp a c ≠ .gt := h.le_trans a b c ha hb hc hab (by rw [hbc]; decide)
  refine h.lt_of_ne_gt ha hc hac ?_
  rintro rfl
  exact hab (h.gt_of_lt hb ha hbc)

theorem TotalOrderOn.lt_of_lt_of_ne_gt (h : TotalOrderOn cmp S) {a b c : α} (ha : S a)
    (hb : S b) (hc : S c) (hab : cmp a b = .lt) (hbc : cmp b c ≠ .gt) : cmp a c = .lt := by
  have hac : cmp a c ≠ .gt := h.le_trans a b c ha hb hc (by rw [hab]; decide) hbc
  refine h.lt_of_ne_gt ha hc hac ?_
  rintro rfl
  exact hbc (h.gt_of_lt ha hb hab)

theorem TotalOrderOn.eq_of_ne_gt_of_ne_gt (h : TotalOrderOn cmp S) {a b : α} (ha : S a)
    (hb : S b) (hab : cmp a b ≠ .gt) (hba : cmp b a ≠ .gt) : a = b := by
  refine h.eq_of_cmp_eq a b ha hb ?_
  rw [h.swap a b ha hb] at hab ⊢
  cases hcmp : cmp b a <;> simp_all

theorem TotalOrderOn.lt_trans (h : TotalOrderOn cmp S) {a b c : α} (ha : S a) (hb : S b)
    (hc : S c) (hab : cmp a b = .lt) (hbc : cmp b c = .lt) : cmp a c = .lt :=
  h.lt_of_ne_gt_of_lt ha hb hc (by rw [hab]; decide) hbc

/-- Under a total order on a list's members, a chain of strict steps is
strictly increasing throughout. -/
theorem TotalOrderOn.pairwise_lt_of_isChain (h : TotalOrderOn cmp S) {l : List α}
    (hS : ∀ a ∈ l, S a) (hl : l.IsChain fun a b => cmp a b = .lt) :
    l.Pairwise fun a b => cmp a b = .lt := by
  let r : α → α → Prop := fun a b => cmp a b = .lt ∧ S a ∧ S b
  have : Trans r r r :=
    ⟨fun hab hbc => ⟨h.lt_trans hab.2.1 hab.2.2 hbc.2.2 hab.1 hbc.1, hab.2.1, hbc.2.2⟩⟩
  have hr : l.IsChain r := hl.imp_of_mem_imp fun a b ha hb hab => ⟨hab, hS a ha, hS b hb⟩
  exact hr.pairwise.imp fun hab => hab.1

/-- Under a total order on a list's members, a chain of steps that never go
down never goes down between any two members. -/
theorem TotalOrderOn.pairwise_ne_gt_of_isChain (h : TotalOrderOn cmp S) {l : List α}
    (hS : ∀ a ∈ l, S a) (hl : l.IsChain fun a b => cmp a b ≠ .gt) :
    l.Pairwise fun a b => cmp a b ≠ .gt := by
  let r : α → α → Prop := fun a b => cmp a b ≠ .gt ∧ S a ∧ S b
  have : Trans r r r :=
    ⟨fun hab hbc => ⟨h.le_trans _ _ _ hab.2.1 hab.2.2 hbc.2.2 hab.1 hbc.1, hab.2.1, hbc.2.2⟩⟩
  have hr : l.IsChain r := hl.imp_of_mem_imp fun a b ha hb hab => ⟨hab, hS a ha, hS b hb⟩
  exact hr.pairwise.imp fun hab => hab.1

/-- Comparing by one total order and then, on a tie, by another is a total
order on values that the two compared parts tell apart. -/
theorem TotalOrderOn.then {β γ : Type} {cmp₁ : β → β → Ordering} {cmp₂ : γ → γ → Ordering}
    (f : α → β) (g : α → γ) (h₁ : TotalOrderOn cmp₁ fun _ => True)
    (h₂ : TotalOrderOn cmp₂ fun _ => True) (hinj : ∀ a b, S a → S b → f a = f b → g a = g b → a = b) :
    TotalOrderOn (fun a b => (cmp₁ (f a) (f b)).then (cmp₂ (g a) (g b))) S where
  refl a _ := by rw [h₁.refl _ trivial, h₂.refl _ trivial]; rfl
  eq_of_cmp_eq a b ha hb h := by
    obtain ⟨h1, h2⟩ := Ordering.then_eq_eq.mp h
    exact hinj a b ha hb (h₁.eq_of_cmp_eq _ _ trivial trivial h1) (h₂.eq_of_cmp_eq _ _ trivial trivial h2)
  swap a b _ _ := by
    rw [Ordering.swap_then, ← h₁.swap _ _ trivial trivial, ← h₂.swap _ _ trivial trivial]
  le_trans a b c _ _ _ hab hbc := by
    have key : ∀ {x y : Ordering}, x.then y ≠ .gt ↔ x = .lt ∨ x = .eq ∧ y ≠ .gt := by decide
    rw [key] at hab hbc ⊢
    -- a tie on the first part is equality of the first parts
    have heq : ∀ {x y}, cmp₁ x y = .eq → x = y := fun h => h₁.eq_of_cmp_eq _ _ trivial trivial h
    rcases hab with hab | ⟨hab, hab₂⟩ <;> rcases hbc with hbc | ⟨hbc, hbc₂⟩
    · exact .inl (h₁.lt_trans trivial trivial trivial hab hbc)
    · exact .inl (heq hbc ▸ hab)
    · exact .inl ((heq hab).symm ▸ hbc)
    · exact .inr ⟨(heq hab).symm ▸ hbc, h₂.le_trans _ _ _ trivial trivial trivial hab₂ hbc₂⟩

theorem TotalOrderOn.mono (h : TotalOrderOn cmp S) {T : α → Prop} (hT : ∀ a, T a → S a) :
    TotalOrderOn cmp T where
  refl a ha := h.refl a (hT a ha)
  eq_of_cmp_eq a b ha hb := h.eq_of_cmp_eq a b (hT a ha) (hT b hb)
  swap a b ha hb := h.swap a b (hT a ha) (hT b hb)
  le_trans a b c ha hb hc := h.le_trans a b c (hT a ha) (hT b hb) (hT c hc)

/-- A comparator on images that reads back a total order on a list's members
is a total order on the image of the list. -/
theorem TotalOrderOn.map_list {β : Type} {cmp' : β → β → Ordering} {l : List α}
    (h : TotalOrderOn cmp (· ∈ l)) (g : α → β)
    (hg : ∀ a ∈ l, ∀ b ∈ l, cmp' (g a) (g b) = cmp a b) : TotalOrderOn cmp' (· ∈ l.map g) := by
  have hmem : ∀ {x}, x ∈ l.map g → ∃ a ∈ l, g a = x := List.mem_map.mp
  refine ⟨?_, ?_, ?_, ?_⟩
  · intro x hx
    obtain ⟨a, ha, rfl⟩ := hmem hx
    rw [hg a ha a ha, h.refl a ha]
  · intro x y hx hy hxy
    obtain ⟨a, ha, rfl⟩ := hmem hx
    obtain ⟨b, hb, rfl⟩ := hmem hy
    rw [hg a ha b hb] at hxy
    rw [h.eq_of_cmp_eq a b ha hb hxy]
  · intro x y hx hy
    obtain ⟨a, ha, rfl⟩ := hmem hx
    obtain ⟨b, hb, rfl⟩ := hmem hy
    rw [hg a ha b hb, hg b hb a ha, h.swap a b ha hb]
  · intro x y z hx hy hz hxy hyz
    obtain ⟨a, ha, rfl⟩ := hmem hx
    obtain ⟨b, hb, rfl⟩ := hmem hy
    obtain ⟨c, hc, rfl⟩ := hmem hz
    rw [hg a ha b hb] at hxy
    rw [hg b hb c hc] at hyz
    rw [hg a ha c hc]
    exact h.le_trans a b c ha hb hc hxy hyz

/-- Two values, the first below the second, on which `cmp` is reflexive: the
smallest lists a comparator orders. -/
theorem TotalOrderOn.pair {a b : α} (ha : cmp a a = .eq) (hb : cmp b b = .eq)
    (hab : cmp a b = .lt) (hba : cmp b a = .gt) : TotalOrderOn cmp (· ∈ [a, b]) := by
  have hmem : ∀ {x}, x ∈ [a, b] → x = a ∨ x = b := by simp
  refine ⟨?_, ?_, ?_, ?_⟩
  · intro x hx
    rcases hmem hx with rfl | rfl <;> assumption
  · intro x y hx hy hxy
    rcases hmem hx with rfl | rfl <;> rcases hmem hy with rfl | rfl <;> simp_all
  · intro x y hx hy
    rcases hmem hx with rfl | rfl <;> rcases hmem hy with rfl | rfl <;> simp [*]
  · intro x y z hx hy hz hxy hyz
    rcases hmem hx with rfl | rfl <;> rcases hmem hy with rfl | rfl <;>
      rcases hmem hz with rfl | rfl <;> simp_all

theorem nodup_pair_of_lt {a b : α} (ha : cmp a a = .eq) (hab : cmp a b = .lt) : [a, b].Nodup := by
  refine List.pairwise_pair.mpr ?_
  rintro rfl
  rw [ha] at hab
  cases hab

end StrictOn

/-! ### Stable sort -/

/-- `slice::sort_by`: the stable sort that keeps `a` before `b` unless
`cmp a b` is `Greater`. -/
def sortBy (cmp : α → α → Ordering) (l : List α) : List α :=
  l.mergeSort fun a b => (cmp a b).isLE

section SortBy

variable {cmp : α → α → Ordering}

theorem sortBy_perm (l : List α) : (sortBy cmp l).Perm l := List.mergeSort_perm _ _

@[simp] theorem mem_sortBy {a : α} {l : List α} : a ∈ sortBy cmp l ↔ a ∈ l := List.mem_mergeSort

theorem sortBy_nodup {l : List α} : (sortBy cmp l).Nodup ↔ l.Nodup := List.nodup_mergeSort

theorem sortBy_of_length_le_one {l : List α} (h : l.length ≤ 1) : sortBy cmp l = l := by
  match l, h with
  | [], _ => exact List.mergeSort_nil
  | [_], _ => exact List.mergeSort_singleton _
  | _ :: _ :: _, h => simp at h

/-- Sorting commutes with a map under which the comparators agree. -/
theorem sortBy_map {β : Type} {cmp' : β → β → Ordering} {l : List α} (g : α → β)
    (hg : ∀ a ∈ l, ∀ b ∈ l, cmp' (g a) (g b) = cmp a b) :
    sortBy cmp' (l.map g) = (sortBy cmp l).map g := by
  unfold sortBy
  rw [List.map_mergeSort (s := fun a b => (cmp' a b).isLE)]
  intro a ha b hb
  rw [hg a ha b hb]

/-- Sorting by a total order on the members of a list puts each member
before every member it is not greater than.  The comparator is lawful only on
the list, so the core lemma is applied to the list's own members. -/
theorem sortBy_pairwise_ne_gt {l : List α} (hcmp : TotalOrderOn cmp (· ∈ l)) :
    (sortBy cmp l).Pairwise fun a b => cmp a b ≠ .gt := by
  let le : {x // x ∈ l} → {x // x ∈ l} → Bool := fun a b => (cmp a.1 b.1).isLE
  have htrans : ∀ a b c, le a b = true → le b c = true → le a c = true := by
    intro a b c hab hbc
    simp only [le, ← Ordering.ne_gt_iff_isLE] at hab hbc ⊢
    exact hcmp.le_trans a.1 b.1 c.1 a.2 b.2 c.2 hab hbc
  have htotal : ∀ a b, (le a b || le b a) = true := by
    intro a b
    by_cases hab : cmp a.1 b.1 = .gt
    · have hba := hcmp.lt_of_gt a.2 b.2 hab
      simp [le, hba]
    · simp [le, Ordering.ne_gt_iff_isLE.mp hab]
  have hsorted := List.pairwise_mergeSort htrans htotal l.attach
  -- carry the order on the members back to the list itself
  have hmap : (l.attach.mergeSort le).map Subtype.val = sortBy cmp l := by
    rw [List.map_mergeSort (s := fun a b => (cmp a b).isLE) (fun _ _ _ _ => rfl),
      List.attach_map_subtype_val]
    rfl
  rw [← hmap, List.pairwise_map]
  exact hsorted.imp fun hab => Ordering.ne_gt_iff_isLE.mpr hab

/-- On a list of distinct members, the sorted list is strictly increasing. -/
theorem sortBy_pairwise_lt {l : List α} (hcmp : TotalOrderOn cmp (· ∈ l)) (hnodup : l.Nodup) :
    (sortBy cmp l).Pairwise fun a b => cmp a b = .lt := by
  have hne : (sortBy cmp l).Pairwise (· ≠ ·) :=
    List.nodup_iff_pairwise_ne.mp (sortBy_nodup.mpr hnodup)
  refine ((sortBy_pairwise_ne_gt hcmp).and hne).imp_of_mem ?_
  intro a b ha hb hab
  exact hcmp.lt_of_ne_gt (mem_sortBy.mp ha) (mem_sortBy.mp hb) hab.1 hab.2

/-- Sorting by a lawful comparator puts each element before every later one
it is not greater than; unlike `sortBy_pairwise_ne_gt`, the comparator may
tell apart no two elements it finds equal. -/
theorem sortBy_pairwise_isLE [Std.TransCmp cmp] (l : List α) :
    (sortBy cmp l).Pairwise fun a b => (cmp a b).isLE = true := by
  have htotal : ∀ a b, ((cmp a b).isLE || (cmp b a).isLE) = true := by
    intro a b
    rw [@Std.OrientedCmp.eq_swap _ cmp _ b a]
    cases cmp a b <;> rfl
  exact List.pairwise_mergeSort (fun _ _ _ => Std.TransCmp.isLE_trans) htotal l

/-- A sorted list is its own sort. -/
theorem sortBy_of_pairwise {l : List α} (h : l.Pairwise fun a b => (cmp a b).isLE = true) :
    sortBy cmp l = l :=
  List.mergeSort_of_pairwise h

theorem sortBy_pair {a b : α} (hab : cmp a b ≠ .gt) : sortBy cmp [a, b] = [a, b] :=
  List.mergeSort_of_pairwise (List.pairwise_pair.mpr (Ordering.ne_gt_iff_isLE.mp hab))

/-- Two members out of order change places. -/
theorem sortBy_pair_of_gt {a b : α} (hab : cmp a b = .gt) : sortBy cmp [a, b] = [b, a] := by
  have hle : (cmp a b).isLE = false := by rw [hab]; rfl
  simp [sortBy, List.mergeSort, hle]

end SortBy

/-! ### Strictly sorted lists -/

section Strict

variable {cmp : α → α → Ordering} {S : α → Prop}

/-- Two strictly increasing lists of members of `S` with the same members are
equal. -/
theorem eq_of_pairwise_lt_of_mem_iff (hcmp : TotalOrderOn cmp S) {l₁ l₂ : List α}
    (hS : ∀ a ∈ l₁, S a) (h₁ : l₁.Pairwise fun a b => cmp a b = .lt)
    (h₂ : l₂.Pairwise fun a b => cmp a b = .lt) (hmem : ∀ a, a ∈ l₁ ↔ a ∈ l₂) : l₁ = l₂ := by
  -- restrict to `S`, where the strict order is irreflexive and asymmetric
  let r : α → α → Prop := fun a b => cmp a b = .lt ∧ S a ∧ S b
  have : Std.Irrefl r := ⟨fun a h => absurd (hcmp.refl a h.2.1) (by rw [h.1]; decide)⟩
  have : Std.Antisymm r := ⟨fun a b hab hba =>
    absurd hba.1 (by rw [hcmp.gt_of_lt hab.2.1 hab.2.2 hab.1]; decide)⟩
  have hS₂ : ∀ a ∈ l₂, S a := fun a ha => hS a ((hmem a).mpr ha)
  have hr₁ : l₁.Pairwise r := h₁.imp_of_mem fun ha hb hab => ⟨hab, hS _ ha, hS _ hb⟩
  have hr₂ : l₂.Pairwise r := h₂.imp_of_mem fun ha hb hab => ⟨hab, hS₂ _ ha, hS₂ _ hb⟩
  exact hr₁.eq_of_mem_iff hr₂ hmem

/-- A strictly increasing list of members of `S` in which a predicate holds of
everything below a member satisfying it is that predicate's members followed
by the rest. -/
theorem filter_append_filter_of_pairwise_lt (hcmp : TotalOrderOn cmp S) {l : List α}
    {p : α → Bool} (hS : ∀ a ∈ l, S a) (hl : l.Pairwise fun a b => cmp a b = .lt)
    (hdown : ∀ a ∈ l, ∀ b ∈ l, p a = false → p b = true → cmp b a = .lt) :
    l.filter p ++ l.filter (fun a => !p a) = l := by
  induction l with
  | nil => rfl
  | cons x xs ih =>
    obtain ⟨hx, hxs⟩ := List.pairwise_cons.mp hl
    have ih' := ih (fun a ha => hS a (.tail x ha)) hxs
      (fun a ha b hb => hdown a (.tail x ha) b (.tail x hb))
    cases hpx : p x with
    | true => simp [hpx, ih']
    | false =>
      -- nothing after `x` satisfies `p`, since all of it is above `x`
      have hnone : xs.filter p = [] := by
        rw [List.filter_eq_nil_iff]
        intro b hb hpb
        have hbx := hdown x (.head xs) b (.tail x hb) hpx (by simpa using hpb)
        have hxb := hcmp.gt_of_lt (hS b (.tail x hb)) (hS x (.head xs)) hbx
        rw [hx b hb] at hxb
        exact absurd hxb (by decide)
      have hall : xs.filter (fun a => !p a) = xs := by
        rw [hnone, List.nil_append] at ih'
        exact ih'
      rw [List.filter_cons_of_neg (by simp [hpx]), List.filter_cons_of_pos (by simp [hpx]),
        hnone, hall, List.nil_append]

end Strict

/-! ### Replacing one member -/

/-- In a list without repeats, replacing the member at an index by `c` leaves
`c` and the other members. -/
theorem mem_set_iff_of_nodup {l : List α} (hl : l.Nodup) {i : Nat} {b : α} (hb : l[i]? = some b)
    {c x : α} : x ∈ l.set i c ↔ x = c ∨ x ∈ l ∧ x ≠ b := by
  obtain ⟨hi, hget⟩ := List.getElem?_eq_some_iff.mp hb
  have hsplit : l = l.take i ++ b :: l.drop (i + 1) := by
    rw [← hget, ← List.drop_eq_getElem_cons hi, List.take_append_drop]
  have hset : l.set i c = l.take i ++ c :: l.drop (i + 1) := by
    rw [List.set_eq_take_append_cons_drop, if_pos hi]
  -- `b` occurs once, at `i`, so it is in neither part around it
  have hnodup := hsplit ▸ hl
  rw [List.nodup_middle, List.nodup_cons] at hnodup
  have hb' : b ∉ l.take i ∧ b ∉ l.drop (i + 1) := by
    simpa [List.mem_append, not_or] using hnodup.1
  rw [hset]
  conv_rhs => rw [hsplit]
  simp only [List.mem_append, List.mem_cons]
  constructor
  · rintro (hx | rfl | hx)
    · exact .inr ⟨.inl hx, fun h => hb'.1 (h ▸ hx)⟩
    · exact .inl rfl
    · exact .inr ⟨.inr (.inr hx), fun h => hb'.2 (h ▸ hx)⟩
  · rintro (rfl | ⟨hx | rfl | hx, hne⟩)
    · exact .inr (.inl rfl)
    · exact .inl hx
    · exact absurd rfl hne
    · exact .inr (.inr hx)

/-! ### The least `k` members -/

/-- `kept` holds the `k` least members of `seen` under `cmp`: distinct members
of `seen`, as many as `k` allows, each below every member of `seen` it leaves
out. -/
structure KeepsLeast (cmp : α → α → Ordering) (k : Nat) (seen kept : List α) : Prop where
  nodup : kept.Nodup
  subset : kept ⊆ seen
  length_eq : kept.length = min k seen.length
  lt_of_not_mem : ∀ a ∈ kept, ∀ b ∈ seen, b ∉ kept → cmp a b = .lt

namespace KeepsLeast

variable {cmp : α → α → Ordering} {k : Nat} {seen kept : List α} {c w : α}

theorem nil : KeepsLeast cmp k [] [] where
  nodup := List.nodup_nil
  subset := List.Subset.refl _
  length_eq := by simp
  lt_of_not_mem := by simp

/-- While the window is not full it has kept everything it has seen. -/
theorem perm_of_length_lt (h : KeepsLeast cmp k seen kept) (hlt : kept.length < k) :
    kept.Perm seen := by
  have hlen : kept.length = seen.length := by
    have := h.length_eq
    omega
  exact (List.subperm_of_subset h.nodup h.subset).perm_of_length_le hlen.ge

/-- A window that is not full appends the candidate. -/
theorem append_of_length_lt (h : KeepsLeast cmp k seen kept) (hlt : kept.length < k)
    (hc : c ∉ seen) : KeepsLeast cmp k (seen ++ [c]) (kept ++ [c]) where
  nodup := List.nodup_append.mpr ⟨h.nodup, List.nodup_singleton c,
    fun a ha b hb => by
      rw [List.mem_singleton] at hb
      rintro rfl
      exact hc (hb ▸ h.subset ha)⟩
  subset := by
    intro x hx
    rcases List.mem_append.mp hx with hx | hx
    · exact List.mem_append_left _ (h.subset hx)
    · exact List.mem_append_right _ hx
  length_eq := by
    have := h.length_eq
    simp only [List.length_append, List.length_singleton]
    omega
  lt_of_not_mem := by
    intro a _ b hb hbkept
    have hperm := h.perm_of_length_lt hlt
    rcases List.mem_append.mp hb with hb | hb
    · exact absurd (List.mem_append_left _ (hperm.mem_iff.mpr hb)) hbkept
    · exact absurd (List.mem_append_right _ hb) hbkept

/-- A full window holds exactly `k` members, however many more it sees. -/
theorem length_eq_of_full (h : KeepsLeast cmp k seen kept) (hfull : ¬kept.length < k) :
    kept.length = min k (seen ++ [c]).length := by
  have := h.length_eq
  simp only [List.length_append, List.length_singleton]
  omega

section Full

variable (hcmp : TotalOrderOn cmp (· ∈ seen ++ [c])) (hc : c ∉ seen)
  (hw : w ∈ kept) (hworst : ∀ a ∈ kept, cmp a w ≠ .gt)
include hcmp hc hw hworst

/-- A full window replaces its greatest member by a smaller candidate. -/
theorem replace (h : KeepsLeast cmp k seen kept) (hfull : ¬kept.length < k)
    (hcw : cmp c w = .lt) {kept' : List α} (hnodup' : kept'.Nodup)
    (hlen' : kept'.length = kept.length) (hmem' : ∀ x, x ∈ kept' ↔ x = c ∨ x ∈ kept ∧ x ≠ w) :
    KeepsLeast cmp k (seen ++ [c]) kept' where
  nodup := hnodup'
  subset := by
    intro x hx
    rcases (hmem' x).mp hx with rfl | ⟨hx, _⟩
    · exact List.mem_append_right _ (List.mem_singleton_self x)
    · exact List.mem_append_left _ (h.subset hx)
  length_eq := hlen'.trans (h.length_eq_of_full hfull)
  lt_of_not_mem := by
    intro a ha b hb hbkept
    have hmemS : ∀ {x}, x ∈ kept → x ∈ seen ++ [c] :=
      fun hx => List.mem_append_left _ (h.subset hx)
    have hcS : c ∈ seen ++ [c] := List.mem_append_right _ (List.mem_singleton_self c)
    -- `b` is not the candidate, so it was seen before: either the dropped
    -- member `w` or a member the window had already left out
    have hbc : b ≠ c := fun hbc => hbkept ((hmem' b).mpr (.inl hbc))
    have hbseen : b ∈ seen := by
      rcases List.mem_append.mp hb with hb | hb
      · exact hb
      · exact absurd (List.mem_singleton.mp hb) hbc
    have hb' : b = w ∨ b ∉ kept := by
      by_cases hbw : b = w
      · exact .inl hbw
      · exact .inr fun hbk => hbkept ((hmem' b).mpr (.inr ⟨hbk, hbw⟩))
    rcases (hmem' a).mp ha with rfl | ⟨ha, haw⟩
    · rcases hb' with rfl | hb'
      · exact hcw
      · exact hcmp.lt_trans hcS (hmemS hw) hb hcw (h.lt_of_not_mem w hw b hbseen hb')
    · rcases hb' with rfl | hb'
      · exact hcmp.lt_of_ne_gt (hmemS ha) (hmemS hw) (hworst a ha) haw
      · exact h.lt_of_not_mem a ha b hbseen hb'

/-- A full window passes over a candidate that is not below its greatest
member. -/
theorem keep (h : KeepsLeast cmp k seen kept) (hfull : ¬kept.length < k)
    (hcw : cmp c w ≠ .lt) : KeepsLeast cmp k (seen ++ [c]) kept where
  nodup := h.nodup
  subset := fun _ hx => List.mem_append_left _ (h.subset hx)
  length_eq := h.length_eq_of_full hfull
  lt_of_not_mem := by
    intro a ha b hb hbkept
    have hmemS : ∀ {x}, x ∈ kept → x ∈ seen ++ [c] :=
      fun hx => List.mem_append_left _ (h.subset hx)
    have hcS : c ∈ seen ++ [c] := List.mem_append_right _ (List.mem_singleton_self c)
    rcases List.mem_append.mp hb with hb | hb
    · exact h.lt_of_not_mem a ha b hb hbkept
    · -- the candidate is above the greatest kept member, hence above all
      obtain rfl := List.mem_singleton.mp hb
      have hbw : b ≠ w := fun hbw => hc (hbw ▸ h.subset hw)
      have hwb : cmp w b = .lt := by
        cases hcmp' : cmp b w with
        | lt => exact absurd hcmp' hcw
        | eq => exact absurd (hcmp.eq_of_cmp_eq b w hcS (hmemS hw) hcmp') hbw
        | gt => exact hcmp.lt_of_gt hcS (hmemS hw) hcmp'
      exact hcmp.lt_of_ne_gt_of_lt (hmemS ha) (hmemS hw) hcS (hworst a ha) hwb

end Full

/-- Sorting the `k` least members gives the first `k` of the whole sorted
list: in the sorted list the kept members come first. -/
theorem sortBy_eq_take (h : KeepsLeast cmp k seen kept) (hcmp : TotalOrderOn cmp (· ∈ seen))
    (hnodup : seen.Nodup) : sortBy cmp kept = (sortBy cmp seen).take k := by
  classical
  set sorted := sortBy cmp seen
  have hsorted : sorted.Pairwise fun a b => cmp a b = .lt := sortBy_pairwise_lt hcmp hnodup
  have hmemS : ∀ {x}, x ∈ sorted ↔ x ∈ seen := mem_sortBy
  -- the sorted list splits into the kept members and the rest
  have hsplit : sorted.filter (· ∈ kept) ++ sorted.filter (fun a => !decide (a ∈ kept)) =
      sorted := by
    refine filter_append_filter_of_pairwise_lt hcmp (fun a ha => hmemS.mp ha) hsorted ?_
    intro a ha b hb hpa hpb
    exact h.lt_of_not_mem b (by simpa using hpb) a (hmemS.mp ha) (by simpa using hpa)
  have hfront_mem : ∀ x, x ∈ sorted.filter (· ∈ kept) ↔ x ∈ kept := by
    intro x
    simp only [List.mem_filter, decide_eq_true_eq]
    exact ⟨fun hx => hx.2, fun hx => ⟨hmemS.mpr (h.subset hx), hx⟩⟩
  have hfront_nodup : (sorted.filter (· ∈ kept)).Nodup :=
    (sortBy_nodup.mpr hnodup).filter _
  have hfront_len : (sorted.filter (· ∈ kept)).length = min k sorted.length := by
    rw [((List.perm_ext_iff_of_nodup hfront_nodup h.nodup).mpr hfront_mem).length_eq,
      h.length_eq, (sortBy_perm seen).length_eq]
  have htake : sorted.take k = sorted.filter (· ∈ kept) := by
    set front := sorted.filter (· ∈ kept)
    set rest := sorted.filter (fun a => !decide (a ∈ kept))
    calc sorted.take k = (front ++ rest).take k := by rw [hsplit]
      _ = front ++ rest.take (k - front.length) := by
        rw [List.take_append, List.take_of_length_le (by rw [hfront_len]; omega)]
      _ = front := by
        by_cases hk : k ≤ sorted.length
        · rw [hfront_len, Nat.min_eq_left hk, Nat.sub_self, List.take_zero, List.append_nil]
        · -- fewer candidates than `k`: nothing is left out
          have hrest : rest = [] := by
            have hlen := congrArg List.length hsplit
            rw [List.length_append, hfront_len, Nat.min_eq_right (by omega)] at hlen
            exact List.eq_nil_of_length_eq_zero (by omega)
          rw [hrest, List.take_nil, List.append_nil]
  rw [htake]
  refine eq_of_pairwise_lt_of_mem_iff hcmp (fun a ha => h.subset (mem_sortBy.mp ha))
    (sortBy_pairwise_lt (hcmp.mono fun a ha => h.subset ha) h.nodup)
    (hsorted.sublist List.filter_sublist) ?_
  intro x
  rw [mem_sortBy, hfront_mem]

end KeepsLeast

/-! ### Partial selection -/

/-- What `slice::select_nth_unstable_by(index, cmp)` promises when `cmp` is a
total order on the slice: a permutation with some member `pivot` at `index`,
nothing before it greater and nothing after it smaller. -/
def SelectsNth (select : (α → α → Ordering) → Nat → List α → List α) : Prop :=
  ∀ (cmp : α → α → Ordering) (index : Nat) (l : List α), index < l.length →
    TotalOrderOn cmp (· ∈ l) →
    (select cmp index l).Perm l ∧ ∃ before pivot after,
      select cmp index l = before ++ pivot :: after ∧ before.length = index ∧
      (∀ a ∈ before, cmp a pivot ≠ .gt) ∧ (∀ b ∈ after, cmp pivot b ≠ .gt)

/-- Truncating a selection just after its pivot keeps the least members. -/
theorem keepsLeast_take_of_selectsNth {select : (α → α → Ordering) → Nat → List α → List α}
    (hselect : SelectsNth select) {cmp : α → α → Ordering} {seen : List α}
    (hcmp : TotalOrderOn cmp (· ∈ seen)) (hnodup : seen.Nodup) {k : Nat} (hk : 0 < k)
    (hlen : k ≤ seen.length) : KeepsLeast cmp k seen ((select cmp (k - 1) seen).take k) := by
  obtain ⟨hperm, before, pivot, after, hsel, hbefore, hle, hge⟩ :=
    hselect cmp (k - 1) seen (by omega) hcmp
  have hkept : (select cmp (k - 1) seen).take k = before ++ [pivot] := by
    rw [hsel, ← List.singleton_append, ← List.append_assoc]
    exact List.take_left' (by simp [hbefore]; omega)
  have hall : (before ++ [pivot] ++ after).Nodup := by
    rw [List.append_assoc, List.singleton_append, ← hsel]
    exact hperm.nodup_iff.mpr hnodup
  have hmem : ∀ {x}, x ∈ before ++ [pivot] ++ after ↔ x ∈ seen := by
    intro x
    rw [List.append_assoc, List.singleton_append, ← hsel]
    exact hperm.mem_iff
  rw [hkept]
  refine ⟨(List.nodup_append.mp hall).1, fun x hx => hmem.mp (List.mem_append_left _ hx), ?_, ?_⟩
  · simp only [List.length_append, List.length_singleton, hbefore]
    omega
  · intro a ha b hb hbkept
    have hbafter : b ∈ after := by
      rcases List.mem_append.mp (hmem.mpr hb) with hb' | hb'
      · exact absurd hb' hbkept
      · exact hb'
    have haS : a ∈ seen := hmem.mp (List.mem_append_left _ ha)
    have hpS : pivot ∈ seen := hmem.mp (by simp)
    have hap : cmp a pivot ≠ .gt := by
      rcases List.mem_append.mp ha with ha | ha
      · exact hle a ha
      · rw [List.mem_singleton.mp ha, hcmp.refl pivot hpS]
        decide
    have hne : a ≠ b := (List.nodup_append.mp hall).2.2 a ha b hbafter
    exact hcmp.lt_of_ne_gt haS hb (hcmp.le_trans a pivot b haS hpS hb hap (hge b hbafter)) hne

/-- A full sort is one selection that keeps its promise. -/
theorem sortBy_selectsNth : SelectsNth (α := α) fun cmp _ l => sortBy cmp l := by
  intro cmp index l hindex hcmp
  have hi : index < (sortBy cmp l).length := by rw [(sortBy_perm l).length_eq]; exact hindex
  have hsplit : sortBy cmp l = (sortBy cmp l).take index ++
      (sortBy cmp l)[index] :: (sortBy cmp l).drop (index + 1) := by
    rw [← List.drop_eq_getElem_cons hi, List.take_append_drop]
  have hsorted := sortBy_pairwise_ne_gt hcmp
  rw [hsplit, List.pairwise_append, List.pairwise_cons] at hsorted
  refine ⟨sortBy_perm l, _, _, _, hsplit, by simp; omega, ?_, hsorted.2.1.1⟩
  intro a ha
  exact hsorted.2.2 a ha _ (List.mem_cons_self ..)

end Comparator
