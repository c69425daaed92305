import IcyDb.Order.TopK
import Mathlib.Data.List.Destutter

/-!
# Merging and intersecting sorted sequences without repeats

Three list functions describe what a cursor over sorted sequences gives when
it never gives the same element twice in a row.  Each walks its inputs head by
head and passes over an element equal to the one it gave last:

* `mergeDistinct` takes the lesser head of two sequences, and every head
  equal to it;
* `intersectDistinct` gives a head the two sequences share and drops a lesser
  head otherwise;
* `dropRepeats` walks one sequence; from nothing given it is Mathlib's
  `List.destutter (· ≠ ·)`.

For a comparator that is a total order and inputs that never go down, each
result is strictly increasing, and it holds exactly the union, the
intersection or the members of the inputs, less the element given before.
-/

namespace Comparator

variable {α : Type} [DecidableEq α]

/-- Give `x` unless it is the element given last. -/
def emitAfter (last : Option α) (x : α) (rest : List α) : List α :=
  if last = some x then rest else x :: rest

/-- A sequence with its head dropped when it is `m`. -/
def dropIfHead (m : α) (l : List α) : List α :=
  if l.head? = some m then l.tail else l

/-- The next element of a two-way merge and what is left of both sequences:
the lesser head, taken from every sequence whose head it is.  Equal heads are
taken together, and on unequal heads that do not compare below the right one
is taken. -/
def mergePick (cmp : α → α → Ordering) : List α → List α → Option (α × List α × List α)
  | [], [] => none
  | x :: xs, [] => some (x, xs, [])
  | [], y :: ys => some (y, [], ys)
  | x :: xs, y :: ys =>
    if x = y then some (x, xs, ys)
    else if cmp x y = .lt then some (x, xs, y :: ys)
    else some (y, x :: xs, ys)

section Pick

variable {cmp : α → α → Ordering}

/-- What is left of a sequence after a pick is a suffix of it. -/
theorem dropIfHead_sublist (m : α) (l : List α) : (dropIfHead m l).Sublist l := by
  unfold dropIfHead
  split_ifs
  · exact List.tail_sublist l
  · exact List.Sublist.refl l

theorem mergePick_eq_none_iff {xs ys : List α} : mergePick cmp xs ys = none ↔ xs = [] ∧ ys = [] := by
  match xs, ys with
  | [], [] => simp [mergePick]
  | _ :: _, [] => simp [mergePick]
  | [], _ :: _ => simp [mergePick]
  | x :: _, y :: _ =>
    simp only [mergePick, reduceCtorEq, and_false, iff_false]
    split_ifs <;> simp

/-- The pick takes `m` off every sequence whose head it is, and off one at
least. -/
theorem mergePick_spec {xs ys xs' ys' : List α} {m : α}
    (h : mergePick cmp xs ys = some (m, xs', ys')) :
    (xs.head? = some m ∨ ys.head? = some m) ∧ xs' = dropIfHead m xs ∧ ys' = dropIfHead m ys := by
  unfold dropIfHead
  match xs, ys with
  | [], [] => cases h
  | x :: xs, [] =>
    simp only [mergePick, Option.some.injEq, Prod.mk.injEq] at h
    obtain ⟨rfl, rfl, rfl⟩ := h
    simp
  | [], y :: ys =>
    simp only [mergePick, Option.some.injEq, Prod.mk.injEq] at h
    obtain ⟨rfl, rfl, rfl⟩ := h
    simp
  | x :: xs, y :: ys =>
    simp only [mergePick] at h
    split_ifs at h with hxy hlt <;> simp only [Option.some.injEq, Prod.mk.injEq] at h <;>
      obtain ⟨rfl, rfl, rfl⟩ := h
    · simp [hxy]
    · simp [Ne.symm hxy]
    · simp [hxy]

theorem mergePick_length {xs ys xs' ys' : List α} {m : α}
    (h : mergePick cmp xs ys = some (m, xs', ys')) :
    xs'.length + ys'.length < xs.length + ys.length := by
  obtain ⟨hhead, rfl, rfl⟩ := mergePick_spec h
  unfold dropIfHead
  rcases xs with _ | ⟨x, xs⟩ <;> rcases ys with _ | ⟨y, ys⟩ <;>
    simp only [List.head?_nil, List.head?_cons, reduceCtorEq, false_or, or_false] at hhead <;>
    split_ifs <;> simp_all
  -- both heads taken
  omega

/-- What is left after the pick, with the element picked, is what there was. -/
theorem mem_mergePick {xs ys xs' ys' : List α} {m : α}
    (h : mergePick cmp xs ys = some (m, xs', ys')) (z : α) :
    z ∈ xs ∨ z ∈ ys ↔ z = m ∨ z ∈ xs' ∨ z ∈ ys' := by
  obtain ⟨hhead, rfl, rfl⟩ := mergePick_spec h
  unfold dropIfHead
  rcases xs with _ | ⟨x, xs⟩ <;> rcases ys with _ | ⟨y, ys⟩ <;>
    simp only [List.head?_nil, List.head?_cons, reduceCtorEq, false_or, or_false,
      Option.some.injEq] at hhead <;>
    split_ifs <;> simp_all <;> tauto

/-- Under a total order, the element picked from two sequences that never go
down is at or below everything in them. -/
theorem mergePick_le (hcmp : TotalOrderOn cmp fun _ => True) {xs ys xs' ys' : List α} {m : α}
    (hxs : xs.Pairwise fun a b => cmp a b ≠ .gt) (hys : ys.Pairwise fun a b => cmp a b ≠ .gt)
    (h : mergePick cmp xs ys = some (m, xs', ys')) : ∀ z, z ∈ xs ∨ z ∈ ys → cmp m z ≠ .gt := by
  -- a head is at or below its own sequence
  have hhead : ∀ {l : List α} {a}, l.Pairwise (fun a b => cmp a b ≠ .gt) → l.head? = some a →
      ∀ z ∈ l, cmp a z ≠ .gt := by
    rintro (_ | ⟨b, l⟩) a hl ha z hz
    · cases ha
    · cases ha
      rcases List.mem_cons.mp hz with rfl | hz
      · rw [hcmp.refl _ trivial]; decide
      · exact List.rel_of_pairwise_cons hl hz
  have hle : ∀ {a b}, cmp a b ≠ .gt → ∀ z, cmp b z ≠ .gt → cmp a z ≠ .gt :=
    fun hab z hbz => hcmp.le_trans _ _ z trivial trivial trivial hab hbz
  match xs, ys with
  | [], [] => cases h
  | x :: xs, [] =>
    simp only [mergePick, Option.some.injEq, Prod.mk.injEq] at h
    obtain ⟨rfl, -, -⟩ := h
    simpa using hhead hxs rfl
  | [], y :: ys =>
    simp only [mergePick, Option.some.injEq, Prod.mk.injEq] at h
    obtain ⟨rfl, -, -⟩ := h
    simpa using hhead hys rfl
  | x :: xs, y :: ys =>
    simp only [mergePick] at h
    split_ifs at h with hxy hlt <;> simp only [Option.some.injEq, Prod.mk.injEq] at h <;>
      obtain ⟨rfl, -, -⟩ := h
    · subst hxy
      rintro z (hz | hz)
      · exact hhead hxs rfl z hz
      · exact hhead hys rfl z hz
    · have hxy' : cmp x y ≠ .gt := by rw [hlt]; decide
      rintro z (hz | hz)
      · exact hhead hxs rfl z hz
      · exact hle hxy' z (hhead hys rfl z hz)
    · -- unequal heads, the left one not below: the right one is below
      have hyx : cmp y x ≠ .gt := by
        rw [hcmp.swap y x trivial trivial]
        cases hcmp' : cmp x y with
        | lt => exact absurd hcmp' hlt
        | eq => exact absurd (hcmp.eq_of_cmp_eq x y trivial trivial hcmp') hxy
        | gt => decide
      rintro z (hz | hz)
      · exact hle hyx z (hhead hxs rfl z hz)
      · exact hhead hys rfl z hz

end Pick

set_option linter.unusedVariables false in
/-- The merge of two sequences that gives every element once: repeatedly
the next pick, passed over when it is the element given last. -/
def mergeDistinct (cmp : α → α → Ordering) (last : Option α) (xs ys : List α) : List α :=
  match h : mergePick cmp xs ys with
  | none => []
  | some (m, xs', ys') => emitAfter last m (mergeDistinct cmp (some m) xs' ys')
termination_by xs.length + ys.length
decreasing_by exact mergePick_length h

/-- The intersection of two sequences that gives every element once: a head
the two share is given, and a lesser head is dropped. -/
def intersectDistinct (cmp : α → α → Ordering) (last : Option α) : List α → List α → List α
  | x :: xs, y :: ys =>
    if x = y then emitAfter last x (intersectDistinct cmp (some x) xs ys)
    else if cmp x y = .lt then intersectDistinct cmp last xs (y :: ys)
    else intersectDistinct cmp last (x :: xs) ys
  | _, _ => []
termination_by xs ys => xs.length + ys.length

/-- One sequence with every element equal to the one given before passed
over. -/
def dropRepeats (last : Option α) : List α → List α
  | [] => []
  | x :: xs => emitAfter last x (dropRepeats (some x) xs)

example : mergeDistinct (compare : Nat → Nat → Ordering) none [1, 3, 3, 5] [2, 3, 6] =
    [1, 2, 3, 5, 6] := by decide +kernel

example : intersectDistinct (compare : Nat → Nat → Ordering) none [1, 3, 3, 5] [2, 3, 5] =
    [3, 5] := by decide +kernel

/-- Once one side is empty nothing is common. -/
theorem intersectDistinct_of_not_cons {cmp : α → α → Ordering} {last : Option α}
    {xs ys : List α} (h : ∀ x xs' y ys', xs = x :: xs' → ys = y :: ys' → False) :
    intersectDistinct cmp last xs ys = [] := by
  rw [intersectDistinct.eq_def]
  split
  · exact (h _ _ _ _ rfl rfl).elim
  · rfl

theorem mergeDistinct_of_pick_none {cmp : α → α → Ordering} {last : Option α} {xs ys : List α}
    (h : mergePick cmp xs ys = none) : mergeDistinct cmp last xs ys = [] := by
  rw [mergeDistinct]
  split <;> simp_all

theorem mergeDistinct_of_pick_some {cmp : α → α → Ordering} {last : Option α}
    {xs ys xs' ys' : List α} {m : α} (h : mergePick cmp xs ys = some (m, xs', ys')) :
    mergeDistinct cmp last xs ys = emitAfter last m (mergeDistinct cmp (some m) xs' ys') := by
  rw [mergeDistinct]
  split <;> simp_all

/-- From nothing given, `dropRepeats` is `destutter`: after `x` it gives what
`destutter'` gives after `x`. -/
theorem cons_dropRepeats (x : α) (xs : List α) :
    x :: dropRepeats (some x) xs = xs.destutter' (· ≠ ·) x := by
  induction xs generalizing x with
  | nil => rfl
  | cons y ys ih =>
    by_cases hxy : x = y
    · subst hxy
      simp [dropRepeats, emitAfter, ih]
    · rw [List.destutter'_cons_pos _ hxy, ← ih y]
      simp [dropRepeats, emitAfter, hxy]

theorem dropRepeats_none (xs : List α) : dropRepeats none xs = xs.destutter (· ≠ ·) := by
  cases xs with
  | nil => rfl
  | cons x xs => simp [dropRepeats, emitAfter, cons_dropRepeats, List.destutter_cons']

/-! ### Order and members -/

section Laws

variable {cmp : α → α → Ordering}

theorem mem_emitAfter {last : Option α} {x z : α} {rest : List α} :
    z ∈ emitAfter last x rest ↔ (z = x ∧ last ≠ some x) ∨ z ∈ rest := by
  unfold emitAfter
  split_ifs with h <;> simp [h]

/-- One element given after the one before and below the rest keeps the
result strictly increasing from the element before. -/
theorem pairwise_emitAfter (hcmp : TotalOrderOn cmp fun _ => True) {last : Option α} {x : α}
    {rest : List α} (hrest : (x :: rest).Pairwise fun a b => cmp a b = .lt)
    (hlast : ∀ w, last = some w → cmp w x ≠ .gt) :
    (last.toList ++ emitAfter last x rest).Pairwise fun a b => cmp a b = .lt := by
  unfold emitAfter
  split_ifs with h
  · simpa [h] using hrest
  · cases last with
    | none => simpa using hrest
    | some w =>
      have hwx : cmp w x = .lt := hcmp.lt_of_ne_gt trivial trivial (hlast w rfl) fun hwx => h (hwx ▸ rfl)
      refine List.Pairwise.cons ?_ hrest
      intro z hz
      rcases List.mem_cons.mp hz with rfl | hz
      · exact hwx
      · exact hcmp.lt_trans trivial trivial trivial hwx (List.rel_of_pairwise_cons hrest hz)

/-- The members of one step of a walk: the element taken, unless it is the
one given before, and what the rest of the walk gives. -/
theorem mem_emitAfter_iff (hcmp : TotalOrderOn cmp fun _ => True) {last : Option α} {m : α}
    {rest : List α} {P : α → Prop} (hlast : ∀ w, last = some w → cmp w m ≠ .gt)
    (hle : ∀ z, P z → cmp m z ≠ .gt) (hrest : ∀ z, z ∈ rest ↔ P z ∧ m ≠ z) (z : α) :
    z ∈ emitAfter last m rest ↔ (z = m ∨ P z) ∧ last ≠ some z := by
  rw [mem_emitAfter, hrest]
  constructor
  · rintro (⟨rfl, hne⟩ | ⟨hz, hmz⟩)
    · exact ⟨.inl rfl, hne⟩
    · refine ⟨.inr hz, ?_⟩
      rintro rfl
      -- the element before is at or below `m`, which is at or below `z`
      exact hmz (hcmp.eq_of_ne_gt_of_ne_gt trivial trivial (hle z hz) (hlast z rfl))
  · rintro ⟨hz | hz, hne⟩
    · subst hz
      exact .inl ⟨rfl, hne⟩
    · by_cases hmz : m = z
      · subst hmz
        exact .inl ⟨rfl, hne⟩
      · exact .inr ⟨hz, hmz⟩

/-- The merge of two sequences that never go down, after an element at or
below both, is strictly increasing from that element. -/
theorem pairwise_mergeDistinct (hcmp : TotalOrderOn cmp fun _ => True) {last : Option α}
    {xs ys : List α} (hxs : xs.Pairwise fun a b => cmp a b ≠ .gt)
    (hys : ys.Pairwise fun a b => cmp a b ≠ .gt)
    (hlast : ∀ w, last = some w → ∀ z, z ∈ xs ∨ z ∈ ys → cmp w z ≠ .gt) :
    (last.toList ++ mergeDistinct cmp last xs ys).Pairwise fun a b => cmp a b = .lt := by
  induction last, xs, ys using mergeDistinct.induct cmp with
  | case1 last xs ys hpick =>
    rw [mergeDistinct_of_pick_none hpick]
    cases last <;> simp
  | case2 last xs ys m xs' ys' hpick ih =>
    have hle := mergePick_le hcmp hxs hys hpick
    obtain ⟨-, hxs', hys'⟩ := mergePick_spec hpick
    -- what is left is a suffix of each side, so sorted and at or above `m`
    have hsubx : xs'.Sublist xs := hxs' ▸ dropIfHead_sublist m xs
    have hsuby : ys'.Sublist ys := hys' ▸ dropIfHead_sublist m ys
    have hrest := ih (hxs.sublist hsubx) (hys.sublist hsuby) fun w hw z hz =>
      Option.some.inj hw ▸ hle z (hz.imp (fun h => hsubx.subset h) fun h => hsuby.subset h)
    rw [mergeDistinct_of_pick_some hpick]
    exact pairwise_emitAfter hcmp hrest fun w hw =>
      hlast w hw m ((mem_mergePick hpick m).mpr (.inl rfl))

/-- The merge of two sequences that never go down, after an element at or
below both, holds exactly their members other than that element. -/
theorem mem_mergeDistinct (hcmp : TotalOrderOn cmp fun _ => True) {last : Option α}
    {xs ys : List α} (hxs : xs.Pairwise fun a b => cmp a b ≠ .gt)
    (hys : ys.Pairwise fun a b => cmp a b ≠ .gt)
    (hlast : ∀ w, last = some w → ∀ z, z ∈ xs ∨ z ∈ ys → cmp w z ≠ .gt) (z : α) :
    z ∈ mergeDistinct cmp last xs ys ↔ (z ∈ xs ∨ z ∈ ys) ∧ last ≠ some z := by
  induction last, xs, ys using mergeDistinct.induct cmp generalizing z with
  | case1 last xs ys hpick =>
    obtain ⟨rfl, rfl⟩ := mergePick_eq_none_iff.mp hpick
    simp [mergeDistinct_of_pick_none hpick]
  | case2 last xs ys m xs' ys' hpick ih =>
    have hle := mergePick_le hcmp hxs hys hpick
    obtain ⟨-, hxs', hys'⟩ := mergePick_spec hpick
    have hsubx : xs'.Sublist xs := hxs' ▸ dropIfHead_sublist m xs
    have hsuby : ys'.Sublist ys := hys' ▸ dropIfHead_sublist m ys
    have hle' : ∀ z, z ∈ xs' ∨ z ∈ ys' → cmp m z ≠ .gt := fun z hz =>
      hle z (hz.imp (fun h => hsubx.subset h) fun h => hsuby.subset h)
    have hrest : ∀ z, z ∈ mergeDistinct cmp (some m) xs' ys' ↔ (z ∈ xs' ∨ z ∈ ys') ∧ m ≠ z :=
      fun z => by
        rw [ih (hxs.sublist hsubx) (hys.sublist hsuby)
          (fun w hw => Option.some.inj hw ▸ hle') z, Ne, Option.some.injEq]
    rw [mergeDistinct_of_pick_some hpick,
      mem_emitAfter_iff hcmp (fun w hw => hlast w hw m ((mem_mergePick hpick m).mpr (.inl rfl)))
        hle' hrest, mem_mergePick hpick]

/-- The intersection of two sequences that never go down, after an element at
or below both, is strictly increasing from that element. -/
theorem pairwise_intersectDistinct (hcmp : TotalOrderOn cmp fun _ => True) {last : Option α}
    {xs ys : List α} (hxs : xs.Pairwise fun a b => cmp a b ≠ .gt)
    (hys : ys.Pairwise fun a b => cmp a b ≠ .gt)
    (hlast : ∀ w, last = some w → ∀ z, z ∈ xs ∨ z ∈ ys → cmp w z ≠ .gt) :
    (last.toList ++ intersectDistinct cmp last xs ys).Pairwise fun a b => cmp a b = .lt := by
  induction last, xs, ys using intersectDistinct.induct cmp with
  | case1 last xs x ys ih =>
    rw [intersectDistinct, if_pos rfl]
    refine pairwise_emitAfter hcmp (ih hxs.of_cons hys.of_cons ?_) fun w hw =>
      hlast w hw x (.inl List.mem_cons_self)
    rintro w ⟨⟩ z (hz | hz)
    · exact List.rel_of_pairwise_cons hxs hz
    · exact List.rel_of_pairwise_cons hys hz
  | case2 last x xs y ys hxy hlt ih =>
    rw [intersectDistinct, if_neg hxy, if_pos hlt]
    exact ih hxs.of_cons hys fun w hw z hz =>
      hlast w hw z (hz.imp_left (List.mem_cons_of_mem x))
  | case3 last x xs y ys hxy hlt ih =>
    rw [intersectDistinct, if_neg hxy, if_neg hlt]
    exact ih hxs hys.of_cons fun w hw z hz =>
      hlast w hw z (hz.imp_right (List.mem_cons_of_mem y))
  | case4 last xs ys hnil =>
    rw [intersectDistinct_of_not_cons hnil]
    cases last <;> simp

/-- The intersection of two sequences that never go down, after an element at
or below both, holds exactly their common members other than that element. -/
theorem mem_intersectDistinct (hcmp : TotalOrderOn cmp fun _ => True) {last : Option α}
    {xs ys : List α} (hxs : xs.Pairwise fun a b => cmp a b ≠ .gt)
    (hys : ys.Pairwise fun a b => cmp a b ≠ .gt)
    (hlast : ∀ w, last = some w → ∀ z, z ∈ xs ∨ z ∈ ys → cmp w z ≠ .gt) (z : α) :
    z ∈ intersectDistinct cmp last xs ys ↔ (z ∈ xs ∧ z ∈ ys) ∧ last ≠ some z := by
  induction last, xs, ys using intersectDistinct.induct cmp generalizing z with
  | case1 last xs x ys ih =>
    have hle : ∀ z, z ∈ xs ∧ z ∈ ys → cmp x z ≠ .gt := fun z hz =>
      List.rel_of_pairwise_cons hxs hz.1
    have hrest : ∀ z, z ∈ intersectDistinct cmp (some x) xs ys ↔ (z ∈ xs ∧ z ∈ ys) ∧ x ≠ z :=
      fun z => by
        rw [ih hxs.of_cons hys.of_cons (fun w hw z hz => Option.some.inj hw ▸ hz.elim
          (List.rel_of_pairwise_cons hxs) (List.rel_of_pairwise_cons hys)) z, Ne,
          Option.some.injEq]
    rw [intersectDistinct, if_pos rfl,
      mem_emitAfter_iff hcmp (fun w hw => hlast w hw x (.inl List.mem_cons_self)) hle hrest]
    simp only [List.mem_cons]
    tauto
  | case2 last x xs y ys hxy hlt ih =>
    rw [intersectDistinct, if_neg hxy, if_pos hlt,
      ih hxs.of_cons hys (fun w hw z hz => hlast w hw z (hz.imp_left (List.mem_cons_of_mem x))) z]
    -- `x` is below the right-hand side, so it is not a common member
    have hx : x ∉ y :: ys := fun hx => by
      have hyx : cmp y x ≠ .gt := by
        rcases List.mem_cons.mp hx with rfl | hx
        · exact absurd rfl hxy
        · exact List.rel_of_pairwise_cons hys hx
      exact hyx (hcmp.gt_of_lt trivial trivial hlt)
    constructor
    · rintro ⟨⟨hz, hzy⟩, hne⟩
      exact ⟨⟨List.mem_cons_of_mem x hz, hzy⟩, hne⟩
    · rintro ⟨⟨hz, hzy⟩, hne⟩
      rcases List.mem_cons.mp hz with rfl | hz
      · exact absurd hzy hx
      · exact ⟨⟨hz, hzy⟩, hne⟩
  | case3 last x xs y ys hxy hlt ih =>
    rw [intersectDistinct, if_neg hxy, if_neg hlt,
      ih hxs hys.of_cons (fun w hw z hz => hlast w hw z (hz.imp_right (List.mem_cons_of_mem y))) z]
    -- `y` is below the left-hand side, so it is not a common member
    have hyx : cmp y x = .lt :=
      hcmp.lt_of_gt trivial trivial (by
        cases h : cmp x y with
        | lt => exact absurd h hlt
        | eq => exact absurd (hcmp.eq_of_cmp_eq x y trivial trivial h) hxy
        | gt => rfl)
    have hy : y ∉ x :: xs := fun hy => by
      have hxy' : cmp x y ≠ .gt := by
        rcases List.mem_cons.mp hy with rfl | hy
        · exact absurd rfl hxy
        · exact List.rel_of_pairwise_cons hxs hy
      exact hxy' (hcmp.gt_of_lt trivial trivial hyx)
    constructor
    · rintro ⟨⟨hzx, hz⟩, hne⟩
      exact ⟨⟨hzx, List.mem_cons_of_mem y hz⟩, hne⟩
    · rintro ⟨⟨hzx, hz⟩, hne⟩
      rcases List.mem_cons.mp hz with rfl | hz
      · exact absurd hzx hy
      · exact ⟨⟨hzx, hz⟩, hne⟩
  | case4 last xs ys hnil =>
    rw [intersectDistinct_of_not_cons hnil]
    -- one side is empty
    rcases xs with _ | ⟨x, xs⟩ <;> rcases ys with _ | ⟨y, ys⟩
    · simp
    · simp
    · simp
    · exact (hnil _ _ _ _ rfl rfl).elim

end Laws

end Comparator
