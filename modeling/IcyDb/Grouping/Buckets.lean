import Mathlib.Data.List.Induction
import Mathlib.Logic.Function.Iterate

/-!
# Grouping through a hash-bucket index

A grouping keeps its groups in order of first appearance, each a key and a
counter, and an index from hashes to the positions of the groups filed under
each hash.  An item is hashed, the positions under its hash are searched for
a group that admits it, and that group's counter is bumped; when none admits
it, a group for it is appended and filed under its hash.

The reference is `tally`, a scan of the whole group list for the first group
whose key is equivalent to the item's key.  When the hash is a function of the
key that equivalent keys share, the index finds what the scan finds, so a step
through the index is a step of `tally` (`ingest_groups`).  Under an
equivalence, `tally` partitions the items (`Tallies`): the group keys are
pairwise inequivalent, every item has a group, every group key is an item, and
a group's counter is the first counter bumped once for every further item of
its class.
-/

namespace Grouping

variable {K C H : Type}

/-- Groups in order of first appearance and an index from hashes to the
positions of the groups filed under each hash. -/
structure Buckets (K C H : Type) where
  groups : List (K × C)
  index : H → List Nat

namespace Buckets

/-- No groups and nothing filed. -/
def empty : Buckets K C H := ⟨[], fun _ => []⟩

/-- The first position filed under `h` whose group's key passes `p`; a
position without a group passes nothing. -/
def lookup (s : Buckets K C H) (h : H) (p : K → Bool) : Option Nat :=
  (s.index h).find? fun i => s.groups[i]?.any fun g => p g.1

/-- Bump the counter of the group at position `i`. -/
def bump (s : Buckets K C H) (i : Nat) (f : C → C) : Buckets K C H :=
  { s with groups := s.groups.modify i fun g => (g.1, f g.2) }

/-- The index files every group, under its key's hash and nowhere else. -/
def Filed (hashOf : K → H) (s : Buckets K C H) : Prop :=
  ∀ h i, i ∈ s.index h ↔ ∃ g, s.groups[i]? = some g ∧ hashOf g.1 = h

/-! ### Lookup -/

section Lookup

variable {s : Buckets K C H} {h : H} {p p' : K → Bool}

/-- A position the lookup returns holds a group that passes. -/
theorem exists_of_lookup {i : Nat} (hl : s.lookup h p = some i) :
    ∃ g, s.groups[i]? = some g ∧ p g.1 = true := by
  have hi := List.find?_some hl
  cases hg : s.groups[i]? with
  | none => simp [hg] at hi
  | some g => exact ⟨g, rfl, by simpa [hg] using hi⟩

theorem lookup_eq_none (hp : ∀ g ∈ s.groups, p g.1 = false) : s.lookup h p = none := by
  cases hl : s.lookup h p with
  | none => rfl
  | some i =>
    obtain ⟨g, hg, hpg⟩ := exists_of_lookup hl
    rw [hp g (List.mem_of_getElem? hg)] at hpg
    cases hpg

/-- A filed group that passes, when no other group passes, is what the lookup
finds. -/
theorem lookup_eq_some {hashOf : K → H} (hs : Filed hashOf s) {i : Nat} {g : K × C}
    (hg : s.groups[i]? = some g) (hpg : p g.1 = true) (hh : hashOf g.1 = h)
    (huniq : ∀ j g', s.groups[j]? = some g' → p g'.1 = true → j = i) :
    s.lookup h p = some i := by
  cases hl : s.lookup h p with
  | none =>
    have hmem : i ∈ s.index h := (hs h i).mpr ⟨g, hg, hh⟩
    have hnone := List.find?_eq_none.mp hl i hmem
    simp [hg, hpg] at hnone
  | some j =>
    obtain ⟨g', hg', hpg'⟩ := exists_of_lookup hl
    rw [huniq j g' hg' hpg']

end Lookup

theorem filed_empty {hashOf : K → H} : Filed hashOf (empty : Buckets K C H) := by
  intro h i
  simp [empty]

theorem Filed.bump {hashOf : K → H} {s : Buckets K C H} (hs : Filed hashOf s) (i : Nat)
    (f : C → C) : Filed hashOf (s.bump i f) := by
  intro h j
  simp only [Buckets.bump, List.getElem?_modify]
  rw [hs h j]
  constructor
  · rintro ⟨g, hg, hh⟩
    refine ⟨if i = j then (g.1, f g.2) else g, by simp [hg], ?_⟩
    split <;> exact hh
  · rintro ⟨g, hg, hh⟩
    cases hj : s.groups[j]? with
    | none => simp [hj] at hg
    | some g' =>
      simp only [hj, Option.map_eq_map, Option.map_some, Option.some.injEq] at hg
      refine ⟨g', rfl, ?_⟩
      split at hg <;> (subst hg; exact hh)

variable [DecidableEq H]

/-- Append a group and file its position under `h`. -/
def push (s : Buckets K C H) (h : H) (k : K) (c : C) : Buckets K C H where
  groups := s.groups ++ [(k, c)]
  index := Function.update s.index h (s.index h ++ [s.groups.length])

/-- One item: bump the group the lookup finds, or append a group for it. -/
def ingest (s : Buckets K C H) (h : H) (p : K → Bool) (k : K) (init : C) (f : C → C) :
    Buckets K C H :=
  match s.lookup h p with
  | some i => s.bump i f
  | none => s.push h k init

theorem Filed.push {hashOf : K → H} {s : Buckets K C H} (hs : Filed hashOf s) (k : K) (c : C) :
    Filed hashOf (s.push (hashOf k) k c) := by
  intro h j
  simp only [Buckets.push, Function.update_apply]
  rcases Nat.lt_trichotomy j s.groups.length with hj | rfl | hj
  · -- an old position: filed where it was
    rw [List.getElem?_append_left hj]
    have hne : j ≠ s.groups.length := Nat.ne_of_lt hj
    split
    · rename_i hk
      subst hk
      simp [hne, hs (hashOf k) j]
    · exact hs h j
  · -- the new position: filed under the key's hash only
    have hold : s.groups.length ∉ s.index h := fun hmem => by
      obtain ⟨g, hg, -⟩ := (hs h _).mp hmem
      simp at hg
    simp only [List.getElem?_append_right (Nat.le_refl _), Nat.sub_self,
      List.getElem?_cons_zero, Option.some.injEq, exists_eq_left']
    split
    · rename_i hk
      subst hk
      simp
    · rename_i hk
      simp only [hold, false_iff]
      exact fun he => hk he.symm
  · -- no position beyond the end is filed
    have hnone : (s.groups ++ [(k, c)])[j]? = none :=
      List.getElem?_eq_none (by simp; omega)
    have hold : j ∉ s.index h := fun hmem => by
      obtain ⟨g, hg, -⟩ := (hs h _).mp hmem
      rw [List.getElem?_eq_none (by omega)] at hg
      cases hg
    rw [hnone]
    split
    · rename_i hk
      subst hk
      simp only [List.mem_append, List.mem_singleton]
      constructor
      · rintro (hmem | rfl)
        · exact absurd hmem hold
        · omega
      · rintro ⟨g, hg, -⟩
        cases hg
    · simp only [hold, false_iff]
      rintro ⟨g, hg, -⟩
      cases hg

theorem Filed.ingest {hashOf : K → H} {s : Buckets K C H} (hs : Filed hashOf s) (p : K → Bool)
    (k : K) (init : C) (f : C → C) : Filed hashOf (s.ingest (hashOf k) p k init f) := by
  unfold Buckets.ingest
  split
  · exact hs.bump _ f
  · exact hs.push k init

/-- A property of every key survives ingesting a key that has it. -/
theorem forall_key_ingest {P : K → Prop} {s : Buckets K C H} (hs : ∀ g ∈ s.groups, P g.1)
    (h : H) (p : K → Bool) {k : K} (hk : P k) (init : C) (f : C → C) :
    ∀ g ∈ (s.ingest h p k init f).groups, P g.1 := by
  unfold Buckets.ingest
  split
  · -- a bump keeps the key of every group
    intro g hg
    obtain ⟨j, hj⟩ := List.mem_iff_getElem?.mp hg
    simp only [Buckets.bump, List.getElem?_modify] at hj
    cases hgj : s.groups[j]? with
    | none => simp [hgj] at hj
    | some g₀ =>
      simp only [hgj, Option.map_eq_map, Option.map_some, Option.some.injEq] at hj
      subst hj
      have hg₀ := hs g₀ (List.mem_of_getElem? hgj)
      split <;> exact hg₀
  · intro g hg
    simp only [Buckets.push, List.mem_append, List.mem_singleton] at hg
    rcases hg with hg | rfl
    · exact hs g hg
    · exact hk

/-- Ingest the keys in order, each through its own hash and the groups
equivalent to it. -/
def ingestAll (hashOf : K → H) (eq : K → K → Bool) (init : C) (f : C → C)
    (s : Buckets K C H) (ks : List K) : Buckets K C H :=
  ks.foldl (fun s k => s.ingest (hashOf k) (fun g => eq g k) k init f) s

end Buckets

/-! ### Distinct keys -/

section Distinct

variable {eq : K → K → Bool}

theorem rel_of_pairwise {α : Type} {R : α → α → Prop} {l : List α} (hl : l.Pairwise R)
    {i j : Nat} {a b : α} (hij : i < j) (ha : l[i]? = some a) (hb : l[j]? = some b) : R a b := by
  obtain ⟨hi, rfl⟩ := List.getElem?_eq_some_iff.mp ha
  obtain ⟨hj, rfl⟩ := List.getElem?_eq_some_iff.mp hb
  exact List.pairwise_iff_getElem.mp hl i j hi hj hij

/-- Among groups with pairwise inequivalent keys, at most one is equivalent to
a given key. -/
theorem index_unique (hsymm : ∀ a b, eq a b = true → eq b a = true)
    (htrans : ∀ a b c, eq a b = true → eq b c = true → eq a c = true)
    {gs : List (K × C)} (hd : gs.Pairwise fun a b => eq a.1 b.1 = false) {k : K} {i : Nat}
    {g : K × C} (hg : gs[i]? = some g) (hgk : eq g.1 k = true) :
    ∀ j g', gs[j]? = some g' → eq g'.1 k = true → j = i := by
  intro j g' hj hj'
  by_contra hne
  have hgg' : eq g.1 g'.1 = true := htrans _ _ _ hgk (hsymm _ _ hj')
  rcases Nat.lt_or_gt_of_ne hne with hlt | hlt
  · have := rel_of_pairwise hd hlt hj hg
    rw [hsymm _ _ hgg'] at this
    cases this
  · have := rel_of_pairwise hd hlt hg hj
    rw [hgg'] at this
    cases this

theorem first_of_unique {gs : List (K × C)} {k : K} {i : Nat}
    (huniq : ∀ j g', gs[j]? = some g' → eq g'.1 k = true → j = i) :
    ∀ j g', j < i → gs[j]? = some g' → eq g'.1 k = false := by
  intro j g' hj hj'
  cases hjk : eq g'.1 k with
  | false => rfl
  | true => exact absurd (huniq j g' hj' hjk) (Nat.ne_of_lt hj)

end Distinct

/-! ### The reference scan -/

section Tally

variable (eq : K → K → Bool) (init : C) (f : C → C)

/-- Bump the first group whose key is equivalent to `k`, or append a group
for `k`. -/
def tally : List (K × C) → K → List (K × C)
  | [], k => [(k, init)]
  | g :: gs, k => if eq g.1 k then (g.1, f g.2) :: gs else g :: tally gs k

/-- Tally every item in turn. -/
def tallyAll (ks : List K) : List (K × C) := ks.foldl (tally eq init f) []

variable {eq init f}

theorem tally_eq_append {gs : List (K × C)} {k : K} (h : ∀ g ∈ gs, eq g.1 k = false) :
    tally eq init f gs k = gs ++ [(k, init)] := by
  induction gs with
  | nil => rfl
  | cons g gs ih =>
    simp only [List.forall_mem_cons] at h
    simp [tally, h.1, ih h.2]

/-- Where the first equivalent group stands at `i`, the tally bumps it. -/
theorem tally_eq_modify {gs : List (K × C)} {k : K} {i : Nat} {g : K × C}
    (hg : gs[i]? = some g) (hk : eq g.1 k = true)
    (hfirst : ∀ j g', j < i → gs[j]? = some g' → eq g'.1 k = false) :
    tally eq init f gs k = gs.modify i fun g => (g.1, f g.2) := by
  induction gs generalizing i with
  | nil => cases hg
  | cons g₀ gs ih =>
    cases i with
    | zero =>
      cases hg
      simp [tally, hk]
    | succ i =>
      have h₀ : eq g₀.1 k = false := hfirst 0 g₀ (Nat.succ_pos i) rfl
      have hrest : ∀ j g', j < i → gs[j]? = some g' → eq g'.1 k = false :=
        fun j g' hj hg' => hfirst (j + 1) g' (by omega) hg'
      simp [tally, h₀, ih hg hrest]

end Tally

/-! ### The tally partitions the items -/

section Partition

variable {eq : K → K → Bool} {init : C} {f : C → C}

/-- `gs` groups the items `ks`: keys pairwise inequivalent, every item in a
group of an equivalent key, every key an item, and every counter the first
one bumped once for each further item of its class. -/
structure Tallies (eq : K → K → Bool) (init : C) (f : C → C) (ks : List K)
    (gs : List (K × C)) : Prop where
  distinct : gs.Pairwise fun a b => eq a.1 b.1 = false
  covers : ∀ k ∈ ks, ∃ g ∈ gs, eq g.1 k = true
  keys : ∀ g ∈ gs, g.1 ∈ ks
  counts : ∀ g ∈ gs, g.2 = f^[ks.countP (eq g.1) - 1] init

theorem tallies_nil : Tallies eq init f [] [] :=
  ⟨List.Pairwise.nil, by simp, by simp, by simp⟩

variable (hrefl : ∀ a, eq a a = true) (hsymm : ∀ a b, eq a b = true → eq b a = true)
  (htrans : ∀ a b c, eq a b = true → eq b c = true → eq a c = true)
include hrefl hsymm htrans

/-- An item equivalent to the group at `i` bumps that group and keeps the
partition. -/
theorem Tallies.tally_of_mem {ks : List K} {gs : List (K × C)} (ht : Tallies eq init f ks gs)
    {k : K} {i : Nat} {g : K × C} (hi : gs[i]? = some g) (hgk : eq g.1 k = true) :
    Tallies eq init f (ks ++ [k]) (tally eq init f gs k) := by
  have huniq := index_unique hsymm htrans ht.distinct hi hgk
  rw [tally_eq_modify hi hgk (first_of_unique huniq)]
  -- the bump keeps every key, so distinctness and keys carry over
  have hkeys : (gs.modify i fun g => (g.1, f g.2)).map Prod.fst = gs.map Prod.fst := by
    apply List.ext_getElem?
    intro j
    simp only [List.getElem?_map, List.getElem?_modify]
    cases gs[j]? with
    | none => rfl
    | some g₀ => simp only [Option.map_eq_map, Option.map_some]; split <;> rfl
  have hmem : ∀ g' ∈ gs.modify i (fun g => (g.1, f g.2)),
      ∃ j g₀, gs[j]? = some g₀ ∧ g' = if i = j then (g₀.1, f g₀.2) else g₀ := by
    intro g' hg'
    obtain ⟨j, hj⟩ := List.mem_iff_getElem?.mp hg'
    rw [List.getElem?_modify] at hj
    cases hgj : gs[j]? with
    | none => simp [hgj] at hj
    | some g₀ =>
      simp only [hgj, Option.map_eq_map, Option.map_some, Option.some.injEq] at hj
      exact ⟨j, g₀, hgj, hj.symm⟩
  refine ⟨?_, ?_, ?_, ?_⟩
  · have hd : (gs.map Prod.fst).Pairwise fun x y => eq x y = false :=
      List.pairwise_map.mpr ht.distinct
    rw [← hkeys] at hd
    exact List.pairwise_map.mp hd
  · intro k' hk'
    rcases List.mem_append.mp hk' with hk' | hk'
    · obtain ⟨g', hg', hgk'⟩ := ht.covers k' hk'
      obtain ⟨j, hj⟩ := List.mem_iff_getElem?.mp hg'
      refine ⟨if i = j then (g'.1, f g'.2) else g', ?_, by split <;> exact hgk'⟩
      exact List.mem_iff_getElem?.mpr ⟨j, by simp [List.getElem?_modify, hj]⟩
    · rw [List.mem_singleton.mp hk']
      exact ⟨(g.1, f g.2), List.mem_iff_getElem?.mpr ⟨i, by simp [hi]⟩, hgk⟩
  · intro g' hg'
    obtain ⟨j, g₀, hgj, rfl⟩ := hmem g' hg'
    have hkey : (if i = j then (g₀.1, f g₀.2) else g₀).1 = g₀.1 := by split <;> rfl
    rw [hkey]
    exact List.mem_append_left _ (ht.keys g₀ (List.mem_of_getElem? hgj))
  · intro g' hg'
    obtain ⟨j, g₀, hgj, rfl⟩ := hmem g' hg'
    have hg₀ := ht.counts g₀ (List.mem_of_getElem? hgj)
    split
    · -- the bumped group counts one item more
      rename_i hij
      subst hij
      rw [hgj, Option.some.injEq] at hi
      subst hi
      have hpos : 0 < ks.countP (eq g₀.1) :=
        List.countP_pos_iff.mpr ⟨g₀.1, ht.keys g₀ (List.mem_of_getElem? hgj), hrefl _⟩
      simp only [List.countP_append, List.countP_singleton, hgk, if_true, hg₀]
      rw [show ks.countP (eq g₀.1) + 1 - 1 = (ks.countP (eq g₀.1) - 1) + 1 by omega,
        Function.iterate_succ_apply']
    · -- every other group is inequivalent to `k`
      rename_i hij
      have hg₀k : eq g₀.1 k = false := by
        cases h' : eq g₀.1 k with
        | false => rfl
        | true => exact absurd (huniq j g₀ hgj h').symm hij
      simp [List.countP_append, hg₀k, hg₀]

/-- An item inequivalent to every group opens a group of its own and keeps the
partition. -/
theorem Tallies.tally_of_fresh {ks : List K} {gs : List (K × C)} (ht : Tallies eq init f ks gs)
    {k : K} (hnone : ∀ g ∈ gs, eq g.1 k = false) :
    Tallies eq init f (ks ++ [k]) (tally eq init f gs k) := by
  rw [tally_eq_append hnone]
  -- no earlier item is equivalent to `k`
  have hfresh : ks.countP (eq k) = 0 := by
    rw [List.countP_eq_zero]
    intro k' hk' hkk'
    obtain ⟨g, hg, hgk'⟩ := ht.covers k' hk'
    have := hnone g hg
    rw [htrans _ _ _ hgk' (hsymm _ _ hkk')] at this
    cases this
  refine ⟨?_, ?_, ?_, ?_⟩
  · refine List.pairwise_append.mpr ⟨ht.distinct, List.pairwise_singleton _ _, ?_⟩
    intro a ha b hb
    rw [List.mem_singleton.mp hb]
    exact hnone a ha
  · intro k' hk'
    rcases List.mem_append.mp hk' with hk' | hk'
    · obtain ⟨g, hg, hgk'⟩ := ht.covers k' hk'
      exact ⟨g, List.mem_append_left _ hg, hgk'⟩
    · rw [List.mem_singleton.mp hk']
      exact ⟨(k, init), by simp, hrefl k⟩
  · intro g hg
    rcases List.mem_append.mp hg with hg | hg
    · exact List.mem_append_left _ (ht.keys g hg)
    · rw [List.mem_singleton.mp hg]
      simp
  · intro g hg
    rcases List.mem_append.mp hg with hg | hg
    · simp [List.countP_append, hnone g hg, ht.counts g hg]
    · rw [List.mem_singleton.mp hg]
      simp [List.countP_append, hfresh, hrefl]

/-- One item keeps the partition. -/
theorem Tallies.tally {ks : List K} {gs : List (K × C)} (ht : Tallies eq init f ks gs) (k : K) :
    Tallies eq init f (ks ++ [k]) (tally eq init f gs k) := by
  by_cases hex : ∃ g ∈ gs, eq g.1 k = true
  · obtain ⟨g, hg, hgk⟩ := hex
    obtain ⟨i, hi⟩ := List.mem_iff_getElem?.mp hg
    exact ht.tally_of_mem hrefl hsymm htrans hi hgk
  · refine ht.tally_of_fresh hrefl hsymm htrans fun g hg => ?_
    cases h : eq g.1 k with
    | false => rfl
    | true => exact absurd ⟨g, hg, h⟩ hex

/-- Tallying every item partitions them. -/
theorem tallies_tallyAll (ks : List K) : Tallies eq init f ks (tallyAll eq init f ks) := by
  induction ks using List.reverseRecOn with
  | nil => exact tallies_nil
  | append_singleton ks k ih =>
    rw [tallyAll, List.foldl_append, List.foldl_cons, List.foldl_nil]
    exact ih.tally hrefl hsymm htrans k

end Partition

/-! ### The index finds what the scan finds -/

section Refinement

variable [DecidableEq H] {eq : K → K → Bool} {init : C} {f : C → C} {hashOf : K → H}

/-- With a filed index and pairwise inequivalent groups, ingesting a key
through its hash is the reference step, when equivalent keys share a hash. -/
theorem ingest_groups (hsymm : ∀ a b, eq a b = true → eq b a = true)
    (htrans : ∀ a b c, eq a b = true → eq b c = true → eq a c = true)
    (hresp : ∀ a b, eq a b = true → hashOf a = hashOf b) {s : Buckets K C H}
    (hs : s.Filed hashOf) (hd : s.groups.Pairwise fun a b => eq a.1 b.1 = false) (k : K) :
    (s.ingest (hashOf k) (fun g => eq g k) k init f).groups = tally eq init f s.groups k := by
  by_cases hex : ∃ g ∈ s.groups, eq g.1 k = true
  · obtain ⟨g, hg, hgk⟩ := hex
    obtain ⟨i, hi⟩ := List.mem_iff_getElem?.mp hg
    have huniq := index_unique hsymm htrans hd hi hgk
    have hl : s.lookup (hashOf k) (fun g => eq g k) = some i :=
      Buckets.lookup_eq_some hs hi hgk (hresp _ _ hgk) huniq
    rw [Buckets.ingest, hl, tally_eq_modify hi hgk (first_of_unique huniq)]
    rfl
  · have hnone : ∀ g ∈ s.groups, eq g.1 k = false := fun g hg => by
      cases h : eq g.1 k with
      | false => rfl
      | true => exact absurd ⟨g, hg, h⟩ hex
    rw [Buckets.ingest, Buckets.lookup_eq_none hnone, tally_eq_append hnone]
    rfl

variable (hrefl : ∀ a, eq a a = true) (hsymm : ∀ a b, eq a b = true → eq b a = true)
  (htrans : ∀ a b c, eq a b = true → eq b c = true → eq a c = true)
  (hresp : ∀ a b, eq a b = true → hashOf a = hashOf b)
include hrefl hsymm htrans hresp

/-- A run keeps the index filed and takes the groups through `tally`, from any
filed state whose groups partition the keys seen before. -/
theorem ingestAll_spec : ∀ (ks ks₀ : List K) (s : Buckets K C H), s.Filed hashOf →
    Tallies eq init f ks₀ s.groups →
      (s.ingestAll hashOf eq init f ks).Filed hashOf ∧
        (s.ingestAll hashOf eq init f ks).groups = ks.foldl (tally eq init f) s.groups
  | [], _, s, hs, _ => ⟨hs, rfl⟩
  | k :: ks, ks₀, s, hs, ht => by
    -- one step is the reference step, and the partition grows by `k`
    have hstep : (s.ingest (hashOf k) (fun g => eq g k) k init f).groups =
        tally eq init f s.groups k :=
      ingest_groups hsymm htrans hresp hs ht.distinct k
    have ht' : Tallies eq init f (ks₀ ++ [k])
        (s.ingest (hashOf k) (fun g => eq g k) k init f).groups := by
      rw [hstep]
      exact ht.tally hrefl hsymm htrans k
    have ih := ingestAll_spec ks (ks₀ ++ [k]) _ (hs.ingest _ k init f) ht'
    rw [hstep] at ih
    exact ih

/-- From the empty state, a run's groups are the reference tally of its keys. -/
theorem ingestAll_empty_groups (ks : List K) :
    ((Buckets.empty : Buckets K C H).ingestAll hashOf eq init f ks).groups =
      tallyAll eq init f ks :=
  (ingestAll_spec hrefl hsymm htrans hresp ks [] _ Buckets.filed_empty tallies_nil).2

end Refinement

/-! ### Fallible loops that ingest -/

section Loop

variable [DecidableEq H] {eq : K → K → Bool} {init : C} {f : C → C} {hashOf : K → H}
  {ρ ε : Type} {step : Buckets K C H → ρ → Except ε (Buckets K C H)}
  {I : Buckets K C H → Prop} {R : ρ → K → Prop}

/-- A fallible loop whose step ingests the key its item relates to, on every
state of an invariant that ingesting keeps, is a run of those keys. -/
theorem foldlM_eq_ingestAll
    (hstep : ∀ s r k, I s → R r k →
      step s r = .ok (s.ingest (hashOf k) (fun g => eq g k) k init f))
    (hinv : ∀ s r k, I s → R r k → I (s.ingest (hashOf k) (fun g => eq g k) k init f)) :
    ∀ {rs : List ρ} {ks : List K} {s : Buckets K C H}, List.Forall₂ R rs ks → I s →
      rs.foldlM step s = .ok (s.ingestAll hashOf eq init f ks)
  | [], [], _, .nil, _ => rfl
  | r :: _, k :: _, s, .cons hrk hrest, hs => by
    rw [List.foldlM_cons, hstep s r k hs hrk]
    exact foldlM_eq_ingestAll hstep hinv hrest (hinv s r k hs hrk)

end Loop

end Grouping
