import IcyDb.Order.Bound
import Mathlib.Data.List.Sort
import Mathlib.Data.List.Dedup

/-!
# Ordered maps as sorted association lists

An ordered map (`BTreeMap`, in memory or in stable memory) is modelled by
the list of its entries in strictly increasing key order; the order is a
field, so a map out of order cannot be built.  Lookup, key membership and
range iteration read that list.  Two strictly key-sorted lists with the same
entries are equal, which is how a traversal is shown to produce exactly a
given sorted sequence.
-/

namespace IcyDb

/-- An ordered map: its entries in strictly increasing key order. -/
structure SortedMap (κ : Type) (α : Type) [LinearOrder κ] where
  entries : List (κ × α)
  sorted : entries.Pairwise (fun a b => a.1 < b.1)

namespace SortedMap

variable {κ α : Type} [LinearOrder κ] (m : SortedMap κ α)

/-- `BTreeMap::get`. -/
def get (k : κ) : Option α := (m.entries.find? (fun e => e.1 == k)).map Prod.snd

/-- `BTreeMap::contains_key`. -/
def containsKey (k : κ) : Bool := (m.get k).isSome

/-- `BTreeMap::is_empty`. -/
def isEmpty : Bool := m.entries.isEmpty

/-- The keys, in order. -/
def keys : List κ := m.entries.map Prod.fst

/-- `BTreeMap::range`: the entries whose keys lie within the bounds, in key
order. -/
def range (bounds : Bound κ × Bound κ) : List (κ × α) :=
  m.entries.filter fun e => rangeContains bounds e.1

variable {m}

theorem keys_nodup : m.keys.Nodup :=
  List.pairwise_map.mpr (m.sorted.imp fun h => ne_of_lt h)

/-- Two entries with one key are the same entry. -/
theorem eq_of_key_eq {a b : κ × α} (ha : a ∈ m.entries) (hb : b ∈ m.entries) (hab : a.1 = b.1) :
    a = b :=
  List.inj_on_of_nodup_map keys_nodup ha hb hab

theorem get_eq_some_iff {k : κ} {v : α} : m.get k = some v ↔ (k, v) ∈ m.entries := by
  unfold get
  constructor
  · intro h
    obtain ⟨e, he, rfl⟩ := Option.map_eq_some_iff.mp h
    have hkey : e.1 = k := by simpa using List.find?_some he
    have hmem := List.mem_of_find?_eq_some he
    rw [← hkey]
    exact hmem
  · intro hmem
    cases hfind : m.entries.find? (fun e => e.1 == k) with
    | none =>
      have := List.find?_eq_none.mp hfind (k, v) hmem
      simp at this
    | some e =>
      have hkey : e.1 = k := by simpa using List.find?_some hfind
      have heq := eq_of_key_eq (List.mem_of_find?_eq_some hfind) hmem hkey
      rw [heq]
      rfl

theorem get_eq_none_iff {k : κ} : m.get k = none ↔ ∀ v, (k, v) ∉ m.entries := by
  constructor
  · intro h v hmem
    rw [get_eq_some_iff.mpr hmem] at h
    cases h
  · intro h
    cases hget : m.get k with
    | none => rfl
    | some v => exact absurd (get_eq_some_iff.mp hget) (h v)

theorem mem_range {bounds : Bound κ × Bound κ} {e : κ × α} :
    e ∈ m.range bounds ↔ e ∈ m.entries ∧ rangeContains bounds e.1 = true := by
  simp [range]

theorem range_sorted (bounds : Bound κ × Bound κ) :
    (m.range bounds).Pairwise (fun a b => a.1 < b.1) :=
  m.sorted.filter _

theorem isEmpty_iff : m.isEmpty = true ↔ m.entries = [] := List.isEmpty_iff

/-! ### Insertion and removal -/

/-- The entries after `BTreeMap::insert`: the new entry at its place in key
order, in place of the entry of its key if there is one. -/
def insertEntry (k : κ) (v : α) : List (κ × α) → List (κ × α)
  | [] => [(k, v)]
  | e :: rest =>
    if k < e.1 then (k, v) :: e :: rest
    else if k = e.1 then (k, v) :: rest
    else e :: insertEntry k v rest

theorem mem_insertEntry {k : κ} {v : α} {l : List (κ × α)} (hs : l.Pairwise fun a b => a.1 < b.1)
    {x : κ × α} : x ∈ insertEntry k v l ↔ x = (k, v) ∨ (x ∈ l ∧ x.1 ≠ k) := by
  induction l with
  | nil => simp [insertEntry]
  | cons e rest ih =>
    have hrest : ∀ y ∈ rest, e.1 < y.1 := (List.pairwise_cons.mp hs).1
    rw [insertEntry]
    split_ifs with hlt heq
    · -- the new key is below every key of the list
      have hne : ∀ y ∈ e :: rest, y.1 ≠ k := by
        intro y hy
        rcases List.mem_cons.mp hy with rfl | hy
        · exact ne_of_gt hlt
        · exact ne_of_gt (hlt.trans (hrest y hy))
      rw [List.mem_cons]
      constructor
      · rintro (hx | hx)
        · exact .inl hx
        · exact .inr ⟨hx, hne x hx⟩
      · rintro (hx | ⟨hx, -⟩)
        · exact .inl hx
        · exact .inr hx
    · -- the entry of the key is replaced
      subst heq
      rw [List.mem_cons, List.mem_cons]
      constructor
      · rintro (hx | hx)
        · exact .inl hx
        · exact .inr ⟨.inr hx, ne_of_gt (hrest x hx)⟩
      · rintro (hx | ⟨hx | hx, hxk⟩)
        · exact .inl hx
        · exact absurd (congrArg Prod.fst hx) hxk
        · exact .inr hx
    · have hek : e.1 ≠ k := fun h => heq h.symm
      rw [List.mem_cons, ih (List.pairwise_cons.mp hs).2, List.mem_cons]
      constructor
      · rintro (hx | hx | ⟨hx, hxk⟩)
        · exact .inr ⟨.inl hx, hx ▸ hek⟩
        · exact .inl hx
        · exact .inr ⟨.inr hx, hxk⟩
      · rintro (hx | ⟨hx | hx, hxk⟩)
        · exact .inr (.inl hx)
        · exact .inl hx
        · exact .inr (.inr ⟨hx, hxk⟩)

theorem pairwise_insertEntry {k : κ} {v : α} {l : List (κ × α)}
    (hs : l.Pairwise fun a b => a.1 < b.1) :
    (insertEntry k v l).Pairwise fun a b => a.1 < b.1 := by
  induction l with
  | nil => simp [insertEntry]
  | cons e rest ih =>
    have hrest : ∀ y ∈ rest, e.1 < y.1 := (List.pairwise_cons.mp hs).1
    rw [insertEntry]
    split_ifs with hlt heq
    · refine List.Pairwise.cons ?_ hs
      intro y hy
      rcases List.mem_cons.mp hy with rfl | hy
      · exact hlt
      · exact hlt.trans (hrest y hy)
    · subst heq
      exact List.Pairwise.cons hrest (List.pairwise_cons.mp hs).2
    · -- every entry after `e` is the new one, above `e`, or was after it
      refine List.Pairwise.cons ?_ (ih (List.pairwise_cons.mp hs).2)
      intro y hy
      rcases (mem_insertEntry (List.pairwise_cons.mp hs).2).mp hy with rfl | ⟨hy, -⟩
      · exact lt_of_le_of_ne (not_lt.mp hlt) fun h => heq h.symm
      · exact hrest y hy

/-- `BTreeMap::insert`. -/
def insert (k : κ) (v : α) : SortedMap κ α :=
  ⟨insertEntry k v m.entries, pairwise_insertEntry m.sorted⟩

/-- `BTreeMap::remove`. -/
def erase (k : κ) : SortedMap κ α :=
  ⟨m.entries.filter fun e => e.1 != k, m.sorted.filter _⟩

theorem get_insert {k k' : κ} {v : α} :
    (m.insert k v).get k' = if k' = k then some v else m.get k' := by
  apply Option.ext
  intro v'
  rw [get_eq_some_iff, insert, mem_insertEntry m.sorted]
  split_ifs with hk
  · subst hk
    simp [eq_comm]
  · rw [← get_eq_some_iff]
    simp [hk]

theorem get_erase {k k' : κ} : (m.erase k).get k' = if k' = k then none else m.get k' := by
  apply Option.ext
  intro v'
  rw [get_eq_some_iff, erase, List.mem_filter]
  split_ifs with hk
  · subst hk
    simp
  · rw [← get_eq_some_iff]
    simp [hk]

/-- `BTreeMap::new`. -/
def empty : SortedMap κ α := ⟨[], List.Pairwise.nil⟩

@[simp] theorem get_empty {k : κ} : (empty : SortedMap κ α).get k = none := rfl

theorem mem_keys_iff {k : κ} : k ∈ m.keys ↔ (m.get k).isSome = true := by
  rw [Option.isSome_iff_exists]
  simp only [get_eq_some_iff, keys, List.mem_map]
  constructor
  · rintro ⟨⟨k', v⟩, he, rfl⟩
    exact ⟨v, he⟩
  · rintro ⟨v, he⟩
    exact ⟨(k, v), he, rfl⟩

end SortedMap

section KeySorted

variable {κ α : Type} [LinearOrder κ]

/-- Two lists strictly sorted by key with the same entries are equal. -/
theorem eq_of_key_sorted_of_mem_iff {l₁ l₂ : List (κ × α)}
    (h₁ : l₁.Pairwise fun a b => a.1 < b.1) (h₂ : l₂.Pairwise fun a b => a.1 < b.1)
    (h : ∀ e, e ∈ l₁ ↔ e ∈ l₂) : l₁ = l₂ :=
  haveI : Std.Irrefl fun a b : κ × α => a.1 < b.1 := ⟨fun a => lt_irrefl a.1⟩
  h₁.eq_of_mem_iff h₂ h

/-- Two lists strictly sorted by descending key with the same entries are
equal. -/
theorem eq_of_key_sorted_desc_of_mem_iff {l₁ l₂ : List (κ × α)}
    (h₁ : l₁.Pairwise fun a b => b.1 < a.1) (h₂ : l₂.Pairwise fun a b => b.1 < a.1)
    (h : ∀ e, e ∈ l₁ ↔ e ∈ l₂) : l₁ = l₂ :=
  haveI : Std.Irrefl fun a b : κ × α => b.1 < a.1 := ⟨fun a => lt_irrefl a.1⟩
  h₁.eq_of_mem_iff h₂ h

end KeySorted

section KeySet

variable {κ : Type} [LinearOrder κ]

/-- The keys of a list collected into an ordered set and read back
(`collect::<BTreeSet<_>>()`): each key once, in increasing order. -/
def sortedKeySet (keys : List κ) : List κ := (keys.mergeSort fun a b => a ≤ b).dedup

@[simp] theorem mem_sortedKeySet {keys : List κ} {k : κ} : k ∈ sortedKeySet keys ↔ k ∈ keys := by
  rw [sortedKeySet, List.mem_dedup, List.mem_mergeSort]

end KeySet

end IcyDb
