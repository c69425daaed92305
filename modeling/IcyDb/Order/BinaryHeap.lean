import IcyDb.Order.TopK

/-!
# Binary heaps by their contract

A binary heap is observed only through `push`, `peek` and `pop`: `peek` and
`pop` give a greatest element under the heap's order, and `pop` removes it.
The arrangement of the array behind it is not observable, so a heap is
modelled by the elements it holds, and `pop` by the first greatest of them.
For an order that is total on the elements held, the element given is at or
above every other one, and it is the only one that compares equal to itself.
-/

namespace Comparator

variable {α : Type}

/-- The first greatest element of a list under `cmp`. -/
def maxBy (cmp : α → α → Ordering) : List α → Option α
  | [] => none
  | x :: xs => some (xs.foldl (fun m y => if cmp m y = .lt then y else m) x)

section MaxBy

variable {cmp : α → α → Ordering}

theorem maxBy_eq_none_iff {l : List α} : maxBy cmp l = none ↔ l = [] := by
  cases l <;> simp [maxBy]

/-- What the fold keeps is one of the elements seen. -/
theorem foldl_max_mem : ∀ (xs : List α) (m : α),
    xs.foldl (fun m y => if cmp m y = .lt then y else m) m ∈ m :: xs
  | [], m => List.mem_cons_self
  | x :: xs, m => by
    rw [List.foldl_cons]
    rcases List.mem_cons.mp (foldl_max_mem xs (if cmp m x = .lt then x else m)) with hr | hr
    · rw [hr]
      split_ifs
      · exact List.mem_cons_of_mem m List.mem_cons_self
      · exact List.mem_cons_self
    · exact List.mem_cons_of_mem m (List.mem_cons_of_mem x hr)

/-- Under an order total on what the fold sees, no element seen is above what
it keeps. -/
theorem foldl_max_ge {S : α → Prop} (h : TotalOrderOn cmp S) :
    ∀ (xs : List α) (m : α), S m → (∀ y ∈ xs, S y) →
      ∀ y ∈ m :: xs, cmp y (xs.foldl (fun m y => if cmp m y = .lt then y else m) m) ≠ .gt
  | [], m, hm, _ => by
    intro y hy
    rw [List.mem_singleton.mp hy, List.foldl_nil, h.refl m hm]
    decide
  | x :: xs, m, hm, hxs => by
    have hx := hxs x List.mem_cons_self
    have hxs' : ∀ y ∈ xs, S y := fun y hy => hxs y (List.mem_cons_of_mem x hy)
    -- the running maximum after `x`
    set acc := if cmp m x = .lt then x else m with hacc
    have hSacc : S acc := by rw [hacc]; split_ifs <;> assumption
    have hm_acc : cmp m acc ≠ .gt := by
      rw [hacc]
      split_ifs with hlt
      · rw [hlt]; decide
      · rw [h.refl m hm]; decide
    have hx_acc : cmp x acc ≠ .gt := by
      rw [hacc]
      split_ifs with hlt
      · rw [h.refl x hx]; decide
      · rw [h.swap x m hx hm]
        cases hmx : cmp m x <;> simp_all
    have hge := foldl_max_ge h xs acc hSacc hxs'
    have hSr : S (xs.foldl (fun m y => if cmp m y = .lt then y else m) acc) := by
      rcases List.mem_cons.mp (foldl_max_mem xs acc) with hr | hr
      · rw [hr]; exact hSacc
      · exact hxs' _ hr
    rw [List.foldl_cons]
    intro y hy
    rcases List.mem_cons.mp hy with rfl | hy
    · exact h.le_trans _ _ _ hm hSacc hSr hm_acc (hge acc List.mem_cons_self)
    rcases List.mem_cons.mp hy with rfl | hy
    · exact h.le_trans _ _ _ hx hSacc hSr hx_acc (hge acc List.mem_cons_self)
    · exact hge y (List.mem_cons_of_mem acc hy)

theorem maxBy_mem {l : List α} {m : α} (hm : maxBy cmp l = some m) : m ∈ l := by
  cases l with
  | nil => cases hm
  | cons x xs =>
    simp only [maxBy, Option.some.injEq] at hm
    exact hm ▸ foldl_max_mem xs x

/-- Under an order total on the list's members nothing in it is above its
greatest element. -/
theorem le_maxBy {S : α → Prop} {l : List α} {m : α} (h : TotalOrderOn cmp S)
    (hS : ∀ y ∈ l, S y) (hm : maxBy cmp l = some m) : ∀ y ∈ l, cmp y m ≠ .gt := by
  cases l with
  | nil => cases hm
  | cons x xs =>
    simp only [maxBy, Option.some.injEq] at hm
    exact hm ▸ foldl_max_ge h xs x (hS x List.mem_cons_self)
      fun y hy => hS y (List.mem_cons_of_mem x hy)

end MaxBy

/-- `BinaryHeap` by its contract: the elements it holds. -/
structure BinaryHeap (α : Type) where
  items : List α

namespace BinaryHeap

/-- `BinaryHeap::new`. -/
def new : BinaryHeap α := ⟨[]⟩

/-- `BinaryHeap::push`. -/
def push (heap : BinaryHeap α) (x : α) : BinaryHeap α := ⟨x :: heap.items⟩

/-- `BinaryHeap::peek`: a greatest element. -/
def peek (cmp : α → α → Ordering) (heap : BinaryHeap α) : Option α := maxBy cmp heap.items

/-- `BinaryHeap::pop`: the element `peek` gives, removed. -/
def pop [DecidableEq α] (cmp : α → α → Ordering) (heap : BinaryHeap α) :
    Option (α × BinaryHeap α) :=
  (heap.peek cmp).map fun m => (m, ⟨heap.items.erase m⟩)

theorem pop_eq_some_iff [DecidableEq α] {cmp : α → α → Ordering} {heap heap' : BinaryHeap α}
    {m : α} : heap.pop cmp = some (m, heap') ↔ heap.peek cmp = some m ∧ heap' = ⟨heap.items.erase m⟩ := by
  unfold pop
  cases heap.peek cmp with
  | none => simp
  | some m' =>
    simp only [Option.map_some, Option.some.injEq, Prod.mk.injEq]
    constructor
    · rintro ⟨rfl, rfl⟩
      exact ⟨rfl, rfl⟩
    · rintro ⟨rfl, rfl⟩
      exact ⟨rfl, rfl⟩

theorem mem_of_peek {cmp : α → α → Ordering} {heap : BinaryHeap α} {m : α}
    (h : heap.peek cmp = some m) : m ∈ heap.items :=
  maxBy_mem h

theorem pop_eq_none_iff [DecidableEq α] {cmp : α → α → Ordering} {heap : BinaryHeap α} :
    heap.pop cmp = none ↔ heap.items = [] := by
  simp [pop, peek, maxBy_eq_none_iff]

end BinaryHeap

end Comparator
