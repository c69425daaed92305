import IcyDb.Executor.OrderCompare
import IcyDb.Order.TopK

/-!
# Bounded top-k ordering windows

A query with `ORDER BY ... LIMIT k` keeps only the best `k` rows while it
scans.  `BoundedDirectOrderWindow` (rows compared through their borrowed
slots) and `BoundedCachedOrderWindow` (rows paired with their cached order
tuple) share one algorithm: append while fewer than `k` rows are kept,
caching the index of the greatest kept row; once full, replace that row by a
smaller candidate and rescan for the new greatest.  `BoundedOrderWindow`
chooses the direct strategy for an order of direct fields, and
`PendingOrderRows::apply_order` sorts what it kept.  `DataRowOrderWindow`
does the same over raw data rows, decoding each row's order tuple first.
Without a window, `apply_structural_order_window` selects the first `k`
with `slice::select_nth_unstable_by` and sorts them.

Every path returns the first `k` rows of the whole candidate sequence sorted
by the comparator it uses, whenever that comparator is a total order on the
candidates (`boundedOrderWindows_select_first_rows`).  The proof is the
invariant `BoundedWindow.Holds` (the window keeps the least `k` rows seen,
`Comparator.KeepsLeast`, and its cached index names the greatest), kept by
every push.

An out-of-range slice index panics; the model returns `none` there.  The
cached window indexes its rows even when its bound is `0`, so its first push
panics, where the direct window ignores every candidate; the scans never
build a window with bound `0`.  The backing-byte counters and the execution budget
they are charged against are not modelled: a push is a push the budget
admits.  `slice::select_nth_unstable_by` is a parameter that keeps its
documented promise (`Comparator.SelectsNth`).
-/

namespace IcyDb

namespace Executor

open Comparator

/-- The state of `BoundedDirectOrderWindow` and `BoundedCachedOrderWindow`:
the retained entries (a row, or a row with its cached order tuple), the cached
index of the greatest, and the bound. -/
structure BoundedWindow (α : Type) where
  rows : List α
  worstIndex : Option Nat
  keepCount : Nat

namespace BoundedWindow

variable {α : Type} (cmp : α → α → Ordering)

/-- `BoundedDirectOrderWindow::new`, `BoundedCachedOrderWindow::new`. -/
def new (keepCount : Nat) : BoundedWindow α := ⟨[], none, keepCount⟩

/-- One step of the scan for the greatest entry: an entry greater than the
greatest so far takes its place. -/
def worstStep (worst entry : α × Nat) : α × Nat :=
  if cmp entry.1 worst.1 = .gt then entry else worst

/-- The scan of `worst_direct_order_row_index` and
`worst_cached_order_row_index`: from index `1` on, the first index of a
greatest entry; `0` for no entries. -/
def worstOrderRowIndex : List α → Nat
  | [] => 0
  | first :: rest => ((rest.zipIdx 1).foldl (worstStep cmp) (first, 0)).2

/-- `update_worst_after_append`. -/
def updateWorstAfterAppend (w : BoundedWindow α) : Option (BoundedWindow α) :=
  let appendedIndex := w.rows.length - 1
  match w.worstIndex with
  | none => some { w with worstIndex := some appendedIndex }
  | some worstIndex =>
    match w.rows[appendedIndex]?, w.rows[worstIndex]? with
    | some appended, some worst =>
      if cmp appended worst = .gt then some { w with worstIndex := some appendedIndex } else some w
    | _, _ => none

/-- The push shared by `BoundedDirectOrderWindow::push` and
`BoundedCachedOrderWindow::push_cached`. -/
def pushRetained (w : BoundedWindow α) (candidate : α) : Option (BoundedWindow α) :=
  if w.rows.length < w.keepCount then
    updateWorstAfterAppend cmp { w with rows := w.rows ++ [candidate] }
  else
    let worstIndex := w.worstIndex.getD (worstOrderRowIndex cmp w.rows)
    match w.rows[worstIndex]? with
    | none => none
    | some worst =>
      if cmp candidate worst = .lt then
        let rows := w.rows.set worstIndex candidate
        some { w with rows := rows, worstIndex := some (worstOrderRowIndex cmp rows) }
      else some w

/-! ### The window invariant -/

variable {cmp}

/-- Index `i` of `rows` holds a greatest entry. -/
def IsWorst (cmp : α → α → Ordering) (rows : List α) (i : Nat) : Prop :=
  ∃ worst, rows[i]? = some worst ∧ ∀ a ∈ rows, cmp a worst ≠ .gt

/-- The cached index is absent only while the window is empty, and otherwise
names a greatest entry. -/
def WorstIndexValid (cmp : α → α → Ordering) (w : BoundedWindow α) : Prop :=
  match w.worstIndex with
  | none => w.rows = []
  | some i => IsWorst cmp w.rows i

/-- What a window keeps while it runs: its bound `k`, the least `k` of the
candidates seen, and a valid cached index. -/
structure Holds (cmp : α → α → Ordering) (k : Nat) (seen : List α) (w : BoundedWindow α) :
    Prop where
  keepCount_eq : w.keepCount = k
  keepsLeast : KeepsLeast cmp k seen w.rows
  worstIndex_valid : WorstIndexValid cmp w

theorem holds_new (k : Nat) : Holds cmp k [] (new k) := ⟨rfl, KeepsLeast.nil, rfl⟩

/-- The scan keeps, with its index, a greatest one of the entries it has
passed. -/
theorem foldl_worstStep {rows : List α} (hcmp : TotalOrderOn cmp (· ∈ rows)) :
    ∀ (entries : List (α × Nat)) (worst : α × Nat) (passed : List α),
    (∀ e ∈ entries, rows[e.2]? = some e.1) → rows[worst.2]? = some worst.1 →
    (∀ a ∈ passed, a ∈ rows ∧ cmp a worst.1 ≠ .gt) →
    rows[(entries.foldl (worstStep cmp) worst).2]? = some (entries.foldl (worstStep cmp) worst).1 ∧
      ∀ a ∈ passed ++ entries.map Prod.fst, cmp a (entries.foldl (worstStep cmp) worst).1 ≠ .gt
  | [], worst, passed, _, hworst, hpassed => by
    simp only [List.foldl_nil, List.map_nil, List.append_nil]
    exact ⟨hworst, fun a ha => (hpassed a ha).2⟩
  | entry :: entries, worst, passed, hentries, hworst, hpassed => by
    have hentry := hentries entry (List.mem_cons_self ..)
    have hentryMem : entry.1 ∈ rows := List.mem_of_getElem? hentry
    have hworstMem : worst.1 ∈ rows := List.mem_of_getElem? hworst
    have hnext : rows[(worstStep cmp worst entry).2]? = some (worstStep cmp worst entry).1 ∧
        ∀ a ∈ passed ++ [entry.1], a ∈ rows ∧ cmp a (worstStep cmp worst entry).1 ≠ .gt := by
      unfold worstStep
      by_cases hgt : cmp entry.1 worst.1 = .gt
      · -- the entry is the new greatest: everything passed is below it
        rw [if_pos hgt]
        refine ⟨hentry, fun a ha => ?_⟩
        rcases List.mem_append.mp ha with ha | ha
        · have hlt := hcmp.lt_of_ne_gt_of_lt (hpassed a ha).1 hworstMem hentryMem (hpassed a ha).2
            (hcmp.lt_of_gt hentryMem hworstMem hgt)
          exact ⟨(hpassed a ha).1, by rw [hlt]; decide⟩
        · rw [List.mem_singleton.mp ha]
          exact ⟨hentryMem, by rw [hcmp.refl _ hentryMem]; decide⟩
      · rw [if_neg hgt]
        refine ⟨hworst, fun a ha => ?_⟩
        rcases List.mem_append.mp ha with ha | ha
        · exact hpassed a ha
        · rw [List.mem_singleton.mp ha]
          exact ⟨hentryMem, hgt⟩
    have ih := foldl_worstStep hcmp entries (worstStep cmp worst entry) (passed ++ [entry.1])
      (fun e he => hentries e (List.mem_cons_of_mem _ he)) hnext.1 hnext.2
    simp only [List.foldl_cons, List.map_cons]
    rw [List.append_assoc, List.singleton_append] at ih
    exact ih

/-- The rescan names a greatest entry of a nonempty list. -/
theorem worstOrderRowIndex_isWorst {rows : List α} (hcmp : TotalOrderOn cmp (· ∈ rows))
    (hne : rows ≠ []) : IsWorst cmp rows (worstOrderRowIndex cmp rows) := by
  obtain ⟨first, rest, rfl⟩ := List.exists_cons_of_ne_nil hne
  have hentries : ∀ e ∈ rest.zipIdx 1, (first :: rest)[e.2]? = some e.1 := by
    rintro ⟨x, i⟩ he
    obtain ⟨hi, -, hx⟩ := List.mem_zipIdx he
    obtain ⟨j, rfl⟩ : ∃ j, i = j + 1 := ⟨i - 1, by omega⟩
    simp [hx]
  have hfirst : ∀ a ∈ [first], a ∈ first :: rest ∧ cmp a first ≠ .gt := by
    intro a ha
    rw [List.mem_singleton.mp ha]
    exact ⟨List.mem_cons_self .., by rw [hcmp.refl first (List.mem_cons_self ..)]; decide⟩
  have h := foldl_worstStep hcmp (rest.zipIdx 1) (first, 0) [first] hentries rfl hfirst
  rw [List.zipIdx_map_fst, List.singleton_append] at h
  exact ⟨_, h.1, h.2⟩

/-- After an append the cached index is updated to stay valid. -/
theorem updateWorstAfterAppend_valid {w : BoundedWindow α} {c : α}
    (hvalid : WorstIndexValid cmp w) (hcmp : TotalOrderOn cmp (· ∈ w.rows ++ [c])) :
    ∃ worstIndex, updateWorstAfterAppend cmp { w with rows := w.rows ++ [c] } =
        some { w with rows := w.rows ++ [c], worstIndex := worstIndex } ∧
      WorstIndexValid cmp { w with rows := w.rows ++ [c], worstIndex := worstIndex } := by
  have hcMem : c ∈ w.rows ++ [c] := List.mem_append_right _ (List.mem_singleton_self c)
  have happended : (w.rows ++ [c])[(w.rows ++ [c]).length - 1]? = some c := by simp
  unfold WorstIndexValid at hvalid
  unfold updateWorstAfterAppend
  cases hw : w.worstIndex with
  | none =>
    -- the first entry is the greatest
    rw [hw] at hvalid
    refine ⟨_, rfl, c, happended, fun a ha => ?_⟩
    rw [hvalid, List.nil_append, List.mem_singleton] at ha
    rw [ha, hcmp.refl c hcMem]
    decide
  | some i =>
    rw [hw] at hvalid
    obtain ⟨worst, hworst, hmax⟩ := hvalid
    have hworst' : (w.rows ++ [c])[i]? = some worst := by
      rw [List.getElem?_append_left (List.getElem?_eq_some_iff.mp hworst).1, hworst]
    have hworstMem : worst ∈ w.rows ++ [c] := List.mem_append_left _ (List.mem_of_getElem? hworst)
    simp only [happended, hworst']
    by_cases hgt : cmp c worst = .gt
    · rw [if_pos hgt]
      refine ⟨_, rfl, c, happended, fun a ha => ?_⟩
      rcases List.mem_append.mp ha with ha' | ha'
      · have hlt := hcmp.lt_of_ne_gt_of_lt (List.mem_append_left _ ha') hworstMem hcMem
          (hmax a ha') (hcmp.lt_of_gt hcMem hworstMem hgt)
        rw [hlt]
        decide
      · rw [List.mem_singleton.mp ha', hcmp.refl c hcMem]
        decide
    · rw [if_neg hgt]
      refine ⟨some i, rfl, worst, hworst', fun a ha => ?_⟩
      rcases List.mem_append.mp ha with ha' | ha'
      · exact hmax a ha'
      · rw [List.mem_singleton.mp ha']
        exact hgt

/-- One push keeps the invariant: the window then holds the least `k` of the
candidates seen so far and this one. -/
theorem pushRetained_holds {k : Nat} {seen : List α} {w : BoundedWindow α} {c : α}
    (h : Holds cmp k seen w) (hk : 0 < k) (hcmp : TotalOrderOn cmp (· ∈ seen ++ [c]))
    (hc : c ∉ seen) : ∃ w', pushRetained cmp w c = some w' ∧ Holds cmp k (seen ++ [c]) w' := by
  have hrowsS : ∀ x, x ∈ w.rows → x ∈ seen ++ [c] :=
    fun x hx => List.mem_append_left _ (h.keepsLeast.subset hx)
  unfold pushRetained
  by_cases hlen : w.rows.length < w.keepCount
  · -- not full: append, and update the cached index
    rw [if_pos hlen]
    have hlen' : w.rows.length < k := h.keepCount_eq ▸ hlen
    have hkeeps := h.keepsLeast.append_of_length_lt hlen' hc
    obtain ⟨worstIndex, hupdate, hvalid⟩ := updateWorstAfterAppend_valid h.worstIndex_valid
      (hcmp.mono fun x hx => hkeeps.subset hx)
    exact ⟨_, hupdate, h.keepCount_eq, hkeeps, hvalid⟩
  · -- full: a full window is not empty, so its cached index names its greatest
    rw [if_neg hlen]
    have hfull : ¬w.rows.length < k := h.keepCount_eq ▸ hlen
    have hne : w.rows ≠ [] := by
      intro hnil
      rw [hnil, List.length_nil] at hfull
      exact hfull hk
    have hvalid := h.worstIndex_valid
    unfold WorstIndexValid at hvalid
    cases hw : w.worstIndex with
    | none =>
      rw [hw] at hvalid
      exact absurd hvalid hne
    | some i =>
      rw [hw] at hvalid
      obtain ⟨worst, hworst, hmax⟩ := hvalid
      have hworstMem : worst ∈ w.rows := List.mem_of_getElem? hworst
      simp only [Option.getD_some, hworst]
      by_cases hlt : cmp c worst = .lt
      · -- the candidate replaces the greatest, and the index is rescanned
        rw [if_pos hlt]
        have hkeeps := h.keepsLeast.replace hcmp hc hworstMem hmax hfull hlt
          (h.keepsLeast.nodup.set fun hcw => hc (h.keepsLeast.subset hcw)) List.length_set
          (fun x => mem_set_iff_of_nodup h.keepsLeast.nodup hworst)
        have hne' : w.rows.set i c ≠ [] := by
          rw [← List.length_pos_iff, List.length_set, List.length_pos_iff]
          exact hne
        exact ⟨_, rfl, h.keepCount_eq, hkeeps,
          worstOrderRowIndex_isWorst (hcmp.mono fun x hx => hkeeps.subset hx) hne'⟩
      · rw [if_neg hlt]
        exact ⟨w, rfl, h.keepCount_eq, h.keepsLeast.keep hcmp hc hworstMem hmax hfull hlt,
          by unfold WorstIndexValid; rw [hw]; exact ⟨worst, hworst, hmax⟩⟩

/-- A run of pushes keeps the invariant over all the candidates it pushed. -/
theorem foldlM_pushRetained_holds {k : Nat} (hk : 0 < k) :
    ∀ (candidates : List α) {seen : List α} {w : BoundedWindow α}, Holds cmp k seen w →
    (seen ++ candidates).Nodup → TotalOrderOn cmp (· ∈ seen ++ candidates) →
    ∃ w', candidates.foldlM (pushRetained cmp) w = some w' ∧ Holds cmp k (seen ++ candidates) w'
  | [], seen, w, h, _, _ => ⟨w, rfl, by rw [List.append_nil]; exact h⟩
  | c :: rest, seen, w, h, hnodup, hcmp => by
    have hsplit : seen ++ c :: rest = seen ++ [c] ++ rest := by simp
    rw [hsplit] at hnodup hcmp ⊢
    have hc : c ∉ seen := fun hcs =>
      (List.nodup_append.mp (List.nodup_append.mp hnodup).1).2.2 c hcs c
        (List.mem_singleton_self c) rfl
    obtain ⟨w₁, hpush, h₁⟩ := pushRetained_holds h hk
      (hcmp.mono fun x hx => List.mem_append_left _ hx) hc
    obtain ⟨w₂, hrun, h₂⟩ := foldlM_pushRetained_holds hk rest h₁ hnodup hcmp
    exact ⟨w₂, by rw [List.foldlM_cons, hpush]; exact hrun, h₂⟩

end BoundedWindow

section Windows

variable {ρ ε : Type} [OrderReadableRow ρ] (fd : FloatDecimal)
  (eval : ε → (Nat → Option Value) → Option Value)

/-- The order of rows by their borrowed direct slots. -/
def directRowCompare (order : ResolvedOrder ε) (left right : ρ) : Ordering :=
  compareBorrowedDirectOrderableRows fd left right order

/-- The order of entries by their cached order tuples. -/
def cachedEntryCompare {β : Type} (order : ResolvedOrder ε)
    (left right : β × List (Option Value)) : Ordering :=
  compareCachedOrderableRows fd left.2 right.2 order

/-- `worst_direct_order_row_index`. -/
def worstDirectOrderRowIndex (rows : List ρ) (order : ResolvedOrder ε) : Nat :=
  BoundedWindow.worstOrderRowIndex (directRowCompare fd order) rows

/-- `worst_cached_order_row_index`. -/
def worstCachedOrderRowIndex {β : Type} (rows : List (β × List (Option Value)))
    (order : ResolvedOrder ε) : Nat :=
  BoundedWindow.worstOrderRowIndex (cachedEntryCompare fd order) rows

/-- `BoundedDirectOrderWindow::push`: a window with bound `0` ignores the
candidate. -/
def BoundedDirectOrderWindow.push (window : BoundedWindow ρ) (candidate : ρ)
    (order : ResolvedOrder ε) : Option (BoundedWindow ρ) :=
  if window.keepCount = 0 then some window
  else window.pushRetained (directRowCompare fd order) candidate

/-- `BoundedCachedOrderWindow::push_cached`. -/
def BoundedCachedOrderWindow.pushCached {β : Type}
    (window : BoundedWindow (β × List (Option Value)))
    (candidate : β) (cachedValues : List (Option Value)) (order : ResolvedOrder ε) :
    Option (BoundedWindow (β × List (Option Value))) :=
  window.pushRetained (cachedEntryCompare fd order) (candidate, cachedValues)

/-- `BoundedOrderCandidates`. -/
inductive BoundedOrderCandidates (ρ : Type)
  | direct (window : BoundedWindow ρ)
  | cached (window : BoundedWindow (ρ × List (Option Value)))

/-- `BoundedOrderWindow`. -/
structure BoundedOrderWindow (ρ ε : Type) where
  resolvedOrder : ResolvedOrder ε
  candidates : BoundedOrderCandidates ρ

/-- `BoundedOrderWindow::new`: the direct strategy for an order of direct
fields. -/
def BoundedOrderWindow.new (keepCount : Nat) (order : ResolvedOrder ε) : BoundedOrderWindow ρ ε :=
  ⟨order, if resolvedOrderUsesOnlyDirectFields order then .direct (.new keepCount)
    else .cached (.new keepCount)⟩

/-- `BoundedOrderWindow::push`. -/
def BoundedOrderWindow.push (w : BoundedOrderWindow ρ ε) (candidate : ρ) :
    Option (BoundedOrderWindow ρ ε) :=
  match w.candidates with
  | .direct window =>
    (BoundedDirectOrderWindow.push fd window candidate w.resolvedOrder).map
      fun window => { w with candidates := .direct window }
  | .cached window =>
    (BoundedCachedOrderWindow.pushCached fd window candidate
        (cacheOrderValuesFromRow eval candidate w.resolvedOrder) w.resolvedOrder).map
      fun window => { w with candidates := .cached window }

/-- The scan loop's pushes, one candidate after another. -/
def BoundedOrderWindow.pushAll (w : BoundedOrderWindow ρ ε) (candidates : List ρ) :
    Option (BoundedOrderWindow ρ ε) :=
  candidates.foldlM (fun w candidate => w.push fd eval candidate) w

/-- `PendingOrderRows`. -/
inductive PendingOrderRows (ρ ε : Type)
  | plain (rows : List ρ)
  | cached (resolvedOrder : ResolvedOrder ε) (rows : List (ρ × List (Option Value)))
      (keepCount : Nat)

/-- `BoundedOrderWindow::into_pending_rows`. -/
def BoundedOrderWindow.intoPendingRows (w : BoundedOrderWindow ρ ε) : PendingOrderRows ρ ε :=
  match w.candidates with
  | .direct window => .plain window.rows
  | .cached window => .cached w.resolvedOrder window.rows window.keepCount

/-- `can_use_borrowed_direct_order_path`: an order of direct fields over rows
whose first row has borrowed slots. -/
def canUseBorrowedDirectOrderPath (rows : List ρ) (order : ResolvedOrder ε) : Bool :=
  resolvedOrderUsesOnlyDirectFields order &&
    (rows.head?.map OrderReadableRow.orderSlotsAreBorrowed).getD false

/-- The two phases of both paths of `apply_structural_order_window_inner`:
with a bound below the row count, `select_nth_unstable_by(keep_count - 1)`
and `truncate(keep_count)`; then `sort_by`. -/
def selectThenSort (select : ∀ {β : Type}, (β → β → Ordering) → Nat → List β → List β)
    {β : Type} (cmp : β → β → Ordering) (rows : List β) (keepCount : Option Nat) : List β :=
  let rows := match keepCount with
    | some keepCount =>
      if rows.length > keepCount then (select cmp (keepCount - 1) rows).take keepCount
      else rows
    | none => rows
  sortBy cmp rows

/-- `apply_borrowed_direct_order_window`. -/
def applyBorrowedDirectOrderWindow
    (select : ∀ {β : Type}, (β → β → Ordering) → Nat → List β → List β) (rows : List ρ)
    (order : ResolvedOrder ε) (keepCount : Option Nat) : List ρ :=
  selectThenSort select (directRowCompare fd order) rows keepCount

/-- `apply_structural_order_window_inner`: the borrowed path, or the cached
tuples computed once per row. -/
def applyStructuralOrderWindowInner
    (select : ∀ {β : Type}, (β → β → Ordering) → Nat → List β → List β) (rows : List ρ)
    (order : ResolvedOrder ε) (keepCount : Option Nat) : List ρ :=
  if canUseBorrowedDirectOrderPath rows order then
    applyBorrowedDirectOrderWindow fd select rows order keepCount
  else
    let cachedRows := rows.map fun row => (row, cacheOrderValuesFromRow eval row order)
    (selectThenSort select (cachedEntryCompare fd order) cachedRows keepCount).map Prod.fst

/-- `apply_structural_order_window`, for a sort the execution budget admits. -/
def applyStructuralOrderWindow
    (select : ∀ {β : Type}, (β → β → Ordering) → Nat → List β → List β) (rows : List ρ)
    (order : ResolvedOrder ε) (keepCount : Option Nat) : List ρ :=
  if keepCount = some 0 then []
  else if rows.length ≤ 1 then rows
  else applyStructuralOrderWindowInner fd eval select rows order keepCount

/-- `PendingOrderRows::apply_order`: cached rows must come from the same
order and bound. -/
def PendingOrderRows.applyOrder [DecidableEq ε]
    (select : ∀ {β : Type}, (β → β → Ordering) → Nat → List β → List β)
    (pending : PendingOrderRows ρ ε) (order : ResolvedOrder ε) (keepCount : Option Nat) :
    Except InternalError (List ρ) :=
  match pending with
  | .plain rows => .ok (applyStructuralOrderWindow fd eval select rows order keepCount)
  | .cached cachedOrder rows cachedKeepCount =>
    if cachedOrder ≠ order ∨ keepCount ≠ some cachedKeepCount ∨ rows.length > cachedKeepCount then
      .error .queryExecutorInvariant
    else
      let rows := if rows.length > 1 then sortBy (cachedEntryCompare fd order) rows else rows
      .ok (rows.map Prod.fst)

/-- `DataRowOrderCandidates`, over the type `δ` of raw data rows. -/
inductive DataRowOrderCandidates (δ : Type)
  | bounded (window : BoundedWindow (δ × List (Option Value)))
  | complete (rows : List (δ × List (Option Value)))

/-- `DataRowOrderWindow`; its row layout is the decoder its pushes are given. -/
structure DataRowOrderWindow (δ ε : Type) where
  resolvedOrder : ResolvedOrder ε
  candidates : DataRowOrderCandidates δ

/-- `DataRowOrderWindow::new`. -/
def DataRowOrderWindow.new {δ : Type} (order : ResolvedOrder ε) (keepCount : Option Nat) :
    DataRowOrderWindow δ ε :=
  ⟨order, match keepCount with
    | none => .complete []
    | some keepCount => .bounded (.new keepCount)⟩

/-- `DataRowOrderWindow::push`: `decode` is `cache_order_values_from_data_row`
under the window's row layout and order. -/
def DataRowOrderWindow.push {δ : Type} (decode : δ → Except InternalError (List (Option Value)))
    (w : DataRowOrderWindow δ ε) (candidate : δ) :
    Except InternalError (Option (DataRowOrderWindow δ ε)) := do
  let cachedValues ← decode candidate
  match w.candidates with
  | .bounded window =>
    pure ((BoundedCachedOrderWindow.pushCached fd window candidate cachedValues w.resolvedOrder).map
      fun window => { w with candidates := .bounded window })
  | .complete rows =>
    pure (some { w with candidates := .complete (rows ++ [(candidate, cachedValues)]) })

/-- The scan loop's pushes, stopping at the first error or panic. -/
def DataRowOrderWindow.pushAll {δ : Type}
    (decode : δ → Except InternalError (List (Option Value))) :
    DataRowOrderWindow δ ε → List δ → Except InternalError (Option (DataRowOrderWindow δ ε))
  | w, [] => .ok (some w)
  | w, candidate :: rest => do
    match ← w.push fd decode candidate with
    | none => pure none
    | some w => DataRowOrderWindow.pushAll decode w rest

/-- `DataRowOrderWindow::into_sorted_rows`, for a sort the execution budget
admits. -/
def DataRowOrderWindow.intoSortedRows {δ : Type} (w : DataRowOrderWindow δ ε) : List δ :=
  let rows := match w.candidates with
    | .bounded window => window.rows
    | .complete rows => rows
  let rows := if rows.length > 1 then sortBy (cachedEntryCompare fd w.resolvedOrder) rows else rows
  rows.map Prod.fst

/-- The order of rows by order tuples computed from them. -/
def tupleCompare {δ : Type} (values : δ → List (Option Value)) (order : ResolvedOrder ε)
    (left right : δ) : Ordering :=
  compareCachedOrderableRows fd (values left) (values right) order

/-- The order of rows by their cached order tuples. -/
def cachedRowCompare (order : ResolvedOrder ε) : ρ → ρ → Ordering :=
  tupleCompare fd (fun row => cacheOrderValuesFromRow eval row order) order

/-- The comparator `BoundedOrderWindow` keeps and sorts by: the borrowed one
for an order of direct fields, the cached tuples' otherwise. -/
def boundedWindowCompare (order : ResolvedOrder ε) : ρ → ρ → Ordering :=
  if resolvedOrderUsesOnlyDirectFields order then directRowCompare fd order
  else cachedRowCompare fd eval order

/-- The comparator `apply_structural_order_window` sorts given rows by. -/
def structuralOrderCompare (rows : List ρ) (order : ResolvedOrder ε) : ρ → ρ → Ordering :=
  if canUseBorrowedDirectOrderPath rows order then directRowCompare fd order
  else cachedRowCompare fd eval order

end Windows

/-! ### The paths run the window -/

section Runs

variable {ρ ε : Type} [OrderReadableRow ρ] (fd : FloatDecimal)
  (eval : ε → (Nat → Option Value) → Option Value)

open BoundedWindow

theorem BoundedWindow.updateWorstAfterAppend_keepCount {α : Type} {cmp : α → α → Ordering}
    {w w' : BoundedWindow α} (h : updateWorstAfterAppend cmp w = some w') :
    w'.keepCount = w.keepCount := by
  unfold updateWorstAfterAppend at h
  dsimp only at h
  split at h
  · cases h
    rfl
  · split at h
    · split at h <;> cases h <;> rfl
    · cases h

theorem BoundedWindow.pushRetained_keepCount {α : Type} {cmp : α → α → Ordering}
    {w w' : BoundedWindow α} {c : α} (h : pushRetained cmp w c = some w') :
    w'.keepCount = w.keepCount := by
  unfold pushRetained at h
  dsimp only at h
  split at h
  · exact updateWorstAfterAppend_keepCount (w := { w with rows := w.rows ++ [c] }) h
  · split at h
    · cases h
    · split at h <;> cases h <;> rfl

/-- With a nonzero bound, the direct strategy's pushes are the window's. -/
theorem BoundedOrderWindow.pushAll_direct (order : ResolvedOrder ε) :
    ∀ (candidates : List ρ) (window : BoundedWindow ρ), window.keepCount ≠ 0 →
    (⟨order, .direct window⟩ : BoundedOrderWindow ρ ε).pushAll fd eval candidates =
      (candidates.foldlM (pushRetained (directRowCompare fd order)) window).map
        fun window => ⟨order, .direct window⟩
  | [], _, _ => rfl
  | c :: rest, window, hk => by
    have hpush : BoundedDirectOrderWindow.push fd window c order =
        pushRetained (directRowCompare fd order) window c := if_neg hk
    unfold pushAll at *
    rw [List.foldlM_cons, List.foldlM_cons]
    simp only [BoundedOrderWindow.push, hpush]
    cases hstep : pushRetained (directRowCompare fd order) window c with
    | none => rfl
    | some window' =>
      exact pushAll_direct order rest window' (pushRetained_keepCount hstep ▸ hk)

/-- The cached strategy's pushes are the window's over rows paired with their
cached tuples. -/
theorem BoundedOrderWindow.pushAll_cached (order : ResolvedOrder ε) :
    ∀ (candidates : List ρ) (window : BoundedWindow (ρ × List (Option Value))),
    (⟨order, .cached window⟩ : BoundedOrderWindow ρ ε).pushAll fd eval candidates =
      ((candidates.map fun row => (row, cacheOrderValuesFromRow eval row order)).foldlM
        (pushRetained (cachedEntryCompare fd order)) window).map
        fun window => ⟨order, .cached window⟩
  | [], _ => rfl
  | c :: rest, window => by
    unfold pushAll at *
    rw [List.map_cons, List.foldlM_cons, List.foldlM_cons]
    simp only [BoundedOrderWindow.push, BoundedCachedOrderWindow.pushCached]
    cases pushRetained (cachedEntryCompare fd order) window
        (c, cacheOrderValuesFromRow eval c order) with
    | none => rfl
    | some window' => exact pushAll_cached order rest window'

/-- Where every candidate decodes, the bounded data-row window's pushes are
the window's over rows paired with their decoded tuples. -/
theorem DataRowOrderWindow.pushAll_bounded {δ : Type}
    {decode : δ → Except InternalError (List (Option Value))} {values : δ → List (Option Value)}
    (order : ResolvedOrder ε) :
    ∀ (candidates : List δ), (∀ c ∈ candidates, decode c = .ok (values c)) →
    ∀ (window : BoundedWindow (δ × List (Option Value))),
    (⟨order, .bounded window⟩ : DataRowOrderWindow δ ε).pushAll fd decode candidates =
      .ok (((candidates.map fun row => (row, values row)).foldlM
        (pushRetained (cachedEntryCompare fd order)) window).map
        fun window => ⟨order, .bounded window⟩)
  | [], _, _ => rfl
  | c :: rest, hdecode, window => by
    have hc := hdecode c (List.mem_cons_self ..)
    simp only [pushAll, push, hc, Except.ok_bind, List.map_cons, List.foldlM_cons,
      BoundedCachedOrderWindow.pushCached]
    cases pushRetained (cachedEntryCompare fd order) window (c, values c) with
    | none => rfl
    | some window' =>
      exact pushAll_bounded order rest (fun c' hc' => hdecode c' (List.mem_cons_of_mem _ hc'))
        window'

end Runs

/-! ### Every path returns the first `k` rows -/

section FirstRows

variable {ρ ε : Type} [OrderReadableRow ρ] (fd : FloatDecimal)
  (eval : ε → (Nat → Option Value) → Option Value)

open BoundedWindow

/-- Pairing rows with their tuples carries the order of the tuples over. -/
theorem totalOrderOn_pairs {δ : Type} {values : δ → List (Option Value)}
    {order : ResolvedOrder ε} {candidates : List δ}
    (hcmp : TotalOrderOn (tupleCompare fd values order) (· ∈ candidates)) :
    TotalOrderOn (cachedEntryCompare fd order) (· ∈ candidates.map fun c => (c, values c)) :=
  hcmp.map_list _ fun _ _ _ _ => rfl

theorem nodup_pairs {δ β : Type} {values : δ → β} {candidates : List δ}
    (hnodup : candidates.Nodup) : (candidates.map fun c => (c, values c)).Nodup :=
  hnodup.map fun _ _ hab => congrArg Prod.fst hab

/-- Sorting the pairs by their tuples and unpairing them sorts the rows by
their tuples. -/
theorem sortBy_pairs_take {δ : Type} (values : δ → List (Option Value))
    (order : ResolvedOrder ε) (candidates : List δ) (k : Nat) :
    ((sortBy (cachedEntryCompare fd order) (candidates.map fun c => (c, values c))).take k).map
        Prod.fst = (sortBy (tupleCompare fd values order) candidates).take k := by
  rw [sortBy_map _ fun _ _ _ _ => rfl, ← List.map_take, List.map_map]
  exact List.map_id _

/-- Selecting and sorting returns the first `k` of the sorted rows. -/
theorem selectThenSort_eq_take
    {select : ∀ {β : Type}, (β → β → Ordering) → Nat → List β → List β} {β : Type}
    (hselect : SelectsNth (@select β)) {cmp : β → β → Ordering} {rows : List β}
    (hcmp : TotalOrderOn cmp (· ∈ rows)) (hnodup : rows.Nodup) {k : Nat} (hk : 0 < k) :
    selectThenSort select cmp rows (some k) = (sortBy cmp rows).take k := by
  dsimp only [selectThenSort]
  by_cases hlen : rows.length > k
  · rw [if_pos hlen]
    exact (keepsLeast_take_of_selectsNth hselect hcmp hnodup hk hlen.le).sortBy_eq_take hcmp hnodup
  · rw [if_neg hlen, List.take_of_length_le (by rw [(sortBy_perm rows).length_eq]; omega)]

/-- A window holding the least `k` rows paired with their tuples, sorted and
unpaired, is the first `k` rows sorted by their tuples. -/
theorem sortedUnpaired_eq_take {δ : Type} (values : δ → List (Option Value))
    (order : ResolvedOrder ε) {k : Nat} {candidates : List δ}
    {window : BoundedWindow (δ × List (Option Value))}
    (h : Holds (cachedEntryCompare fd order) k (candidates.map fun c => (c, values c)) window)
    (hnodup : candidates.Nodup)
    (hcmp : TotalOrderOn (tupleCompare fd values order) (· ∈ candidates)) :
    (if window.rows.length > 1 then sortBy (cachedEntryCompare fd order) window.rows
      else window.rows).map Prod.fst =
      (sortBy (tupleCompare fd values order) candidates).take k := by
  have hsorted : sortBy (cachedEntryCompare fd order) window.rows =
      (sortBy (cachedEntryCompare fd order) (candidates.map fun c => (c, values c))).take k :=
    h.keepsLeast.sortBy_eq_take (totalOrderOn_pairs fd hcmp) (nodup_pairs hnodup)
  have hrows : (if window.rows.length > 1 then sortBy (cachedEntryCompare fd order) window.rows
      else window.rows) = sortBy (cachedEntryCompare fd order) window.rows := by
    split
    · rfl
    · exact (sortBy_of_length_le_one (by omega)).symm
  rw [hrows, hsorted, sortBy_pairs_take]

/-- The direct strategy's kept rows, all borrowed, are sorted by the borrowed
comparator. -/
theorem applyStructuralOrderWindow_direct_of_length_le
    (select : ∀ {β : Type}, (β → β → Ordering) → Nat → List β → List β) {order : ResolvedOrder ε}
    (hdirect : resolvedOrderUsesOnlyDirectFields order = true) {rows : List ρ}
    (hborrowed : ∀ row ∈ rows, OrderReadableRow.orderSlotsAreBorrowed row = true) {k : Nat}
    (hk : 0 < k) (hlen : rows.length ≤ k) :
    applyStructuralOrderWindow fd eval select rows order (some k) =
      sortBy (directRowCompare fd order) rows := by
  unfold applyStructuralOrderWindow
  rw [if_neg (by simp; omega)]
  split
  · exact (sortBy_of_length_le_one (by omega)).symm
  · -- at least two rows, the first of them borrowed
    obtain ⟨first, rest, rfl⟩ :=
      List.exists_cons_of_ne_nil (List.ne_nil_of_length_pos (show 0 < rows.length by omega))
    have hpath : canUseBorrowedDirectOrderPath (first :: rest) order = true := by
      simp [canUseBorrowedDirectOrderPath, hdirect, hborrowed first (List.mem_cons_self ..)]
    rw [applyStructuralOrderWindowInner, if_pos hpath, applyBorrowedDirectOrderWindow,
      selectThenSort]
    simp only [gt_iff_lt, Nat.not_lt.mpr hlen, if_false]

/-- The direct strategy keeps the least `k` borrowed rows, which
`apply_order` sorts by the borrowed comparator. -/
theorem BoundedOrderWindow.applyOrder_direct_eq_take [DecidableEq ε]
    (select : ∀ {β : Type}, (β → β → Ordering) → Nat → List β → List β) {order : ResolvedOrder ε}
    (hdirect : resolvedOrderUsesOnlyDirectFields order = true) {k : Nat} (hk : 0 < k)
    {candidates : List ρ} (hnodup : candidates.Nodup)
    (hborrowed : ∀ row ∈ candidates, OrderReadableRow.orderSlotsAreBorrowed row = true)
    (hcmp : TotalOrderOn (directRowCompare fd order) (· ∈ candidates)) :
    ∃ w, (BoundedOrderWindow.new k order).pushAll fd eval candidates = some w ∧
      w.intoPendingRows.applyOrder fd eval select order (some k) =
        .ok ((sortBy (directRowCompare fd order) candidates).take k) := by
  obtain ⟨window, hrun, h⟩ := foldlM_pushRetained_holds hk candidates (holds_new k)
    (by rw [List.nil_append]; exact hnodup) (by rw [List.nil_append]; exact hcmp)
  rw [List.nil_append] at h
  refine ⟨⟨order, .direct window⟩, ?_, ?_⟩
  · rw [BoundedOrderWindow.new, if_pos hdirect,
      BoundedOrderWindow.pushAll_direct fd eval order candidates _
        (by simp [BoundedWindow.new]; omega), hrun]
    rfl
  · have hlen : window.rows.length ≤ k := by rw [h.keepsLeast.length_eq]; omega
    simp only [BoundedOrderWindow.intoPendingRows, PendingOrderRows.applyOrder]
    rw [applyStructuralOrderWindow_direct_of_length_le fd eval select hdirect
      (fun row hrow => hborrowed row (h.keepsLeast.subset hrow)) hk hlen,
      h.keepsLeast.sortBy_eq_take hcmp hnodup]

/-- The cached strategy keeps the least `k` rows paired with their tuples,
which `apply_order` sorts by the tuples. -/
theorem BoundedOrderWindow.applyOrder_cached_eq_take [DecidableEq ε]
    (select : ∀ {β : Type}, (β → β → Ordering) → Nat → List β → List β) {order : ResolvedOrder ε}
    (hdirect : ¬resolvedOrderUsesOnlyDirectFields order = true) {k : Nat} (hk : 0 < k)
    {candidates : List ρ} (hnodup : candidates.Nodup)
    (hcmp : TotalOrderOn (cachedRowCompare fd eval order) (· ∈ candidates)) :
    ∃ w, (BoundedOrderWindow.new k order).pushAll fd eval candidates = some w ∧
      w.intoPendingRows.applyOrder fd eval select order (some k) =
        .ok ((sortBy (cachedRowCompare fd eval order) candidates).take k) := by
  obtain ⟨window, hrun, h⟩ := foldlM_pushRetained_holds hk
    (candidates.map fun row => (row, cacheOrderValuesFromRow eval row order)) (holds_new k)
    (by rw [List.nil_append]; exact nodup_pairs hnodup)
    (by rw [List.nil_append]; exact totalOrderOn_pairs fd hcmp)
  rw [List.nil_append] at h
  refine ⟨⟨order, .cached window⟩, ?_, ?_⟩
  · rw [BoundedOrderWindow.new, if_neg hdirect, BoundedOrderWindow.pushAll_cached, hrun]
    rfl
  · -- the kept rows match the order and bound they are sorted for
    have hkept : ¬(order ≠ order ∨ some k ≠ some k ∨ window.rows.length > k) := by
      simp only [ne_eq, not_true_eq_false, false_or, h.keepsLeast.length_eq]
      omega
    simp only [BoundedOrderWindow.intoPendingRows, PendingOrderRows.applyOrder, h.keepCount_eq]
    rw [if_neg hkept]
    exact congrArg Except.ok (sortedUnpaired_eq_take fd _ order h hnodup hcmp)

/-- The scan windows, either strategy, then `apply_order`. -/
theorem BoundedOrderWindow.applyOrder_eq_take [DecidableEq ε]
    (select : ∀ {β : Type}, (β → β → Ordering) → Nat → List β → List β) (order : ResolvedOrder ε)
    {k : Nat} (hk : 0 < k) {candidates : List ρ} (hnodup : candidates.Nodup)
    (hborrowed : ∀ row ∈ candidates, OrderReadableRow.orderSlotsAreBorrowed row = true)
    (hcmp : TotalOrderOn (boundedWindowCompare fd eval order) (· ∈ candidates)) :
    ∃ w, (BoundedOrderWindow.new k order).pushAll fd eval candidates = some w ∧
      w.intoPendingRows.applyOrder fd eval select order (some k) =
        .ok ((sortBy (boundedWindowCompare fd eval order) candidates).take k) := by
  by_cases hdirect : resolvedOrderUsesOnlyDirectFields order = true
  · rw [boundedWindowCompare, if_pos hdirect] at hcmp ⊢
    exact applyOrder_direct_eq_take fd eval select hdirect hk hnodup hborrowed hcmp
  · rw [boundedWindowCompare, if_neg hdirect] at hcmp ⊢
    exact applyOrder_cached_eq_take fd eval select hdirect hk hnodup hcmp

/-- The raw data-row window with bound `k`, then `into_sorted_rows`. -/
theorem DataRowOrderWindow.intoSortedRows_eq_take {δ : Type} (order : ResolvedOrder ε) {k : Nat}
    (hk : 0 < k) {decode : δ → Except InternalError (List (Option Value))}
    {values : δ → List (Option Value)} {candidates : List δ}
    (hdecode : ∀ c ∈ candidates, decode c = .ok (values c)) (hnodup : candidates.Nodup)
    (hcmp : TotalOrderOn (tupleCompare fd values order) (· ∈ candidates)) :
    ∃ w, (DataRowOrderWindow.new order (some k)).pushAll fd decode candidates = .ok (some w) ∧
      w.intoSortedRows fd = (sortBy (tupleCompare fd values order) candidates).take k := by
  obtain ⟨window, hrun, h⟩ := foldlM_pushRetained_holds hk
    (candidates.map fun c => (c, values c)) (holds_new k)
    (by rw [List.nil_append]; exact nodup_pairs hnodup)
    (by rw [List.nil_append]; exact totalOrderOn_pairs fd hcmp)
  rw [List.nil_append] at h
  refine ⟨⟨order, .bounded window⟩, ?_, sortedUnpaired_eq_take fd values order h hnodup hcmp⟩
  rw [DataRowOrderWindow.new, DataRowOrderWindow.pushAll_bounded fd order candidates hdecode, hrun]
  rfl

/-- `apply_structural_order_window` with bound `k`, on either path. -/
theorem applyStructuralOrderWindow_eq_take
    (select : ∀ {β : Type}, (β → β → Ordering) → Nat → List β → List β)
    (hselect : ∀ β, SelectsNth (@select β)) (order : ResolvedOrder ε) {k : Nat} (hk : 0 < k)
    {rows : List ρ} (hnodup : rows.Nodup)
    (hcmp : TotalOrderOn (structuralOrderCompare fd eval rows order) (· ∈ rows)) :
    applyStructuralOrderWindow fd eval select rows order (some k) =
      (sortBy (structuralOrderCompare fd eval rows order) rows).take k := by
  unfold applyStructuralOrderWindow
  rw [if_neg (by simp; omega)]
  by_cases hshort : rows.length ≤ 1
  · rw [if_pos hshort, List.take_of_length_le (by rw [(sortBy_perm rows).length_eq]; omega),
      sortBy_of_length_le_one hshort]
  rw [if_neg hshort]
  unfold applyStructuralOrderWindowInner
  by_cases hpath : canUseBorrowedDirectOrderPath rows order = true
  · rw [structuralOrderCompare, if_pos hpath] at hcmp ⊢
    rw [if_pos hpath, applyBorrowedDirectOrderWindow]
    exact selectThenSort_eq_take (hselect ρ) hcmp hnodup hk
  · -- the cached path sorts the rows paired with their tuples
    rw [structuralOrderCompare, if_neg hpath] at hcmp ⊢
    rw [if_neg hpath]
    dsimp only
    rw [selectThenSort_eq_take (hselect _) (totalOrderOn_pairs fd hcmp) (nodup_pairs hnodup) hk]
    exact sortBy_pairs_take fd _ order rows k

/-- Bounded top-k windows return the first `k` rows of the full sort, on every
path: the scan windows (`BoundedOrderWindow` with either strategy, then
`PendingOrderRows::apply_order`, over rows whose slots are borrowed, as the
scans check before each push), the raw data-row window
(`DataRowOrderWindow` with bound `k`, then `into_sorted_rows`, over rows that
decode), and `apply_structural_order_window` with bound `k`.  Each path's
comparator must be a total order on its candidates, which have no repeats. -/
theorem boundedOrderWindows_select_first_rows [DecidableEq ε]
    (select : ∀ {β : Type}, (β → β → Ordering) → Nat → List β → List β)
    (hselect : ∀ β, SelectsNth (@select β)) (order : ResolvedOrder ε) {k : Nat} (hk : 0 < k) :
    (∀ candidates : List ρ, candidates.Nodup →
      (∀ row ∈ candidates, OrderReadableRow.orderSlotsAreBorrowed row = true) →
      TotalOrderOn (boundedWindowCompare fd eval order) (· ∈ candidates) →
      ∃ w, (BoundedOrderWindow.new k order).pushAll fd eval candidates = some w ∧
        w.intoPendingRows.applyOrder fd eval select order (some k) =
          .ok ((sortBy (boundedWindowCompare fd eval order) candidates).take k)) ∧
    (∀ {δ : Type} (decode : δ → Except InternalError (List (Option Value)))
      (values : δ → List (Option Value)) (candidates : List δ),
      (∀ c ∈ candidates, decode c = .ok (values c)) → candidates.Nodup →
      TotalOrderOn (tupleCompare fd values order) (· ∈ candidates) →
      ∃ w, (DataRowOrderWindow.new order (some k)).pushAll fd decode candidates = .ok (some w) ∧
        w.intoSortedRows fd = (sortBy (tupleCompare fd values order) candidates).take k) ∧
    (∀ rows : List ρ, rows.Nodup →
      TotalOrderOn (structuralOrderCompare fd eval rows order) (· ∈ rows) →
      applyStructuralOrderWindow fd eval select rows order (some k) =
        (sortBy (structuralOrderCompare fd eval rows order) rows).take k) := by
  refine ⟨?_, ?_, ?_⟩
  · intro candidates hnodup hborrowed hcmp
    exact BoundedOrderWindow.applyOrder_eq_take fd eval select order hk hnodup hborrowed hcmp
  · intro δ decode values candidates hdecode hnodup hcmp
    exact DataRowOrderWindow.intoSortedRows_eq_take fd order hk hdecode hnodup hcmp
  · intro rows hnodup hcmp
    exact applyStructuralOrderWindow_eq_take fd eval select hselect order hk hnodup hcmp

end FirstRows

/-- A row scoring `0` and one scoring `5`, the keys `1` and `2`. -/
def lowScoreRow : RetainedSlotRow := ⟨scoreSlotLayout, [some (.int64 0), some (.nat64 1)]⟩

def highScoreRow : RetainedSlotRow := ⟨scoreSlotLayout, [some (.int64 5), some (.nat64 2)]⟩

theorem lowScoreRow_selected_first :
    (∀ β : Type, SelectsNth (α := β) fun cmp _ l => sortBy cmp l) ∧ 0 < 1 ∧
      applyStructuralOrderWindow Value.rejectAllFloats Empty.elim (fun cmp _ l => sortBy cmp l)
        [lowScoreRow, highScoreRow] scoreThenIdOrder (some 1) = [lowScoreRow] := by
  have hcmp : TotalOrderOn (structuralOrderCompare Value.rejectAllFloats Empty.elim
      [lowScoreRow, highScoreRow] scoreThenIdOrder) (· ∈ [lowScoreRow, highScoreRow]) :=
    TotalOrderOn.pair rfl rfl (by decide) (by decide)
  have hnodup : [lowScoreRow, highScoreRow].Nodup :=
    nodup_pair_of_lt (hcmp.refl _ (List.mem_cons_self ..)) (by decide)
  refine ⟨fun _ => sortBy_selectsNth, Nat.one_pos, ?_⟩
  rw [(boundedOrderWindows_select_first_rows Value.rejectAllFloats Empty.elim
    (fun cmp _ l => sortBy cmp l) (fun _ => sortBy_selectsNth) scoreThenIdOrder Nat.one_pos).2.2
      _ hnodup hcmp,
    sortBy_pair (by decide)]
  rfl

end Executor

end IcyDb
