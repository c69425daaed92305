import IcyDb.Control.Except
import Mathlib.Data.List.Chain

/-!
# Pull streams

A pull stream is a state and a step that yields the next item or reports the
end.  A yielded item lowers a measure of the state and the end never raises
it, so draining a stream, stepping it until it ends, terminates; the drained
list is what the stream yields.  A combinator over other streams is a pull
stream whose state holds theirs, and what it yields is stated through what
they drain to: `drain_eq_ok_cons_iff` takes one item off a drained stream
without looking at how it is produced.
-/

namespace Pull

/-- A pull stream over states `σ` yielding `κ`s, failing with `ε`. -/
structure PullStream (σ ε κ : Type) where
  next : σ → Except ε (Option κ × σ)
  measure : σ → Nat
  measure_lt_of_some : ∀ {s k s'}, next s = .ok (some k, s') → measure s' < measure s
  measure_le_of_none : ∀ {s s'}, next s = .ok (none, s') → measure s' ≤ measure s

namespace PullStream

variable {σ ε κ : Type}

set_option linter.unusedVariables false in
/-- Step the stream until it ends, collecting what it yields. -/
def drain (P : PullStream σ ε κ) (s : σ) : Except ε (List κ) :=
  match h : P.next s with
  | .error e => .error e
  | .ok (none, _) => .ok []
  | .ok (some k, s') => (drain P s').map (k :: ·)
termination_by P.measure s
decreasing_by exact P.measure_lt_of_some h

variable {P : PullStream σ ε κ}

theorem drain_of_next_error {s : σ} {e : ε} (h : P.next s = .error e) : P.drain s = .error e := by
  rw [drain]
  split <;> simp_all

theorem drain_of_next_none {s s' : σ} (h : P.next s = .ok (none, s')) : P.drain s = .ok [] := by
  rw [drain]
  split <;> simp_all

theorem drain_of_next_some {s s' : σ} {k : κ} (h : P.next s = .ok (some k, s')) :
    P.drain s = (P.drain s').map (k :: ·) := by
  rw [drain]
  split <;> simp_all

/-- States from which the stream steps alike drain alike. -/
theorem drain_eq_of_next_eq {s t : σ} (h : P.next s = P.next t) : P.drain s = P.drain t := by
  rw [drain, drain]
  split <;> split <;> simp_all

/-- A drained stream that yields `k` first stepped to `k` and drains to the
rest from there. -/
theorem drain_eq_ok_cons_iff {s : σ} {k : κ} {ks : List κ} :
    P.drain s = .ok (k :: ks) ↔ ∃ s', P.next s = .ok (some k, s') ∧ P.drain s' = .ok ks := by
  constructor
  · intro h
    rcases hnext : P.next s with e | ⟨_ | k', s'⟩
    · rw [drain_of_next_error hnext] at h
      cases h
    · rw [drain_of_next_none hnext] at h
      cases h
    · rw [drain_of_next_some hnext, Except.map_eq_ok_iff] at h
      obtain ⟨rest, hrest, hcons⟩ := h
      obtain ⟨rfl, rfl⟩ := List.cons.inj hcons
      exact ⟨s', rfl, hrest⟩
  · rintro ⟨s', hnext, hrest⟩
    rw [drain_of_next_some hnext, hrest]
    rfl

theorem drain_eq_ok_nil_iff {s : σ} : P.drain s = .ok [] ↔ ∃ s', P.next s = .ok (none, s') := by
  constructor
  · intro h
    rcases hnext : P.next s with e | ⟨_ | k', s'⟩
    · rw [drain_of_next_error hnext] at h
      cases h
    · exact ⟨s', rfl⟩
    · rw [drain_of_next_some hnext, Except.map_eq_ok_iff] at h
      obtain ⟨_, -, hcons⟩ := h
      cases hcons
  · rintro ⟨s', hnext⟩
    exact drain_of_next_none hnext

/-- The stream of a list. -/
def ofList : PullStream (List κ) ε κ where
  next
    | [] => .ok (none, [])
    | k :: ks => .ok (some k, ks)
  measure := List.length
  measure_lt_of_some {s k s'} h := by
    cases s with
    | nil => cases h
    | cons x xs =>
      cases h
      simp
  measure_le_of_none {s s'} h := by
    cases s with
    | nil =>
      cases h
      simp
    | cons x xs => cases h

theorem drain_ofList : ∀ xs : List κ, (ofList : PullStream (List κ) ε κ).drain xs = .ok xs
  | [] => drain_of_next_none rfl
  | _ :: ks => drain_eq_ok_cons_iff.mpr ⟨ks, rfl, drain_ofList ks⟩

/-! ### Runs of calls -/

/-- A run of calls: from `s` the stream gives `ks` and is left at `s'`.  A call
that reports the end is part of a run, since a caller may call again. -/
inductive Run (P : PullStream σ ε κ) : σ → List κ → σ → Prop
  | nil (s : σ) : Run P s [] s
  | stop {s s' s'' : σ} {ks : List κ} : P.next s = .ok (none, s') → Run P s' ks s'' → Run P s ks s''
  | yield {s s' s'' : σ} {k : κ} {ks : List κ} :
      P.next s = .ok (some k, s') → Run P s' ks s'' → Run P s (k :: ks) s''

/-- The invariant rule for runs.  `I last s` is an invariant of the state
indexed by the item given last; when every call keeps it and every item given
stands in `R` to the one before, every run gives an `R`-chain. -/
theorem Run.isChain {I : Option κ → σ → Prop} {R : κ → κ → Prop}
    (hstop : ∀ {last s s'}, I last s → P.next s = .ok (none, s') → I last s')
    (hyield : ∀ {last s k s'}, I last s → P.next s = .ok (some k, s') →
      (∀ x, last = some x → R x k) ∧ I (some k) s')
    {s s' : σ} {ks : List κ} (h : P.Run s ks s') :
    ∀ {last}, I last s → (last.toList ++ ks).IsChain R := by
  induction h with
  | nil s =>
    intro last _
    cases last <;> simp
  | stop hnext _ ih => exact fun hinv => ih (hstop hinv hnext)
  | yield hnext _ ih =>
    intro last hinv
    obtain ⟨hR, hinv'⟩ := hyield hinv hnext
    have hchain := ih hinv'
    cases last with
    | none => exact hchain
    | some x => exact List.IsChain.cons_cons (hR x rfl) hchain

end PullStream

/-! ### Streams given by the body of their loop -/

/-- What one pass of a `next` loop does: return the end, return an item, or
go round again. -/
inductive Step (σ κ : Type)
  | stop (s : σ)
  | yield (k : κ) (s : σ)
  | skip (s : σ)

/-- A stream whose `next` is `loop { body }`: each pass that goes round again
or yields lowers the measure, and one that stops does not raise it. -/
structure LoopStream (σ ε κ : Type) where
  body : σ → Except ε (Step σ κ)
  measure : σ → Nat
  skip_lt : ∀ {s s'}, body s = .ok (.skip s') → measure s' < measure s
  yield_lt : ∀ {s k s'}, body s = .ok (.yield k s') → measure s' < measure s
  stop_le : ∀ {s s'}, body s = .ok (.stop s') → measure s' ≤ measure s

namespace LoopStream

variable {σ ε κ : Type}

set_option linter.unusedVariables false in
/-- The loop: run the body until it returns. -/
def next (L : LoopStream σ ε κ) (s : σ) : Except ε (Option κ × σ) :=
  match h : L.body s with
  | .error e => .error e
  | .ok (.stop s') => .ok (none, s')
  | .ok (.yield k s') => .ok (some k, s')
  | .ok (.skip s') => next L s'
termination_by L.measure s
decreasing_by exact L.skip_lt h

variable {L : LoopStream σ ε κ}

theorem next_of_skip {s s' : σ} (h : L.body s = .ok (.skip s')) : L.next s = L.next s' := by
  rw [next]
  split <;> simp_all

theorem next_of_yield {s s' : σ} {k : κ} (h : L.body s = .ok (.yield k s')) :
    L.next s = .ok (some k, s') := by
  rw [next]
  split <;> simp_all

theorem next_of_stop {s s' : σ} (h : L.body s = .ok (.stop s')) : L.next s = .ok (none, s') := by
  rw [next]
  split <;> simp_all

theorem next_of_error {s : σ} {e : ε} (h : L.body s = .error e) : L.next s = .error e := by
  rw [next]
  split <;> simp_all

/-- The measure never grows across a call, and drops when it yields. -/
theorem next_measure {s s' : σ} {o : Option κ} (h : L.next s = .ok (o, s')) :
    L.measure s' + o.toList.length ≤ L.measure s := by
  induction s using next.induct L with
  | case1 s e hbody => rw [next_of_error hbody] at h; cases h
  | case2 s s₁ hbody =>
    rw [next_of_stop hbody] at h
    cases h
    simpa using L.stop_le hbody
  | case3 s k s₁ hbody =>
    rw [next_of_yield hbody] at h
    cases h
    have := L.yield_lt hbody
    simp only [Option.toList_some, List.length_singleton]
    omega
  | case4 s s₁ hbody ih =>
    rw [next_of_skip hbody] at h
    exact Nat.le_trans (ih h) (Nat.le_of_lt (L.skip_lt hbody))

/-- The loop as a pull stream. -/
def stream (L : LoopStream σ ε κ) : PullStream σ ε κ where
  next := L.next
  measure := L.measure
  measure_lt_of_some h := Nat.lt_of_succ_le (by simpa using next_measure h)
  measure_le_of_none h := by simpa using next_measure h

/-! What the stream yields follows the body pass by pass. -/

theorem drain_of_skip {s s' : σ} (h : L.body s = .ok (.skip s')) :
    L.stream.drain s = L.stream.drain s' := by
  rcases hnext : L.next s' with e | ⟨_ | k, s''⟩
  · rw [PullStream.drain_of_next_error (P := L.stream) hnext,
      PullStream.drain_of_next_error (P := L.stream) ((next_of_skip h).trans hnext)]
  · rw [PullStream.drain_of_next_none (P := L.stream) hnext,
      PullStream.drain_of_next_none (P := L.stream) ((next_of_skip h).trans hnext)]
  · rw [PullStream.drain_of_next_some (P := L.stream) hnext,
      PullStream.drain_of_next_some (P := L.stream) ((next_of_skip h).trans hnext)]

theorem drain_of_yield {s s' : σ} {k : κ} (h : L.body s = .ok (.yield k s')) :
    L.stream.drain s = (L.stream.drain s').map (k :: ·) :=
  PullStream.drain_of_next_some (P := L.stream) (next_of_yield h)

theorem drain_of_stop {s s' : σ} (h : L.body s = .ok (.stop s')) : L.stream.drain s = .ok [] :=
  PullStream.drain_of_next_none (P := L.stream) (next_of_stop h)

theorem drain_of_error {s : σ} {e : ε} (h : L.body s = .error e) :
    L.stream.drain s = .error e :=
  PullStream.drain_of_next_error (P := L.stream) (next_of_error h)

/-- Induction over the passes of the loop: a property of a state follows from
the same property of the state that a pass going round again or yielding
leads to. -/
theorem body_induction {motive : σ → Prop}
    (error : ∀ {s e}, L.body s = .error e → motive s)
    (stop : ∀ {s s'}, L.body s = .ok (.stop s') → motive s)
    (yield : ∀ {s k s'}, L.body s = .ok (.yield k s') → motive s' → motive s)
    (skip : ∀ {s s'}, L.body s = .ok (.skip s') → motive s' → motive s) (s : σ) : motive s := by
  rcases h : L.body s with e | ⟨s'⟩ | ⟨k, s'⟩ | ⟨s'⟩
  · exact error h
  · exact stop h
  · exact yield h (body_induction error stop yield skip s')
  · exact skip h (body_induction error stop yield skip s')
termination_by L.measure s
decreasing_by
  · exact L.yield_lt h
  · exact L.skip_lt h

/-- The invariant rule of `Run.isChain` for a loop, pass by pass: passes that
stop or go round again keep the invariant, and a pass that yields keeps it at
the item it yields, which stands in `R` to the one before. -/
theorem run_isChain {I : Option κ → σ → Prop} {R : κ → κ → Prop}
    (hstop : ∀ {last s s'}, I last s → L.body s = .ok (.stop s') → I last s')
    (hskip : ∀ {last s s'}, I last s → L.body s = .ok (.skip s') → I last s')
    (hyield : ∀ {last s k s'}, I last s → L.body s = .ok (.yield k s') →
      (∀ x, last = some x → R x k) ∧ I (some k) s')
    {s s' : σ} {ks : List κ} (h : L.stream.Run s ks s') {last : Option κ} (hinv : I last s) :
    (last.toList ++ ks).IsChain R := by
  -- what one call keeps, by induction over the passes it makes
  have hnext : ∀ s {last o s'}, I last s → L.next s = .ok (o, s') →
      (o = none → I last s') ∧ ∀ k, o = some k → (∀ x, last = some x → R x k) ∧ I (some k) s' := by
    intro s
    induction s using body_induction with
    | error hbody => intro _ _ _ _ h; rw [next_of_error hbody] at h; cases h
    | stop hbody =>
      intro _ _ _ hinv h
      rw [next_of_stop hbody] at h
      cases h
      exact ⟨fun _ => hstop hinv hbody, fun _ h => by cases h⟩
    | yield hbody _ =>
      intro _ _ _ hinv h
      rw [next_of_yield hbody] at h
      cases h
      refine ⟨fun h => (by cases h), fun _ h => ?_⟩
      cases h
      exact hyield hinv hbody
    | skip hbody ih =>
      intro _ _ _ hinv h
      rw [next_of_skip hbody] at h
      exact ih (hskip hinv hbody) h
  exact @PullStream.Run.isChain _ _ _ L.stream I R (fun hinv h => (hnext _ hinv h).1 rfl)
    (fun hinv h => (hnext _ hinv h).2 _ rfl) _ _ _ h _ hinv

end LoopStream

end Pull
