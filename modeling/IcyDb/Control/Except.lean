import Mathlib.Order.Basic

/-!
# Inversion rules for `Except`

A decoder written in the `Except` monad succeeds only when each step it binds
succeeds.  These rules peel a successful run apart one bind at a time, so that
proofs about a decoder never unfold the monad.
-/

namespace Except

variable {ε α β γ : Type}

@[simp] theorem ok_bind (a : α) (f : α → Except ε β) : (Except.ok a >>= f) = f a := rfl

@[simp] theorem error_bind (e : ε) (f : α → Except ε β) : (Except.error e >>= f) = .error e := rfl

@[simp] theorem bind_eq_ok_iff {x : Except ε α} {f : α → Except ε β} {b : β} :
    x >>= f = .ok b ↔ ∃ a, x = .ok a ∧ f a = .ok b := by
  cases x <;> simp [bind, Except.bind]

@[simp] theorem bind'_eq_ok_iff {x : Except ε α} {f : α → Except ε β} {b : β} :
    x.bind f = .ok b ↔ ∃ a, x = .ok a ∧ f a = .ok b := by
  cases x <;> simp [Except.bind]

@[simp] theorem map_eq_ok_iff {x : Except ε α} {f : α → β} {b : β} :
    x.map f = .ok b ↔ ∃ a, x = .ok a ∧ f a = b := by
  cases x <;> simp [Except.map]

@[simp] theorem pure_eq_ok_iff {a b : α} : (pure a : Except ε α) = .ok b ↔ a = b := by
  simp [pure, Except.pure]

@[simp] theorem ok_eq_pure_iff {a b : α} : (.ok b : Except ε α) = pure a ↔ b = a := by
  simp [pure, Except.pure]

/-- `map_err` keeps a success and relabels a failure. -/
@[simp] theorem mapError_ok {ε' : Type} (f : ε → ε') (a : α) :
    (Except.ok a : Except ε α).mapError f = .ok a := rfl

@[simp] theorem mapError_error {ε' : Type} (f : ε → ε') (e : ε) :
    (Except.error e : Except ε α).mapError f = .error (f e) := rfl

/-- A loop of checks succeeds exactly when every check does. -/
theorem forM_eq_ok_iff {xs : List α} {g : α → Except ε PUnit} :
    xs.forM g = .ok () ↔ ∀ x ∈ xs, g x = .ok () := by
  induction xs with
  | nil => simp [List.forM, pure, Except.pure]
  | cons x xs ih =>
    change (g x >>= fun _ => xs.forM g) = _ ↔ _
    rw [bind_eq_ok_iff]
    simp only [ih, List.mem_cons, forall_eq_or_imp]
    constructor
    · rintro ⟨⟨⟩, hx, hs⟩
      exact ⟨hx, hs⟩
    · rintro ⟨hx, hs⟩
      exact ⟨_, hx, hs⟩

/-- A traversal whose every step succeeds returns the mapped list. -/
theorem mapM_eq_ok_of_forall {f : α → Except ε β} {g : α → β} :
    ∀ {xs : List α}, (∀ x ∈ xs, f x = .ok (g x)) → xs.mapM f = .ok (xs.map g)
  | [], _ => rfl
  | x :: xs, h => by
    have hx := h x List.mem_cons_self
    have hxs := mapM_eq_ok_of_forall fun y hy => h y (List.mem_cons_of_mem x hy)
    simp only [List.mapM_cons, hx, hxs, List.map_cons]
    rfl

@[simp] theorem mapM_nil_eq_ok_iff {f : α → Except ε β} {ys : List β} :
    ([] : List α).mapM f = .ok ys ↔ ys = [] := by
  simp [pure, Except.pure, eq_comm]

/-- A traversal of `x :: xs` succeeds when the step at `x` and the traversal of
`xs` both do. -/
theorem mapM_cons_eq_ok_iff {f : α → Except ε β} {x : α} {xs : List α} {ys : List β} :
    (x :: xs).mapM f = .ok ys ↔ ∃ y zs, f x = .ok y ∧ xs.mapM f = .ok zs ∧ ys = y :: zs := by
  simp only [List.mapM_cons]
  cases hx : f x with
  | error e => simp [bind, Except.bind]
  | ok y =>
    cases hxs : xs.mapM f with
    | error e => simp [bind, Except.bind]
    | ok zs => simp [bind, Except.bind, pure, Except.pure, eq_comm]

/-- A traversal that succeeds returns one result per input. -/
theorem length_of_mapM_eq_ok {f : α → Except ε β} :
    ∀ {xs : List α} {ys : List β}, xs.mapM f = .ok ys → ys.length = xs.length
  | [], ys, h => by rw [mapM_nil_eq_ok_iff.mp h]; rfl
  | x :: xs, ys, h => by
    obtain ⟨y, zs, -, hxs, rfl⟩ := mapM_cons_eq_ok_iff.mp h
    rw [List.length_cons, List.length_cons, length_of_mapM_eq_ok hxs]

/-- A loop whose every iteration runs one fallible step and then updates its
state purely is the traversal of the steps followed by a pure fold. -/
theorem foldlM_eq_map_mapM {f : α → Except ε β} {g : γ → α → β → γ} :
    ∀ (xs : List α) (init : γ),
      xs.foldlM (fun acc x => f x >>= fun y => pure (g acc x y)) init =
        (fun ys => (xs.zip ys).foldl (fun acc xy => g acc xy.1 xy.2) init) <$> xs.mapM f
  | [], init => rfl
  | x :: xs, init => by
    cases hx : f x with
    | error e => simp [hx, bind, Except.bind, Functor.map, Except.map]
    | ok y =>
      simp only [List.foldlM_cons, List.mapM_cons, hx, foldlM_eq_map_mapM xs]
      cases xs.mapM f <;> rfl

/-- Every result of a successful traversal is the result of one input. -/
theorem exists_of_mem_mapM {f : α → Except ε β} :
    ∀ {xs : List α} {ys : List β}, xs.mapM f = .ok ys → ∀ {y}, y ∈ ys → ∃ x ∈ xs, f x = .ok y
  | [], ys, h, y, hy => by simp [mapM_nil_eq_ok_iff.mp h] at hy
  | x :: xs, ys, h, y, hy => by
    obtain ⟨z, zs, hx, hxs, rfl⟩ := mapM_cons_eq_ok_iff.mp h
    rcases List.mem_cons.mp hy with rfl | hy
    · exact ⟨x, List.mem_cons_self, hx⟩
    · obtain ⟨x', hx', hfx'⟩ := exists_of_mem_mapM hxs hy
      exact ⟨x', List.mem_cons_of_mem x hx', hfx'⟩

/-- A traversal by a step that renders distinct inputs distinctly keeps the
inputs apart. -/
theorem nodup_of_mapM_eq_ok {f : α → Except ε β}
    (hinj : ∀ {a b : α} {y : β}, f a = .ok y → f b = .ok y → a = b) :
    ∀ {xs : List α} {ys : List β}, xs.Nodup → xs.mapM f = .ok ys → ys.Nodup
  | [], ys, _, h => by simp [mapM_nil_eq_ok_iff.mp h]
  | x :: xs, ys, hnd, h => by
    obtain ⟨y, zs, hx, hxs, rfl⟩ := mapM_cons_eq_ok_iff.mp h
    obtain ⟨hnotin, hnd⟩ := List.nodup_cons.mp hnd
    refine List.nodup_cons.mpr ⟨fun hy => ?_, nodup_of_mapM_eq_ok hinj hnd hxs⟩
    -- a second copy of `y` comes from a second input, which is `x`
    obtain ⟨x', hx', hfx'⟩ := exists_of_mem_mapM hxs hy
    exact hnotin (hinj hfx' hx ▸ hx')

/-! ### Guards and optional values -/

/-- The early return `if condition { return Err(err) }`. -/
def failIf (condition : Prop) [Decidable condition] (err : ε) : Except ε Unit :=
  if condition then .error err else .ok ()

@[simp] theorem failIf_of_not {condition : Prop} [Decidable condition] {err : ε}
    (h : ¬ condition) : failIf condition err = .ok () := by
  simp [failIf, h]

@[simp] theorem failIf_of_pos {condition : Prop} [Decidable condition] {err : ε}
    (h : condition) : failIf condition err = .error err := by
  simp [failIf, h]

theorem failIf_eq_ok_iff {condition : Prop} [Decidable condition] {err : ε} {u : Unit} :
    failIf condition err = .ok u ↔ ¬ condition := by
  by_cases h : condition <;> simp [h]

/-- `option.ok_or_else(|| err)`. -/
def okOrElse : Option α → ε → Except ε α
  | some a, _ => .ok a
  | none, err => .error err

@[simp] theorem okOrElse_some (a : α) (err : ε) : okOrElse (some a) err = .ok a := rfl

@[simp] theorem okOrElse_none (err : ε) : okOrElse (none : Option α) err = .error err := rfl

@[simp] theorem okOrElse_eq_ok_iff {option : Option α} {err : ε} {a : α} :
    okOrElse option err = .ok a ↔ option = some a := by
  cases option <;> simp [okOrElse]

end Except
