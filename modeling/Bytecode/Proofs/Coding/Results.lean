import Mathlib.Data.List.Forall2

/-!
# Results of computations

What is known of the parts of a computation that has succeeded as a whole: of one behind another, and
of one for every element of a list. What a computation does not fail with if its parts do not.

`Agree` compares two computations: they fail in the same way, or both succeed with related results.
-/

namespace Bytecode

/-- A computation behind another succeeds if both do. -/
theorem ok_of_bind {ε α β : Type} {x : Except ε α} {f : α → Except ε β} {b : β}
    (h : x >>= f = .ok b) : ∃ a, x = .ok a ∧ f a = .ok b := by
  cases x with
  | error cause => cases h
  | ok a => exact ⟨a, rfl, h⟩

theorem ok_of_map {ε α β : Type} {f : α → β} {x : Except ε α} {b : β} (h : f <$> x = .ok b) :
    ∃ a, x = .ok a ∧ f a = b := by
  cases x with
  | error cause => cases h
  | ok a =>
    cases h
    exact ⟨a, rfl, rfl⟩

/-- Another name for the cause of a failure does not matter to success. -/
theorem ok_of_mapError {ε ε' α : Type} {f : ε → ε'} {x : Except ε α} {a : α}
    (h : x.mapError f = .ok a) : x = .ok a := by
  cases x with
  | error cause => cases h
  | ok b =>
    cases h
    rfl

theorem ok_ne_error {ε α : Type} (a : α) (e : ε) : (.ok a : Except ε α) ≠ .error e := by
  intro same
  cases same

/-- A sequence does not fail in one way if its steps do not. -/
theorem bind_ne_error {ε α β : Type} {x : Except ε α} {f : α → Except ε β} {e : ε}
    (hx : x ≠ .error e) (hf : ∀ a, f a ≠ .error e) : x >>= f ≠ .error e := by
  cases x with
  | error e' =>
    intro same
    cases same
    exact hx rfl
  | ok a => exact hf a

theorem foldlM_ne_error {ε α σ : Type} {step : σ → α → Except ε σ} {e : ε}
    (h : ∀ s a, step s a ≠ .error e) (xs : List α) (s : σ) : xs.foldlM step s ≠ .error e := by
  induction xs generalizing s with
  | nil => exact ok_ne_error s e
  | cons a xs ih =>
    rw [List.foldlM_cons]
    exact bind_ne_error (h s a) ih

theorem mapError_ne_error {ε ε' α : Type} {f : ε → ε'} {x : Except ε α} {e : ε'}
    (h : ∀ cause, f cause ≠ e) : x.mapError f ≠ .error e := by
  cases x with
  | error cause => exact fun same => h cause (Except.error.inj same)
  | ok a => exact ok_ne_error a e

/-- The results of a computation that succeeds on every element. -/
theorem mapM_eq_ok {ε α β : Type} {f : α → Except ε β} {xs : List α} {ys : List β} :
    xs.mapM f = .ok ys ↔ List.Forall₂ (fun x y => f x = .ok y) xs ys := by
  induction xs generalizing ys with
  | nil =>
    rw [List.mapM_nil, List.forall₂_nil_left_iff]
    exact ⟨fun h => (Except.ok.inj h).symm, fun h => h ▸ rfl⟩
  | cons x xs ih =>
    rw [List.mapM_cons]
    constructor
    · intro all
      obtain ⟨y, first, all⟩ := ok_of_bind all
      obtain ⟨ys', rest, all⟩ := ok_of_bind all
      cases all
      exact .cons first (ih.mp rest)
    · rintro (_ | ⟨first, rest⟩)
      rw [first, ih.mpr rest]
      rfl

/-- A computation that succeeds on every element succeeds on all. -/
theorem exists_mapM_ok {ε α β : Type} {f : α → Except ε β} (xs : List α)
    (each : ∀ x ∈ xs, ∃ y, f x = .ok y) : ∃ ys, xs.mapM f = .ok ys := by
  induction xs with
  | nil => exact ⟨[], rfl⟩
  | cons x xs ih =>
    obtain ⟨y, first⟩ := each x List.mem_cons_self
    obtain ⟨ys, rest⟩ := ih fun x member => each x (List.mem_cons_of_mem _ member)
    refine ⟨y :: ys, ?_⟩
    rw [List.mapM_cons, first, rest]
    rfl

theorem mapM_ne_error {ε α β : Type} {f : α → Except ε β} {e : ε} (h : ∀ a, f a ≠ .error e)
    (xs : List α) : xs.mapM f ≠ .error e := by
  induction xs with
  | nil => exact ok_ne_error [] e
  | cons a xs ih =>
    rw [List.mapM_cons]
    exact bind_ne_error (h a) fun _ => bind_ne_error ih fun _ => ok_ne_error _ e

/-! ## Results that may be left out -/

/-- The results that are not left out. -/
theorem mem_of_filterMapM {ε α β : Type} {f : α → Except ε (Option β)} {xs : List α} {ys : List β}
    (ran : xs.filterMapM f = .ok ys) {y : β} : y ∈ ys ↔ ∃ x ∈ xs, f x = .ok (some y) := by
  induction xs generalizing ys with
  | nil =>
    cases ran
    simp
  | cons x xs ih =>
    rw [List.filterMapM_cons] at ran
    obtain ⟨kept, first, ran⟩ := ok_of_bind ran
    simp only [List.mem_cons, exists_eq_or_imp, first, Except.ok.injEq]
    cases kept with
    | none => rw [ih ran]; simp
    | some y' =>
      obtain ⟨ys', rest, ran⟩ := ok_of_bind ran
      cases ran
      rw [List.mem_cons, ih rest, Option.some.injEq, eq_comm]

theorem exists_filterMapM_ok {ε α β : Type} {f : α → Except ε (Option β)} (xs : List α)
    (each : ∀ x ∈ xs, ∃ y, f x = .ok y) : ∃ ys, xs.filterMapM f = .ok ys := by
  induction xs with
  | nil => exact ⟨[], rfl⟩
  | cons x xs ih =>
    obtain ⟨y, first⟩ := each x List.mem_cons_self
    obtain ⟨ys, rest⟩ := ih fun x member => each x (List.mem_cons_of_mem _ member)
    rw [List.filterMapM_cons, first, rest]
    cases y with
    | none => exact ⟨ys, rfl⟩
    | some y => exact ⟨y :: ys, rfl⟩

theorem filterMapM_ne_error {ε α β : Type} {f : α → Except ε (Option β)} {e : ε}
    (h : ∀ a, f a ≠ .error e) (xs : List α) : xs.filterMapM f ≠ .error e := by
  induction xs with
  | nil => exact ok_ne_error [] e
  | cons a xs ih =>
    rw [List.filterMapM_cons]
    refine bind_ne_error (h a) fun kept => ?_
    cases kept with
    | none => exact ih
    | some y => exact bind_ne_error ih fun _ => ok_ne_error _ e

/-- The results of a computation that has one for every element. -/
theorem mapM_eq_some {α β : Type} {f : α → Option β} {xs : List α} {ys : List β} :
    xs.mapM f = some ys ↔ List.Forall₂ (fun x y => f x = some y) xs ys := by
  induction xs generalizing ys with
  | nil =>
    rw [List.mapM_nil, List.forall₂_nil_left_iff]
    exact ⟨fun h => (Option.some.inj h).symm, fun h => h ▸ rfl⟩
  | cons x xs ih =>
    rw [List.mapM_cons]
    constructor
    · intro all
      obtain ⟨y, first, all⟩ := Option.bind_eq_some_iff.mp all
      obtain ⟨ys', rest, all⟩ := Option.bind_eq_some_iff.mp all
      cases all
      exact .cons first (ih.mp rest)
    · rintro (_ | ⟨first, rest⟩)
      rw [first, ih.mpr rest]
      rfl

/-- Every result comes from an element. -/
theorem exists_of_mem_results {α β : Type} {R : α → β → Prop} {xs : List α} {ys : List β}
    (h : List.Forall₂ R xs ys) {y : β} (member : y ∈ ys) : ∃ x ∈ xs, R x y := by
  obtain ⟨i, inside, rfl⟩ := List.mem_iff_getElem.mp member
  exact ⟨_, List.getElem_mem _, h.get (h.length_eq ▸ inside) inside⟩

/-- Every element has a result. -/
theorem exists_of_mem_elements {α β : Type} {R : α → β → Prop} {xs : List α} {ys : List β}
    (h : List.Forall₂ R xs ys) {x : α} (member : x ∈ xs) : ∃ y ∈ ys, R x y :=
  exists_of_mem_results h.flip member

/-! ## Two computations -/

/-- Two results agree: they are the same failure, or values that are related. -/
inductive Agree {ε α β : Type} (q : α → β → Prop) : Except ε α → Except ε β → Prop
  | error (e : ε) : Agree q (.error e) (.error e)
  | ok {a : α} {b : β} (related : q a b) : Agree q (.ok a) (.ok b)

namespace Agree

variable {ε α β α' β' : Type} {q : α → β → Prop} {r : α' → β' → Prop} {x : Except ε α} {y : Except ε β}

theorem mono {q' : α → β → Prop} (h : Agree q x y) (weaker : ∀ a b, q a b → q' a b) :
    Agree q' x y := by
  cases h with
  | error e => exact .error e
  | ok related => exact .ok (weaker _ _ related)

/-- Sequences agree if their steps do. -/
theorem bind {f : α → Except ε α'} {g : β → Except ε β'} (h : Agree q x y)
    (next : ∀ a b, q a b → Agree r (f a) (g b)) : Agree r (x >>= f) (y >>= g) := by
  cases h with
  | error e => exact .error e
  | ok related => exact next _ _ related

theorem mapError {ε' : Type} (f : ε → ε') (h : Agree q x y) :
    Agree q (x.mapError f) (y.mapError f) := by
  cases h with
  | error e => exact .error (f e)
  | ok related => exact .ok related

/-- Folds agree if their steps do. -/
theorem foldlM {σ σ' : Type} {s : σ} {s' : σ'} {state : σ → σ' → Prop} {step : σ → α → Except ε σ}
    {step' : σ' → β → Except ε σ'} {xs : List α} {ys : List β} (elements : List.Forall₂ q xs ys)
    (steps : ∀ s s' a b, state s s' → q a b → Agree state (step s a) (step' s' b))
    (start : state s s') : Agree state (xs.foldlM step s) (ys.foldlM step' s') := by
  induction elements generalizing s s' with
  | nil => exact .ok start
  | cons first _ ih =>
    rw [List.foldlM_cons, List.foldlM_cons]
    exact (steps _ _ _ _ start first).bind fun _ _ reached => ih reached

end Agree

end Bytecode
