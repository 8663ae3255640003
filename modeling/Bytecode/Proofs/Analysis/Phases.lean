import Bytecode.Analysis.Frame

/-!
# Phases of an analysis

What later modules say about the store of an analysis has one shape. The store goes through phases;
a later phase knows more than an earlier one; and in each phase some values are good, which stay good
later on. `Phases` collects this, and two instances follow: one in which a phase is the list of all
values made so far, and one in which it is the contents of the buffers.

`Phases.Ensures` and `Phases.StepEnsures` say of a computation that it leads to a later phase and what
it returns there. They are closed under sequencing, so that rules about the transfer functions and
about frames follow the shape of the definitions.
-/

namespace Bytecode.Analysis

/-! ## Simulations that succeed -/

namespace Step

variable {α β : Type} {s s' : Store}

/-- A sequence that succeeds consists of steps that do. -/
theorem bind_eq_ok {x : Step α} {next : α → Step β} {b : β} (h : (x >>= next) s = .ok (b, s')) :
    ∃ a s₁, x s = .ok (a, s₁) ∧ next a s₁ = .ok (b, s') := by
  have unfolded : (x s >>= fun p => next p.1 p.2) = .ok (b, s') := h
  cases first : x s with
  | error e =>
    rw [first] at unfolded
    cases unfolded
  | ok p =>
    rw [first] at unfolded
    exact ⟨p.1, p.2, rfl, unfolded⟩

theorem lift_eq_ok {x : StoreM α} {a : α} (h : Step.lift x s = .ok (a, s')) : x s = (a, s') :=
  Except.ok.inj h

theorem liftExcept_eq_ok {x : Except FlowError α} {a : α}
    (h : (liftM x : Step α) s = .ok (a, s')) : x = .ok a ∧ s' = s := by
  cases x with
  | error e => cases h
  | ok b =>
    cases h
    exact ⟨rfl, rfl⟩

end Step

/-! ## Phases -/

/-- The phases that a store goes through, and the values that are good in a phase. -/
structure Phases (ω : Type) where
  of : ω → Store → Prop
  later : ω → ω → Prop
  good : ω → Value → Prop
  refl (w : ω) : later w w
  trans {u v w : ω} : later u v → later v w → later u w
  mono {w w' : ω} {v : Value} : good w v → later w w' → good w' v

namespace Phases

variable {ω α β : Type} {P : Phases ω} {w : ω}

/-- A computation on the store leads to a later phase, and its result is as told. -/
def Ensures (P : Phases ω) (w : ω) (x : StoreM α) (result : ω → α → Prop) : Prop :=
  ∀ s, P.of w s → ∃ w', P.later w w' ∧ P.of w' (x s).2 ∧ result w' (x s).1

/-- A simulation that succeeds leads to a later phase, and its result is as told. -/
def StepEnsures (P : Phases ω) (w : ω) (x : Step α) (result : ω → α → Prop) : Prop :=
  ∀ s, P.of w s → ∀ a s', x s = .ok (a, s') → ∃ w', P.later w w' ∧ P.of w' s' ∧ result w' a

theorem Ensures.pure {a : α} {result : ω → α → Prop} (h : result w a) :
    P.Ensures w (Pure.pure a) result :=
  fun _ phase => ⟨w, P.refl w, phase, h⟩

theorem Ensures.bind {x : StoreM α} {f : α → StoreM β} {q : ω → α → Prop}
    {result : ω → β → Prop} (hx : P.Ensures w x q)
    (hf : ∀ w' a, P.later w w' → q w' a → P.Ensures w' (f a) result) :
    P.Ensures w (x >>= f) result := by
  intro s phase
  obtain ⟨w', later, phase', holds⟩ := hx s phase
  obtain ⟨w'', later', phase'', holds'⟩ := hf w' _ later holds _ phase'
  exact ⟨w'', P.trans later later', phase'', holds'⟩

theorem Ensures.mono {x : StoreM α} {result result' : ω → α → Prop} (h : P.Ensures w x result)
    (weaker : ∀ w' a, P.later w w' → result w' a → result' w' a) : P.Ensures w x result' := by
  intro s phase
  obtain ⟨w', later, phase', holds⟩ := h s phase
  exact ⟨w', later, phase', weaker _ _ later holds⟩

theorem Ensures.map {x : StoreM α} {f : α → β} {q : ω → α → Prop} {result : ω → β → Prop}
    (h : P.Ensures w x q) (weaker : ∀ w' a, P.later w w' → q w' a → result w' (f a)) :
    P.Ensures w (f <$> x) result := by
  intro s phase
  obtain ⟨w', later, phase', holds⟩ := h s phase
  exact ⟨w', later, phase', weaker _ _ later holds⟩

/-- A computation that does not leave the phase. -/
theorem Ensures.of_phase {x : StoreM α} {result : ω → α → Prop}
    (same : ∀ s, P.of w s → P.of w (x s).2) (holds : ∀ s, result w (x s).1) :
    P.Ensures w x result :=
  fun s phase => ⟨w, P.refl w, same s phase, holds s⟩

theorem StepEnsures.pure {a : α} {result : ω → α → Prop} (h : result w a) :
    P.StepEnsures w (Pure.pure a) result := by
  rintro s phase a' s' ⟨⟩
  exact ⟨w, P.refl w, phase, h⟩

theorem StepEnsures.error {e : FlowError} {result : ω → α → Prop} :
    P.StepEnsures w (throw e) result := by
  rintro s phase a' s' ⟨⟩

theorem StepEnsures.bind {x : Step α} {f : α → Step β} {q : ω → α → Prop}
    {result : ω → β → Prop} (hx : P.StepEnsures w x q)
    (hf : ∀ w' a, P.later w w' → q w' a → P.StepEnsures w' (f a) result) :
    P.StepEnsures w (x >>= f) result := by
  intro s phase b s'' h
  obtain ⟨a, s₁, first, next⟩ := Step.bind_eq_ok h
  obtain ⟨w', later, phase', holds⟩ := hx s phase a s₁ first
  obtain ⟨w'', later', phase'', holds'⟩ := hf w' a later holds s₁ phase' b s'' next
  exact ⟨w'', P.trans later later', phase'', holds'⟩

theorem StepEnsures.mono {x : Step α} {result result' : ω → α → Prop} (h : P.StepEnsures w x result)
    (weaker : ∀ w' a, P.later w w' → result w' a → result' w' a) : P.StepEnsures w x result' := by
  intro s phase a s' run
  obtain ⟨w', later, phase', holds⟩ := h s phase a s' run
  exact ⟨w', later, phase', weaker _ _ later holds⟩

/-- What is known of every result of a simulation comes in addition. -/
theorem StepEnsures.and {x : Step α} {result : ω → α → Prop} {q : α → Prop}
    (h : P.StepEnsures w x result) (known : ∀ s, P.of w s → ∀ a s', x s = .ok (a, s') → q a) :
    P.StepEnsures w x fun w' a => result w' a ∧ q a := by
  intro s phase a s' run
  obtain ⟨w', later, phase', holds⟩ := h s phase a s' run
  exact ⟨w', later, phase', holds, known s phase a s' run⟩

theorem StepEnsures.lift {x : StoreM α} {result : ω → α → Prop} (h : P.Ensures w x result) :
    P.StepEnsures w (Step.lift x) result := by
  intro s phase a s' run
  have same := Step.lift_eq_ok run
  have holds := h s phase
  rw [same] at holds
  exact holds

/-- A computation without a store only has to be as told. -/
theorem StepEnsures.liftExcept {x : Except FlowError α} {result : ω → α → Prop}
    (h : ∀ a, x = .ok a → result w a) : P.StepEnsures w (liftM x) result := by
  intro s phase a s' run
  obtain ⟨known, rfl⟩ := Step.liftExcept_eq_ok run
  exact ⟨w, P.refl w, phase, h a known⟩

end Phases

end Bytecode.Analysis
