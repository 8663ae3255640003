import Bytecode.Inlining.Rounds

/-!
# What work in a session keeps

Statements about inlining follow one pattern. Something holds of a session and keeps holding; the
session goes on in one direction, in which nothing is taken back; and work that fails does so in ways
that are known. A `Regime` collects this, and `Regime.Ensures` says of work in a session that it
stays in the regime and what it returns. The rules here take it through the steps of `InSession`.
-/

namespace Bytecode.Inlining

/-- Where work in a session ends: its result, and the session then. -/
def outcome {α : Type} (x : InSession α) (s : Session) : Except Failure α × Session :=
  x s

section

variable {α β : Type} {s : Session}

theorem outcome_bind (x : InSession α) (f : α → InSession β) (s : Session) :
    outcome (x >>= f) s = match outcome x s with
      | (.ok a, s') => outcome (f a) s'
      | (.error e, s') => (.error e, s') := by
  show (match x s with
    | (r, s') => (ExceptT.bindCont f r : StateM Session (Except Failure β)) s') = _
  unfold outcome
  obtain ⟨r, s'⟩ := x s
  cases r <;> rfl

/-- Work that looks at the session. -/
theorem outcome_get (f : Session → InSession α) (s : Session) :
    outcome (get >>= f) s = outcome (f s) s :=
  rfl

/-- Work that changes the session in one step. -/
theorem outcome_modifyGet (step : Session → α × Session) (f : α → InSession β) (s : Session) :
    outcome (modifyGet step >>= f) s = outcome (f (step s).1) (step s).2 :=
  rfl

/-- Work that fails at its first step. -/
theorem fails_bind {x : InSession α} {f : α → InSession β} {e : Failure}
    (h : (outcome x s).1 = .error e) : (outcome (x >>= f) s).1 = .error e := by
  rw [outcome_bind]
  generalize outcome x s = first at *
  obtain ⟨r, s'⟩ := first
  obtain rfl : r = .error e := h
  rfl

/-- Work whose first step succeeds. -/
theorem outcome_bind_ok {x : InSession α} {f : α → InSession β} {a : α} {s' : Session}
    (h : outcome x s = (.ok a, s')) : outcome (x >>= f) s = outcome (f a) s' := by
  rw [outcome_bind, h]

end

/-- What work in sessions keeps, in which direction sessions go on, and how work may fail. -/
structure Regime where
  holds : Session → Prop
  later : Session → Session → Prop
  allows : Failure → Prop
  refl (s : Session) : later s s
  trans {s t u : Session} : later s t → later t u → later s u

namespace Regime

variable {α β : Type} {R : Regime} {s : Session}

/-- Work in a session stays in the regime, and its result is as told. -/
def Ensures (R : Regime) (s : Session) (x : InSession α) (result : Session → α → Prop) : Prop :=
  R.holds s → R.holds (outcome x s).2 ∧ R.later s (outcome x s).2 ∧
    (∀ a, (outcome x s).1 = .ok a → result (outcome x s).2 a) ∧
    ∀ e, (outcome x s).1 = .error e → R.allows e

/-- That something holds of the session may be used. -/
theorem Ensures.of_holds {x : InSession α} {result : Session → α → Prop}
    (h : R.holds s → R.Ensures s x result) : R.Ensures s x result :=
  fun holds => h holds holds

theorem Ensures.pure {a : α} {result : Session → α → Prop} (h : R.holds s → result s a) :
    R.Ensures s (Pure.pure a) result := by
  intro holds
  exact ⟨holds, R.refl s, by rintro _ ⟨⟩; exact h holds, nofun⟩

theorem Ensures.throw {e : Failure} {result : Session → α → Prop} (h : R.allows e) :
    R.Ensures s (throw e) result := by
  intro holds
  exact ⟨holds, R.refl s, nofun, by rintro _ ⟨⟩; exact h⟩

theorem Ensures.bind {x : InSession α} {f : α → InSession β} {q : Session → α → Prop}
    {result : Session → β → Prop} (hx : R.Ensures s x q)
    (hf : ∀ s' a, R.holds s' → R.later s s' → q s' a → R.Ensures s' (f a) result) :
    R.Ensures s (x >>= f) result := by
  intro holds
  obtain ⟨holds', later, returned, fails⟩ := hx holds
  rw [outcome_bind]
  generalize outcome x s = first at *
  obtain ⟨e | a, s'⟩ := first
  · exact ⟨holds', later, nofun, by rintro _ ⟨⟩; exact fails e rfl⟩
  · obtain ⟨holds'', later', returned', fails'⟩ := hf s' a holds' later (returned a rfl) holds'
    exact ⟨holds'', R.trans later later', returned', fails'⟩

theorem Ensures.mono {x : InSession α} {result result' : Session → α → Prop}
    (h : R.Ensures s x result)
    (weaker : ∀ s' a, R.holds s' → R.later s s' → result s' a → result' s' a) :
    R.Ensures s x result' := by
  intro holds
  obtain ⟨holds', later, returned, fails⟩ := h holds
  exact ⟨holds', later, fun a same => weaker _ a holds' later (returned a same), fails⟩

/-- Where work has ended may be used. -/
theorem Ensures.recall {x : InSession α} {result : Session → α → Prop} (h : R.Ensures s x result) :
    R.Ensures s x fun s' a => outcome x s = (.ok a, s') ∧ result s' a := by
  intro holds
  obtain ⟨holds', later, returned, fails⟩ := h holds
  exact ⟨holds', later, fun a same => ⟨Prod.ext same rfl, returned a same⟩, fails⟩

/-- Work may look at the session. -/
theorem Ensures.get {f : Session → InSession α} {result : Session → α → Prop}
    (h : R.Ensures s (f s) result) : R.Ensures s (get >>= f) result :=
  h

/-- Work that changes the session in one step. -/
theorem Ensures.modifyGet {f : Session → α × Session} {result : Session → α → Prop}
    (holds : R.holds s → R.holds (f s).2) (later : R.later s (f s).2)
    (returned : R.holds s → result (f s).2 (f s).1) : R.Ensures s (modifyGet f) result :=
  fun here => ⟨holds here, later, by rintro _ ⟨⟩; exact returned here, nofun⟩

/-- Work that cannot fail itself. -/
theorem Ensures.lift {x : StateM Session α} {result : Session → α → Prop}
    (h : R.holds s → R.holds (x s).2 ∧ R.later s (x s).2 ∧ result (x s).2 (x s).1) :
    R.Ensures s (liftM x) result := by
  intro holds
  obtain ⟨holds', later, returned⟩ := h holds
  exact ⟨holds', later, by rintro _ ⟨⟩; exact returned, nofun⟩

/-- Steps that do not look at the session. -/
theorem Ensures.ofExcept {x : Except Failure α} {result : Session → α → Prop}
    (returned : ∀ a, x = .ok a → R.holds s → result s a) (fails : ∀ e, x = .error e → R.allows e) :
    R.Ensures s (MonadExcept.ofExcept x) result := by
  cases x with
  | error e => exact .throw (fails e rfl)
  | ok a => exact .pure (returned a rfl)

/-- Identities are taken from the supply, unless that fails. -/
theorem Ensures.tryFresh {x : TryFresh α} (fails : ∀ e, x.run s.supply = .error e → R.allows e)
    (step : ∀ a supply, x.run s.supply = .ok (a, supply) →
      (R.holds s → R.holds { s with supply }) ∧ R.later s { s with supply }) :
    R.Ensures s (Session.tryFresh x) fun s' a =>
      s'.inliner = s.inliner ∧ x.run s.supply = .ok (a, s'.supply) := by
  refine .get ?_
  cases run : x.run s.supply with
  | error e => exact .throw (fails e run)
  | ok made =>
    obtain ⟨a, supply⟩ := made
    obtain ⟨holds, later⟩ := step a supply run
    refine .bind (q := fun s' _ => s' = { s with supply }) (.modifyGet holds later fun _ => rfl)
      fun s' _ _ _ same => ?_
    subst same
    exact .pure fun _ => ⟨rfl, rfl⟩

/-! ## Steps that do not touch the inliner -/

/-- The regime only looks at the inliner of a session. -/
structure Inward (R : Regime) : Prop where
  holds {s s' : Session} : s'.inliner = s.inliner → R.holds s → R.holds s'
  later {s s' : Session} : s'.inliner = s.inliner → R.later s s'

section

variable (inward : R.Inward)

include inward

theorem Inward.fresh_ensures {x : Fresh α} : R.Ensures s (Session.fresh x) fun s' a =>
    s'.inliner = s.inliner ∧ ∃ supply, a = (x.run supply).1 :=
  .modifyGet (inward.holds rfl) (inward.later rfl) fun _ => ⟨rfl, _, rfl⟩

theorem Inward.tryFresh_ensures {x : TryFresh α} (fails : ∀ e supply, x.run supply = .error e → R.allows e) :
    R.Ensures s (Session.tryFresh x) fun s' a =>
      s'.inliner = s.inliner ∧ ∃ supply supply', x.run supply = .ok (a, supply') :=
  (Ensures.tryFresh (fun e failed => fails e s.supply failed)
    fun _ _ _ => ⟨inward.holds rfl, inward.later rfl⟩).mono
    fun _ _ _ _ ⟨same, made⟩ => ⟨same, _, _, made⟩

theorem Inward.forget_ensures {m : MethodId} :
    R.Ensures s (Session.forget m) fun s' _ => s'.inliner = s.inliner :=
  .modifyGet (inward.holds rfl) (inward.later rfl) fun _ => rfl

theorem Inward.analyse_ensures {owner : String} {m : Method}
    (fails : ∀ (cache : Analysis.FrameCache) e, (cache.lookup owner m).1 = .error e → R.allows e) :
    R.Ensures s (Session.analyse owner m) fun s' a =>
      s'.inliner = s.inliner ∧ ∃ frames, a = ⟨owner, m, frames⟩ := by
  refine .bind (q := fun s' answer => s'.inliner = s.inliner ∧
      ∃ cache : Analysis.FrameCache, answer = (cache.lookup owner m).1)
    (.modifyGet (inward.holds rfl) (inward.later rfl) fun _ => ⟨rfl, _, rfl⟩)
    fun s' answer _ _ ⟨same, cache, looked⟩ => ?_
  cases answer with
  | error e => exact .throw (fails cache e looked.symm)
  | ok entry => exact .pure fun _ => ⟨same, _, rfl⟩

end

end Regime

end Bytecode.Inlining
