import Bytecode.Proofs.Verification.Joins
import Bytecode.Proofs.Verification.Visits

/-!
# The order of arrivals

Where the superclasses form a forest, merging is a join: of types, slot by slot of frames, and of
the frames that arrive at a position. The inference is therefore in the same state whatever the
order in which they arrive there (`Class.merge_joins`).

A position is queued when its frame changes. That this does not depend on the order either is due to
joins that absorb what they join: a frame that has changed once does not change back.
-/

namespace Bytecode

/-- A number of slots with well-formed types. -/
inductive Slots : Nat → List VerificationType → Prop
  | nil : Slots 0 []
  | cons {n : Nat} {type : VerificationType} {types : List VerificationType}
      (first : type.WellFormed) (rest : Slots n types) : Slots (n + 1) (type :: types)

namespace TypeFrame

variable {h : Hierarchy} {n : Nat} {as bs cs : List VerificationType} {f g k : TypeFrame}

/-- A frame with a number of local variable slots, and only well-formed types. -/
structure WellFormed (n : Nat) (f : TypeFrame) : Prop where
  locals : Slots n f.locals
  stack : Slots f.stack.length f.stack

/-- The join of two frames, slot by slot and word by word. -/
def join (h : Hierarchy) (f g : TypeFrame) : TypeFrame where
  locals := mergeSlots h f.locals g.locals
  stack := mergeSlots h f.stack g.stack

/-- Frames with stacks of one height are merged. -/
theorem merge_eq_ok : f.merge h g = .ok k ↔ f.stack.length = g.stack.length ∧ k = f.join h g := by
  rw [merge]
  by_cases heights : f.stack.length = g.stack.length
  · rw [if_neg (not_not_intro heights)]
    exact ⟨fun same => ⟨heights, (Except.ok.inj same).symm⟩, fun both => congrArg _ both.2.symm⟩
  · rw [if_pos heights]
    refine ⟨fun failed => ?_, fun both => absurd both.1 heights⟩
    cases failed

/-! ## Slots -/

theorem mergeSlots_cons (a b : VerificationType) (as bs : List VerificationType) :
    mergeSlots h (a :: as) (b :: bs) = h.merge a b :: mergeSlots h as bs :=
  rfl

theorem mergeSlots_self (h : Hierarchy) (as : List VerificationType) : mergeSlots h as as = as := by
  induction as with
  | nil => rfl
  | cons a as ih => rw [mergeSlots_cons, Hierarchy.merge_self, ih]

theorem slots_mergeSlots (forest : h.Forest) (left : Slots n as) (right : Slots n bs) :
    Slots n (mergeSlots h as bs) := by
  induction left generalizing bs with
  | nil =>
    cases right
    exact .nil
  | cons first rest ih =>
    obtain _ | ⟨first', rest'⟩ := right
    exact .cons (Hierarchy.wellFormed_merge forest first first') (ih rest')

theorem mergeSlots_comm (forest : h.Forest) (left : Slots n as) (right : Slots n bs) :
    mergeSlots h as bs = mergeSlots h bs as := by
  induction left generalizing bs with
  | nil =>
    cases right
    rfl
  | cons first rest ih =>
    obtain _ | ⟨first', rest'⟩ := right
    rw [mergeSlots_cons, mergeSlots_cons, Hierarchy.merge_comm forest first first', ih rest']

theorem mergeSlots_assoc (forest : h.Forest) (left : Slots n as) (middle : Slots n bs)
    (right : Slots n cs) :
    mergeSlots h (mergeSlots h as bs) cs = mergeSlots h as (mergeSlots h bs cs) := by
  induction left generalizing bs cs with
  | nil =>
    cases middle
    cases right
    rfl
  | cons first rest ih =>
    obtain _ | ⟨first', rest'⟩ := middle
    obtain _ | ⟨first'', rest''⟩ := right
    simp only [mergeSlots_cons, Hierarchy.merge_assoc forest first first' first'', ih rest' rest'']

/-! ## Frames -/

theorem join_self (h : Hierarchy) (f : TypeFrame) : f.join h f = f := by
  rw [join, mergeSlots_self, mergeSlots_self]

theorem height_join (h : Hierarchy) (f g : TypeFrame) :
    (f.join h g).stack.length = f.stack.length :=
  length_mergeSlots h f.stack g.stack

section

variable (forest : h.Forest) (first : f.WellFormed n) (second : g.WellFormed n)
  (same : f.stack.length = g.stack.length)
include forest first second same

theorem wellFormed_join : (f.join h g).WellFormed n where
  locals := slots_mergeSlots forest first.locals second.locals
  stack := by
    rw [height_join]
    exact slots_mergeSlots forest first.stack (same ▸ second.stack)

theorem join_comm : f.join h g = g.join h f := by
  rw [join, join, mergeSlots_comm forest first.locals second.locals,
    mergeSlots_comm forest first.stack (same ▸ second.stack)]

theorem join_assoc (third : k.WellFormed n) (same' : g.stack.length = k.stack.length) :
    (f.join h g).join h k = f.join h (g.join h k) := by
  have stack' : Slots f.stack.length g.stack := same ▸ second.stack
  have stack'' : Slots f.stack.length k.stack := same ▸ same' ▸ third.stack
  simp only [join, mergeSlots_assoc forest first.locals second.locals third.locals,
    mergeSlots_assoc forest first.stack stack' stack'']

theorem join_right_comm (third : k.WellFormed n) (same' : g.stack.length = k.stack.length) :
    (f.join h g).join h k = (f.join h k).join h g := by
  rw [join_assoc forest first second same third same', join_comm forest second third same',
    join_assoc forest first third (same.trans same') second same'.symm]

/-- A join that is back where it began has not moved. -/
theorem join_eq_of_absorbed (third : k.WellFormed n) (same' : g.stack.length = k.stack.length)
    (absorbed : (f.join h g).join h k = f) : f.join h g = f :=
  calc f.join h g
      = ((f.join h g).join h k).join h g := by rw [absorbed]
    _ = ((f.join h g).join h g).join h k :=
        join_right_comm forest (wellFormed_join forest first second same) third
          ((height_join h f g).trans (same.trans same')) second same'.symm
    _ = (f.join h g).join h k := by
        rw [join_assoc forest first second same second rfl, join_self]
    _ = f := absorbed

end

end TypeFrame

/-! ## Positions -/

namespace InferenceContext

variable {ctx : InferenceContext} {s s' : InferenceState} {target n : Nat} {f g : TypeFrame}

/-- A position comes to a frame, and is queued if that is new. -/
def settle (s : InferenceState) (target : Nat) (frame : TypeFrame) : InferenceState :=
  if s.frameAt target = some frame then s else update s target frame

/-- The frame at a position behind the arrival of another one. -/
def arrive (h : Hierarchy) (existing : Option TypeFrame) (incoming : TypeFrame) : TypeFrame :=
  existing.elim incoming (·.join h incoming)

/-- The frame at a position, if there is one, has a stack as high as that of another one. -/
def Fits (s : InferenceState) (target : Nat) (incoming : TypeFrame) : Prop :=
  ∀ existing, s.frameAt target = some existing → existing.stack.length = incoming.stack.length

/-- A position comes to the join of its frame and the one that arrives. -/
theorem mergeInto_iff : ctx.mergeInto s target f = .ok s' ↔
    Fits s target f ∧ s' = settle s target (arrive ctx.hierarchy (s.frameAt target) f) := by
  constructor
  · intro ran
    rcases mergeInto_eq_ok ran with ⟨empty, rfl⟩ | ⟨e, merged, here, joined, moved⟩
    · have fits : Fits s target f := by
        intro e here
        rw [empty] at here
        cases here
      rw [empty]
      exact ⟨fits, (if_neg (by rw [empty]; exact nofun)).symm⟩
    · obtain ⟨heights, rfl⟩ := TypeFrame.merge_eq_ok.mp joined
      refine ⟨fun e' same => Option.some.inj (here.symm.trans same) ▸ heights, ?_⟩
      rw [here, settle, here]
      rcases moved with ⟨same, rfl⟩ | ⟨other, rfl⟩
      · exact (if_pos (congrArg some same.symm)).symm
      · exact (if_neg fun same => other (Option.some.inj same).symm).symm
  · rintro ⟨fits, rfl⟩
    cases here : s.frameAt target with
    | none =>
      rw [settle, here, if_neg nofun]
      rw [mergeInto, show s.frames[target]?.join = none from here]
      rfl
    | some e =>
      have joined := TypeFrame.merge_eq_ok (h := ctx.hierarchy).mpr ⟨fits e here, rfl⟩
      rw [mergeInto, show s.frames[target]?.join = some e from here]
      show (e.merge ctx.hierarchy f).mapError (ctx.fail target) >>= _ = _
      rw [joined, settle, here]
      by_cases same : e.join ctx.hierarchy f = e
      · exact (if_pos same).trans (congrArg _ (if_pos (congrArg some same.symm)).symm)
      · have other : some e ≠ some (e.join ctx.hierarchy f) :=
          fun eq => same (Option.some.inj eq).symm
        exact (if_neg same).trans (congrArg _ (if_neg other).symm)

theorem update_update : update (update s target f) target g = update s target g := by
  have queued := mem_queue_update s target f
  rw [update, if_pos queued]
  simp only [update, Array.setIfInBounds_setIfInBounds]

theorem frameAt_settle (inside : target < s.frames.size) :
    (settle s target f).frameAt target = some f := by
  rw [settle]
  split
  · next there => exact there
  · exact frameAt_update_self inside

/-- What a position comes to in between leaves no trace, unless it is back where it was. -/
theorem settle_settle (inside : target < s.frames.size)
    (absorbed : s.frameAt target = some g → f = g) :
    settle (settle s target f) target g = settle s target g := by
  rw [settle, frameAt_settle inside]
  by_cases same : f = g
  · rw [same, if_pos rfl]
  · have other : s.frameAt target ≠ some g := mt absorbed same
    rw [if_neg (mt Option.some.inj same), settle, settle, if_neg other]
    split
    · rfl
    · exact update_update

/-- Behind the last position, all frames are one. -/
theorem mergeInto_congr (outside : ¬target < s.frames.size) :
    ctx.mergeInto s target f = ctx.mergeInto s target g := by
  have empty : s.frames[target]?.join = none := frameAt_eq_none outside
  simp only [mergeInto, empty, Array.setIfInBounds_eq_of_size_le (Nat.le_of_not_lt outside)]

section

variable (forest : ctx.hierarchy.Forest) (here : ∀ e, s.frameAt target = some e → e.WellFormed n)
include forest here

/-- A position that has a well-formed frame keeps one. -/
theorem wellFormed_of_mergeInto (wellFormed : f.WellFormed n)
    (ran : ctx.mergeInto s target f = .ok s') :
    ∀ e, s'.frameAt target = some e → e.WellFormed n := by
  intro e there
  rcases (mergeInto_cases ran).2 target e there with before | ⟨-, rfl | ⟨e', before, joined⟩⟩
  · exact here e before
  · exact wellFormed
  · obtain ⟨heights, rfl⟩ := TypeFrame.merge_eq_ok.mp joined
    exact TypeFrame.wellFormed_join forest (here e' before) wellFormed heights

omit forest here in
theorem height_arrive (h : Hierarchy) (fits : Fits s target f) :
    (arrive h (s.frameAt target) f).stack.length = f.stack.length := by
  cases before : s.frameAt target with
  | none => rfl
  | some e => exact (TypeFrame.height_join h e f).trans (fits e before)

/-- If a second frame leads back to where a position was, the first one has not moved it. -/
theorem arrive_eq_of_back (first : f.WellFormed n) (second : g.WellFormed n)
    (fits : Fits s target f) (same : f.stack.length = g.stack.length)
    (back : s.frameAt target =
      some ((arrive ctx.hierarchy (s.frameAt target) f).join ctx.hierarchy g)) :
    arrive ctx.hierarchy (s.frameAt target) f =
      (arrive ctx.hierarchy (s.frameAt target) f).join ctx.hierarchy g := by
  cases before : s.frameAt target with
  | none =>
    rw [before] at back
    cases back
  | some e =>
    rw [before] at back
    have circle := (Option.some.inj back).symm
    have still := TypeFrame.join_eq_of_absorbed forest (here e before) first (fits e before) second
      same circle
    exact still.trans circle.symm

/-- Two frames arrive one behind the other. -/
theorem arrivals_iff (inside : target < s.frames.size) (first : f.WellFormed n)
    (second : g.WellFormed n) :
    (∃ t, ctx.mergeInto s target f = .ok t ∧ ctx.mergeInto t target g = .ok s') ↔
      Fits s target f ∧ f.stack.length = g.stack.length ∧
        s' = settle s target
          ((arrive ctx.hierarchy (s.frameAt target) f).join ctx.hierarchy g) := by
  have still := arrive_eq_of_back forest here first second
  constructor
  · rintro ⟨t, ran, ran'⟩
    obtain ⟨fits, rfl⟩ := mergeInto_iff.mp ran
    obtain ⟨fits', rfl⟩ := mergeInto_iff.mp ran'
    have same : f.stack.length = g.stack.length :=
      (height_arrive ctx.hierarchy fits).symm.trans (fits' _ (frameAt_settle inside))
    rw [frameAt_settle inside]
    exact ⟨fits, same, settle_settle inside (still fits same)⟩
  · rintro ⟨fits, same, rfl⟩
    refine ⟨_, mergeInto_iff.mpr ⟨fits, rfl⟩, mergeInto_iff.mpr ⟨fun e there => ?_, ?_⟩⟩
    · rw [frameAt_settle inside] at there
      exact Option.some.inj there ▸ (height_arrive ctx.hierarchy fits).trans same
    · rw [frameAt_settle inside]
      exact (settle_settle inside (still fits same)).symm

/-- Two frames may arrive in the other order. -/
theorem arrivals_comm (first : f.WellFormed n) (second : g.WellFormed n)
    (arrived : ∃ t, ctx.mergeInto s target f = .ok t ∧ ctx.mergeInto t target g = .ok s') :
    ∃ t, ctx.mergeInto s target g = .ok t ∧ ctx.mergeInto t target f = .ok s' := by
  by_cases inside : target < s.frames.size
  · obtain ⟨fits, same, rfl⟩ := (arrivals_iff forest here inside first second).mp arrived
    refine (arrivals_iff forest here inside second first).mpr
      ⟨fun e before => (fits e before).trans same, same.symm, congrArg _ ?_⟩
    cases before : s.frameAt target with
    | none => exact TypeFrame.join_comm forest first second same
    | some e =>
      exact TypeFrame.join_right_comm forest (here e before) first (fits e before) second same
  · obtain ⟨t, ran, ran'⟩ := arrived
    have size := (mergeInto_grows ran).1.size
    rw [mergeInto_congr (g := g) inside] at ran
    rw [mergeInto_congr (g := f) (size ▸ inside)] at ran'
    exact ⟨t, ran, ran'⟩

end

/-- A sequence of arrivals begins with the first one. -/
theorem foldlM_cons_iff {fs : List TypeFrame} :
    (f :: fs).foldlM (fun s f => ctx.mergeInto s target f) s = .ok s' ↔
      ∃ t, ctx.mergeInto s target f = .ok t ∧
        fs.foldlM (fun s f => ctx.mergeInto s target f) t = .ok s' := by
  rw [List.foldlM_cons]
  constructor
  · exact ok_of_bind
  · rintro ⟨t, ran, rest⟩
    rw [ran]
    exact rest

/-- Frames may arrive in any order. -/
theorem foldlM_mergeInto_perm (forest : ctx.hierarchy.Forest) {fs gs : List TypeFrame}
    (perm : fs.Perm gs) (wellFormed : ∀ f ∈ fs, f.WellFormed n)
    (here : ∀ e, s.frameAt target = some e → e.WellFormed n)
    (ran : fs.foldlM (fun s f => ctx.mergeInto s target f) s = .ok s') :
    gs.foldlM (fun s f => ctx.mergeInto s target f) s = .ok s' := by
  -- the position keeps a well-formed frame, so that any two frames in a row can be exchanged
  induction perm generalizing s with
  | nil => exact ran
  | cons f _ ih =>
    obtain ⟨first, others⟩ := List.forall_mem_cons.mp wellFormed
    obtain ⟨t, arrived, rest⟩ := foldlM_cons_iff.mp ran
    exact foldlM_cons_iff.mpr
      ⟨t, arrived, ih others (wellFormed_of_mergeInto forest here first arrived) rest⟩
  | swap f g fs =>
    obtain ⟨first, others⟩ := List.forall_mem_cons.mp wellFormed
    obtain ⟨t, arrived, rest⟩ := foldlM_cons_iff.mp ran
    obtain ⟨t', arrived', rest⟩ := foldlM_cons_iff.mp rest
    obtain ⟨u, early, late⟩ := arrivals_comm forest here first
      (List.forall_mem_cons.mp others).1 ⟨t, arrived, arrived'⟩
    exact foldlM_cons_iff.mpr ⟨u, early, foldlM_cons_iff.mpr ⟨t', late, rest⟩⟩
  | trans perm _ ih ih' =>
    exact ih' (fun f member => wellFormed f (perm.mem_iff.mpr member)) here (ih wellFormed here ran)

end InferenceContext

/-- Merging is a join of the well-formed types, and the join of two classes is their closest common
superclass. -/
structure Hierarchy.Joins (h : Hierarchy) : Prop where
  idempotent : ∀ a, h.merge a a = a
  commutative : ∀ a b : VerificationType, a.WellFormed → b.WellFormed → h.merge a b = h.merge b a
  associative : ∀ a b c : VerificationType, a.WellFormed → b.WellFormed → c.WellFormed →
    h.merge (h.merge a b) c = h.merge a (h.merge b c)
  closed : ∀ a b : VerificationType, a.WellFormed → b.WellFormed → (h.merge a b).WellFormed
  /-- Frames that arrive at a position in one order or another leave the same state. -/
  unordered : ∀ (ctx : InferenceContext) (s s' : InferenceState) (target n : Nat)
    (fs gs : List TypeFrame), ctx.hierarchy = h → fs.Perm gs → (∀ f ∈ fs, f.WellFormed n) →
    (∀ f, s.frameAt target = some f → f.WellFormed n) →
    (fs.foldlM (fun s f => ctx.mergeInto s target f) s = .ok s' ↔
      gs.foldlM (fun s f => ctx.mergeInto s target f) s = .ok s')
  /-- Two classes that are no interfaces are merged to the closest class from which both descend, or
  to the root class if there is none. -/
  closest : ∀ a b, IsClassName a → IsClassName b → h.isInterface a = false →
    h.isInterface b = false → ∃ m, h.merge (.object a) (.object b) = .object m ∧
      ((∃ c, h.Descends a c ∧ h.Descends b c) → h.Closest a b m) ∧
      ((¬∃ c, h.Descends a c ∧ h.Descends b c) → m = objectClass)

/-- Merging is a join in the hierarchy that a class sees, if the superclasses in it form a forest. -/
theorem Class.merge_joins (c : Class) (known : String → Option ClassHeader)
    (forest : (c.hierarchy known).Forest) : (c.hierarchy known).Joins where
  idempotent := Hierarchy.merge_self _
  commutative _ _ := Hierarchy.merge_comm forest
  associative _ _ _ := Hierarchy.merge_assoc forest
  closed _ _ := Hierarchy.wellFormed_merge forest
  unordered ctx s s' target n fs gs same perm wellFormed here := by
    have forest : ctx.hierarchy.Forest := same ▸ forest
    have wellFormed' : ∀ g ∈ gs, g.WellFormed n :=
      fun g member => wellFormed g (perm.mem_iff.mpr member)
    exact ⟨InferenceContext.foldlM_mergeInto_perm forest perm wellFormed here,
      InferenceContext.foldlM_mergeInto_perm forest perm.symm wellFormed' here⟩
  closest a b left right class_ class_' := by
    refine ⟨(c.hierarchy known).commonSuperclass a b, ?_,
      forest.commonSuperclass_closest class_ class_'⟩
    rw [Hierarchy.merge_object, Hierarchy.mergeReferences, Hierarchy.mergeNames_classes left right,
      String.ofList_toList]

/-- A class with a superclass. -/
def Class.sibling : Class where
  name := "Left"
  superName := some "Base"

/-- The other classes that are known. -/
def Class.siblings (name : String) : Option ClassHeader :=
  if name = "Right" then some ⟨some "Base", false⟩
  else if name = "Base" then some ⟨some objectClass, false⟩
  else none

theorem Class.extends_siblings {name parent : String}
    (extends_ : (Class.sibling.hierarchy Class.siblings).Extends name parent) :
    (name = "Left" ∨ name = "Right") ∧ parent = "Base" ∨ name = "Base" ∧ parent = objectClass := by
  unfold Hierarchy.Extends Class.hierarchy Class.siblings at extends_
  split at extends_
  · next same => exact .inl ⟨.inl same, (Option.some.inj extends_).symm⟩
  split at extends_
  · next same => exact .inl ⟨.inr same, (Option.some.inj extends_).symm⟩
  split at extends_
  · next same => exact .inr ⟨same, (Option.some.inj extends_).symm⟩
  · cases extends_

theorem Class.forest_siblings : (Class.sibling.hierarchy Class.siblings).Forest where
  rooted := rfl
  shallow := by
    let rank (name : String) : Nat :=
      if name = "Left" ∨ name = "Right" then 2 else if name = "Base" then 1 else 0
    have low (name : String) : rank name < 256 := by
      show (if _ then 2 else if _ then 1 else 0) < 256
      split
      · decide
      · split <;> decide
    refine fun chain => Hierarchy.length_le_of_rank rank ?_ low
    intro name parent extends_
    rcases Class.extends_siblings extends_ with ⟨rfl | rfl, rfl⟩ | ⟨rfl, rfl⟩ <;> decide
  classes := by
    intro name parent extends_
    rcases Class.extends_siblings extends_ with ⟨-, rfl⟩ | ⟨-, rfl⟩ <;> decide
  named := by
    intro name parent extends_
    rcases Class.extends_siblings extends_ with ⟨-, rfl⟩ | ⟨-, rfl⟩ <;> decide

/-- Two siblings are merged to their superclass, and arrive in either order. -/
theorem Class.merge_joins_siblings :
    (Class.sibling.hierarchy Class.siblings).Forest ∧
      (∃ m, (Class.sibling.hierarchy Class.siblings).merge (.object "Left") (.object "Right") =
          .object m ∧
        (Class.sibling.hierarchy Class.siblings).Closest "Left" "Right" m) ∧
      ∀ (ctx : InferenceContext) (s' : InferenceState),
        ctx.hierarchy = Class.sibling.hierarchy Class.siblings →
        ([⟨[], [.object "Left"]⟩, ⟨[], [.object "Right"]⟩].foldlM
            (fun s f => ctx.mergeInto s 0 f) ⟨#[none], [], 0⟩ = .ok s' ↔
          [⟨[], [.object "Right"]⟩, ⟨[], [.object "Left"]⟩].foldlM
            (fun s f => ctx.mergeInto s 0 f) ⟨#[none], [], 0⟩ = .ok s') := by
  have joins := Class.merge_joins Class.sibling Class.siblings Class.forest_siblings
  have wellFormed (name : String) (named : Hierarchy.IsClassName name) :
      TypeFrame.WellFormed 0 ⟨[], [.object name]⟩ := by
    refine ⟨.nil, .cons ?_ .nil⟩
    rintro _ ⟨⟩
    exact ⟨.object name, named, rfl⟩
  refine ⟨Class.forest_siblings, ?_, fun ctx s' same => ?_⟩
  · obtain ⟨m, merged, closest, -⟩ :=
      joins.closest "Left" "Right" (by decide) (by decide) (by decide) (by decide)
    exact ⟨m, merged, closest ⟨"Base", .single rfl, .single rfl⟩⟩
  · refine joins.unordered ctx _ s' 0 0 _ _ same (.swap _ _ _) (fun f member => ?_) nofun
    simp only [List.mem_cons, List.not_mem_nil, or_false] at member
    rcases member with rfl | rfl
    · exact wellFormed "Left" (by decide)
    · exact wellFormed "Right" (by decide)

end Bytecode
