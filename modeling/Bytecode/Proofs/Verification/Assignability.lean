import Bytecode.Verification.Frame
import Mathlib.Data.List.Forall2

/-!
# Assignability of verification types

A word can be used where a type is expected if its own type is assignable to that one. Among
references this is the order of the supertypes: the superclasses that the hierarchy tells, the root
class, and covariance for arrays. Merging gives an upper bound: what was assignable to the first type
still is, and the second one is assignable to it. The first half is stated for all that is assignable
to the first type, so that merges can be chained without asking whether the order is transitive.
-/

namespace Bytecode

namespace Hierarchy

variable {h : Hierarchy}

/-- References known under one name are references known under another: it is the same name, the root
class, a superclass, or an array of elements for which this holds. -/
inductive Below (h : Hierarchy) : List Char → List Char → Prop where
  | refl (a : List Char) : Below h a a
  | root (a : List Char) : Below h a objectClass.toList
  | super {a b : List Char} {parent : String}
      (extends_ : (h (String.ofList a)).bind ClassHeader.superName = some parent)
      (above : Below h parent.toList b) : Below h a b
  | array {left right x y : List Char} (source : elementName left = some x)
      (target : elementName right = some y) (elements : Below h x y) :
      Below h ('[' :: left) ('[' :: right)

/-- The root class has no superclass. -/
def Rooted (h : Hierarchy) : Prop :=
  (h objectClass).bind ClassHeader.superName = none

/-- The elements of an array of some elements. -/
theorem elementName_arrayOf (name : List Char) :
    ∃ element, arrayOf name = '[' :: element ∧ elementName element = some name := by
  unfold arrayOf
  split
  · exact ⟨_, rfl, rfl⟩
  · exact ⟨'L' :: name ++ [';'], rfl, by simp [elementName]⟩

/-- Ancestors are above. -/
theorem below_of_mem_ancestorsUpTo {depth : Nat} {name ancestor : String}
    (member : ancestor ∈ h.ancestorsUpTo depth name) : Below h name.toList ancestor.toList := by
  induction depth generalizing name with
  | zero => cases member
  | succ depth ih =>
    rw [ancestorsUpTo] at member
    rcases List.mem_cons.mp member with rfl | member
    · exact .refl _
    · cases parent : (h name).bind ClassHeader.superName with
      | none =>
        rw [parent] at member
        cases member
      | some above =>
        rw [parent] at member
        exact .super (by rwa [String.ofList_toList]) (ih member)

/-- The closest common superclass is the root class or an ancestor of both. -/
theorem commonSuperclass_mem (h : Hierarchy) (a b : String) :
    h.commonSuperclass a b = objectClass ∨ h.commonSuperclass a b ∈ h.ancestors a ∧
      h.commonSuperclass a b ∈ h.ancestors b := by
  have itself (name : String) : name ∈ h.ancestors name := List.mem_cons_self
  rw [commonSuperclass]
  split
  · rename_i same
    exact .inr ⟨itself a, same ▸ itself a⟩
  · split
    · exact .inl rfl
    · dsimp only
      cases found : (h.ancestors b).find? (h.ancestors a).contains with
      | none => exact .inl rfl
      | some ancestor =>
        have known := List.find?_some found
        rw [List.contains_iff_mem] at known
        exact .inr ⟨known, List.mem_of_find?_eq_some found⟩

/-- Only the root class is above it. -/
theorem ancestors_objectClass (rooted : h.Rooted) : h.ancestors objectClass = [objectClass] := by
  rw [ancestors, maxDepth, ancestorsUpTo, rooted]

/-- What is below a class is below its ancestors. -/
theorem Below.ancestor (rooted : h.Rooted) {a b : List Char} {ancestor : String}
    (below : Below h a b) (class_ : b.head? ≠ some '[')
    (member : ancestor ∈ h.ancestors (String.ofList b)) : Below h a ancestor.toList := by
  induction below with
  | refl a =>
    have := below_of_mem_ancestorsUpTo member
    rwa [String.toList_ofList] at this
  | root a =>
    rw [String.ofList_toList, ancestors_objectClass rooted] at member
    rw [List.mem_singleton.mp member]
    exact .root a
  | super extends_ _ ih => exact .super extends_ (ih class_ member)
  | array => exact absurd rfl class_

theorem Below.array_arrayOf {left x m : List Char} (source : elementName left = some x)
    (above : Below h x m) : Below h ('[' :: left) (Hierarchy.arrayOf m) := by
  obtain ⟨element, array, named⟩ := elementName_arrayOf m
  rw [array]
  exact .array source named above

/-- What is below an array is below the arrays of what is above its elements. -/
theorem Below.arrayOf {a left x m : List Char} (below : Below h a ('[' :: left))
    (elements : elementName left = some x) (above : ∀ e, Below h e x → Below h e m) :
    Below h a (arrayOf m) := by
  generalize same : '[' :: left = b at below
  induction below with
  | refl a =>
    subst same
    exact .array_arrayOf elements (above x (.refl x))
  | root a => simp [objectClass] at same
  | super extends_ _ ih => exact .super extends_ (ih same)
  | array source target inner =>
    injection same with _ same
    subst same
    rw [elements] at target
    cases target
    exact .array_arrayOf source (above _ inner)

/-- What is merged is above both names. -/
theorem below_mergeNames (rooted : h.Rooted) (a b : List Char) :
    (∀ e, Below h e a → Below h e (h.mergeNames a b)) ∧ Below h b (h.mergeNames a b) := by
  fun_induction mergeNames h a b with
  | case1 a => exact ⟨fun e below => below, .refl a⟩
  | case2 left right x y source target _ _ ih =>
    exact ⟨fun e below => below.arrayOf source ih.1, .array_arrayOf target ih.2⟩
  | case3 | case4 | case5 => exact ⟨fun e _ => .root e, .root _⟩
  | case6 a b _ left right =>
    have class_ {name : List Char} (other : ∀ tail, name = '[' :: tail → False) :
        name.head? ≠ some '[' := by
      intro first
      obtain ⟨tail, rfl⟩ := List.head?_eq_some_iff.mp first
      exact other tail rfl
    rcases h.commonSuperclass_mem (String.ofList a) (String.ofList b) with root | ⟨mem, mem'⟩
    · rw [root]
      exact ⟨fun e _ => .root e, .root b⟩
    · exact ⟨fun e below => below.ancestor rooted (class_ left) mem,
        (Below.refl b).ancestor rooted (class_ right) mem'⟩

/-- A word of a type can be used as one of another type. -/
inductive Assignable (h : Hierarchy) : VerificationType → VerificationType → Prop where
  | refl (a : VerificationType) : Assignable h a a
  | top (a : VerificationType) : Assignable h a .top
  | null (name : String) : Assignable h .null (.object name)
  | object {a b : String} (below : Below h a.toList b.toList) : Assignable h (.object a) (.object b)

/-- Whatever is assignable to a type is assignable to another one. -/
def Widens (h : Hierarchy) (a b : VerificationType) : Prop :=
  ∀ e, Assignable h e a → Assignable h e b

/-- Merging widens the first type, and the second one is assignable to what is merged. -/
theorem merge_bounds (rooted : h.Rooted) (a b : VerificationType) :
    h.Widens a (h.merge a b) ∧ h.Assignable b (h.merge a b) := by
  unfold merge
  split
  · rename_i same
    exact ⟨fun e assignable => assignable, same ▸ .refl a⟩
  · split
    · rename_i name _
      refine ⟨fun e assignable => ?_, .refl _⟩
      cases assignable
      exact .null name
    · exact ⟨fun e assignable => assignable, .null _⟩
    · rename_i left right _
      have bounds := below_mergeNames rooted left.toList right.toList
      refine ⟨fun e assignable => ?_, .object ?_⟩
      · cases assignable with
        | refl =>
          refine .object ?_
          rw [mergeReferences, String.toList_ofList]
          exact bounds.1 _ (.refl _)
        | null => exact .null _
        | object below =>
          refine .object ?_
          rw [mergeReferences, String.toList_ofList]
          exact bounds.1 _ below
      · rw [mergeReferences, String.toList_ofList]
        exact bounds.2
    · exact ⟨fun e _ => .top e, .top b⟩

end Hierarchy

namespace TypeFrame

variable {h : Hierarchy} {f g : TypeFrame}

/-- The types of a frame are assignable to those of another one, slot by slot and word by word. -/
structure Assignable (h : Hierarchy) (f g : TypeFrame) : Prop where
  locals : List.Forall₂ h.Assignable f.locals g.locals
  stack : List.Forall₂ h.Assignable f.stack g.stack

theorem Assignable.refl (h : Hierarchy) (f : TypeFrame) : f.Assignable h f :=
  ⟨List.forall₂_same.mpr fun a _ => .refl a, List.forall₂_same.mpr fun a _ => .refl a⟩

/-- Merging the types of slots widens the old ones, and the others are assignable to the result. -/
theorem mergeSlots_bounds (rooted : h.Rooted) {old incoming : List VerificationType}
    (same : old.length = incoming.length) :
    (∀ e, List.Forall₂ h.Assignable e old → List.Forall₂ h.Assignable e (mergeSlots h old incoming)) ∧
      List.Forall₂ h.Assignable incoming (mergeSlots h old incoming) := by
  induction old generalizing incoming with
  | nil =>
    obtain rfl := List.length_eq_zero_iff.mp same.symm
    exact ⟨fun e all => all, .nil⟩
  | cons a old ih =>
    obtain ⟨b, incoming, rfl⟩ := List.exists_cons_of_length_eq_add_one same.symm
    obtain ⟨widens, bound⟩ := h.merge_bounds rooted a b
    obtain ⟨all, bounds⟩ := ih (Nat.succ.inj same)
    refine ⟨fun e assignable => ?_, .cons bound bounds⟩
    obtain _ | ⟨first, rest⟩ := assignable
    exact .cons (widens _ first) (all _ rest)

/-- Merging widens the first frame, and the second one is assignable to what is merged. -/
theorem merge_bounds (rooted : h.Rooted) {incoming merged : TypeFrame}
    (same : f.locals.length = incoming.locals.length) (ran : f.merge h incoming = .ok merged) :
    (∀ e : TypeFrame, e.Assignable h f → e.Assignable h merged) ∧ incoming.Assignable h merged ∧
      merged.locals.length = f.locals.length := by
  rw [TypeFrame.merge] at ran
  split at ran
  · cases ran
  · rename_i heights
    rw [ne_eq, Decidable.not_not] at heights
    cases ran
    obtain ⟨widens, bound⟩ := mergeSlots_bounds rooted same
    obtain ⟨widens', bound'⟩ := mergeSlots_bounds rooted heights
    refine ⟨fun e assignable => ⟨widens _ assignable.locals, widens' _ assignable.stack⟩,
      ⟨bound, bound'⟩, ?_⟩
    exact bound.length_eq.symm.trans same.symm

end TypeFrame

end Bytecode
