import Bytecode.Proofs.Verification.Ascents
import Mathlib.Logic.Relation

/-!
# Common superclasses

In a hierarchy whose superclasses form a forest that is not too deep, `commonSuperclass` finds the
closest class from which two classes descend (`commonSuperclass_closest`).

An interface has nothing in common with another class but the root class, even if it extends one.
The order in which a common superclass is the least upper bound is therefore not that of descent:
`Under` puts an interface below itself and the root class only. That the operation commutes and
associates follows from the order.
-/

namespace Bytecode

namespace Hierarchy

variable {h : Hierarchy} {a b c d : String}

/-- A class directly extends another one. -/
def Extends (h : Hierarchy) (name parent : String) : Prop :=
  (h name).bind ClassHeader.superName = some parent

/-- A class descends from another one along super names, or is that class. -/
abbrev Descends (h : Hierarchy) : String → String → Prop :=
  Relation.ReflTransGen h.Extends

/-- A name is that of a class, and not the descriptor of an array. -/
def IsClassName (name : String) : Prop :=
  name.toList.head? ≠ some '['
  deriving Decidable

/-- The superclasses form a forest less than 256 deep, in which the root class is a root and no
superclass is an interface or named like an array. A circle would be a chain of any length. -/
structure Forest (h : Hierarchy) : Prop where
  rooted : h.Rooted
  shallow : ∀ chain : List String, chain.IsChain h.Extends → chain.length ≤ 256
  classes : ∀ name parent, h.Extends name parent → h.isInterface parent = false
  named : ∀ name parent, h.Extends name parent → IsClassName parent

/-- The closest class from which two classes descend. -/
structure Closest (h : Hierarchy) (a b c : String) : Prop where
  left : h.Descends a c
  right : h.Descends b c
  least : ∀ d, h.Descends a d → h.Descends b d → h.Descends c d

/-- One class is under another one in the order in which common superclasses are the least upper
bounds. -/
def Under (h : Hierarchy) (a b : String) : Prop :=
  a = b ∨ b = objectClass ∨ h.isInterface a = false ∧ h.Descends a b

/-- A rank of the classes bounds the length of chains. -/
theorem length_le_of_rank (rank : String → Nat) {most : Nat}
    (descends : ∀ name parent, h.Extends name parent → rank parent < rank name)
    (low : ∀ name, rank name < most) {chain : List String} (chained : chain.IsChain h.Extends) :
    chain.length ≤ most := by
  cases chain with
  | nil => exact Nat.zero_le _
  | cons name chain =>
    suffices chain.length ≤ rank name from Nat.lt_of_le_of_lt this (low name)
    induction chain generalizing name with
    | nil => exact Nat.zero_le _
    | cons parent chain ih =>
      obtain ⟨extends_, rest⟩ := List.isChain_cons_cons.mp chained
      exact Nat.lt_of_le_of_lt (ih parent rest) (descends _ _ extends_)

/-! ## Chains of superclasses -/

theorem ancestorsUpTo_of_extends (extends_ : h.Extends a b) (depth : Nat) :
    h.ancestorsUpTo (depth + 1) a = a :: h.ancestorsUpTo depth b := by
  rw [ancestorsUpTo, extends_]

/-- A class and its superclasses are a chain. -/
theorem isChain_ancestorsUpTo (depth : Nat) (name : String) :
    (h.ancestorsUpTo depth name).IsChain h.Extends := by
  induction depth generalizing name with
  | zero => exact .nil
  | succ depth ih =>
    rw [ancestorsUpTo]
    cases extends_ : (h name).bind ClassHeader.superName with
    | none => exact .singleton _
    | some parent =>
      cases depth with
      | zero => exact .singleton _
      | succ depth => exact List.IsChain.cons_cons extends_ (ih parent)

/-- The superclasses that are listed behind a class are those from which it descends. -/
theorem pairwise_ancestorsUpTo (depth : Nat) (name : String) :
    (h.ancestorsUpTo depth name).Pairwise h.Descends :=
  ((isChain_ancestorsUpTo depth name).imp fun _ _ extends_ => .single extends_).pairwise

/-- What a class descends from is listed, if chains are short enough. -/
theorem mem_ancestorsUpTo {depth : Nat}
    (short : ∀ chain : List String, (a :: chain).IsChain h.Extends → chain.length < depth)
    (descends : h.Descends a c) : c ∈ h.ancestorsUpTo depth a := by
  induction depth generalizing a with
  | zero => exact absurd (short [] (.singleton a)) (Nat.not_lt_zero _)
  | succ depth ih =>
    rcases descends.cases_head with rfl | ⟨parent, extends_, above⟩
    · exact List.mem_cons_self
    · rw [ancestorsUpTo_of_extends extends_]
      refine List.mem_cons_of_mem _ (ih (fun chain chained => ?_) above)
      exact Nat.lt_of_succ_lt_succ (short (parent :: chain) (chained.cons_cons extends_))

@[simp]
theorem commonSuperclass_self (h : Hierarchy) (a : String) : h.commonSuperclass a a = a := by
  rw [commonSuperclass, if_pos rfl]

/-- An interface has only the root class in common with another class. -/
theorem commonSuperclass_of_interface (other : a ≠ b)
    (interface : ¬(h.isInterface a = false ∧ h.isInterface b = false)) :
    h.commonSuperclass a b = objectClass := by
  rw [commonSuperclass, if_neg other, if_pos]
  cases left : h.isInterface a <;> cases right : h.isInterface b <;> simp_all

namespace Forest

variable (forest : h.Forest)
include forest

/-- The ancestors of a class are what it descends from. -/
theorem mem_ancestors : c ∈ h.ancestors a ↔ h.Descends a c := by
  constructor
  · intro member
    have chain := pairwise_ancestorsUpTo (h := h) maxDepth a
    rw [ancestors, maxDepth, ancestorsUpTo] at member
    rw [maxDepth, ancestorsUpTo] at chain
    rcases List.mem_cons.mp member with rfl | member
    · exact .refl
    · exact List.rel_of_pairwise_cons chain member
  · refine mem_ancestorsUpTo fun chain chained => ?_
    exact Nat.lt_of_succ_le (forest.shallow _ chained)

theorem grounded : h.Grounded where
  rooted := forest.rooted
  ends name := ⟨257, Nat.lt_succ_of_le (forest.shallow _ (isChain_ancestorsUpTo 257 name))⟩
  classes := forest.named

/-- Classes that descend from each other are one class. -/
theorem antisymm (up : h.Descends a b) (down : h.Descends b a) : a = b := by
  -- a rank falls along superclasses, so that it would be lower than itself on a circle
  obtain ⟨rank, ranks, -⟩ := forest.grounded.exists_ranks
  have lower {x y : String} (descends : h.Descends x y) : y = x ∨ rank y < rank x := by
    induction descends with
    | refl => exact .inl rfl
    | tail _ extends_ ih =>
      have less := ranks.descends extends_
      rcases ih with rfl | earlier
      · exact .inr less
      · exact .inr (Nat.lt_trans less earlier)
  rcases lower up with same | less
  · exact same.symm
  · rcases lower down with same | less'
    · exact same
    · exact absurd less (Nat.lt_asymm less')

/-- The root class descends from itself only. -/
theorem eq_of_root (descends : h.Descends objectClass c) : c = objectClass := by
  rcases descends.cases_head with same | ⟨parent, extends_, -⟩
  · exact same.symm
  · rw [Extends, forest.rooted] at extends_
    cases extends_

/-- Another class than the first that it descends from is no interface. -/
theorem isInterface_of_descends (descends : h.Descends a c) : c = a ∨ h.isInterface c = false := by
  rcases descends.cases_tail with same | ⟨below, -, extends_⟩
  · exact .inl same
  · exact .inr (forest.classes below c extends_)

/-- The common superclass of two classes that are no interfaces is the closest class from which both
descend, or the root class if there is none. -/
theorem commonSuperclass_closest (left : h.isInterface a = false)
    (right : h.isInterface b = false) :
    ((∃ c, h.Descends a c ∧ h.Descends b c) → h.Closest a b (h.commonSuperclass a b)) ∧
      ((¬∃ c, h.Descends a c ∧ h.Descends b c) → h.commonSuperclass a b = objectClass) := by
  by_cases same : a = b
  · subst same
    rw [commonSuperclass_self]
    exact ⟨fun _ => ⟨.refl, .refl, fun d above _ => above⟩,
      fun none_ => absurd ⟨a, .refl, .refl⟩ none_⟩
  · rw [commonSuperclass, if_neg same, left, right]
    simp only [Bool.or_self, Bool.false_eq_true, if_false]
    cases found : (h.ancestors b).find? (h.ancestors a).contains with
    | none =>
      refine ⟨?_, fun _ => rfl⟩
      rintro ⟨c, up, up'⟩
      have nowhere := List.find?_eq_none.mp found c (forest.mem_ancestors.mpr up')
      exact absurd (List.contains_iff_mem.mpr (forest.mem_ancestors.mpr up)) nowhere
    | some c =>
      obtain ⟨known, before, after, split, others⟩ := List.find?_eq_some_iff_append.mp found
      have up := forest.mem_ancestors.mp (List.contains_iff_mem.mp known)
      have up' := forest.mem_ancestors.mp (List.mem_of_find?_eq_some found)
      refine ⟨fun _ => ⟨up, up', fun d above above' => ?_⟩, fun none_ => absurd ⟨c, up, up'⟩ none_⟩
      -- another common superclass is not in front of the one that is found first
      have listed := forest.mem_ancestors.mpr above'
      have chain := pairwise_ancestorsUpTo (h := h) maxDepth b
      rw [← ancestors, split] at chain
      rw [split] at listed
      rcases List.mem_append.mp listed with early | late
      · have missing := others d early
        rw [List.contains_iff_mem.mpr (forest.mem_ancestors.mpr above)] at missing
        cases missing
      · rcases List.mem_cons.mp late with rfl | late
        · exact .refl
        · exact List.rel_of_pairwise_cons (List.pairwise_append.mp chain).2.1 late

/-! ## The order -/

theorem under_trans (first : h.Under a b) (second : h.Under b c) : h.Under a c := by
  rcases first with rfl | rfl | ⟨class_, descends⟩
  · exact second
  · rcases second with rfl | rfl | ⟨-, above⟩
    · exact .inr (.inl rfl)
    · exact .inr (.inl rfl)
    · exact .inr (.inl (forest.eq_of_root above))
  · rcases second with rfl | rfl | ⟨-, above⟩
    · exact .inr (.inr ⟨class_, descends⟩)
    · exact .inr (.inl rfl)
    · exact .inr (.inr ⟨class_, descends.trans above⟩)

theorem under_antisymm (up : h.Under a b) (down : h.Under b a) : a = b := by
  have top {c : String} (under : h.Under objectClass c) : c = objectClass := by
    rcases under with same | same | ⟨-, above⟩
    · exact same.symm
    · exact same
    · exact forest.eq_of_root above
  rcases up with same | rfl | ⟨-, up⟩
  · exact same
  · exact top down
  · rcases down with same | rfl | ⟨-, down⟩
    · exact same.symm
    · exact (forest.eq_of_root up).symm
    · exact forest.antisymm up down

/-- Both classes are under their common superclass. -/
theorem under_commonSuperclass (a b : String) :
    h.Under a (h.commonSuperclass a b) ∧ h.Under b (h.commonSuperclass a b) := by
  by_cases same : a = b
  · rw [commonSuperclass, if_pos same]
    exact ⟨.inl rfl, .inl same.symm⟩
  · by_cases classes : h.isInterface a = false ∧ h.isInterface b = false
    · obtain ⟨left, right⟩ := classes
      by_cases common : ∃ c, h.Descends a c ∧ h.Descends b c
      · have closest := (forest.commonSuperclass_closest left right).1 common
        exact ⟨.inr (.inr ⟨left, closest.left⟩), .inr (.inr ⟨right, closest.right⟩)⟩
      · rw [(forest.commonSuperclass_closest left right).2 common]
        exact ⟨.inr (.inl rfl), .inr (.inl rfl)⟩
    · rw [commonSuperclass_of_interface same classes]
      exact ⟨.inr (.inl rfl), .inr (.inl rfl)⟩

/-- The common superclass of two classes is under whatever both are under. -/
theorem commonSuperclass_under (left : h.Under a d) (right : h.Under b d) :
    h.Under (h.commonSuperclass a b) d := by
  by_cases root : d = objectClass
  · exact .inr (.inl root)
  -- below another class than the root class, the order is that of descent
  have descent {x : String} (under : h.Under x d) : h.Descends x d := by
    rcases under with rfl | top | ⟨-, descends⟩
    · exact .refl
    · exact absurd top root
    · exact descends
  by_cases same : a = b
  · rw [commonSuperclass, if_pos same]
    exact left
  have class_ {x y : String} (other : x ≠ y) (first : h.Under x d) (second : h.Under y d) :
      h.isInterface x = false := by
    rcases first with rfl | top | ⟨class_, -⟩
    · -- the other one descends from this one, which is therefore a superclass
      rcases forest.isInterface_of_descends (descent second) with equal | class_
      · exact absurd equal other
      · exact class_
    · exact absurd top root
    · exact class_
  have left_ := class_ same left right
  have right_ := class_ (Ne.symm same) right left
  have closest := (forest.commonSuperclass_closest left_ right_).1 ⟨d, descent left, descent right⟩
  refine .inr (.inr ⟨?_, closest.least d (descent left) (descent right)⟩)
  rcases forest.isInterface_of_descends closest.left with equal | class_
  · rw [equal]
    exact left_
  · exact class_

theorem commonSuperclass_comm (a b : String) :
    h.commonSuperclass a b = h.commonSuperclass b a := by
  have half (a b : String) : h.Under (h.commonSuperclass a b) (h.commonSuperclass b a) :=
    forest.commonSuperclass_under (forest.under_commonSuperclass b a).2
      (forest.under_commonSuperclass b a).1
  exact forest.under_antisymm (half a b) (half b a)

theorem commonSuperclass_assoc (a b c : String) :
    h.commonSuperclass (h.commonSuperclass a b) c =
      h.commonSuperclass a (h.commonSuperclass b c) := by
  -- both sides are the least class above all three
  have inner := forest.under_commonSuperclass a b
  have outer := forest.under_commonSuperclass (h.commonSuperclass a b) c
  have inner' := forest.under_commonSuperclass b c
  have outer' := forest.under_commonSuperclass a (h.commonSuperclass b c)
  apply forest.under_antisymm
  · refine forest.commonSuperclass_under (forest.commonSuperclass_under outer'.1 ?_) ?_
    · exact forest.under_trans inner'.1 outer'.2
    · exact forest.under_trans inner'.2 outer'.2
  · refine forest.commonSuperclass_under ?_ (forest.commonSuperclass_under ?_ outer.2)
    · exact forest.under_trans inner.1 outer.1
    · exact forest.under_trans inner.2 outer.1

/-- The common superclass of a class is named as a class. -/
theorem isClassName_commonSuperclass (named : IsClassName a) (b : String) :
    IsClassName (h.commonSuperclass a b) := by
  rcases (forest.under_commonSuperclass a b).1 with same | root | ⟨-, descends⟩
  · rw [← same]
    exact named
  · rw [root]
    decide
  · rcases descends.cases_tail with same | ⟨below, -, extends_⟩
    · rw [same]
      exact named
    · exact forest.named below _ extends_

/-- The root class has itself in common with every class. -/
theorem commonSuperclass_root (a : String) : h.commonSuperclass a objectClass = objectClass := by
  rcases (forest.under_commonSuperclass a objectClass).2 with same | same | ⟨-, above⟩
  · exact same.symm
  · exact same
  · exact forest.eq_of_root above

end Forest

end Hierarchy

end Bytecode
