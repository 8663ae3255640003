import Bytecode.Proofs.Verification.Assignability
import Bytecode.Total
import Mathlib.Data.Nat.Find

/-!
# Joins ascend

In a hierarchy whose chains of superclasses end at a class without one, a word that is joined with
another one keeps its type, or it gets one that is strictly above (`merge_lighter`). What is above has
less weight: a class weighs as much as its chain of superclasses is long, but the root class weighs
nothing; an array weighs more than its elements; and a null reference weighs more than whatever name
can become known instead.

An array of classes whose name is that of an array has two descriptors. A join leaves the shorter one,
which is why the other one has an additional weight.
-/

namespace Bytecode

namespace Hierarchy

variable {h : Hierarchy} {rank : String → Nat}

/-- Chains of superclasses end: the root class has no superclass, every class comes to a last one, and
superclasses are no arrays. -/
structure Grounded (h : Hierarchy) : Prop where
  rooted : h.Rooted
  ends : ∀ name, ∃ depth, (h.ancestorsUpTo depth name).length < depth
  classes : ∀ name parent, (h name).bind ClassHeader.superName = some parent →
    parent.toList.head? ≠ some '['

/-- A rank of classes: a superclass has a lower one than its subclasses. -/
structure Ranks (h : Hierarchy) (rank : String → Nat) : Prop where
  positive : ∀ name, 0 < rank name
  descends : ∀ {name parent}, (h name).bind ClassHeader.superName = some parent →
    rank parent < rank name

theorem length_ancestorsUpTo_succ {name parent : String} (depth : Nat)
    (extends_ : (h name).bind ClassHeader.superName = some parent) :
    (h.ancestorsUpTo (depth + 1) name).length = (h.ancestorsUpTo depth parent).length + 1 := by
  rw [ancestorsUpTo, extends_, List.length_cons]

/-- Where every chain ends, its length ranks the classes. -/
theorem Grounded.exists_ranks (grounded : h.Grounded) :
    ∃ rank, h.Ranks rank ∧ ∀ depth, (∀ name, (h.ancestorsUpTo (depth + 1) name).length ≤ depth) →
      ∀ name, rank name ≤ depth := by
  -- the first depth that a chain does not fill
  let first (name : String) : Nat := Nat.find (grounded.ends name)
  have reached (name : String) : (h.ancestorsUpTo (first name) name).length < first name :=
    Nat.find_spec (grounded.ends name)
  have least {name : String} {depth : Nat} (short : (h.ancestorsUpTo depth name).length < depth) :
      first name ≤ depth := Nat.find_min' (grounded.ends name) short
  have two (name : String) : 1 < first name := by
    have := reached name
    match eq : first name with
    | 0 => rw [eq] at this; exact absurd this (Nat.not_lt_zero _)
    | 1 => rw [eq, ancestorsUpTo, List.length_cons] at this; omega
    | n + 2 => omega
  refine ⟨fun name => first name - 1, ⟨fun name => by have := two name; omega, ?_⟩, ?_⟩
  · intro name parent extends_
    obtain ⟨depth, there⟩ : ∃ depth, first name = depth + 1 :=
      Nat.exists_eq_succ_of_ne_zero (by have := two name; omega)
    have here := reached name
    rw [there, length_ancestorsUpTo_succ depth extends_] at here
    have below := least (Nat.lt_of_succ_lt_succ here)
    have := two parent
    show first parent - 1 < first name - 1
    omega
  · intro depth short name
    have := least (Nat.lt_succ_of_le (short name))
    show first name - 1 ≤ depth
    omega

/-- Another class in a chain is a superclass: its rank is lower, and it is no array. -/
theorem Ranks.lt_of_mem (ranks : h.Ranks rank) (grounded : h.Grounded) {depth : Nat}
    {name ancestor : String} (member : ancestor ∈ h.ancestorsUpTo depth name) :
    ancestor = name ∨ rank ancestor < rank name ∧ ancestor.toList.head? ≠ some '[' := by
  induction depth generalizing name with
  | zero => cases member
  | succ depth ih =>
    rw [ancestorsUpTo] at member
    rcases List.mem_cons.mp member with same | member
    · exact .inl same
    · cases extends_ : (h name).bind ClassHeader.superName with
      | none =>
        rw [extends_] at member
        cases member
      | some parent =>
        rw [extends_] at member
        have lower := ranks.descends extends_
        rcases ih member with rfl | ⟨lower', class_⟩
        · exact .inr ⟨lower, grounded.classes name ancestor extends_⟩
        · exact .inr ⟨Nat.lt_trans lower' lower, class_⟩

/-! ## Weights -/

/-- How far a name is from the root class. -/
def weight (rank : String → Nat) (name : List Char) : Nat :=
  match name with
  | '[' :: left =>
    match eq : elementName left with
    | some x =>
      have : x.length ≤ left.length := length_elementName_le eq
      weight rank x + if arrayOf x = '[' :: left then 1 else 2
    | none => 1
  | _ => if name = objectClass.toList then 0 else rank (String.ofList name)
termination_by name.length
decreasing_by simp only [List.length_cons]; omega

theorem weight_of_class {name : List Char} (class_ : name.head? ≠ some '[') :
    weight rank name = if name = objectClass.toList then 0 else rank (String.ofList name) := by
  rw [weight.eq_def]
  split
  · exact absurd rfl class_
  · rfl

theorem weight_array {left x : List Char} (elements : elementName left = some x) :
    weight rank ('[' :: left) = weight rank x + if arrayOf x = '[' :: left then 1 else 2 := by
  rw [weight]
  split
  · next found =>
    rw [elements] at found
    cases found
    rfl
  · next found =>
    rw [elements] at found
    cases found

theorem weight_primitives {left : List Char} (elements : elementName left = none) :
    weight rank ('[' :: left) = 1 := by
  rw [weight]
  split
  · next found =>
    rw [elements] at found
    cases found
  · rfl

@[simp]
theorem weight_arrayOf (x : List Char) : weight rank (arrayOf x) = weight rank x + 1 := by
  obtain ⟨left, array, elements⟩ := elementName_arrayOf x
  rw [array, weight_array elements, if_pos array]

theorem weight_objectClass : weight rank objectClass.toList = 0 := by
  rw [weight_of_class (by decide), if_pos rfl]

/-- A name weighs at most its characters and the length of a chain. -/
theorem weight_le {depth : Nat} (low : ∀ name, rank name ≤ depth) (name : List Char) :
    weight rank name ≤ name.length + depth := by
  induction size : name.length using Nat.strong_induction_on generalizing name with
  | _ n ih =>
  by_cases array : name.head? = some '['
  · obtain ⟨left, rfl⟩ := List.head?_eq_some_iff.mp array
    rw [List.length_cons] at size
    cases elements : elementName left with
    | none =>
      rw [weight_primitives elements]
      omega
    | some x =>
      have shorter := length_elementName_le elements
      have inner := ih x.length (by omega) x rfl
      rw [weight_array elements]
      -- only a class name has fewer characters than its descriptor
      unfold elementName at elements
      split at elements
      · cases elements
        simp only [List.length_cons] at inner size shorter
        rw [if_pos (by rfl)]
        omega
      · split at elements
        · cases elements
          simp only [List.length_dropLast, List.length_cons] at inner size
          split <;> omega
        · cases elements
      · cases elements
  · rw [weight_of_class array]
    split
    · exact Nat.zero_le _
    · exact Nat.le_add_left_of_le (low _)

/-- Only the root class weighs nothing. -/
theorem eq_or_weight_pos (ranks : h.Ranks rank) (name : List Char) :
    name = objectClass.toList ∨ 0 < weight rank name := by
  by_cases array : name.head? = some '['
  · obtain ⟨left, rfl⟩ := List.head?_eq_some_iff.mp array
    cases elements : elementName left with
    | none => exact .inr (by rw [weight_primitives elements]; exact Nat.one_pos)
    | some x =>
      refine .inr ?_
      rw [weight_array elements]
      split <;> omega
  · rw [weight_of_class array]
    split
    · next same => exact .inl same
    · exact .inr (ranks.positive _)

/-- The join of a name with the root class. -/
theorem root_lighter (ranks : h.Ranks rank) (name : List Char) :
    objectClass.toList = name ∨ weight rank objectClass.toList < weight rank name := by
  rw [weight_objectClass]
  exact (eq_or_weight_pos ranks name).imp_left Eq.symm

/-- The closest common superclass of a class and another one is the class itself, or it is above. -/
theorem commonSuperclass_lighter (grounded : h.Grounded) (ranks : h.Ranks rank) {a : List Char}
    (class_ : a.head? ≠ some '[') (b : String) :
    (h.commonSuperclass (String.ofList a) b).toList = a ∨
      weight rank (h.commonSuperclass (String.ofList a) b).toList < weight rank a := by
  rcases h.commonSuperclass_mem (String.ofList a) b with root | ⟨member, -⟩
  · rw [root]
    exact root_lighter ranks a
  · by_cases top : a = objectClass.toList
    · rw [top, String.ofList_toList, ancestors_objectClass grounded.rooted] at member
      rw [top, String.ofList_toList, List.mem_singleton.mp member]
      exact .inl rfl
    · rcases ranks.lt_of_mem grounded member with same | ⟨lower, above⟩
      · exact .inl (by rw [same, String.toList_ofList])
      · refine .inr ?_
        rw [weight_of_class class_, if_neg top, weight_of_class above, String.ofList_toList]
        split
        · exact ranks.positive _
        · exact lower

/-- A join of names is the first one, or it is above it. -/
theorem mergeNames_lighter (grounded : h.Grounded) (ranks : h.Ranks rank) (a b : List Char) :
    h.mergeNames a b = a ∨ weight rank (h.mergeNames a b) < weight rank a := by
  fun_induction mergeNames h a b with
  | case1 a => exact .inl rfl
  | case2 left right x y source target _ _ ih =>
    rw [weight_arrayOf, weight_array source]
    rcases ih with same | lighter
    · rw [same]
      by_cases short : arrayOf x = '[' :: left
      · exact .inl short
      · rw [if_neg short]
        exact .inr (by omega)
    · refine .inr ?_
      split <;> omega
  | case3 | case4 | case5 => exact root_lighter ranks _
  | case6 a b _ left right =>
    refine commonSuperclass_lighter grounded ranks (fun array => ?_) (String.ofList b)
    obtain ⟨rest, rfl⟩ := List.head?_eq_some_iff.mp array
    exact left rest rfl

end Hierarchy

/-! ## Types -/

/-- Objects of the type have names of at most some weight. -/
def VerificationType.Light (rank : String → Nat) (most : Nat) : VerificationType → Prop
  | .object name => Hierarchy.weight rank name.toList ≤ most
  | _ => True

/-- How often a type can still change, if names weigh at most so much. -/
def VerificationType.weight (rank : String → Nat) (most : Nat) : VerificationType → Nat
  | .top => 0
  | .null => most + 2
  | .object name => Hierarchy.weight rank name.toList + 1
  | _ => 1

variable {h : Hierarchy} {rank : String → Nat} {most : Nat}

theorem VerificationType.Light.weight_le {type : VerificationType} (light : type.Light rank most) :
    type.weight rank most ≤ most + 2 := by
  cases type with
  | object name => exact Nat.le_succ_of_le (Nat.succ_le_succ light)
  | _ => simp only [weight]; omega

/-- A join of types is the first one, or it is above it. -/
theorem Hierarchy.merge_lighter (grounded : h.Grounded) (ranks : h.Ranks rank)
    {a b : VerificationType} (light : a.Light rank most) (light' : b.Light rank most) :
    (h.merge a b).Light rank most ∧
      (h.merge a b = a ∨ (h.merge a b).weight rank most < a.weight rank most) := by
  unfold merge
  split
  · exact ⟨light, .inl rfl⟩
  split
  · next name =>
    exact ⟨light', .inr (Nat.succ_lt_succ (Nat.lt_succ_of_le light'))⟩
  · exact ⟨light, .inl rfl⟩
  · next left right _ =>
    rw [mergeReferences]
    rcases mergeNames_lighter grounded ranks left.toList right.toList with same | lighter
    · rw [same, String.ofList_toList]
      exact ⟨light, .inl rfl⟩
    · have less : (VerificationType.object (String.ofList (h.mergeNames left.toList right.toList))).weight
          rank most < (VerificationType.object left).weight rank most := by
        simp only [VerificationType.weight, String.toList_ofList]
        omega
      refine ⟨?_, .inr less⟩
      have light : weight rank left.toList ≤ most := light
      simp only [VerificationType.Light, String.toList_ofList]
      omega
  · refine ⟨trivial, ?_⟩
    cases a with
    | top => exact .inl rfl
    | object name => exact .inr (Nat.succ_pos _)
    | null => exact .inr (Nat.succ_pos _)
    | _ => exact .inr Nat.one_pos

/-- A join of slots leaves them as they are, or some of them ascend. -/
theorem TypeFrame.mergeSlots_lighter (grounded : h.Grounded) (ranks : h.Ranks rank)
    {old incoming : List VerificationType} (light : ∀ type ∈ old, type.Light rank most)
    (light' : ∀ type ∈ incoming, type.Light rank most) :
    (∀ type ∈ mergeSlots h old incoming, type.Light rank most) ∧
      (mergeSlots h old incoming = old ∨
        total (VerificationType.weight rank most) (mergeSlots h old incoming) <
          total (VerificationType.weight rank most) old) := by
  induction old generalizing incoming with
  | nil => exact ⟨by simp [mergeSlots], .inl (by simp [mergeSlots])⟩
  | cons a old ih =>
    cases incoming with
    | nil => exact ⟨by simpa [mergeSlots] using light, .inl (by simp [mergeSlots])⟩
    | cons b incoming =>
      obtain ⟨here, rest⟩ := List.forall_mem_cons.mp light
      obtain ⟨here', rest'⟩ := List.forall_mem_cons.mp light'
      obtain ⟨first, lighter⟩ := h.merge_lighter grounded ranks here here'
      obtain ⟨others, lighter'⟩ := ih rest rest'
      have split : mergeSlots h (a :: old) (b :: incoming) = h.merge a b :: mergeSlots h old incoming := rfl
      rw [split]
      refine ⟨List.forall_mem_cons.mpr ⟨first, others⟩, ?_⟩
      simp only [total_cons]
      rcases lighter with same | less <;> rcases lighter' with same' | less'
      · exact .inl (by rw [same, same'])
      · exact .inr (by rw [same]; omega)
      · exact .inr (by rw [same']; omega)
      · exact .inr (by omega)

end Bytecode
