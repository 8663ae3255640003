import Bytecode.Proofs.Verification.Ancestry
import Bytecode.Proofs.Verification.Visits

/-!
# Merging is a join

Where the superclasses form a forest, merging verification types is idempotent (`merge_self`),
commutative (`merge_comm`) and associative (`merge_assoc`).

Names are merged as texts. `Reference` takes a well-formed name apart, and `Reference.join` is the
recursion that `mergeNames` is on the texts: common superclasses are inside of arrays as they are
outside of them, and references that have nothing else in common have the root class. Types that are
not both references have nothing in common unless they are one type, so that the laws are proved of
references and of all other types apart.
-/

namespace Bytecode

/-- The classes in a descriptor have the names of classes, and void is not in it. -/
def Descriptor.Proper : Descriptor → Prop
  | .void => False
  | .object name => Hierarchy.IsClassName name
  | .array element => element.Proper
  | _ => True

/-- An object is named by the name of a class, or by the descriptor of an array. -/
def VerificationType.WellFormed (type : VerificationType) : Prop :=
  ∀ name, type = .object name → ∃ d : Descriptor, d.Proper ∧ ofDescriptor d = some type

/-- The type is that of null, of a class or of an array. -/
def VerificationType.IsReference : VerificationType → Prop
  | .null | .object _ => True
  | _ => False

theorem VerificationType.IsReference.cases {type : VerificationType}
    (reference : type.IsReference) :
    type = .null ∨ ∃ name, type = .object name := by
  cases type with
  | null => exact .inl rfl
  | object name => exact .inr ⟨name, rfl⟩
  | _ => exact reference.elim

namespace Hierarchy

variable {h : Hierarchy}

/-! ## Names -/

/-- A class, an array of values that are no references, or an array of references. -/
inductive Reference where
  | class_ (name : String)
  | values (element : Descriptor)
  | array (element : Reference)

namespace Reference

/-- The name of a class, or the descriptor of an array. -/
def name : Reference → List Char
  | class_ name => name.toList
  | values element => '[' :: element.chars
  | array element => arrayOf element.name

/-- The class has the name of a class, and the values are no references. -/
def Proper : Reference → Prop
  | class_ name => IsClassName name
  | values element => element.Proper ∧ elementName element.chars = none
  | array element => element.Proper

/-- The closest common supertype of two references. -/
def join (h : Hierarchy) : Reference → Reference → Reference
  | class_ a, class_ b => class_ (h.commonSuperclass a b)
  | values x, values y => if x = y then values x else class_ objectClass
  | array x, array y => array (join h x y)
  | _, _ => class_ objectClass

end Reference

theorem mergeNames_self (h : Hierarchy) (a : List Char) : h.mergeNames a a = a := by
  unfold mergeNames
  exact if_pos rfl

/-- Classes have their common superclass. -/
theorem mergeNames_classes {a b : String} (left : IsClassName a) (right : IsClassName b) :
    h.mergeNames a.toList b.toList = (h.commonSuperclass a b).toList := by
  by_cases same : a = b
  · rw [same, mergeNames_self, commonSuperclass_self]
  · unfold mergeNames
    rw [if_neg (mt String.toList_inj.mp same)]
    split
    · next first _ => exact absurd (by rw [first]; rfl) left
    · next first _ => exact absurd (by rw [first]; rfl) left
    · next first _ => exact absurd (by rw [first]; rfl) right
    · rw [String.ofList_toList, String.ofList_toList]

/-- An array and a class have the root class in common. -/
theorem mergeNames_mixed {left a : List Char} (class_ : a.head? ≠ some '[') :
    h.mergeNames ('[' :: left) a = objectClass.toList ∧
      h.mergeNames a ('[' :: left) = objectClass.toList := by
  have other : '[' :: left ≠ a := fun same => class_ (by rw [← same]; rfl)
  constructor
  · unfold mergeNames
    rw [if_neg other]
    split
    · exact absurd rfl class_
    · rfl
    · rfl
    · next first _ => exact absurd rfl (first left)
  · unfold mergeNames
    rw [if_neg other.symm]
    split
    · exact absurd rfl class_
    · rfl
    · rfl
    · next second _ => exact absurd rfl (second left)

/-- Different arrays are merged by their elements, if these are references. -/
theorem mergeNames_arrays {left right : List Char} (other : left ≠ right) :
    h.mergeNames ('[' :: left) ('[' :: right) =
      ((elementName left).bind fun x => (elementName right).map fun y =>
        arrayOf (h.mergeNames x y)).getD objectClass.toList := by
  rw [mergeNames.eq_def h ('[' :: left), if_neg (mt (fun same => (List.cons.inj same).2) other)]
  split
  · next left' right' same same' =>
    obtain rfl := (List.cons.inj same).2
    obtain rfl := (List.cons.inj same').2
    split
    · next x y found found' =>
      simp only [found, found', Option.bind_some, Option.map_some, Option.getD_some]
    · next missing =>
      cases found : elementName left with
      | none => rfl
      | some x =>
        cases found' : elementName right with
        | none => rfl
        | some y => exact absurd found' (missing x y found)
  · next none_ => exact absurd rfl (none_ right)
  · next none_ => exact absurd rfl (none_ left)
  · next none_ _ _ => exact absurd rfl (none_ left)

/-- Arrays of references are merged like their elements. -/
theorem mergeNames_arrayOf (x y : List Char) :
    h.mergeNames (arrayOf x) (arrayOf y) = arrayOf (h.mergeNames x y) := by
  by_cases same : x = y
  · rw [same, mergeNames_self, mergeNames_self]
  · obtain ⟨left, array, element⟩ := elementName_arrayOf x
    obtain ⟨right, array', element'⟩ := elementName_arrayOf y
    have other : left ≠ right := by
      rintro rfl
      rw [element] at element'
      exact same (Option.some.inj element')
    rw [array, array', mergeNames_arrays other, element, element']
    rfl

/-- Arrays of values have only the root class in common with other arrays. -/
theorem mergeNames_values {left right : List Char} (other : left ≠ right)
    (values : elementName left = none ∨ elementName right = none) :
    h.mergeNames ('[' :: left) ('[' :: right) = objectClass.toList := by
  rw [mergeNames_arrays other]
  rcases values with none_ | none_
  · rw [none_]
    rfl
  · rw [none_]
    cases elementName left <;> rfl

namespace Reference

variable (forest : h.Forest)

/-- Types of values that are no references have descriptors of their own. -/
theorem values_inj {x y : Descriptor} (left : (values x).Proper) (same : x.chars = y.chars) :
    x = y := by
  obtain ⟨-, value⟩ := left
  cases x <;> cases y <;> simp_all [Descriptor.chars, elementName]

/-- Merging names is joining the references that they name. -/
theorem mergeNames_name {r s : Reference} (left : r.Proper) (right : s.Proper) :
    h.mergeNames r.name s.name = (r.join h s).name := by
  -- two arrays of references are the only case in which the merge goes on with shorter names
  induction r generalizing s with
  | class_ a =>
    cases s with
    | class_ b => exact mergeNames_classes left right
    | values y => exact (mergeNames_mixed left).2
    | array y =>
      obtain ⟨element, array, -⟩ := elementName_arrayOf y.name
      rw [name, name, array]
      exact (mergeNames_mixed left).2
  | values x =>
    cases s with
    | class_ b => exact (mergeNames_mixed right).1
    | values y =>
      by_cases same : x = y
      · rw [same, mergeNames_self, join, if_pos rfl]
      · rw [join, if_neg same]
        exact mergeNames_values (mt (values_inj left) same) (.inl left.2)
    | array y =>
      obtain ⟨element, array, named⟩ := elementName_arrayOf y.name
      rw [name, name, array]
      refine mergeNames_values ?_ (.inl left.2)
      rintro rfl
      rw [left.2] at named
      cases named
  | array x ih =>
    cases s with
    | class_ b =>
      obtain ⟨element, array, -⟩ := elementName_arrayOf x.name
      rw [name, name, array]
      exact (mergeNames_mixed right).1
    | values y =>
      obtain ⟨element, array, named⟩ := elementName_arrayOf x.name
      rw [name, name, array]
      refine mergeNames_values ?_ (.inr right.2)
      rintro rfl
      rw [right.2] at named
      cases named
    | array y =>
      rw [name, name, mergeNames_arrayOf, ih (s := y) left right, join, name]

include forest

theorem join_comm (r s : Reference) : r.join h s = s.join h r := by
  induction r generalizing s with
  | class_ a =>
    cases s with
    | class_ b => rw [join, join, forest.commonSuperclass_comm]
    | values | array => rfl
  | values x =>
    cases s with
    | values y =>
      by_cases same : x = y
      · rw [same]
      · rw [join, join, if_neg same, if_neg (Ne.symm same)]
    | class_ | array => rfl
  | array x ih =>
    cases s with
    | array y => rw [join, join, ih y]
    | class_ | values => rfl

theorem join_assoc (r s t : Reference) :
    (r.join h s).join h t = r.join h (s.join h t) := by
  have root (a : String) : h.commonSuperclass objectClass a = objectClass := by
    rw [forest.commonSuperclass_comm, forest.commonSuperclass_root]
  -- references of different shapes have only the root class in common, which absorbs the third one
  induction r generalizing s t with
  | class_ a =>
    cases s <;> cases t <;>
      simp only [join, root, forest.commonSuperclass_root, forest.commonSuperclass_assoc]
    split <;> simp only [join, forest.commonSuperclass_root]
  | values x =>
    cases s <;> cases t <;> simp only [join, root]
    case values.values y z =>
      by_cases first : x = y <;> by_cases second : y = z <;> simp_all [join]
    all_goals split <;> simp only [join, root]
  | array x ih =>
    cases s <;> cases t <;> simp only [join, root, ih]
    split <;> simp only [join]

/-- What two references have in common is named as they are. -/
theorem proper_join {r s : Reference} (left : r.Proper) (right : s.Proper) :
    (r.join h s).Proper := by
  have root : (class_ objectClass).Proper := by
    show IsClassName objectClass
    decide
  induction r generalizing s with
  | class_ a =>
    cases s with
    | class_ b => exact forest.isClassName_commonSuperclass left b
    | values | array => exact root
  | values x =>
    cases s with
    | values y =>
      rw [join]
      split
      · exact left
      · exact root
    | class_ | array => exact root
  | array x ih =>
    cases s with
    | array y => exact ih (s := y) left right
    | class_ | values => exact root

/-! ## References by their descriptors -/

omit forest

/-- The descriptor of a reference. -/
def descriptor : Reference → Descriptor
  | class_ name => .object name
  | values element => .array element
  | array element => .array element.descriptor

theorem arrayOf_name {r : Reference} (proper : r.Proper) :
    arrayOf r.name = '[' :: r.descriptor.chars := by
  induction r with
  | class_ a =>
    unfold arrayOf
    split
    · next named => exact absurd (by rw [name] at named; rw [named]; rfl) proper
    · rfl
  | values x => rfl
  | array x ih =>
    rw [name, ih proper]
    rfl

theorem ofDescriptor_descriptor {r : Reference} (proper : r.Proper) :
    VerificationType.ofDescriptor r.descriptor = some (.object (String.ofList r.name)) := by
  cases r with
  | class_ a => rw [name, String.ofList_toList]; rfl
  | values x => rfl
  | array x => rw [name, arrayOf_name (r := x) proper]; rfl

theorem proper_descriptor {r : Reference} (proper : r.Proper) : r.descriptor.Proper := by
  induction r with
  | class_ a => exact proper
  | values x => exact proper.1
  | array x ih => exact ih proper

/-- A descriptor is that of a reference, or no name can be taken out of an array of its type. -/
theorem exists_descriptor_eq {d : Descriptor} (proper : d.Proper) :
    elementName d.chars = none ∨ ∃ r : Reference, r.Proper ∧ r.descriptor = d := by
  induction d with
  | object name => exact .inr ⟨class_ name, proper, rfl⟩
  | array element ih =>
    rcases ih proper with values_ | ⟨r, named, rfl⟩
    · exact .inr ⟨values element, ⟨proper, values_⟩, rfl⟩
    · exact .inr ⟨array r, named, rfl⟩
  | _ => exact .inl rfl

/-- The type of the references that are named like this one. -/
def type (r : Reference) : VerificationType :=
  .object (String.ofList r.name)

theorem wellFormed_type {r : Reference} (proper : r.Proper) : r.type.WellFormed := by
  intro name same
  cases same
  exact ⟨r.descriptor, proper_descriptor proper, ofDescriptor_descriptor proper⟩

/-- A well-formed object type is that of a reference. -/
theorem exists_type_eq {name : String} (wellFormed : (VerificationType.object name).WellFormed) :
    ∃ r : Reference, r.Proper ∧ r.type = .object name := by
  obtain ⟨d, proper, named⟩ := wellFormed name rfl
  rcases exists_descriptor_eq proper with values_ | ⟨r, proper', rfl⟩
  · -- the descriptors of objects and of arrays name a reference
    cases d <;> simp_all [VerificationType.ofDescriptor, Descriptor.chars, elementName]
  · exact ⟨r, proper', Option.some.inj ((ofDescriptor_descriptor proper').symm.trans named)⟩

end Reference

/-! ## Types -/

variable {a b c : VerificationType}

theorem merge_object (left right : String) :
    h.merge (.object left) (.object right) = .object (h.mergeReferences left right) := by
  by_cases same : left = right
  · rw [same, merge_self, mergeReferences, mergeNames_self, String.ofList_toList]
  · rw [merge, if_neg (mt VerificationType.object.inj same)]

theorem merge_type {r s : Reference} (left : r.Proper) (right : s.Proper) :
    h.merge r.type s.type = (r.join h s).type := by
  rw [Reference.type, Reference.type, merge_object, mergeReferences, String.toList_ofList,
    String.toList_ofList, Reference.mergeNames_name left right, Reference.type]

/-- Null is below every reference. -/
theorem merge_null (reference : a.IsReference) : h.merge .null a = a ∧ h.merge a .null = a := by
  rcases reference.cases with rfl | ⟨name, rfl⟩
  · exact ⟨merge_self h _, merge_self h _⟩
  · exact ⟨rfl, rfl⟩

/-- Different types that are not both references have nothing in common. -/
theorem merge_of_ne (other : a ≠ b) (plain : ¬(a.IsReference ∧ b.IsReference)) :
    h.merge a b = .top := by
  unfold merge
  rw [if_neg other]
  split
  · exact absurd ⟨trivial, trivial⟩ plain
  · exact absurd ⟨trivial, trivial⟩ plain
  · exact absurd ⟨trivial, trivial⟩ plain
  · rfl

theorem isReference_merge (left : a.IsReference) (right : b.IsReference) :
    (h.merge a b).IsReference := by
  rcases left.cases with rfl | ⟨name, rfl⟩
  · rw [(merge_null right).1]
    exact right
  · rcases right.cases with rfl | ⟨name', rfl⟩
    · rw [(merge_null left).2]
      exact left
    · rw [merge_object]
      trivial

/-- Three types that are not all references have something in common only if they are one type. -/
theorem merge_merge_of_plain (plain : ¬(a.IsReference ∧ b.IsReference ∧ c.IsReference)) :
    h.merge (h.merge a b) c = if a = b ∧ b = c then a else .top := by
  by_cases first : a = b
  · subst first
    rw [merge_self]
    by_cases second : a = c
    · rw [← second, merge_self, if_pos ⟨rfl, rfl⟩]
    · rw [if_neg fun both => second both.2]
      exact merge_of_ne second fun both => plain ⟨both.1, both⟩
  · rw [if_neg fun both => first both.1]
    by_cases references : a.IsReference ∧ b.IsReference
    · have merged := isReference_merge (h := h) references.1 references.2
      have third (reference : c.IsReference) := plain ⟨references.1, references.2, reference⟩
      exact merge_of_ne (fun same => third (same ▸ merged)) fun both => third both.2
    · rw [merge_of_ne first references]
      by_cases top : .top = c
      · rw [← top, merge_self]
      · exact merge_of_ne top And.left

/-- A well-formed reference is null, or it has a descriptor. -/
theorem eq_null_or_type (wellFormed : a.WellFormed) (reference : a.IsReference) :
    a = .null ∨ ∃ r : Reference, r.Proper ∧ a = r.type := by
  rcases reference.cases with rfl | ⟨name, rfl⟩
  · exact .inl rfl
  · obtain ⟨r, proper, same⟩ := Reference.exists_type_eq wellFormed
    exact .inr ⟨r, proper, same.symm⟩

variable (forest : h.Forest)
include forest

/-- Merging well-formed types gives a well-formed type. -/
theorem wellFormed_merge (left : a.WellFormed) (right : b.WellFormed) :
    (h.merge a b).WellFormed := by
  by_cases references : a.IsReference ∧ b.IsReference
  · rcases eq_null_or_type left references.1 with rfl | ⟨r, proper, rfl⟩
    · rw [(merge_null references.2).1]
      exact right
    rcases eq_null_or_type right references.2 with rfl | ⟨s, proper', rfl⟩
    · rw [(merge_null references.1).2]
      exact left
    rw [merge_type proper proper']
    exact Reference.wellFormed_type (Reference.proper_join forest proper proper')
  · by_cases same : a = b
    · rw [same, merge_self]
      exact right
    · rw [merge_of_ne same references]
      exact nofun

theorem merge_comm (left : a.WellFormed) (right : b.WellFormed) : h.merge a b = h.merge b a := by
  by_cases references : a.IsReference ∧ b.IsReference
  · rcases eq_null_or_type left references.1 with rfl | ⟨r, proper, rfl⟩
    · rw [(merge_null references.2).1, (merge_null references.2).2]
    rcases eq_null_or_type right references.2 with rfl | ⟨s, proper', rfl⟩
    · rw [(merge_null references.1).1, (merge_null references.1).2]
    rw [merge_type proper proper', merge_type proper' proper, Reference.join_comm forest]
  · by_cases same : a = b
    · rw [same]
    · rw [merge_of_ne same references, merge_of_ne (Ne.symm same) (mt And.symm references)]

theorem merge_assoc (first : a.WellFormed) (second : b.WellFormed) (third : c.WellFormed) :
    h.merge (h.merge a b) c = h.merge a (h.merge b c) := by
  by_cases references : a.IsReference ∧ b.IsReference ∧ c.IsReference
  · obtain ⟨ref, ref', ref''⟩ := references
    rcases eq_null_or_type first ref with rfl | ⟨r, proper, rfl⟩
    · rw [(merge_null ref').1, (merge_null (isReference_merge ref' ref'')).1]
    rcases eq_null_or_type second ref' with rfl | ⟨s, proper', rfl⟩
    · rw [(merge_null ref).2, (merge_null ref'').1]
    rcases eq_null_or_type third ref'' with rfl | ⟨t, proper'', rfl⟩
    · rw [(merge_null ref').2, (merge_null (isReference_merge ref ref')).2]
    have inner := Reference.proper_join forest proper proper'
    have inner' := Reference.proper_join forest proper' proper''
    rw [merge_type proper proper', merge_type inner proper'', merge_type proper' proper'',
      merge_type proper inner', Reference.join_assoc forest]
  · -- grouped the other way, it is this case with the ends exchanged
    have exchanged : ¬(c.IsReference ∧ b.IsReference ∧ a.IsReference) :=
      fun ⟨ref'', ref', ref⟩ => references ⟨ref, ref', ref''⟩
    rw [merge_comm forest first (wellFormed_merge forest second third),
      merge_comm forest second third, merge_merge_of_plain references,
      merge_merge_of_plain exchanged]
    by_cases same : a = b ∧ b = c
    · obtain ⟨rfl, rfl⟩ := same
      rfl
    · rw [if_neg same, if_neg fun both => same ⟨both.2.symm, both.1.symm⟩]

end Hierarchy

end Bytecode
