import Bytecode.Descriptor

/-!
# Verification types and the class hierarchy

A verification type says what the virtual machine has to know about a word of the stack or a local
variable before an instruction. Where control flow joins, types are merged: equal types stay, two
references become one to their closest common superclass, and all else becomes `top`, of which
nothing is known.

The superclasses come from a `Hierarchy`, which need not know every class. Nothing keeps a class
from being its own ancestor; chains of superclasses are therefore followed up to a depth.
-/

namespace Bytecode

/-- What is known about a word before an instruction. A new object that is not initialized yet is
named by the position of the instruction that created it. Objects are named by their class, arrays
by their descriptor. -/
inductive VerificationType where
  | top
  | integer
  | float
  | long
  | double
  | null
  | uninitializedThis
  | uninitialized (creation : Nat)
  | object (name : String)
  deriving DecidableEq, Repr, Inhabited

namespace VerificationType

/-- The type of the values that a descriptor describes; `void` has none. -/
def ofDescriptor : Descriptor → Option VerificationType
  | .void => none
  | .boolean | .char | .byte | .short | .int => some integer
  | .float => some float
  | .long => some long
  | .double => some double
  | .object name => some (object name)
  | .array element => some (object (Descriptor.array element).text)

/-- Whether a value of the type takes two words, of which the second is `top`. -/
def isWide : VerificationType → Bool
  | long | double => true
  | _ => false

end VerificationType

/-- The name of the class that every class descends from. -/
def objectClass : String := "java/lang/Object"

/-- What the hierarchy tells about a class. -/
structure ClassHeader where
  superName : Option String
  isInterface : Bool
  deriving DecidableEq, Repr

/-- The classes that are known. -/
abbrev Hierarchy := String → Option ClassHeader

namespace Hierarchy

/-- How many classes of a chain of superclasses are looked at. -/
def maxDepth : Nat := 256

/-- A class and its superclasses from the closest on, as far as they are known, up to a number. -/
def ancestorsUpTo (h : Hierarchy) : Nat → String → List String
  | 0, _ => []
  | depth + 1, name =>
    name :: match (h name).bind ClassHeader.superName with
      | some parent => ancestorsUpTo h depth parent
      | none => []

/-- A class and its superclasses from the closest on, as far as they are known. -/
def ancestors (h : Hierarchy) (name : String) : List String :=
  h.ancestorsUpTo maxDepth name

/-- Whether a class is known to be an interface. -/
def isInterface (h : Hierarchy) (name : String) : Bool :=
  (h name).any ClassHeader.isInterface

/-- The closest common superclass of two classes. Interfaces have none but the root. -/
def commonSuperclass (h : Hierarchy) (a b : String) : String :=
  if a = b then a
  else if h.isInterface a || h.isInterface b then objectClass
  else
    let chain := h.ancestors a
    ((h.ancestors b).find? chain.contains).getD objectClass

/-- The name under which a reference to the elements of an array is known, given their descriptor.
-/
def elementName : List Char → Option (List Char)
  | '[' :: rest => some ('[' :: rest)
  | 'L' :: rest => if rest.getLast? = some ';' then some rest.dropLast else none
  | _ => none

theorem length_elementName_le {cs name : List Char} (h : elementName cs = some name) :
    name.length ≤ cs.length := by
  unfold elementName at h
  split at h
  · cases h; exact Nat.le_refl _
  · split at h
    · cases h
      simp only [List.length_dropLast, List.length_cons]
      omega
    · cases h
  · cases h

/-- The descriptor of an array whose elements are known under a name. -/
def arrayOf (name : List Char) : List Char :=
  match name with
  | '[' :: _ => '[' :: name
  | _ => '[' :: 'L' :: name ++ [';']

/-- The name of the closest common supertype of two references. Arrays of references are covariant.
-/
def mergeNames (h : Hierarchy) (a b : List Char) : List Char :=
  if a = b then a
  else match a, b with
    | '[' :: left, '[' :: right =>
      match eq : elementName left, elementName right with
      | some x, some y =>
        have : x.length ≤ left.length := length_elementName_le eq
        arrayOf (mergeNames h x y)
      | _, _ => objectClass.toList
    | '[' :: _, _ | _, '[' :: _ => objectClass.toList
    | _, _ => (h.commonSuperclass (String.ofList a) (String.ofList b)).toList
termination_by a.length
decreasing_by simp only [List.length_cons]; omega

/-- The name of the closest common supertype of two references. -/
def mergeReferences (h : Hierarchy) (a b : String) : String :=
  String.ofList (h.mergeNames a.toList b.toList)

/-- What is known about a word that comes from either of two words. -/
def merge (h : Hierarchy) (a b : VerificationType) : VerificationType :=
  if a = b then a
  else match a, b with
    | .null, .object _ => b
    | .object _, .null => a
    | .object left, .object right => .object (h.mergeReferences left right)
    | _, _ => .top

theorem merge_self (h : Hierarchy) (type : VerificationType) : h.merge type type = type :=
  if_pos rfl

end Hierarchy

end Bytecode
