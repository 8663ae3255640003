import Bytecode.Method

/-!
# Classes

A class as the library edits it. Fields, annotations and most attributes are carried along as they
were read. A class that was read from a file keeps the constant pool and the bootstrap methods of
that file, because carried parts refer to them by number.
-/

namespace Bytecode

/-- A field declaration. -/
structure Field where
  access : Access
  name : String
  descriptor : String
  attributes : List Attribute := []
  deriving Repr, Inhabited

/-- The use of an annotation: the descriptor of its type, and its element values as they were read.
-/
structure AnnotationUse where
  descriptor : String
  body : Bytes
  deriving DecidableEq, Repr, Inhabited

/-- A bootstrap method: the slots of its handle and of its arguments in a constant pool. -/
structure BootstrapMethod where
  handle : UInt16
  arguments : List UInt16
  deriving DecidableEq, Hashable, Repr, Inhabited

/-- The parts of the file that a class was read from which carried parts refer to: the constant
pool, from its slot count on, and the bootstrap methods. -/
structure ClassOrigin where
  pool : Bytes
  bootstraps : List BootstrapMethod
  deriving Repr, Inhabited

/-- A class. -/
structure Class where
  majorVersion : UInt16 := 52
  minorVersion : UInt16 := 0
  access : Access := 0x0021
  name : String
  superName : Option String := none
  interfaces : List String := []
  fields : List Field := []
  methods : List Method := []
  visibleAnnotations : List AnnotationUse := []
  invisibleAnnotations : List AnnotationUse := []
  attributes : List Attribute := []
  origin : Option ClassOrigin := none
  deriving Repr, Inhabited

namespace Class

/-- The method of a name and descriptor. -/
def method? (c : Class) (name descriptor : String) : Option Method :=
  c.methods.find? fun m => m.name == name && m.descriptor == descriptor

/-- The part of the name up to the last slash, slash included. -/
def package (c : Class) : String :=
  String.ofList (c.name.toList.reverse.dropWhile (· != '/')).reverse

/-- Whether the class is an interface. -/
def isInterface (c : Class) : Bool :=
  c.access &&& 0x0200 != 0

/-- A class whose methods have new identities. -/
def copy (c : Class) : Fresh Class :=
  return { c with methods := ← c.methods.mapM Method.copy }

end Class

end Bytecode
