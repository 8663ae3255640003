import Bytecode.ClassFile.Code.StackMap
import Bytecode.ClassFile.Reading

/-!
# Writing classes

`Class.encode` writes a class file. The constants that a part needs are requested in the order in
which the parts are written, and the pool is put in front at the end. The bootstrap methods are
written last, because method bodies add to them; a class attribute of that name is therefore not
carried along.
-/

namespace Bytecode

/-- The stored form of an attribute whose name is in a slot. -/
def attributeBytes (slot : UInt16) (data : Bytes) : Bytes :=
  Word.encode slot ++ Bytes.u32 data.length ++ data

/-- The stored form of attributes, one behind the other. -/
def encodeAttributes : List Attribute → Building Bytes
  | [] => return []
  | a :: rest => do
    let encoded := attributeBytes (← Building.utf8 a.name) a.data
    return encoded ++ (← encodeAttributes rest)

/-- The stored form of counted attributes. -/
def encodeCounted (attributes : List Attribute) : Building Bytes :=
  return Bytes.u16 attributes.length ++ (← encodeAttributes attributes)

/-- The stored form of a field declaration. -/
def Field.encode (f : Field) : Building Bytes := do
  let name ← Building.utf8 f.name
  let descriptor ← Building.utf8 f.descriptor
  return Word.encode f.access ++ Word.encode name ++ Word.encode descriptor ++
    (← encodeCounted f.attributes)

/-- The stored form of a table inside a code attribute, unless it is empty. Its name is requested
behind its entries. -/
def codeTable (name : String) (entries : List Bytes) : Building (List Bytes) := do
  if entries.isEmpty then return []
  let data := Bytes.u16 entries.length ++ entries.flatten
  return [attributeBytes (← Building.utf8 name) data]

namespace Method

/-- The contents of the code attribute of a method. -/
def encodeCode (m : Method) (h : Hierarchy) (version : UInt16) : Building Bytes := do
  let owner := (← get).owner
  let frames ← inferFrames h owner m
  let e ← Emission.ofBody frames m.body
  let code ← (e.assemble m.signature).mapError (Failure.write owner)
  if 65535 < code.length then Building.fail (.codeTooLong m.signature code.length)
  let exceptions ← e.exceptionEntries m.signature m.exceptions
  let lines ← codeTable "LineNumberTable" (e.lineEntries.map LineEntry.encode)
  let localVariables ← e.variableEntries (some ·.descriptor) m.localVariables
  let localVariables ← codeTable "LocalVariableTable" (localVariables.map VariableEntry.encode)
  let types ← e.variableEntries LocalVariable.signature m.localVariables
  let types ← codeTable "LocalVariableTypeTable" (types.map VariableEntry.encode)
  let stackMap ←
    if version < stackMapVersion then pure []
    else match ← e.stackMap frames m.signature m.exceptions with
      | none => pure []
      | some data => pure [attributeBytes (← Building.utf8 "StackMapTable") data]
  let tables := lines ++ localVariables ++ types ++ stackMap
  return Bytes.u16 frames.maxStack ++ Bytes.u16 frames.maxLocals ++ Bytes.u32 code.length ++ code ++
    Bytes.u16 exceptions.length ++ exceptions.flatMap ExceptionEntry.encode ++
    Bytes.u16 tables.length ++ tables.flatten

/-- The stored form of a method. The body comes first among the attributes. -/
def encode (m : Method) (h : Hierarchy) (version : UInt16) : Building Bytes := do
  let name ← Building.utf8 m.name
  let descriptor ← Building.utf8 m.descriptor
  let code : List Attribute ←
    if m.body.isEmpty then pure [] else pure [⟨"Code", ← m.encodeCode h version⟩]
  return Word.encode m.access ++ Word.encode name ++ Word.encode descriptor ++
    (← encodeCounted (code ++ m.attributes))

end Method

/-- The contents of an attribute that lists annotations. -/
def encodeAnnotations (annotations : List AnnotationUse) : Building Bytes := do
  let encoded ← annotations.mapM fun a => return Word.encode (← Building.utf8 a.descriptor) ++ a.body
  return Bytes.u16 annotations.length ++ encoded.flatten

/-- The attribute that lists annotations, unless there are none. -/
def annotationAttribute (name : String) (annotations : List AnnotationUse) :
    Building (List Attribute) := do
  if annotations.isEmpty then return []
  return [⟨name, ← encodeAnnotations annotations⟩]

namespace Class

/-- The slot of a superclass, which is zero if there is none. -/
def superSlot : Option String → Building UInt16
  | none => return 0
  | some name => Building.classRef name

/-- The stored form of what stands between the constant pool and the attributes of a class, and the
attributes that list its annotations. -/
def encodeMembers (c : Class) (h : Hierarchy) : Building (Bytes × List Attribute) := do
  let name ← Building.classRef c.name
  let superName ← superSlot c.superName
  let interfaces ← c.interfaces.mapM Building.classRef
  let fields ← c.fields.mapM Field.encode
  let methods ← c.methods.mapM fun m => m.encode h c.majorVersion
  let visible ← annotationAttribute "RuntimeVisibleAnnotations" c.visibleAnnotations
  let invisible ← annotationAttribute "RuntimeInvisibleAnnotations" c.invisibleAnnotations
  let members := Word.encode c.access ++ Word.encode name ++ Word.encode superName ++
    Bytes.u16 interfaces.length ++ interfaces.flatMap Word.encode ++
    Bytes.u16 fields.length ++ fields.flatten ++ Bytes.u16 methods.length ++ methods.flatten
  return (members, visible ++ invisible)

/-- The stored form of what follows the constant pool. -/
def encodeBody (c : Class) (h : Hierarchy) : Building Bytes := do
  let (members, annotations) ← c.encodeMembers h
  let carried := c.attributes.filter (·.name != "BootstrapMethods")
  let bootstraps : List Attribute :=
    ((← get).bootstrapTable.map fun table => ⟨"BootstrapMethods", table⟩).toList
  return members ++ (← encodeCounted (carried ++ annotations ++ bootstraps))

/-- The class file of a class, in view of the classes that are known. -/
def encode (c : Class) (known : String → Option ClassHeader) : Except Failure Bytes := do
  let builder ← PoolBuilder.ofClass c
  let (body, builder) := (c.encodeBody (c.hierarchy known)).run.run builder
  let body ← body
  return Word.encode classFileMagic ++ Word.encode c.minorVersion ++ Word.encode c.majorVersion ++
    builder.finish ++ body

end Class

end Bytecode
