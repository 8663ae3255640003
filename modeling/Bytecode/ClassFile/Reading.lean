import Bytecode.ClassFile.Annotations
import Bytecode.ClassFile.Code.Decoding

/-!
# Reading classes

`Class.parse` reads a class file. Method bodies are decoded last, because dynamic constants refer to
the bootstrap methods, which are an attribute of the class. If an attribute of the class occurs
repeatedly where only one makes sense, the last one counts.
-/

namespace Bytecode

/-- The number with which every class file starts. -/
def classFileMagic : UInt32 := 0xcafebabe

/-- Reads a bootstrap method. -/
def BootstrapMethod.read : Reader BootstrapMethod :=
  return ⟨← Reader.u16, ← Reader.counted Reader.u16⟩

/-- Reads an attribute. -/
def Attribute.read (pool : ConstantPool) : Reader Attribute := do
  let name ← Reader.u16
  let data ← Reader.bytes (← Reader.u32).toNat
  return ⟨← (pool.utf8 name).mapError Failure.malformed, data⟩

/-- Reads a slot of the constant pool and the class name in it. -/
def ConstantPool.readClassName (pool : ConstantPool) : Reader String :=
  CodeContext.pooled pool.className

/-- Reads a slot of the constant pool and the text in it. -/
def ConstantPool.readUtf8 (pool : ConstantPool) : Reader String :=
  CodeContext.pooled pool.utf8

/-- Reads a field declaration. -/
def Field.read (pool : ConstantPool) : Reader Field := do
  let access ← Reader.u16
  let name ← pool.readUtf8
  let descriptor ← pool.readUtf8
  return ⟨access, name, descriptor, ← Reader.counted (Attribute.read pool)⟩

/-- A method as it is stored. -/
structure StoredMethod where
  access : Access
  name : String
  descriptor : String
  attributes : List Attribute
  code : Option CodeAttribute
  deriving Repr

namespace StoredMethod

/-- Reads a number of attributes of a method: those that hold no code, and the code, of which there
can be one. -/
def readAttributes (pool : ConstantPool) (signature : String) (code : Option CodeAttribute) :
    Nat → Reader (List Attribute × Option CodeAttribute)
  | 0 => return ([], code)
  | n + 1 => do
    let entry ← Attribute.read pool
    if entry.name = "Code" then
      if code.isSome then throw (.malformed (.repeatedCode signature))
      let (code, _) ← (CodeAttribute.read pool).run (Cursor.ofBytes entry.data)
      readAttributes pool signature (some code) n
    else
      let (attributes, code) ← readAttributes pool signature code n
      return (entry :: attributes, code)

/-- Reads a method. -/
def read (pool : ConstantPool) : Reader StoredMethod := do
  let access ← Reader.u16
  let name ← pool.readUtf8
  let descriptor ← pool.readUtf8
  let count := (← Reader.u16).toNat
  let (attributes, code) ← readAttributes pool (name ++ descriptor) none count
  return { access, name, descriptor, attributes, code }

/-- Decodes a method. -/
def decode (m : StoredMethod) (pool : ConstantPool) (bootstraps : Array BootstrapMethod) :
    TryFresh Method := do
  let header : Method := {
    id := ← Fresh.methodId
    access := m.access
    name := m.name
    descriptor := m.descriptor
    attributes := m.attributes }
  match m.code with
  | none => return header
  | some code => header.withCode code (← code.decode pool bootstraps header.signature)

end StoredMethod

/-- The parts of a class file. -/
structure StoredClass where
  majorVersion : UInt16
  minorVersion : UInt16
  pool : ConstantPool
  poolBytes : Bytes
  access : Access
  name : String
  superName : Option String
  interfaces : List String
  fields : List Field
  methods : List StoredMethod
  visibleAnnotations : List AnnotationUse := []
  invisibleAnnotations : List AnnotationUse := []
  bootstraps : List BootstrapMethod := []
  attributes : List Attribute := []
  deriving Repr

namespace StoredClass

/-- Takes up what an attribute says, if it is one of those that a class keeps in fields of its own.
-/
def accept? (c : StoredClass) (entry : Attribute) : Except Failure (Option StoredClass) := do
  match entry.name with
  | "BootstrapMethods" =>
    let (bootstraps, _) ← (Reader.counted BootstrapMethod.read).run (Cursor.ofBytes entry.data)
    return some { c with bootstraps }
  | "RuntimeVisibleAnnotations" =>
    return some { c with visibleAnnotations := ← AnnotationUse.readAll c.pool entry.data }
  | "RuntimeInvisibleAnnotations" =>
    return some { c with invisibleAnnotations := ← AnnotationUse.readAll c.pool entry.data }
  | _ => return none

/-- Reads a number of attributes of a class. Those that are kept as they are stand in front of the
ones that follow. -/
def readAttributes (c : StoredClass) : Nat → Reader StoredClass
  | 0 => return c
  | n + 1 => do
    let entry ← Attribute.read c.pool
    match ← c.accept? entry with
    | some c => c.readAttributes n
    | none =>
      let c ← c.readAttributes n
      return { c with attributes := entry :: c.attributes }

/-- Reads the name of a superclass, which is absent if its slot is zero. -/
def readSuperName (pool : ConstantPool) : Reader (Option String) := do
  match ← Reader.u16 with
  | 0 => return none
  | slot => some <$> (pool.className slot).mapError Failure.malformed

/-- Reads what stands between the constant pool and the attributes of a class. -/
def readMembers (majorVersion minorVersion : UInt16) (pool : ConstantPool) (poolBytes : Bytes) :
    Reader StoredClass := do
  let access ← Reader.u16
  let name ← pool.readClassName
  let superName ← readSuperName pool
  let interfaces ← Reader.counted pool.readClassName
  let fields ← Reader.counted (Field.read pool)
  let methods ← Reader.counted (StoredMethod.read pool)
  return { majorVersion, minorVersion, pool, poolBytes, access, name, superName, interfaces, fields,
           methods }

/-- Reads a class file. -/
def read : Reader StoredClass := do
  let magic ← Reader.u32
  if magic ≠ classFileMagic then throw (.malformed (.magic magic))
  let minorVersion ← Reader.u16
  let majorVersion ← Reader.u16
  let (pool, poolBytes) ← Reader.consumed ConstantPool.read
  let members ← readMembers majorVersion minorVersion pool poolBytes
  members.readAttributes (← Reader.u16).toNat

/-- The class whose methods have been decoded. -/
def withMethods (c : StoredClass) (methods : List Method) : Class where
  majorVersion := c.majorVersion
  minorVersion := c.minorVersion
  access := c.access
  name := c.name
  superName := c.superName
  interfaces := c.interfaces
  fields := c.fields
  methods
  visibleAnnotations := c.visibleAnnotations
  invisibleAnnotations := c.invisibleAnnotations
  attributes := c.attributes
  origin := some ⟨c.poolBytes, c.bootstraps⟩

/-- Decodes the method bodies of a class. -/
def decode (c : StoredClass) : TryFresh Class := do
  let bootstraps := c.bootstraps.toArray
  return c.withMethods (← c.methods.mapM fun m => m.decode c.pool bootstraps)

end StoredClass

/-- Reads the class of a class file. What follows it is ignored. -/
def Class.parse (data : Bytes) : TryFresh Class := do
  if data.isEmpty then throw .empty
  let (stored, _) ← StoredClass.read.run (Cursor.ofBytes data)
  stored.decode

end Bytecode
