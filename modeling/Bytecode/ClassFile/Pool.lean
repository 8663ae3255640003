import Bytecode.Bytes.Cursor
import Bytecode.Text.ModifiedUtf8
import Bytecode.Class

/-!
# Constant pools

A constant pool is the table of its slots. The first slot and the second one of every long and
double are unusable. The look-ups follow references from slot to slot, check that every one leads to
an entry of the right kind, and return what the entries say.
-/

/-! ## The stored form of constant pool entries

An entry is stored as a tag and then its fields. `PoolEntry.encode` and `PoolEntry.read` are the two
directions.
-/

namespace Bytecode.PoolEntry

/-- The stored form of an entry. -/
def encode : PoolEntry → Bytes
  | unusable => []
  | utf8 text =>
    let bytes := Text.encodeModified text
    1 :: Bytes.u16 bytes.length ++ bytes
  | integer value => 3 :: Word.encode value
  | float bits => 4 :: Word.encode bits
  | long value => 5 :: Word.encode value
  | double bits => 6 :: Word.encode bits
  | classRef name => 7 :: Word.encode name
  | string text => 8 :: Word.encode text
  | fieldRef owner pair => 9 :: Word.encode owner ++ Word.encode pair
  | methodRef owner pair isInterface =>
    (if isInterface then 11 else 10) :: Word.encode owner ++ Word.encode pair
  | nameAndType name descriptor => 12 :: Word.encode name ++ Word.encode descriptor
  | methodHandle kind reference => 15 :: kind :: Word.encode reference
  | methodType descriptor => 16 :: Word.encode descriptor
  | dynamic bootstrap pair => 17 :: Word.encode bootstrap ++ Word.encode pair
  | invokeDynamic bootstrap pair => 18 :: Word.encode bootstrap ++ Word.encode pair
  | module name => 19 :: Word.encode name
  | package name => 20 :: Word.encode name

/-- Reads two references. -/
def readPair (entry : UInt16 → UInt16 → PoolEntry) : Reader PoolEntry :=
  return entry (← Reader.u16) (← Reader.u16)

/-- Reads the entry of a slot. -/
def read (slot : Nat) : Reader PoolEntry := do
  let tag ← Reader.u8
  match tag with
  | 1 =>
    let bytes ← Reader.bytes (← Reader.u16).toNat
    return utf8 (← (Text.decodeModified bytes).mapError Failure.malformed)
  | 3 => return integer (← Reader.word Int32)
  | 4 => return float (← Reader.u32)
  | 5 => return long (← Reader.word Int64)
  | 6 => return double (← Reader.word UInt64)
  | 7 => return classRef (← Reader.u16)
  | 8 => return string (← Reader.u16)
  | 9 => readPair fieldRef
  | 10 => readPair (methodRef · · false)
  | 11 => readPair (methodRef · · true)
  | 12 => readPair nameAndType
  | 15 => return methodHandle (← Reader.u8) (← Reader.u16)
  | 16 => return methodType (← Reader.u16)
  | 17 => readPair dynamic
  | 18 => readPair invokeDynamic
  | 19 => return module (← Reader.u16)
  | 20 => return package (← Reader.u16)
  | _ => throw (.malformed (.poolTag tag slot))

end Bytecode.PoolEntry

/-! ## Slots -/

namespace Bytecode

/-- The slots of a constant pool. -/
structure ConstantPool where
  entries : Array PoolEntry := #[.unusable]
  deriving Repr, Inhabited

namespace ConstantPool

/-- The number of slots. -/
def size (pool : ConstantPool) : Nat :=
  pool.entries.size

/-- Reads the entries from a slot on, up to a number of slots that a wide entry may exceed by one.
-/
def readEntries (slot : Nat) : Nat → Reader (List PoolEntry)
  | 0 => return []
  | count + 1 => do
    let entry ← PoolEntry.read slot
    if entry.isWide then
      return entry :: .unusable :: (← readEntries (slot + 2) (count - 1))
    else return entry :: (← readEntries (slot + 1) count)

/-- Reads a constant pool. -/
def read : Reader ConstantPool := do
  let count := (← Reader.u16).toNat
  return ⟨(.unusable :: (← readEntries 1 (count - 1))).toArray⟩

/-- The entry of a slot. -/
def entry (pool : ConstantPool) (slot : UInt16) : Except FormatError PoolEntry :=
  match pool.entries[slot.toNat]? with
  | none | some .unusable => .error (.poolIndex slot pool.size)
  | some entry => .ok entry

/-- The text of a slot. -/
def utf8 (pool : ConstantPool) (slot : UInt16) : Except FormatError String := do
  match ← pool.entry slot with
  | .utf8 text => return text
  | other => throw (.poolRole .utf8 slot other)

/-- The name of the class of a slot. -/
def className (pool : ConstantPool) (slot : UInt16) : Except FormatError String := do
  match ← pool.entry slot with
  | .classRef name => pool.utf8 name
  | other => throw (.poolRole .classRef slot other)

/-- The name and the descriptor of a slot. -/
def nameAndType (pool : ConstantPool) (slot : UInt16) : Except FormatError (String × String) := do
  match ← pool.entry slot with
  | .nameAndType name descriptor => return (← pool.utf8 name, ← pool.utf8 descriptor)
  | other => throw (.poolRole .nameAndType slot other)

/-- A field or method of a class. -/
structure Member where
  owner : String
  name : String
  descriptor : String
  isInterface : Bool
  deriving DecidableEq, Repr

/-- The member of a class entry and a name. -/
def memberOf (pool : ConstantPool) (owner nameAndType : UInt16) (isInterface : Bool) :
    Except FormatError Member := do
  let (name, descriptor) ← pool.nameAndType nameAndType
  return ⟨← pool.className owner, name, descriptor, isInterface⟩

/-- The field or method of a slot. -/
def member (pool : ConstantPool) (slot : UInt16) : Except FormatError Member := do
  match ← pool.entry slot with
  | .fieldRef owner nameAndType => pool.memberOf owner nameAndType false
  | .methodRef owner nameAndType isInterface => pool.memberOf owner nameAndType isInterface
  | other => throw (.poolRole .member slot other)

/-- The bootstrap method, the name and the descriptor of the dynamic call site of a slot. -/
def invokeDynamic (pool : ConstantPool) (slot : UInt16) :
    Except FormatError (UInt16 × String × String) := do
  match ← pool.entry slot with
  | .invokeDynamic bootstrap nameAndType => return (bootstrap, ← pool.nameAndType nameAndType)
  | other => throw (.poolRole .invokeDynamic slot other)

/-- The handle of a slot. -/
def handle (pool : ConstantPool) (slot : UInt16) : Except FormatError Handle := do
  match ← pool.entry slot with
  | .methodHandle kind reference =>
    let m ← pool.member reference
    return ⟨kind, m.owner, m.name, m.descriptor, m.isInterface⟩
  | other => throw (.poolRole .methodHandle slot other)

/-- The handle and the arguments of a bootstrap method, given the constants of slots. -/
def bootstrapWith (pool : ConstantPool) (bootstraps : Array BootstrapMethod)
    (constant : UInt16 → Except FormatError Constant) (index : UInt16) :
    Except FormatError (Handle × List Constant) := do
  match bootstraps[index.toNat]? with
  | none => throw (.missingBootstrap index)
  | some method =>
    let arguments ← method.arguments.mapM constant
    return (← pool.handle method.handle, arguments)

/-- The loadable constant of a slot. Dynamic constants may occur in the arguments of each other up
to a number of levels. -/
def loadableNested (pool : ConstantPool) (bootstraps : Array BootstrapMethod) :
    Nat → UInt16 → Except FormatError Constant
  | 0, slot => .error (.nestedConstant slot)
  | levels + 1, slot => do
    match ← pool.entry slot with
    | .integer value => return .int value
    | .float bits => return .float bits
    | .long value => return .long value
    | .double bits => return .double bits
    | .string text => return .string (← pool.utf8 text)
    | .classRef name => return .classRef (← pool.utf8 name)
    | .methodType descriptor => return .methodType (← pool.utf8 descriptor)
    | .methodHandle _ _ => return .handle (← pool.handle slot)
    | .dynamic bootstrap nameAndType =>
      let (name, descriptor) ← pool.nameAndType nameAndType
      let (handle, arguments) ←
        pool.bootstrapWith bootstraps (loadableNested pool bootstraps levels) bootstrap
      return .dynamic name descriptor handle arguments
    | other => throw (.notLoadable slot other)

/-- The loadable constant of a slot. -/
def loadable (pool : ConstantPool) (bootstraps : Array BootstrapMethod) (slot : UInt16) :
    Except FormatError Constant :=
  pool.loadableNested bootstraps (maxConstantNesting + 1) slot

/-- The handle and the arguments of a bootstrap method. -/
def bootstrap (pool : ConstantPool) (bootstraps : Array BootstrapMethod) (index : UInt16) :
    Except FormatError (Handle × List Constant) :=
  pool.bootstrapWith bootstraps (pool.loadableNested bootstraps maxConstantNesting) index

end ConstantPool

end Bytecode
