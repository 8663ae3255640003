import Bytecode.ClassFile.Pool
import Std.Data.HashMap

/-!
# Building constant pools

A `PoolBuilder` collects the constants that a class file needs. It starts empty or from the pool and
the bootstrap methods of the file that the class was read from, which keep their slots. A constant
that is already there is not added again.

Requests run in `Building`; they fail when the pool is full, which it is at 65535 slots, or when a
text is too long. A request that fails keeps what it has added before.
-/

namespace Bytecode

/-- A constant pool that is being built for the class `owner`. -/
structure PoolBuilder where
  owner : String
  source : Bytes := []
  added : Array PoolEntry := #[]
  size : Nat := 1
  slots : Std.HashMap PoolEntry UInt16 := ∅
  bootstraps : Array BootstrapMethod := #[]
  bootstrapIndex : Std.HashMap BootstrapMethod UInt16 := ∅

/-- Requests to a pool builder. -/
abbrev Building := ExceptT Failure (StateM PoolBuilder)

namespace PoolBuilder

/-- The slots of the entries of a pool; of equal entries the first one counts. -/
def indexEntries (pool : ConstantPool) : Std.HashMap PoolEntry UInt16 :=
  (pool.entries.toList.zipIdx).foldl (fun table (entry, slot) =>
    if entry = .unusable ∨ 65535 < slot then table
    else Std.HashMap.insertIfNew table entry (UInt16.ofNat slot)) ∅

/-- A builder that starts from the pool and the bootstrap methods of a file. -/
def ofOrigin (owner : String) (origin : ClassOrigin) : Except Failure PoolBuilder := do
  let (pool, _) ← ConstantPool.read.run (Cursor.ofBytes origin.pool)
  let bootstraps := origin.bootstraps.take 65536
  return {
    owner
    source := origin.pool.drop 2
    size := pool.size
    slots := indexEntries pool
    bootstraps := bootstraps.toArray
    bootstrapIndex := (bootstraps.zipIdx).foldl (fun table (method, i) =>
      Std.HashMap.insertIfNew table method (UInt16.ofNat i)) ∅ }

/-- A builder for a class. -/
def ofClass (c : Class) : Except Failure PoolBuilder :=
  match c.origin with
  | some origin => ofOrigin c.name origin
  | none => .ok { owner := c.name }

/-- The finished pool. -/
def finish (b : PoolBuilder) : Bytes :=
  Bytes.u16 b.size ++ b.source ++ b.added.toList.flatMap PoolEntry.encode

/-- The stored form of the bootstrap methods, if there are any. -/
def bootstrapTable (b : PoolBuilder) : Option Bytes :=
  if b.bootstraps.isEmpty then none
  else some (Bytes.u16 b.bootstraps.size ++ b.bootstraps.toList.flatMap fun method =>
    Word.encode method.handle ++ Bytes.u16 method.arguments.length ++
      method.arguments.flatMap Word.encode)

end PoolBuilder

namespace Building

/-- Fails for a reason. -/
def fail {α : Type} (cause : WriteError) : Building α := do
  throw (.write (← get).owner cause)

/-- The slot of an entry, which is added if it is new. -/
def entry (e : PoolEntry) : Building UInt16 := do
  let b ← get
  match b.slots[e]? with
  | some slot => return slot
  | none =>
    let size := b.size + if e.isWide then 2 else 1
    if 65535 < size then fail .poolFull
    else
      let slot := UInt16.ofNat b.size
      set { b with added := b.added.push e, size, slots := b.slots.insert e slot }
      return slot

/-- The slot of a text. -/
def utf8 (text : String) : Building UInt16 := do
  if (← get).slots.contains (.utf8 text) then entry (.utf8 text)
  else
    let length := (Text.encodeModified text).length
    if 65535 < length then fail (.textTooLong length) else entry (.utf8 text)

/-- The slot of a class. -/
def classRef (name : String) : Building UInt16 := do
  entry (.classRef (← utf8 name))

/-- The slot of a name with a descriptor. -/
def nameAndType (name descriptor : String) : Building UInt16 := do
  let name ← utf8 name
  entry (.nameAndType name (← utf8 descriptor))

/-- The slot of a field. -/
def field (owner name descriptor : String) : Building UInt16 := do
  let owner ← classRef owner
  entry (.fieldRef owner (← nameAndType name descriptor))

/-- The slot of a method. -/
def method (owner name descriptor : String) (isInterface : Bool) : Building UInt16 := do
  let owner ← classRef owner
  entry (.methodRef owner (← nameAndType name descriptor) isInterface)

/-- The slot of a handle. The first four kinds of handles refer to fields. -/
def handle (h : Handle) : Building UInt16 := do
  let reference ←
    if h.kind ≤ 4 then field h.owner h.name h.descriptor
    else method h.owner h.name h.descriptor h.isInterface
  entry (.methodHandle h.kind reference)

/-- The index of a bootstrap method, which is added if it is new. -/
def bootstrapMethod (m : BootstrapMethod) : Building UInt16 := do
  let b ← get
  match b.bootstrapIndex[m]? with
  | some index => return index
  | none =>
    if 65535 < b.bootstraps.size then fail .tooManyBootstraps
    else
      let index := UInt16.ofNat b.bootstraps.size
      set { b with
        bootstraps := b.bootstraps.push m
        bootstrapIndex := b.bootstrapIndex.insert m index }
      return index

mutual

/-- The slot of a loadable constant. -/
def loadable : Constant → Building UInt16
  | .int value => entry (.integer value)
  | .float bits => entry (.float bits)
  | .long value => entry (.long value)
  | .double bits => entry (.double bits)
  | .string text => do entry (.string (← utf8 text))
  | .classRef name => classRef name
  | .methodType descriptor => do entry (.methodType (← utf8 descriptor))
  | .handle h => handle h
  | .dynamic name descriptor bootstrap arguments => do
    let slot ← handle bootstrap
    let index ← bootstrapMethod ⟨slot, ← loadables arguments⟩
    entry (.dynamic index (← nameAndType name descriptor))

/-- The slots of loadable constants. -/
def loadables : List Constant → Building (List UInt16)
  | [] => return []
  | c :: rest => return (← loadable c) :: (← loadables rest)

end

/-- The index of a bootstrap method with constants as its arguments. -/
def bootstrap (h : Handle) (arguments : List Constant) : Building UInt16 := do
  let slot ← handle h
  bootstrapMethod ⟨slot, ← loadables arguments⟩

/-- The slot of a dynamic call site. -/
def dynamicCall (name descriptor : String) (h : Handle) (arguments : List Constant) :
    Building UInt16 := do
  let index ← bootstrap h arguments
  entry (.invokeDynamic index (← nameAndType name descriptor))

end Building

end Bytecode
