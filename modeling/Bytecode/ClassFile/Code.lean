import Bytecode.ClassFile.Pool

/-!
# Code attributes

A method body is stored as a `Code` attribute: the instructions as octets, and tables that refer to
them by offsets. `CodeAttribute.read` splits an attribute into these parts; of the tables inside it
only those for debuggers are kept, because all others can be computed anew.
-/

namespace Bytecode

/-- A stored exception range. A catch type of zero stands for any. -/
structure ExceptionEntry where
  start : UInt16
  stop : UInt16
  handler : UInt16
  catchType : UInt16
  deriving DecidableEq, Repr

/-- A stored line number. -/
structure LineEntry where
  start : UInt16
  line : UInt16
  deriving DecidableEq, Repr

/-- A stored local variable. The descriptor can also be a generic signature. -/
structure VariableEntry where
  start : UInt16
  length : UInt16
  name : UInt16
  descriptor : UInt16
  index : UInt16
  deriving DecidableEq, Repr

/-- The offset behind the range of a variable. -/
def VariableEntry.stop (v : VariableEntry) : Nat :=
  v.start.toNat + v.length.toNat

/-- The parts of a `Code` attribute. -/
structure CodeAttribute where
  maxStack : UInt16
  maxLocals : UInt16
  code : Bytes
  exceptions : List ExceptionEntry
  lines : List LineEntry := []
  localVariables : List VariableEntry := []
  variableTypes : List VariableEntry := []
  deriving Repr

namespace ExceptionEntry

/-- Reads an exception range. -/
def read : Reader ExceptionEntry :=
  return ⟨← Reader.u16, ← Reader.u16, ← Reader.u16, ← Reader.u16⟩

/-- The stored form of an exception range. -/
def encode (e : ExceptionEntry) : Bytes :=
  Word.encode e.start ++ Word.encode e.stop ++ Word.encode e.handler ++ Word.encode e.catchType

end ExceptionEntry

namespace LineEntry

/-- Reads a line number. -/
def read : Reader LineEntry :=
  return ⟨← Reader.u16, ← Reader.u16⟩

/-- The stored form of a line number. -/
def encode (e : LineEntry) : Bytes :=
  Word.encode e.start ++ Word.encode e.line

end LineEntry

namespace VariableEntry

/-- Reads a local variable. -/
def read : Reader VariableEntry :=
  return ⟨← Reader.u16, ← Reader.u16, ← Reader.u16, ← Reader.u16, ← Reader.u16⟩

/-- The stored form of a local variable. -/
def encode (e : VariableEntry) : Bytes :=
  Word.encode e.start ++ Word.encode e.length ++ Word.encode e.name ++ Word.encode e.descriptor ++
    Word.encode e.index

end VariableEntry

namespace CodeAttribute

/-- Reads a number of attributes inside a code attribute, whose tables are put in front of those
that follow. -/
def readTables (pool : ConstantPool) (a : CodeAttribute) : Nat → Reader CodeAttribute
  | 0 => return a
  | n + 1 => do
    let name ← (pool.utf8 (← Reader.u16)).mapError Failure.malformed
    let data := Cursor.ofBytes (← Reader.bytes (← Reader.u32).toNat)
    match name with
    | "LineNumberTable" =>
      let (entries, _) ← (Reader.counted LineEntry.read).run data
      let a ← readTables pool a n
      return { a with lines := entries ++ a.lines }
    | "LocalVariableTable" =>
      let (entries, _) ← (Reader.counted VariableEntry.read).run data
      let a ← readTables pool a n
      return { a with localVariables := entries ++ a.localVariables }
    | "LocalVariableTypeTable" =>
      let (entries, _) ← (Reader.counted VariableEntry.read).run data
      let a ← readTables pool a n
      return { a with variableTypes := entries ++ a.variableTypes }
    | _ => readTables pool a n

/-- Reads a code attribute. -/
def read (pool : ConstantPool) : Reader CodeAttribute := do
  let maxStack ← Reader.u16
  let maxLocals ← Reader.u16
  let length := (← Reader.u32).toNat
  if length = 0 ∨ 65535 < length then throw (.malformed (.codeLength length))
  let code ← Reader.bytes length
  let exceptions ← Reader.counted ExceptionEntry.read
  readTables pool { maxStack, maxLocals, code, exceptions } (← Reader.u16).toNat

end CodeAttribute

end Bytecode
