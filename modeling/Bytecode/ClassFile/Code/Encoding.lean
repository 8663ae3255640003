import Bytecode.ClassFile.Code
import Bytecode.ClassFile.Code.Layout
import Bytecode.ClassFile.Pool.Builder
import Bytecode.Verification.Inference

/-!
# Encoding of code

A body is encoded in two steps. `Emission.ofBody` lays the reachable instructions out one behind the
other: every instruction becomes a list of pieces of known size, in which branches still name
labels. `Emission.assemble` then replaces the labels by distances.

Every instruction takes its shortest form, except that branches of jumps always take 16 bits.
-/

namespace Bytecode

/-- A part of the stored form of an instruction. -/
inductive Piece where
  | octets (bytes : Bytes)
  | branch (target : LabelId)
  | wideBranch (target : LabelId)
  deriving Repr

namespace Piece

/-- The number of octets of a piece. -/
def size : Piece → Nat
  | octets bytes => bytes.length
  | branch _ => 2
  | wideBranch _ => 4

/-- The number of octets of several pieces. -/
def totalSize (pieces : List Piece) : Nat :=
  total size pieces

end Piece

namespace Node

/-- An opcode with a slot of the constant pool. -/
def pooledPieces (op : Opcode) (slot : UInt16) : List Piece :=
  [.octets (op :: Word.encode slot)]

/-- The pieces of an access to a local variable. -/
def varPieces (op : Opcode) (slot : UInt16) : List Piece :=
  let short : UInt8 := slot.toUInt8
  if slot ≤ 3 ∧ Opcode.iload ≤ op ∧ op ≤ Opcode.aload then
    [.octets [Opcode.iload0 + (op - Opcode.iload) * 4 + short]]
  else if slot ≤ 3 ∧ Opcode.istore ≤ op ∧ op ≤ Opcode.astore then
    [.octets [Opcode.istore0 + (op - Opcode.istore) * 4 + short]]
  else if slot ≤ 255 then [.octets [op, short]]
  else [.octets (Opcode.wide :: op :: Word.encode slot)]

/-- The pieces of an increment. -/
def incrementPieces (slot : UInt16) (amount : Int16) : List Piece :=
  if slot ≤ 255 ∧ -128 ≤ amount ∧ amount ≤ 127 then
    [.octets (Opcode.iinc :: slot.toUInt8 :: Word.encode amount.toInt8)]
  else [.octets (Opcode.wide :: Opcode.iinc :: Word.encode slot ++ Word.encode amount)]

/-- Whether a constant takes two words. -/
def isWideConstant : Constant → Bool
  | .long _ | .double _ => true
  | .dynamic _ descriptor _ _ => descriptor == "J" || descriptor == "D"
  | _ => false

/-- The pieces of a load of a constant in a slot. -/
def constantPieces (value : Constant) (slot : UInt16) : List Piece :=
  if isWideConstant value then pooledPieces Opcode.ldc2Wide slot
  else if slot ≤ 255 then [.octets [Opcode.ldc, slot.toUInt8]]
  else pooledPieces Opcode.ldcWide slot

/-- The octets between the opcode of a switch at an offset and its operands. -/
def switchPadding (offset : Nat) : Bytes :=
  List.replicate ((4 - (offset + 1) % 4) % 4) 0

/-- The pieces of a node at an offset. -/
def pieces (offset : Nat) : Node → Building (List Piece)
  | simple op => return [.octets [op]]
  | int op operand =>
    let bits := operand.toUInt32.toNat
    return [.octets (op :: if op = Opcode.sipush then Bytes.u16 bits else [UInt8.ofNat bits])]
  | var op slot => return varPieces op slot
  | increment slot amount => return incrementPieces slot amount
  | type op name => return pooledPieces op (← Building.classRef name)
  | field op owner name descriptor =>
    return pooledPieces op (← Building.field owner name descriptor)
  | call op owner name descriptor isInterface => do
    let operation := pooledPieces op (← Building.method owner name descriptor isInterface)
    if op = Opcode.invokeinterface then
      let parsed ← (MethodDescriptor.parse descriptor).mapError Failure.descriptor
      return operation ++ [.octets [UInt8.ofNat (min (parsed.slots false).toNat 255), 0]]
    else return operation
  | dynamicCall name descriptor bootstrap arguments => do
    let slot ← Building.dynamicCall name descriptor bootstrap arguments
    return pooledPieces Opcode.invokedynamic slot ++ [.octets [0, 0]]
  | jump op target => return [.octets [op], .branch target]
  | constant value => return constantPieces value (← Building.loadable value)
  | tableSwitch low high default targets =>
    return .octets (Opcode.tableswitch :: switchPadding offset) :: .wideBranch default ::
      .octets (Word.encode low ++ Word.encode high) :: targets.map .wideBranch
  | lookupSwitch default keys targets =>
    return .octets (Opcode.lookupswitch :: switchPadding offset) :: .wideBranch default ::
      .octets (Bytes.u32 keys.length) ::
      (keys.zip targets).flatMap fun (key, target) => [.octets (Word.encode key), .wideBranch target]
  | newArrays descriptor dimensions => do
    let slot ← Building.classRef descriptor
    return pooledPieces Opcode.multianewarray slot ++ [.octets [dimensions]]
  | label _ | line .. => return []

end Node

/-- An instruction that has been laid out. -/
structure PlacedInsn where
  index : Nat
  offset : Nat
  node : Node
  pieces : List Piece

/-- A line marker and the label at which the line starts. -/
structure LineMarker where
  line : UInt16
  start : LabelId

/-- A body that has been laid out. -/
structure Emission where
  placed : Array PlacedInsn := #[]
  labels : Std.HashMap LabelId Nat := ∅
  lines : Array LineMarker := #[]
  length : Nat := 0

namespace Emission

/-- Lays out the next node. Instructions that cannot be reached are dropped. -/
def emit (frames : MethodFrames) (e : Emission) (index : Nat) (node : Node) :
    Building Emission := do
  match node with
  | .label l => return { e with labels := e.labels.insert l e.length }
  | .line line start => return { e with lines := e.lines.push ⟨line, start⟩ }
  | node =>
    if (frames.frames[index]?.join).isNone then return e
    let pieces ← node.pieces e.length
    return { e with
      placed := e.placed.push ⟨index, e.length, node, pieces⟩
      length := e.length + Piece.totalSize pieces }

/-- Lays out nodes from a position on. -/
def emitFrom (frames : MethodFrames) (e : Emission) (index : Nat) : List Insn → Building Emission
  | [] => return e
  | insn :: rest => do emitFrom frames (← e.emit frames index insn.node) (index + 1) rest

/-- Lays out a body. -/
def ofBody (frames : MethodFrames) (body : Body) : Building Emission :=
  emitFrom frames {} 0 body.toList

/-- The offset of a label, which has to be in the body. -/
def offsetOf (e : Emission) (signature : String) (l : LabelId) : Except WriteError Nat :=
  match e.labels[l]? with
  | some offset => .ok offset
  | none => .error (.missingLabel signature)

/-- The octets of a piece of the instruction at an offset. -/
def assemblePiece (e : Emission) (signature : String) (start : Nat) : Piece → Except WriteError Bytes
  | .octets bytes => .ok bytes
  | .branch target => do
    let distance : Int := (← e.offsetOf signature target) - start
    if -32768 ≤ distance ∧ distance ≤ 32767 then return Word.encode (Int16.ofInt distance)
    else throw (.branchTooFar start signature)
  | .wideBranch target => do
    let distance : Int := (← e.offsetOf signature target) - start
    if -2147483648 ≤ distance ∧ distance ≤ 2147483647 then
      return Word.encode (Int32.ofInt distance)
    else throw (.branchTooFar start signature)

/-- The octets of a body that has been laid out. -/
def assemble (e : Emission) (signature : String) : Except WriteError Bytes :=
  return (← e.placed.toList.mapM fun p =>
    return (← p.pieces.mapM (e.assemblePiece signature p.offset)).flatten).flatten

/-- The stored exception ranges. Ranges that cover nothing are dropped. -/
def exceptionEntries (e : Emission) (signature : String) :
    List ExceptionRange → Building (List ExceptionEntry)
  | [] => return []
  | r :: rest => do
    let offset (l : LabelId) : Building Nat :=
      match e.offsetOf signature l with
      | .ok offset => pure offset
      | .error cause => Building.fail cause
    let start ← offset r.start
    let stop ← offset r.stop
    let handler ← offset r.handler
    if start < stop then
      let catchType ← match r.catchType with
        | some name => Building.classRef name
        | none => pure 0
      let entry : ExceptionEntry :=
        ⟨UInt16.ofNat start, UInt16.ofNat stop, UInt16.ofNat handler, catchType⟩
      return entry :: (← exceptionEntries e signature rest)
    else exceptionEntries e signature rest

/-- The stored line numbers. Lines that start behind the code are dropped. -/
def lineEntries (e : Emission) : List LineEntry :=
  e.lines.toList.filterMap fun marker =>
    (e.labels[marker.start]?).bind fun offset =>
      if offset < e.length then some ⟨UInt16.ofNat offset, marker.line⟩ else none

/-- The stored local variables with a descriptor each. Variables whose range has no offsets are
dropped. -/
def variableEntries (e : Emission) (descriptor : LocalVariable → Option String) :
    List LocalVariable → Building (List VariableEntry)
  | [] => return []
  | v :: rest => do
    match descriptor v, e.labels[v.start]?, e.labels[v.stop]? with
    | some text, some start, some stop =>
      if stop < start then variableEntries e descriptor rest
      else
        let name ← Building.utf8 v.name
        let entry : VariableEntry :=
          ⟨UInt16.ofNat start, UInt16.ofNat (stop - start), name, ← Building.utf8 text, v.index⟩
        return entry :: (← variableEntries e descriptor rest)
    | _, _, _ => variableEntries e descriptor rest

end Emission

end Bytecode
