import Bytecode.ClassFile.Code
import Bytecode.ClassFile.Code.Layout
import Std.Data.HashSet

/-!
# Decoding of code

`decodeNodes` is the straight decoding of code: it partitions the octets into instructions, each
with its offset. A label is named by the offset that it marks. `CodeAttribute.decode` then checks
that all offsets are boundaries between instructions, and inserts the labels and line markers in
front of the instructions that they mark.

A branch target has to be the start of an instruction, an exception range may also end behind the
last one. Line numbers and variables that do not fit are left out.
-/

namespace Bytecode

/-- What the operands of code refer to. -/
structure CodeContext where
  pool : ConstantPool
  bootstraps : Array BootstrapMethod
  length : Nat

/-- The label that marks an offset while code is decoded. -/
def labelAt (offset : Nat) : LabelId :=
  ⟨offset⟩

namespace CodeContext

/-- The target of a branch by a distance from the instruction at `start`. -/
def target (ctx : CodeContext) (start : Nat) (distance : Int) : Except Failure LabelId :=
  let offset : Int := start + distance
  if 0 ≤ offset ∧ offset < ctx.length then .ok (labelAt offset.toNat)
  else .error (.malformed (.branchOutside start offset))

/-- Reads a branch target that is stored as a distance of 16 bits. -/
def branch (ctx : CodeContext) (start : Nat) : Reader LabelId := do
  ctx.target start (← Reader.word Int16).toInt

/-- Reads a branch target that is stored as a distance of 32 bits. -/
def wideBranch (ctx : CodeContext) (start : Nat) : Reader LabelId := do
  ctx.target start (← Reader.word Int32).toInt

/-- Reads a key of a switch and its target. -/
def switchCase (ctx : CodeContext) (start : Nat) : Reader (Int32 × LabelId) :=
  return (← Reader.word Int32, ← ctx.wideBranch start)

/-- Looks up a slot of the constant pool. -/
def resolve {α : Type} (lookup : Except FormatError α) : Reader α :=
  lookup.mapError Failure.malformed

/-- Reads a slot of the constant pool and looks it up. -/
def pooled {α : Type} (lookup : UInt16 → Except FormatError α) : Reader α := do
  resolve (lookup (← Reader.u16))

/-- Reads what follows `WIDE`. -/
def wideOperands (start : Nat) : Reader Node := do
  let op ← Reader.u8
  let slot ← Reader.u16
  match OperandLayout.ofOpcode op with
  | .increment => return .increment slot (← Reader.word Int16)
  | .slot => return .var op slot
  | _ => throw (.malformed (.wideOperand op start))

/-- Reads the operands of a switch over a range of keys. -/
def tableSwitch (ctx : CodeContext) (start : Nat) : Reader Node := do
  Reader.align 4
  let default ← ctx.wideBranch start
  let low ← Reader.word Int32
  let high ← Reader.word Int32
  if high < low then throw (.malformed (.switchRange start))
  let count := (high.toInt - low.toInt + 1).toNat
  if ctx.length < count then throw .outOfBounds
  return .tableSwitch low high default (← Reader.replicate (ctx.wideBranch start) count)

/-- Reads the operands of a switch over a list of keys. -/
def lookupSwitch (ctx : CodeContext) (start : Nat) : Reader Node := do
  Reader.align 4
  let default ← ctx.wideBranch start
  let count ← Reader.word Int32
  if count < 0 then throw (.malformed (.switchSize start))
  if ctx.length < count.toInt.toNat then throw .outOfBounds
  let cases ← Reader.replicate (ctx.switchCase start) count.toInt.toNat
  return .lookupSwitch default (cases.map Prod.fst) (cases.map Prod.snd)

/-- Reads the operands of an opcode that stands at `start`. -/
def node (ctx : CodeContext) (start : Nat) (op : Opcode) : Reader Node := do
  match OperandLayout.ofOpcode op with
  | .none => return .simple op
  | .byte => return .int op (Int32.ofInt (← Reader.word Int8).toInt)
  | .short => return .int op (Int32.ofInt (← Reader.word Int16).toInt)
  | .arrayType => return .int op (Int32.ofNat (← Reader.u8).toNat)
  | .constant =>
    let slot ← Reader.u8
    return .constant (← resolve (ctx.pool.loadable ctx.bootstraps slot.toUInt16))
  | .wideConstant => return .constant (← pooled (ctx.pool.loadable ctx.bootstraps))
  | .slot => return .var op (← Reader.u8).toUInt16
  | .impliedSlot op slot => return .var op slot
  | .increment =>
    let slot ← Reader.u8
    return .increment slot.toUInt16 (Int16.ofInt (← Reader.word Int8).toInt)
  | .wide => wideOperands start
  | .branch => return .jump op (← ctx.branch start)
  | .wideBranch op => return .jump op (← ctx.wideBranch start)
  | .tableSwitch => ctx.tableSwitch start
  | .lookupSwitch => ctx.lookupSwitch start
  | .field =>
    let m ← pooled ctx.pool.member
    return .field op m.owner m.name m.descriptor
  | .call =>
    let m ← pooled ctx.pool.member
    return .call op m.owner m.name m.descriptor m.isInterface
  | .interfaceCall =>
    let m ← pooled ctx.pool.member
    Reader.advance 2
    return .call op m.owner m.name m.descriptor m.isInterface
  | .dynamicCall =>
    let (bootstrap, name, descriptor) ← pooled ctx.pool.invokeDynamic
    Reader.advance 2
    let (handle, arguments) ← resolve (ctx.pool.bootstrap ctx.bootstraps bootstrap)
    return .dynamicCall name descriptor handle arguments
  | .type => return .type op (← pooled ctx.pool.className)
  | .newArrays => return .newArrays (← pooled ctx.pool.className) (← Reader.u8)
  | .undefined => throw (.malformed (.unknownOpcode op start))

/-- Reads instructions to the end of the code. Each takes an octet at least, so that their number is
bounded by that of the octets. -/
def nodes (ctx : CodeContext) : Nat → Reader (List (Nat × Node))
  | 0 => return []
  | fuel + 1 => do
    if !(← get).hasMore then return []
    let start ← Reader.position
    let node ← ctx.node start (← Reader.u8)
    return (start, node) :: (← ctx.nodes fuel)

end CodeContext

/-- The instructions of code with their offsets. -/
def decodeNodes (ctx : CodeContext) (code : Bytes) : Except Failure (List (Nat × Node)) :=
  Prod.fst <$> (ctx.nodes code.length).run (Cursor.ofBytes code)

/-- The boundaries of decoded code. -/
structure Boundaries where
  starts : Std.HashSet Nat
  length : Nat

namespace Boundaries

/-- Whether an instruction starts at an offset. -/
def isStart (b : Boundaries) (offset : Nat) : Bool :=
  b.starts.contains offset

/-- Whether an instruction or the code ends at an offset. -/
def isStop (b : Boundaries) (offset : Nat) : Bool :=
  offset == b.length || b.isStart offset

end Boundaries

/-- A body whose labels are named by the offsets that they mark. -/
structure DecodedCode where
  nodes : List Node
  exceptions : List ExceptionRange
  localVariables : List LocalVariable

namespace CodeAttribute

/-- The exception range of an entry. -/
def decodeException (pool : ConstantPool) (b : Boundaries) (signature : String)
    (e : ExceptionEntry) : Except Failure ExceptionRange := do
  let start := e.start.toNat
  let stop := e.stop.toNat
  let handler := e.handler.toNat
  if !(b.isStart start && b.isStop stop && start < stop && b.isStart handler) then
    throw (.malformed (.exceptionRange start stop handler signature))
  let catchType ←
    if e.catchType = 0 then pure none
    else some <$> (pool.className e.catchType).mapError Failure.malformed
  return ⟨labelAt start, labelAt stop, labelAt handler, catchType⟩

/-- The variable of an entry. Its signature is that of the first entry of the type table with the
same range and slot. -/
def decodeVariable (a : CodeAttribute) (pool : ConstantPool) (v : VariableEntry) :
    Except FormatError LocalVariable := do
  let typed := a.variableTypes.find? fun t =>
    t.start == v.start && t.length == v.length && t.index == v.index
  let signature ← typed.mapM fun t => pool.utf8 t.descriptor
  let name ← pool.utf8 v.name
  let descriptor ← pool.utf8 v.descriptor
  return ⟨name, descriptor, signature, labelAt v.start.toNat, labelAt v.stop, v.index⟩

/-- The line numbers of each offset, in the order of the table. -/
def linesByStart (lines : List LineEntry) : Std.HashMap Nat (List UInt16) :=
  lines.foldr (fun e table =>
    table.insert e.start.toNat (e.line :: table.getD e.start.toNat [])) ∅

/-- Inserts labels and line markers in front of the instructions that they mark. The label of the
end of the code comes last. -/
def layOut (decoded : List (Nat × Node)) (length : Nat) (marked : Std.HashSet Nat)
    (lines : Std.HashMap Nat (List UInt16)) : List Node :=
  let markers (offset : Nat) : List Node :=
    if marked.contains offset then
      .label (labelAt offset) ::
        (lines.getD offset []).map fun number => .line number (labelAt offset)
    else []
  decoded.flatMap (fun (offset, node) => markers offset ++ [node]) ++
    if marked.contains length then [.label (labelAt length)] else []

/-- Decodes a code attribute of a method with a signature. -/
def decode (a : CodeAttribute) (pool : ConstantPool) (bootstraps : Array BootstrapMethod)
    (signature : String) : Except Failure DecodedCode := do
  let decoded ← decodeNodes ⟨pool, bootstraps, a.code.length⟩ a.code
  let b : Boundaries := ⟨Std.HashSet.ofList (decoded.map Prod.fst), a.code.length⟩
  let targets := decoded.flatMap fun (_, node) => node.targets.map LabelId.val
  if let some offset := (targets.filter fun t => !b.isStart t).min? then
    throw (.malformed (.unalignedTarget offset signature))
  let exceptions ← a.exceptions.mapM (decodeException pool b signature)
  let lines := a.lines.filter fun e => b.isStart e.start.toNat
  let fitting := a.localVariables.filter fun v => b.isStart v.start.toNat && b.isStop v.stop
  let localVariables ← (fitting.mapM (a.decodeVariable pool)).mapError Failure.malformed
  let marked := Std.HashSet.ofList (targets ++
    (exceptions.flatMap (·.labels)).map LabelId.val ++
    lines.map (·.start.toNat) ++
    (localVariables.flatMap (·.labels)).map LabelId.val)
  return ⟨layOut decoded a.code.length marked (linesByStart lines), exceptions, localVariables⟩

end CodeAttribute

/-- Gives a method the decoded form of a code attribute, under new identities. -/
def Method.withCode (m : Method) (a : CodeAttribute) (code : DecodedCode) : Fresh Method := do
  let labelBase ← Fresh.block (a.code.length + 1)
  let insnBase ← Fresh.block code.nodes.length
  let body : Body := (code.nodes.mapIdx fun i node => ⟨⟨insnBase + i⟩, node⟩).toArray
  let decoded : Method := { m with
    body
    maxStack := some a.maxStack
    maxLocals := a.maxLocals
    exceptions := code.exceptions
    localVariables := code.localVariables }
  return decoded.mapLabels fun l => ⟨labelBase + l.val⟩

end Bytecode
