import Bytecode.Bytes
import Bytecode.Identity
import Bytecode.Opcode

/-!
# Instructions

A method body is a sequence of nodes with identities: real instructions, labels that mark positions,
and line number markers. Jumps and switches name labels, so that a body can be edited without
touching offsets.

`Node.targets` lists the labels to which control may jump, the default of a switch first, and
`Node.mapLabelsM` replaces every label that a node mentions.
-/

namespace Bytecode

/-- A reference to a method or field that can be called or accessed as a value. -/
structure Handle where
  kind : UInt8
  owner : String
  name : String
  descriptor : String
  isInterface : Bool
  deriving DecidableEq, Repr, Inhabited

/-- A constant that an instruction can load. Floating point numbers are kept as bit patterns. -/
inductive Constant where
  | int (value : Int32)
  | float (bits : UInt32)
  | long (value : Int64)
  | double (bits : UInt64)
  | string (text : String)
  | classRef (name : String)
  | methodType (descriptor : String)
  | handle (handle : Handle)
  | dynamic (name descriptor : String) (bootstrap : Handle) (arguments : List Constant)
  deriving Repr, Inhabited, BEq

/-- What a node of a method body is. The opcode of a node need not fit its shape; what then happens
is up to whoever reads the node. -/
inductive Node where
  | simple (op : Opcode)
  | int (op : Opcode) (operand : Int32)
  | var (op : Opcode) (slot : UInt16)
  | type (op : Opcode) (name : String)
  | field (op : Opcode) (owner name descriptor : String)
  | call (op : Opcode) (owner name descriptor : String) (isInterface : Bool)
  | dynamicCall (name descriptor : String) (bootstrap : Handle) (arguments : List Constant)
  | jump (op : Opcode) (target : LabelId)
  | label (label : LabelId)
  | constant (value : Constant)
  | increment (slot : UInt16) (amount : Int16)
  | tableSwitch (low high : Int32) (default : LabelId) (targets : List LabelId)
  | lookupSwitch (default : LabelId) (keys : List Int32) (targets : List LabelId)
  | newArrays (descriptor : String) (dimensions : UInt8)
  | line (number : UInt16) (start : LabelId)
  deriving Repr, Inhabited, BEq

namespace Node

/-- The opcode of a real instruction; labels and line markers have none. -/
def opcode? : Node → Option Opcode
  | simple op | int op _ | var op _ | type op _ | jump op _ => some op
  | field op _ _ _ => some op
  | call op _ _ _ _ => some op
  | dynamicCall .. => some Opcode.invokedynamic
  | constant _ => some Opcode.ldc
  | increment .. => some Opcode.iinc
  | tableSwitch .. => some Opcode.tableswitch
  | lookupSwitch .. => some Opcode.lookupswitch
  | newArrays .. => some Opcode.multianewarray
  | label _ | line .. => none

/-- Whether a node is a label or a line marker. -/
def isPseudo (node : Node) : Bool :=
  node.opcode?.isNone

/-- The name of a node in messages. -/
def describe (node : Node) : String :=
  node.opcode?.elim "label" Opcode.mnemonic

/-- The instruction that pushes an int, in its shortest form. -/
def pushInt (value : Int32) : Node :=
  if -1 ≤ value ∧ value ≤ 5 then simple (UInt8.ofNat (3 + value.toInt).toNat)
  else if -128 ≤ value ∧ value ≤ 127 then int Opcode.bipush value
  else if -32768 ≤ value ∧ value ≤ 32767 then int Opcode.sipush value
  else constant (.int value)

/-- The labels to which control may jump, the default of a switch first. -/
def targets : Node → List LabelId
  | jump _ target => [target]
  | tableSwitch _ _ default targets => default :: targets
  | lookupSwitch default _ targets => default :: targets
  | _ => []

/-- Every label that a node mentions. -/
def labels : Node → List LabelId
  | label l => [l]
  | line _ start => [start]
  | node => node.targets

/-- Replaces every label that a node mentions, in the order of `labels`. -/
def mapLabelsM {m : Type → Type} [Monad m] (f : LabelId → m LabelId) : Node → m Node
  | jump op target => return jump op (← f target)
  | label l => return label (← f l)
  | line number start => return line number (← f start)
  | tableSwitch low high default targets => do
    let default ← f default
    return tableSwitch low high default (← targets.mapM f)
  | lookupSwitch default keys targets => do
    let default ← f default
    return lookupSwitch default keys (← targets.mapM f)
  | node => pure node

/-- Replaces every label that a node mentions. -/
def mapLabels (f : LabelId → LabelId) (node : Node) : Node :=
  Id.run (node.mapLabelsM (m := Id) f)

/-- The number of local variable slots that a node needs the frame to have. -/
def slotsNeeded : Node → Nat
  | var op slot =>
    let wide := op == Opcode.lload || op == Opcode.dload || op == Opcode.lstore || op == Opcode.dstore
    min (slot.toNat + (if wide then 2 else 1)) 65535
  | increment slot _ => min (slot.toNat + 1) 65535
  | _ => 0

end Node

/-- A node of a method body with its identity. -/
structure Insn where
  id : InsnId
  node : Node
  deriving Repr, Inhabited, BEq

namespace Insn

/-- A new instruction. -/
def fresh (node : Node) : Fresh Insn :=
  return ⟨← Fresh.insnId, node⟩

/-- A new label node. -/
def ofLabel (l : LabelId) : Fresh Insn :=
  fresh (.label l)

end Insn

/-- A method body. -/
abbrev Body := Array Insn

namespace Body

/-- The position of an instruction. -/
def indexOf? (body : Body) (id : InsnId) : Option Nat :=
  body.findIdx? (·.id == id)

/-- The position of a label. -/
def labelIndex? (body : Body) (l : LabelId) : Option Nat :=
  body.findIdx? fun insn => match insn.node with
    | .label m => m == l
    | _ => false

/-- The number of local variable slots that the instructions of a body need. -/
def slotsNeeded (body : Body) : Nat :=
  body.foldl (fun n insn => max n insn.node.slotsNeeded) 0

end Body

end Bytecode
