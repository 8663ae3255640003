import Bytecode.Method

/-!
# Splicing a body into a call site

`splice` turns a copy of a callee into the block that takes the place of a call. Arguments are
stored into slots that the caller does not use, the callee's own slots are moved there, and returns
become jumps behind the block. The slots of a call site follow each other:

* the *return slot*, with the size of the returned value;
* from the *offset* on, the slots of the callee, the receiver and the arguments first.

Slot numbers have 16 bits. Moving one of the callee's slots past the end is a failure; the sums that
place the return slot, the offset and the arguments wrap around.
-/

namespace Bytecode.Inlining

/-- A call of a method. -/
structure CallSite where
  op : Opcode
  owner : String
  name : String
  descriptor : String
  deriving DecidableEq, Repr

/-- The call that a node makes. -/
def CallSite.ofNode? : Node → Option CallSite
  | .call op owner name descriptor _ => some ⟨op, owner, name, descriptor⟩
  | _ => none

/-- Whether the call passes a receiver. -/
def CallSite.hasReceiver (site : CallSite) : Bool :=
  site.op != Opcode.invokestatic

/-- A block in the place of a call, and what it adds to the tables of the caller. -/
structure Splice where
  block : List Insn
  exceptions : List ExceptionRange
  localVariables : List LocalVariable
  deriving Repr

/-- A part of a block: an instruction of the callee, or a new one. -/
inductive Part where
  | kept (insn : Insn)
  | new (node : Node)
  deriving Repr

/-- The instruction of a part. -/
def Part.insn : Part → Fresh Insn
  | kept insn => pure insn
  | new node => Insn.fresh node

/-- Where the slots of a callee go, and where its returns go. -/
structure Layout where
  returnType : Descriptor
  returnSlot : UInt16
  exit : LabelId
  deriving Repr

namespace Layout

/-- The slot to which the first slot of the callee goes. -/
def offset (l : Layout) : UInt16 :=
  l.returnSlot + .ofNat l.returnType.size

/-- The slot to which a slot of the callee goes. -/
def relocate (l : Layout) (slot : UInt16) : Except Failure UInt16 :=
  if slot.toNat + l.offset.toNat < UInt16.size then .ok (slot + l.offset)
  else .error (.malformed (.slotRange slot.toNat l.offset.toNat))

/-- The store of a returned value. -/
def storeResult (l : Layout) : List Part :=
  if l.returnType = .void then [] else [.new (.var l.returnType.storeOpcode l.returnSlot)]

/-- The load of the returned value behind the block. -/
def loadResult (l : Layout) : List Part :=
  if l.returnType = .void then [] else [.new (.var l.returnType.loadOpcode l.returnSlot)]

/-- The stores of arguments into the slots from `slot` on, in the order of the arguments. -/
def argumentStores (slot : UInt16) : List Descriptor → List Node
  | [] => []
  | argument :: rest =>
    .var argument.storeOpcode slot :: argumentStores (slot + .ofNat argument.size) rest

/-- The instructions that take the arguments and the receiver off the stack, the last argument
first. -/
def entry (l : Layout) (hasReceiver : Bool) (arguments : List Descriptor) : List Part :=
  let first := l.offset + if hasReceiver then 1 else 0
  let stores := (argumentStores first arguments).reverse
  let receiver := if hasReceiver then [Node.var Opcode.astore l.offset] else []
  (stores ++ receiver).map .new

/-- What becomes of an instruction of the callee. A return goes to the exit, unless it is the last
instruction; line markers are dropped. -/
def part (l : Layout) (isLast : Bool) (insn : Insn) : Except Failure (List Part) :=
  match insn.node with
  | .simple op =>
    if op.isReturn then
      .ok (l.storeResult ++ if isLast then [] else [.new (.jump Opcode.goto l.exit)])
    else .ok [.kept insn]
  | .var op slot => return [.kept { insn with node := .var op (← l.relocate slot) }]
  | .increment slot amount => return [.kept { insn with node := .increment (← l.relocate slot) amount }]
  | .line .. => .ok []
  | _ => .ok [.kept insn]

/-- What becomes of the body of the callee. -/
def parts (l : Layout) : List Insn → Except Failure (List Part)
  | [] => .ok []
  | insn :: rest => return (← l.part rest.isEmpty insn) ++ (← l.parts rest)

/-- What becomes of a named variable of the callee. -/
def moveVariable (l : Layout) (v : LocalVariable) : Except Failure LocalVariable :=
  return { v with index := ← l.relocate v.index }

end Layout

/-- Whether a body returns from somewhere else than its last instruction. -/
def returnsEarly (body : Body) : Bool :=
  body.toList.dropLast.any fun insn => match insn.node with
    | .simple op => op.isReturn
    | _ => false

/-- The block that takes the place of a call of a method, given a copy of the method and the first
slot that the caller does not use at the call. -/
def splice (site : CallSite) (returnSlot : UInt16) (callee : Method) : TryFresh Splice := do
  let descriptor ← (MethodDescriptor.parse site.descriptor).mapError Failure.descriptor
  let layout : Layout :=
    { returnType := descriptor.returnType, returnSlot, exit := ← Fresh.labelId }
  let body ← layout.parts callee.body.toList
  let exit := if returnsEarly callee.body then [Part.new (.label layout.exit)] else []
  let parts := layout.entry site.hasReceiver descriptor.arguments ++ body ++ exit ++ layout.loadResult
  let localVariables ← callee.localVariables.mapM fun v => layout.moveVariable v
  return { block := ← parts.mapM (fun part => part.insn), exceptions := callee.exceptions, localVariables }

end Bytecode.Inlining
