import Bytecode.Failure
import Bytecode.Operation
import Bytecode.Verification.Hierarchy

/-!
# Type frames

A type frame holds the verification types of the locals and of the words on the stack before an
instruction; the head of the list is the top of the stack. `TypeFrame.execute` gives the frame
behind an instruction. It trusts the instructions about the types of their operands and checks only
their number.
-/

namespace Bytecode

/-- The types before an instruction. -/
structure TypeFrame where
  locals : List VerificationType
  stack : List VerificationType := []
  deriving DecidableEq, Repr, Inhabited

namespace TypeFrame

/-- The result of an instruction, which can be impossible. -/
abbrev Inferred := Except InferenceError

/-- Pushes a value of a type. -/
def push (f : TypeFrame) (type : VerificationType) : TypeFrame :=
  { f with stack := if type.isWide then .top :: type :: f.stack else type :: f.stack }

/-- Pushes a value of a type if there is one. -/
def push? (f : TypeFrame) (type : Option VerificationType) : TypeFrame :=
  type.elim f f.push

/-- Pushes a value of the type that a descriptor describes. -/
def pushDescribed (f : TypeFrame) (descriptor : String) : Inferred TypeFrame := do
  let type ← (Descriptor.parse descriptor).mapError InferenceError.descriptor
  return f.push? (VerificationType.ofDescriptor type)

/-- Takes the topmost word. -/
def popWord (f : TypeFrame) : Inferred (VerificationType × TypeFrame) :=
  match f.stack with
  | [] => .error .underflow
  | type :: stack => .ok (type, { f with stack })

/-- Takes a number of words. -/
def pop (f : TypeFrame) (words : Nat) : Inferred TypeFrame :=
  if f.stack.length < words then .error .underflow
  else .ok { f with stack := f.stack.drop words }

/-- Takes a number of words and pushes a value. -/
def popPush (f : TypeFrame) (words : Nat) (type : VerificationType) : Inferred TypeFrame :=
  return (← f.pop words).push type

/-- Inserts a copy of the `take` topmost words beneath them and the `under` words below them. -/
def dup (f : TypeFrame) (take under : Nat) : Inferred TypeFrame :=
  if f.stack.length < take + under then .error .underflow
  else .ok { f with
    stack := f.stack.take (take + under) ++ f.stack.take take ++ f.stack.drop (take + under) }

/-- The type of a local variable slot. -/
def getLocal (f : TypeFrame) (slot : Nat) : Inferred VerificationType :=
  match f.locals[slot]? with
  | some type => .ok type
  | none => .error (.localOutside slot)

/-- Forgets the first word of a wide value whose second word is in a slot. -/
def invalidateBefore (locals : List VerificationType) : Nat → List VerificationType
  | 0 => locals
  | before + 1 =>
    if (locals[before]?).any VerificationType.isWide then locals.set before .top else locals

/-- Stores a value into a local variable. -/
def setLocal (f : TypeFrame) (slot : Nat) (type : VerificationType) : Inferred TypeFrame :=
  let stop := slot + if type.isWide then 2 else 1
  if f.locals.length < stop then .error (.localOutside slot)
  else
    let locals := invalidateBefore f.locals slot
    let locals := if type.isWide then locals.set (slot + 1) .top else locals
    .ok { f with locals := locals.set slot type }

/-- Replaces a type in all slots and words. -/
def replace (f : TypeFrame) (source target : VerificationType) : TypeFrame :=
  let change (type : VerificationType) := if type = source then target else type
  { locals := f.locals.map change, stack := f.stack.map change }

/-- The type of the values of a kind; references are of the root class. -/
def typeOf : Kind → VerificationType
  | .int => .integer
  | .float => .float
  | .long => .long
  | .double => .double
  | .reference => .object objectClass
  | .uninitialized | .returnAddress => .top

/-- The type of the elements of an array that is loaded. -/
def elementType : VerificationType → VerificationType
  | .object name =>
    match name.toList with
    | '[' :: element =>
      .object ((Hierarchy.elementName element).elim objectClass String.ofList)
    | _ => .object objectClass
  | .null => .null
  | _ => .object objectClass

/-- The array type that `NEWARRAY` creates. -/
def primitiveArray (code : Int32) : Inferred VerificationType :=
  match code.toInt with
  | 4 => .ok (.object "[Z")
  | 5 => .ok (.object "[C")
  | 6 => .ok (.object "[F")
  | 7 => .ok (.object "[D")
  | 8 => .ok (.object "[B")
  | 9 => .ok (.object "[S")
  | 10 => .ok (.object "[I")
  | 11 => .ok (.object "[J")
  | _ => .error (.arrayType code)

/-- Exchanges the two topmost words. -/
def swap (f : TypeFrame) : Inferred TypeFrame :=
  match f.stack with
  | a :: b :: rest => .ok { f with stack := b :: a :: rest }
  | _ => .error .underflow

/-- Rearranges the topmost words. -/
def shuffle (f : TypeFrame) : Shuffle → Inferred TypeFrame
  | .dup => f.dup 1 0
  | .dupX1 => f.dup 1 1
  | .dupX2 => f.dup 1 2
  | .dup2 => f.dup 2 0
  | .dup2X1 => f.dup 2 1
  | .dup2X2 => f.dup 2 2
  | .swap => f.swap

/-- The frame behind an instruction without operands. -/
def executeSimple (f : TypeFrame) (op : Opcode) : Inferred TypeFrame := do
  match Operation.ofOpcode op with
  | .nop | .leave none => return f
  | .null => return f.push .null
  | .constant (.int _) => return f.push .integer
  | .constant (.long _) => return f.push .long
  | .constant (.float _) => return f.push .float
  | .constant _ => return f.push .double
  | .arrayLoad .reference =>
    let (array, f) ← (← f.pop 1).popWord
    return f.push (elementType array)
  | .arrayLoad kind => f.popPush 2 (typeOf kind)
  | .arrayStore kind => f.pop (2 + kind.size)
  | .pop => f.pop 1
  | .pop2 => f.pop 2
  | .shuffle form => f.shuffle form
  | .binary operation =>
    let (left, right) := operation.operands
    f.popPush (left.kind.size + right.kind.size) (typeOf operation.kind)
  | .unary operation => f.popPush operation.operand.kind.size (typeOf operation.kind)
  | .arrayLength => f.popPush 1 .integer
  | .leave (some kind) => f.pop kind.size
  | .throw | .monitor => f.pop 1
  | .other => throw (.opcode op)

/-- The frame behind a load of a constant. -/
def executeConstant (f : TypeFrame) : Constant → Inferred TypeFrame
  | .int _ => .ok (f.push .integer)
  | .float _ => .ok (f.push .float)
  | .long _ => .ok (f.push .long)
  | .double _ => .ok (f.push .double)
  | .string _ => .ok (f.push (.object "java/lang/String"))
  | .classRef _ => .ok (f.push (.object "java/lang/Class"))
  | .methodType _ => .ok (f.push (.object "java/lang/invoke/MethodType"))
  | .handle _ => .ok (f.push (.object "java/lang/invoke/MethodHandle"))
  | .dynamic _ descriptor _ _ => f.pushDescribed descriptor

/-- The frame behind an access to a local variable. -/
def executeVar (f : TypeFrame) (op : Opcode) (slot : Nat) : Inferred TypeFrame := do
  match SlotAccess.ofOpcode op with
  | .load .reference => return f.push (← f.getLocal slot)
  | .load kind => return f.push (typeOf kind)
  | .store kind =>
    if kind.isWide then (← f.pop 2).setLocal slot (typeOf kind)
    else
      let (type, f) ← f.popWord
      f.setLocal slot type
  | .other => throw .subroutine

/-- The frame behind an instruction whose operand is a type. -/
def executeType (f : TypeFrame) (index : Nat) (op : Opcode) (name : String) :
    Inferred TypeFrame := do
  if op = Opcode.new then return f.push (.uninitialized index)
  else if op = Opcode.anewarray then
    f.popPush 1 (.object (String.ofList (Hierarchy.arrayOf name.toList)))
  else if op = Opcode.checkcast then f.popPush 1 (.object name)
  else f.popPush 1 .integer

/-- The frame behind an access to a field. -/
def executeField (f : TypeFrame) (op : Opcode) (descriptor : String) : Inferred TypeFrame := do
  let size := (← (Descriptor.parse descriptor).mapError InferenceError.descriptor).size
  if op = Opcode.getstatic then f.pushDescribed descriptor
  else if op = Opcode.putstatic then f.pop size
  else if op = Opcode.getfield then (← f.pop 1).pushDescribed descriptor
  else f.pop (size + 1)

/-- The type of an object behind the call of its constructor. -/
def constructedType (body : Body) (owner callOwner : String) :
    VerificationType → Inferred VerificationType
  | .uninitializedThis => .ok (.object owner)
  | .uninitialized creation =>
    match body[creation]?.map Insn.node with
    | some (.type _ name) => .ok (.object name)
    | _ => .ok (.object callOwner)
  | _ => .error .initialized

/-- Takes the arguments that a descriptor lists and returns its return type. -/
def popArguments (f : TypeFrame) (descriptor : String) :
    Inferred (Option VerificationType × TypeFrame) := do
  let parsed ← (MethodDescriptor.parse descriptor).mapError InferenceError.descriptor
  return (VerificationType.ofDescriptor parsed.returnType, ← f.pop (parsed.slots true).toNat)

/-- The frame behind a call in a class named `owner`. -/
def executeCall (f : TypeFrame) (body : Body) (owner : String) (op : Opcode)
    (callOwner name descriptor : String) : Inferred TypeFrame := do
  let (result, f) ← f.popArguments descriptor
  if op = Opcode.invokestatic then return f.push? result
  let (receiver, f) ← f.popWord
  if op = Opcode.invokespecial ∧ name = "<init>" then
    return (f.replace receiver (← constructedType body owner callOwner receiver)).push? result
  return f.push? result

/-- The frame behind a jump, whether it is taken or not. -/
def executeJump (f : TypeFrame) (op : Opcode) : Inferred TypeFrame :=
  match JumpForm.ofOpcode op with
  | .test => f.pop 1
  | .compare => f.pop 2
  | .always => .ok f
  | _ => .error .subroutine

/-- The frame behind an instruction of a body in a class named `owner`. -/
def execute (f : TypeFrame) (body : Body) (owner : String) (index : Nat) (node : Node) :
    Inferred TypeFrame := do
  match node with
  | .label _ | .line .. | .increment .. => return f
  | .simple op => f.executeSimple op
  | .int op operand =>
    if op = Opcode.newarray then return (← f.pop 1).push (← primitiveArray operand)
    else return f.push .integer
  | .constant value => f.executeConstant value
  | .var op slot => f.executeVar op slot.toNat
  | .type op name => f.executeType index op name
  | .field op _ _ descriptor => f.executeField op descriptor
  | .call op callOwner name descriptor _ => f.executeCall body owner op callOwner name descriptor
  | .dynamicCall _ descriptor _ _ =>
    let (result, f) ← f.popArguments descriptor
    return f.push? result
  | .jump op _ => f.executeJump op
  | .tableSwitch .. | .lookupSwitch .. => f.pop 1
  | .newArrays descriptor dimensions => f.popPush dimensions.toNat (.object descriptor)

/-- Merges the types of slots one by one. -/
def mergeSlots (h : Hierarchy) (old incoming : List VerificationType) : List VerificationType :=
  (old.zip incoming).map (fun (a, b) => h.merge a b) ++ old.drop incoming.length

/-- The frame where control flow joins. -/
def merge (h : Hierarchy) (f incoming : TypeFrame) : Inferred TypeFrame :=
  if f.stack.length ≠ incoming.stack.length then
    .error (.heights f.stack.length incoming.stack.length)
  else .ok {
    locals := mergeSlots h f.locals incoming.locals
    stack := mergeSlots h f.stack incoming.stack }

end TypeFrame

end Bytecode
