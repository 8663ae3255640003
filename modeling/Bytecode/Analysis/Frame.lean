import Bytecode.Analysis.Transfer
import Bytecode.Failure

/-!
# Frames

A frame describes the state before an instruction: a value for every local variable slot, and the
operand stack, whose top is the head of the list. `Frame.execute` simulates one instruction and
`Frame.merge` joins the frames of two ways to the same instruction.

A two word value in a slot is followed by an uninitialized slot; a store into either half of it
invalidates the other half.
-/

namespace Bytecode.Analysis

/-- The state before an instruction. The height of the stack may be limited, in words. -/
structure Frame where
  locals : List Value
  stack : List Value := []
  limit : Option Nat := none
  deriving Repr, Inhabited

/-- Simulations, which can fail. -/
abbrev Step := StateT Store (Except FlowError)

/-- Runs a computation on the store inside a simulation. -/
def Step.lift {α : Type} (x : StoreM α) : Step α :=
  fun s => .ok (x.run s)

instance : MonadLift StoreM Step := ⟨Step.lift⟩

/-- A value on its way back to the stack: itself or its copy. -/
inductive Moved where
  | kept (v : Value)
  | duplicate (v : Value)
  deriving Repr

namespace Shuffle

/-- What a shuffle leaves: the rest of the stack, and the values pushed onto it, the lowest first.
-/
def plan (form : Bytecode.Shuffle) (stack : List Value) :
    Except FlowError (List Value × List Moved) :=
  let mismatch : Except FlowError (List Value × List Moved) := .error (.wordSize form.mnemonic 1)
  let underflow : Except FlowError (List Value × List Moved) := .error .underflow
  match form, stack with
  | _, [] => underflow
  | .dup, a :: rest =>
    if a.isWide then mismatch else .ok (rest, [.kept a, .duplicate a])
  | .dupX1, a :: b :: rest =>
    if a.isWide || b.isWide then mismatch
    else .ok (rest, [.duplicate a, .kept b, .kept a])
  | .dupX2, a :: below =>
    if a.isWide then mismatch
    else match below with
      | [] => underflow
      | b :: rest =>
        if b.isWide then .ok (rest, [.duplicate a, .kept b, .kept a])
        else match rest with
          | [] => underflow
          | c :: rest =>
            if c.isWide then mismatch
            else .ok (rest, [.duplicate a, .kept c, .kept b, .kept a])
  | .dup2, a :: below =>
    if a.isWide then .ok (below, [.kept a, .duplicate a])
    else match below with
      | [] => underflow
      | b :: rest =>
        if b.isWide then mismatch
        else .ok (rest, [.kept b, .kept a, .duplicate b, .duplicate a])
  | .dup2X1, a :: b :: below =>
    if a.isWide then
      if b.isWide then mismatch else .ok (below, [.duplicate a, .kept b, .kept a])
    else match below with
      | [] => underflow
      | c :: rest =>
        if b.isWide || c.isWide then mismatch
        else .ok (rest, [.duplicate b, .duplicate a, .kept c, .kept b, .kept a])
  | .dup2X2, a :: b :: below =>
    if a.isWide then
      if b.isWide then .ok (below, [.duplicate a, .kept b, .kept a])
      else match below with
        | [] => underflow
        | c :: rest =>
          if c.isWide then mismatch
          else .ok (rest, [.duplicate a, .kept c, .kept b, .kept a])
    else if b.isWide then mismatch
    else match below with
      | [] => underflow
      | c :: rest =>
        if c.isWide then
          .ok (rest, [.duplicate b, .duplicate a, .kept c, .kept b, .kept a])
        else match rest with
          | [] => underflow
          | d :: rest =>
            if d.isWide then mismatch
            else .ok (rest,
              [.duplicate b, .duplicate a, .kept d, .kept c, .kept b, .kept a])
  | .swap, a :: b :: rest =>
    if a.isWide || b.isWide then mismatch else .ok (rest, [.duplicate a, .duplicate b])
  | _, [_] => underflow

end Shuffle

namespace Frame

/-- The words on the stack. -/
def stackWords (f : Frame) : Nat :=
  total Value.size f.stack

/-- The value `depth` entries below the top of the stack. -/
def stackAt? (f : Frame) (depth : Nat) : Option Value :=
  f.stack[depth]?

/-- Pushes a value. -/
def push (f : Frame) (v : Value) : Except FlowError Frame :=
  let pushed := { f with stack := v :: f.stack }
  match f.limit with
  | some limit => if limit < f.stackWords + v.size then .error (.overflow limit) else .ok pushed
  | none => .ok pushed

/-- Pushes a value if there is one. -/
def push? (f : Frame) : Option Value → Except FlowError Frame
  | some v => f.push v
  | none => .ok f

/-- Takes the topmost value. -/
def pop (f : Frame) : Except FlowError (Value × Frame) :=
  match f.stack with
  | [] => .error .underflow
  | v :: rest => .ok (v, { f with stack := rest })

/-- Takes the topmost values; the lowest of them comes first. -/
def popMany (f : Frame) (count : Nat) : Except FlowError (List Value × Frame) :=
  if f.stack.length < count then .error .underflow
  else .ok ((f.stack.take count).reverse, { f with stack := f.stack.drop count })

/-- The value of a local variable slot. -/
def getLocal (f : Frame) (slot : Nat) : Except FlowError Value :=
  match f.locals[slot]? with
  | some v => .ok v
  | none => .error (.localOutside slot)

/-- Replaces the value of a local variable slot. -/
def setLocal (f : Frame) (slot : Nat) (v : Value) : Except FlowError Frame :=
  if slot < f.locals.length then .ok { f with locals := f.locals.set slot v }
  else .error (.localOutside slot)

/-- Stores a value into a local variable. What it overlaps is lost: the second word of the value
gets a slot without contents, and so does the first word of a wide value whose second word is
overwritten. Slots are numbered modulo two to the power of 16. -/
def store (f : Frame) (slot : UInt16) (v : Value) : Step Frame := do
  let f ← f.setLocal slot.toNat v
  let f ← if v.isWide then f.setLocal (slot + 1).toNat (← Store.empty) else pure f
  match slot.toNat with
  | 0 => return f
  | before + 1 =>
    match f.locals[before]? with
    | some previous => if previous.isWide then f.setLocal before (← Store.empty) else return f
    | none => return f

/-- Rearranges the topmost values. -/
def shuffle (f : Frame) (body : Body) (index : Nat) (insn : InsnId) (form : Bytecode.Shuffle) :
    Step Frame := do
  let (rest, moved) ← Shuffle.plan form f.stack
  let values ← moved.mapM fun
    | .kept v => pure v
    | .duplicate v => Step.lift (Transfer.copy body index insn v)
  values.foldlM (fun f v => f.push v) { f with stack := rest }

/-- The number of arguments that a method descriptor lists. -/
def argumentCount (descriptor : String) : Except FlowError Nat :=
  match MethodDescriptor.parse descriptor with
  | .ok d => .ok d.arguments.length
  | .error _ => .error (.callDescriptor descriptor)

/-- Takes the topmost value and notes that an instruction consumes it; pushes what comes of it. -/
def applyUnary (f : Frame) (insn : Insn) : Step Frame := do
  let (v, f) ← f.pop
  f.push? (← Transfer.unary insn v)

/-- Takes the topmost value and notes that an instruction consumes it. -/
def discard (f : Frame) (insn : Insn) : Step Frame := do
  let (v, f) ← f.pop
  Store.consume insn.id v
  return f

/-- Takes the two topmost values and pushes what an instruction makes of them. -/
def applyBinary (f : Frame) (insn : Insn) : Step Frame := do
  let (w, f) ← f.pop
  let (v, f) ← f.pop
  f.push? (← Transfer.binary insn v w)

/-- Takes the arguments of a call and pushes its result. -/
def applyCall (f : Frame) (insn : Insn) (count : Nat) : Step Frame := do
  let (arguments, f) ← f.popMany count
  f.push? (← Transfer.call insn arguments)

/-- Simulates an instruction without operands. -/
def executeSimple (f : Frame) (body : Body) (index : Nat) (insn : Insn) (op : Opcode) :
    Step Frame := do
  match Operation.ofOpcode op with
  | .nop | .leave none => return f
  | .null | .constant _ => f.push (← Transfer.push insn)
  | .arrayLoad _ | .binary _ => f.applyBinary insn
  | .arrayStore _ =>
    let (value, f) ← f.pop
    let (position, f) ← f.pop
    let (array, f) ← f.pop
    [array, position, value].forM fun v => Step.lift (Store.consume insn.id v)
    return f
  | .pop =>
    let (v, f) ← f.pop
    if v.isWide then throw (.wordSize "POP" 1)
    return f
  | .pop2 =>
    let (v, f) ← f.pop
    if v.isWide then return f
    let (w, f) ← f.pop
    if w.isWide then throw (.wordSize "POP2" 1)
    return f
  | .shuffle form => f.shuffle body index insn.id form
  | .unary _ | .arrayLength => f.applyUnary insn
  | .leave (some _) | .throw | .monitor => f.discard insn
  | .other => throw (.unsupported op.mnemonic)

/-- Simulates an instruction. -/
def execute (f : Frame) (body : Body) (index : Nat) (insn : Insn) : Step Frame := do
  match insn.node with
  | .label _ | .line .. => return f
  | .simple op => f.executeSimple body index insn op
  | .int op _ =>
    if op = Opcode.newarray then f.applyUnary insn else f.push (← Transfer.push insn)
  | .constant _ => f.push (← Transfer.push insn)
  | .var op slot =>
    match SlotAccess.ofOpcode op with
    | .load _ =>
      let v ← f.getLocal slot.toNat
      f.push (← Transfer.copy body index insn.id v)
    | .store _ =>
      let (v, f) ← f.pop
      f.store slot (← Transfer.copy body index insn.id v)
    | .other => throw (.unsupported "RET")
  | .increment slot _ =>
    let v ← f.getLocal slot.toNat
    match ← Transfer.unary insn v with
    | some w => f.setLocal slot.toNat w
    | none => return f
  | .jump op _ =>
    match JumpForm.ofOpcode op with
    | .always | .alwaysWide => return f
    | .subroutine => throw (.unsupported "JSR")
    | .compare => f.applyBinary insn
    | .test | .other => f.discard insn
  | .tableSwitch .. | .lookupSwitch .. => f.discard insn
  | .field op _ _ _ =>
    if op = Opcode.getstatic then f.push (← Transfer.push insn)
    else if op = Opcode.putstatic then f.discard insn
    else if op = Opcode.getfield then f.applyUnary insn
    else f.applyBinary insn
  | .call op _ _ descriptor _ =>
    let receiver := if op = Opcode.invokestatic then 0 else 1
    f.applyCall insn ((← argumentCount descriptor) + receiver)
  | .dynamicCall _ descriptor _ _ => f.applyCall insn (← argumentCount descriptor)
  | .type op _ => if op = Opcode.new then f.push (← Transfer.push insn) else f.applyUnary insn
  | .newArrays _ dimensions => f.applyCall insn dimensions.toNat

/-- Merges the values of slots one by one and tells whether any changed. -/
def mergeSlots : List Value → List Value → StoreM (List Value × Bool)
  | old :: olds, new :: news => do
    let merged ← Store.merge old new
    let (rest, changed) ← mergeSlots olds news
    return (merged :: rest, changed || merged.id != old.id)
  | olds, _ => return (olds, false)

/-- The frame where control flow joins, and whether it says less than the one before. -/
def merge (f incoming : Frame) : Step (Frame × Bool) := do
  if f.stack.length ≠ incoming.stack.length then
    throw (.heights f.stack.length incoming.stack.length)
  let (locals, localsChanged) ← mergeSlots f.locals incoming.locals
  let (stack, stackChanged) ← mergeSlots f.stack incoming.stack
  return ({ f with locals, stack }, localsChanged || stackChanged)

end Frame

end Bytecode.Analysis
