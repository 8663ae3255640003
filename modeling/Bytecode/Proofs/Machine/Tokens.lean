import Bytecode.Analysis.Dataflow
import Bytecode.Proofs.Machine.Run

/-!
# Values followed as tokens

A path through the control flow of a method carries values along: an instruction takes entries off
the operand stack, leaves others where they are and makes new ones. What moves where depends on the
sizes of values only, so that a path can be carried out with tokens in place of values: a `Token`
knows its kind and the instruction that made it, and its number tells it from all others.

`Movement` sorts the nodes by what they do to stack and slots, `Movement.exchange` and
`Movement.change` say what that is, and `Point.advance` carries it out. A copy counts as made by the
instruction that copies. DUP and DUP2 put their copies on top, the forms that reach further down put
them beneath, and SWAP copies both entries.

Nothing here decides which branch is taken: a `Step` goes along any edge of the control flow, and
from any covered position to the handler.
-/

namespace Bytecode.Tokens

open Machine (Code)

/-- A value that a path carries along. The arguments of a method and a caught exception have no
producer. -/
structure Token where
  number : Nat
  kind : Kind
  producer : Option InsnId
  deriving DecidableEq, Repr

/-! ## What nodes move -/

/-- How a node moves values. The operands of an operation leave the stack, and its result, if it has
one, comes there. Dropping counts words, and so do the shuffles. -/
inductive Movement where
  | operate (count : Nat) (result : Option Kind)
  | load (slot : UInt16)
  | store (slot : UInt16)
  | increment (slot : UInt16)
  | drop (words : Nat)
  | shuffle (form : Shuffle)
  deriving DecidableEq, Repr

/-- The kind of a loadable constant. -/
def constantKind : Constant → Kind
  | .int _ => .int
  | .float _ => .float
  | .long _ => .long
  | .double _ => .double
  | .string _ | .classRef _ | .methodType _ | .handle _ => .reference
  | .dynamic _ descriptor _ _ => .ofText descriptor

/-- How an operation moves values. -/
def operationMovement : Operation → Option Movement
  | .nop | .leave none => some (.operate 0 none)
  | .null => some (.operate 0 (some .reference))
  | .constant value => some (.operate 0 (some (constantKind value)))
  | .arrayLoad kind => some (.operate 2 (some kind))
  | .arrayStore _ => some (.operate 3 none)
  | .pop => some (.drop 1)
  | .pop2 => some (.drop 2)
  | .shuffle form => some (.shuffle form)
  | .binary op => some (.operate 2 (some op.kind))
  | .unary op => some (.operate 1 (some op.kind))
  | .arrayLength => some (.operate 1 (some .int))
  | .leave (some _) | .throw | .monitor => some (.operate 1 none)
  | .other => none

/-- How an access to a local variable moves values. -/
def accessMovement (slot : UInt16) : SlotAccess → Option Movement
  | .load _ => some (.load slot)
  | .store _ => some (.store slot)
  | .other => none

/-- How a jump moves values. -/
def jumpMovement : JumpForm → Option Movement
  | .always | .alwaysWide => some (.operate 0 none)
  | .compare => some (.operate 2 none)
  | .test | .other => some (.operate 1 none)
  | .subroutine => none

/-- How an access to a field moves values. -/
def fieldMovement (op : Opcode) (kind : Kind) : Movement :=
  if op = Opcode.getstatic then .operate 0 (some kind)
  else if op = Opcode.putstatic then .operate 1 none
  else if op = Opcode.getfield then .operate 1 (some kind)
  else .operate 2 none

/-- How an instruction about a class moves values. -/
def typeMovement (op : Opcode) : Movement :=
  if op = Opcode.new then .operate 0 (some .reference)
  else if op = Opcode.anewarray ∨ op = Opcode.checkcast then .operate 1 (some .reference)
  else if op = Opcode.instanceof then .operate 1 (some .int)
  else .operate 1 none

/-- How a call moves values: it takes the receiver, if there is one, and the arguments, and returns a
value unless the method is void. -/
def callMovement (receivers : Nat) (descriptor : String) : Option Movement :=
  (MethodDescriptor.parse descriptor).toOption.map fun d =>
    .operate (d.arguments.length + receivers) (Kind.ofDescriptor d.returnType)

/-- How a node moves values. Subroutines are not followed. -/
def movement? : Node → Option Movement
  | .label _ | .line .. => some (.operate 0 none)
  | .simple op => operationMovement (.ofOpcode op)
  | .int op _ =>
    some (if op = Opcode.newarray then .operate 1 (some .reference) else .operate 0 (some .int))
  | .constant value => some (.operate 0 (some (constantKind value)))
  | .var op slot => accessMovement slot (.ofOpcode op)
  | .increment slot _ => some (.increment slot)
  | .jump op _ => jumpMovement (.ofOpcode op)
  | .tableSwitch .. | .lookupSwitch .. => some (.operate 1 none)
  | .field op _ _ descriptor => some (fieldMovement op (.ofText descriptor))
  | .call op _ _ descriptor _ => callMovement (if op = Opcode.invokestatic then 0 else 1) descriptor
  | .dynamicCall _ descriptor _ _ => callMovement 0 descriptor
  | .type op _ => some (typeMovement op)
  | .newArrays _ dimensions => some (.operate dimensions.toNat (some .reference))

/-! ## Entries -/

/-- Where an entry of the stack behind an instruction comes from. -/
inductive Origin where
  | kept (depth : Nat)
  | made (kind : Kind)
  deriving DecidableEq, Repr

/-- What an instruction does to the stack: the topmost `read` entries are its operands, `taken`
entries leave the stack, and others come there, the topmost first. -/
structure Exchange where
  read : Nat
  taken : Nat
  pushed : List Origin
  deriving DecidableEq, Repr

/-- The number of topmost entries that fill some words exactly. -/
def cut : Nat → List Kind → Option Nat
  | 0, _ => some 0
  | _ + 1, [] => none
  | words + 1, kind :: rest =>
    if kind.size ≤ words + 1 then (cut (words + 1 - kind.size) rest).map (· + 1) else none

/-- The topmost entries, as they are. -/
def keep (count : Nat) : List Origin :=
  (List.range count).map .kept

/-- Copies of entries. -/
def copies (kinds : List Kind) : List Origin :=
  kinds.map .made

/-- The words that a shuffle copies, and the words below them that it works on. -/
def shuffledWords : Shuffle → Nat × Nat
  | .dup => (1, 0)
  | .dupX1 | .swap => (1, 1)
  | .dupX2 => (1, 2)
  | .dup2 => (2, 0)
  | .dup2X1 => (2, 1)
  | .dup2X2 => (2, 2)

/-- What a shuffle does to a stack of the given kinds. -/
def shuffleExchange (form : Shuffle) (kinds : List Kind) : Option Exchange := do
  let top ← cut (shuffledWords form).1 kinds
  let middle ← cut (shuffledWords form).2 (kinds.drop top)
  match form with
  | .swap => return ⟨2, 2, copies (kinds.take 2).reverse⟩
  | .dup | .dup2 => return ⟨top, top, copies (kinds.take top) ++ keep top⟩
  | _ => return ⟨top, top + middle, keep (top + middle) ++ copies (kinds.take top)⟩

/-- What an instruction does to a stack of the given kinds, where the local variables have the given
kinds too. -/
def Movement.exchange (slots : Nat → Option Kind) (kinds : List Kind) : Movement → Option Exchange
  | operate count result =>
    if count ≤ kinds.length then some ⟨count, count, copies result.toList⟩ else none
  | load slot => (slots slot.toNat).map fun kind => ⟨0, 0, copies [kind]⟩
  | store _ => if 1 ≤ kinds.length then some ⟨1, 1, []⟩ else none
  | increment _ => some ⟨0, 0, []⟩
  | drop words => (cut words kinds).map fun count => ⟨0, count, []⟩
  | shuffle form => shuffleExchange form kinds

/-! ## Local variables -/

/-- What becomes of a local variable. -/
inductive Change where
  | kept
  | emptied
  | filled (kind : Kind)
  deriving DecidableEq, Repr

/-- What a store does to a local variable. A wide value fills the next slot too, and a wide value in
the slot before is torn apart. Slots are numbered modulo two to the power of 16. -/
def storeChange (slots : Nat → Option Kind) (kind : Kind) (slot : UInt16) (k : Nat) : Change :=
  if k = slot.toNat then .filled kind
  else if k = (slot + 1).toNat ∧ kind.isWide then .emptied
  else if k + 1 = slot.toNat ∧ (slots k).any Kind.isWide then .emptied
  else .kept

/-- What an instruction does to a local variable. -/
def Movement.change (slots : Nat → Option Kind) (kinds : List Kind) (k : Nat) : Movement → Change
  | store slot => kinds.head?.elim .kept fun kind => storeChange slots kind slot k
  | increment slot => if k = slot.toNat then .filled .int else .kept
  | _ => .kept

/-! ## Paths -/

/-- A cell that holds a value: a local variable, or an entry of the stack by its depth. -/
inductive Cell where
  | slot (k : Nat)
  | entry (depth : Nat)
  deriving DecidableEq, Repr

/-- The cells from which an instruction takes its operands. -/
def Movement.operands (exchange : Exchange) : Movement → List Cell
  | load slot | increment slot => [.slot slot.toNat]
  | _ => (List.range exchange.read).map .entry

/-- A point of a path: the position of the next instruction, and the tokens before it. All numbers
below `next` have been handed out. -/
structure Point where
  position : Nat
  slots : Nat → Option Token
  stack : List Token
  next : Nat

namespace Point

/-- The token in a cell. -/
def at? (p : Point) : Cell → Option Token
  | .slot k => p.slots k
  | .entry depth => p.stack[depth]?

/-- The kind of the token in a local variable. -/
def slotKind (p : Point) (k : Nat) : Option Kind :=
  (p.slots k).map Token.kind

/-- The kinds of the stack. -/
def kinds (p : Point) : List Kind :=
  p.stack.map Token.kind

/-- The token that comes onto the stack as the one at an index. -/
def token? (p : Point) (id : InsnId) : Origin × Nat → Option Token
  | (.kept depth, _) => p.stack[depth]?
  | (.made kind, index) => some ⟨p.next + index, kind, some id⟩

/-- The token in a local variable behind an instruction that makes the token of the given number. -/
def changed (p : Point) (id : InsnId) (number : Nat) (k : Nat) : Change → Option Token
  | .kept => p.slots k
  | .emptied => none
  | .filled kind => some ⟨number, kind, some id⟩

/-- The point behind an instruction, at a position where control goes on. -/
def advance (p : Point) (insn : Insn) (target : Nat) : Option Point := do
  let movement ← movement? insn.node
  let exchange ← movement.exchange p.slotKind p.kinds
  let pushed ← exchange.pushed.zipIdx.mapM (p.token? insn.id)
  let number := p.next + exchange.pushed.length
  return {
    position := target
    slots := fun k => p.changed insn.id number k (movement.change p.slotKind p.kinds k)
    stack := pushed ++ p.stack.drop exchange.taken
    next := number + 1 }

/-- The point at a handler: the exception is alone on the stack. -/
def caught (p : Point) (handler : Nat) : Point where
  position := handler
  slots := p.slots
  stack := [⟨p.next, .reference, none⟩]
  next := p.next + 1

end Point

/-- The edges of the control flow from a node, other than those to handlers. -/
inductive Edge (code : Code) (i : Nat) (node : Node) : Nat → Prop
  | jump {l : LabelId} {target : Nat} (member : l ∈ node.targets)
      (found : code.positions l = some target) : Edge code i node target
  | next (falls : node.fallsThrough Analysis.Flow.always = true) : Edge code i node (i + 1)

/-- One step of a path. -/
inductive Step (code : Code) : Point → Point → Prop
  | edge {p q : Point} {insn : Insn} {target : Nat} (at_position : code.body[p.position]? = some insn)
      (edge : Edge code p.position insn.node target) (advances : p.advance insn target = some q) :
      Step code p q
  | handler {p : Point} {range : CoveredRange} (member : range ∈ code.ranges)
      (covers : range.covers p.position = true) : Step code p (p.caught range.handler)

/-- The points to which a path leads. -/
def Reaches (code : Code) : Point → Point → Prop :=
  Relation.ReflTransGen (Step code)

/-- The slots that values of the given kinds fill. -/
def laidOut (kinds : List Kind) : List (Option Kind) :=
  kinds.flatMap fun kind => if kind.isWide then [some kind, none] else [some kind]

/-- The point at the entry of a method with parameters of the given kinds. -/
def start (kinds : List Kind) : Point where
  position := 0
  slots := fun k => (laidOut kinds)[k]?.join.map fun kind => ⟨k, kind, none⟩
  stack := []
  next := (laidOut kinds).length

/-- A point on a path of a method from its entry. -/
def OnPath (m : Method) (p : Point) : Prop :=
  ∃ code kinds, Machine.codeOf? m = some code ∧ Machine.parameterKinds m = some kinds ∧
    Reaches code (start kinds) p

end Bytecode.Tokens
