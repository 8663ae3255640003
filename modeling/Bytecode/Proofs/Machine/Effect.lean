import Bytecode.ControlFlow
import Bytecode.Proofs.Machine.Datum
import Mathlib.Logic.Function.Basic

/-!
# One instruction of the reference machine

`effect` says what an instruction does to the activation of its method. Instructions that access a
local variable or rearrange words have rules of their own; every other instruction takes operands of
fixed kinds from the stack, `Node.operands`, and goes on according to `Node.action`.

What the machine does not know by itself is an `ask`: calls, accesses to fields, arrays and locks,
and allocations name their operands and leave the answer to the surroundings. An instruction without
an effect is stuck: its operands do not have the kinds that it is made for.
-/

namespace Bytecode.Machine

/-- The local variables and the operand stack of a running method. The top of the stack is the head
of the list, and a slot that was not written holds nothing. -/
structure Activation where
  locals : Nat → Option Datum
  stack : List Datum := []

/-! ## Stacks and slots -/

/-- Takes operands of the given kinds from a stack; the last kind is that of the top. -/
def take (kinds : List Kind) (stack : List Datum) : Option (List Datum × List Datum) :=
  let taken := (stack.take kinds.length).reverse
  if taken.map Datum.kind = kinds then some (taken, stack.drop kinds.length) else none

/-- Cuts the topmost words off a stack, unless that would tear a datum apart. -/
def cut : Nat → List Datum → Option (List Datum × List Datum)
  | 0, stack => some ([], stack)
  | _ + 1, [] => none
  | words + 1, d :: stack =>
    if d.size ≤ words + 1 then
      (cut (words + 1 - d.size) stack).map fun (top, rest) => (d :: top, rest)
    else none

/-- Repeats the topmost words of a stack below the next ones. -/
def duplicate (words below : Nat) (stack : List Datum) : Option (List Datum) := do
  let (top, rest) ← cut words stack
  let (middle, rest) ← cut below rest
  return top ++ (middle ++ (top ++ rest))

/-- Rearranges the topmost words of a stack. -/
def shuffle : Bytecode.Shuffle → List Datum → Option (List Datum)
  | .dup, stack => duplicate 1 0 stack
  | .dupX1, stack => duplicate 1 1 stack
  | .dupX2, stack => duplicate 1 2 stack
  | .dup2, stack => duplicate 2 0 stack
  | .dup2X1, stack => duplicate 2 1 stack
  | .dup2X2, stack => duplicate 2 2 stack
  | .swap, stack => do
    let (top, rest) ← cut 1 stack
    let (next, rest) ← cut 1 rest
    return next ++ (top ++ rest)

/-- Operands come off the top of the stack. -/
theorem take_eq_some {kinds : List Kind} {stack taken rest : List Datum}
    (h : take kinds stack = some (taken, rest)) :
    taken = (stack.take kinds.length).reverse ∧ rest = stack.drop kinds.length ∧
      taken.map Datum.kind = kinds := by
  unfold take at h
  dsimp only at h
  split at h
  · next fits =>
    cases h
    exact ⟨rfl, rfl, fits⟩
  · cases h

theorem cut_cons {words : Nat} {d : Datum} {stack top rest : List Datum}
    (h : cut (words + 1) (d :: stack) = some (top, rest)) :
    d.size ≤ words + 1 ∧
      ∃ more, top = d :: more ∧ cut (words + 1 - d.size) stack = some (more, rest) := by
  rw [cut] at h
  split at h
  · next fits =>
    obtain ⟨⟨more, rest'⟩, below, same⟩ := Option.map_eq_some_iff.mp h
    cases same
    exact ⟨fits, more, rfl, below⟩
  · cases h

theorem cut_zero {stack top rest : List Datum} (h : cut 0 stack = some (top, rest)) :
    top = [] ∧ rest = stack := by
  rw [cut] at h
  cases h
  exact ⟨rfl, rfl⟩

/-- One word is one datum. -/
theorem cut_one {stack top rest : List Datum} (h : cut 1 stack = some (top, rest)) :
    ∃ d, top = [d] ∧ stack = d :: rest ∧ d.size = 1 := by
  cases stack with
  | nil => cases h
  | cons d stack =>
    obtain ⟨fits, more, rfl, below⟩ := cut_cons h
    obtain single | double := d.size_eq
    · rw [single] at below
      obtain ⟨rfl, rfl⟩ := cut_zero below
      exact ⟨d, rfl, rfl, single⟩
    · omega

/-- Two words are one datum or two. -/
theorem cut_two {stack top rest : List Datum} (h : cut 2 stack = some (top, rest)) :
    (∃ d, top = [d] ∧ stack = d :: rest ∧ d.size = 2) ∨
      ∃ d e, top = [d, e] ∧ stack = d :: e :: rest ∧ d.size = 1 ∧ e.size = 1 := by
  cases stack with
  | nil => cases h
  | cons d stack =>
    obtain ⟨-, more, rfl, below⟩ := cut_cons h
    obtain single | double := d.size_eq
    · rw [single] at below
      obtain ⟨e, rfl, rfl, single'⟩ := cut_one below
      exact .inr ⟨d, e, rfl, rfl, single, single'⟩
    · rw [double] at below
      obtain ⟨rfl, rfl⟩ := cut_zero below
      exact .inl ⟨d, rfl, rfl, double⟩

theorem duplicate_eq {words below : Nat} {stack result : List Datum}
    (h : duplicate words below stack = some result) :
    ∃ top middle rest rest', cut words stack = some (top, rest) ∧
      cut below rest = some (middle, rest') ∧ result = top ++ (middle ++ (top ++ rest')) := by
  obtain ⟨⟨top, rest⟩, first, h⟩ := Option.bind_eq_some_iff.mp h
  obtain ⟨⟨middle, rest'⟩, second, h⟩ := Option.bind_eq_some_iff.mp h
  cases h
  exact ⟨top, middle, rest, rest', first, second, rfl⟩

/-- The number of slots that have a number of 16 bits. -/
def slotCount : Nat := 65536

/-- Writes a datum into a slot. A wide datum fills the next slot too, and a wide datum in the slot
before is torn apart. -/
def write (locals : Nat → Option Datum) (slot : Nat) (d : Datum) : Nat → Option Datum := fun k =>
  if k = slot then some d
  else if k = slot + 1 ∧ d.size = 2 then none
  else if k + 1 = slot ∧ (locals k).elim false (·.size == 2) then none
  else locals k

/-- The arguments of a call in the slots where the called method finds them. -/
def laidOut : List Datum → List (Option Datum)
  | [] => []
  | d :: rest => if d.size = 2 then some d :: none :: laidOut rest else some d :: laidOut rest

/-- The activation with which a method starts. -/
def Activation.ofArguments (arguments : List Datum) : Activation :=
  { locals := fun k => (laidOut arguments)[k]?.join }

/-! ## Operands -/

/-- The kinds of the arguments of a method. -/
def argumentKinds (descriptor : MethodDescriptor) : List Kind :=
  descriptor.arguments.filterMap Kind.ofDescriptor

/-- The kind that a text describes, if it describes the type of a value. -/
def kindOf? (descriptor : String) : Option Kind :=
  (Descriptor.parse descriptor).toOption.bind Kind.ofDescriptor

/-- The kinds of the operands of an operation, where these are fixed. -/
def operationOperands : Operation → Option (List Kind)
  | .nop | .null | .constant _ | .leave none => some []
  | .arrayLoad _ => some [.reference, .int]
  | .arrayStore kind => some [.reference, .int, kind]
  | .binary op => some [op.operands.1.kind, op.operands.2.kind]
  | .unary op => some [op.operand.kind]
  | .arrayLength | .throw | .monitor => some [.reference]
  | .leave (some kind) => some [kind]
  | .pop | .pop2 | .shuffle _ | .other => none

/-- Whether the opcode of a comparison compares references. -/
def comparesReferences (op : Opcode) : Bool :=
  0xa5 ≤ op.toNat

/-- Whether the opcode of a test looks at a reference. -/
def testsReference (op : Opcode) : Bool :=
  op == Opcode.ifnull || op == Opcode.ifnonnull

/-- The kinds of the operands of a jump. -/
def jumpOperands (op : Opcode) : Option (List Kind) :=
  match JumpForm.ofOpcode op with
  | .always | .alwaysWide => some []
  | .compare => some (if comparesReferences op then [.reference, .reference] else [.int, .int])
  | .test => some (if testsReference op then [.reference] else [.int])
  | .subroutine | .other => none

/-- The kinds of the operands of an access to a field. -/
def fieldOperands (op : Opcode) (kind : Kind) : Option (List Kind) :=
  match op with
  | Opcode.getstatic => some []
  | Opcode.putstatic => some [kind]
  | Opcode.getfield => some [.reference]
  | Opcode.putfield => some [.reference, kind]
  | _ => none

/-- The kinds of the operands of a call: the receiver, unless the method is static, and the
arguments. -/
def callOperands (op : Opcode) (descriptor : MethodDescriptor) : Option (List Kind) :=
  match op with
  | Opcode.invokestatic => some (argumentKinds descriptor)
  | Opcode.invokevirtual | Opcode.invokespecial | Opcode.invokeinterface =>
    some (.reference :: argumentKinds descriptor)
  | _ => none

/-- The kinds of the operands of an instruction about a class. -/
def typeOperands (op : Opcode) : Option (List Kind) :=
  match op with
  | Opcode.new => some []
  | Opcode.anewarray => some [.int]
  | Opcode.checkcast | Opcode.instanceof => some [.reference]
  | _ => none

/-- The kinds of the operands of a node, the last one on top of the stack. Nodes that access local
variables or rearrange words have none, and neither have those whose opcode does not fit their
shape. -/
def operands : Node → Option (List Kind)
  | .simple op => operationOperands (Operation.ofOpcode op)
  | .int op _ =>
    if op = Opcode.newarray then some [.int]
    else if op = Opcode.bipush ∨ op = Opcode.sipush then some []
    else none
  | .type op _ => typeOperands op
  | .field op _ _ descriptor => (kindOf? descriptor).bind (fieldOperands op)
  | .call op _ _ descriptor _ => (MethodDescriptor.parse descriptor).toOption.bind (callOperands op)
  | .dynamicCall _ descriptor _ _ =>
    (MethodDescriptor.parse descriptor).toOption.map argumentKinds
  | .jump op _ => jumpOperands op
  | .tableSwitch .. | .lookupSwitch .. => some [.int]
  | .newArrays _ dimensions => some (List.replicate dimensions.toNat .int)
  | .label _ | .line .. | .constant _ => some []
  | .var .. | .increment .. => none

/-! ## Actions -/

/-- What is pushed when the surroundings have answered: nothing, a value of a kind that they choose,
or the operand that was asked about. -/
inductive Reply where
  | nothing
  | value (kind : Kind)
  | same (operand : Datum)
  deriving DecidableEq, Repr

/-- What an answer pushes, if it is one that the reply allows. -/
def Reply.pushed : Reply → Option Datum → Option (Option Datum)
  | nothing, none => some none
  | value kind, some d => if d.kind = kind then some (some d) else none
  | same operand, none => some (some operand)
  | _, _ => none

/-- How an instruction goes on with its operands. -/
inductive Action where
  | push (result : Option Datum)
  | jump (target : LabelId)
  | ask (reply : Reply)
  | leave (value : Option Datum)
  | raise (exception : Ref)
  deriving DecidableEq, Repr

/-- The comparisons of integers in opcode order. -/
def holds : Nat → Int → Int → Bool
  | 0, a, b => a == b
  | 1, a, b => a != b
  | 2, a, b => a < b
  | 3, a, b => b ≤ a
  | 4, a, b => b < a
  | _, a, b => a ≤ b

/-- Whether a jump is taken. -/
def jumps (op : Opcode) : List Datum → Option Bool
  | [] => some true
  | [.int a] => some (holds (op.toNat - Opcode.ifeq.toNat) a.toInt 0)
  | [.ref a] => some (if op = Opcode.ifnull then a == .null else a != .null)
  | [.int a, .int b] => some (holds (op.toNat - Opcode.ifIcmpeq.toNat) a.toInt b.toInt)
  | [.ref a, .ref b] => some (if op = Opcode.ifAcmpne then a != b else a == b)
  | _ => none

/-- The target of a table switch. -/
def tableTarget (low high : Int32) (default : LabelId) (targets : List LabelId) (v : Int32) :
    LabelId :=
  if low.toInt ≤ v.toInt ∧ v.toInt ≤ high.toInt then
    (targets[(v.toInt - low.toInt).toNat]?).getD default
  else default

/-- The target of a lookup switch. -/
def lookupTarget (default : LabelId) (keys : List Int32) (targets : List LabelId) (v : Int32) :
    LabelId :=
  ((keys.zip targets).lookup v).getD default

/-- How an operation without operands in the code goes on. -/
def operationAction : Operation → List Datum → Option Action
  | .nop, [] => some (.push none)
  | .null, [] => some (.push (some (.ref .null)))
  | .constant c, [] => (ofConstant c).map fun d => .push (some d)
  | .arrayLoad kind, _ => some (.ask (.value kind))
  | .arrayStore _, _ | .monitor, _ => some (.ask .nothing)
  | .arrayLength, _ => some (.ask (.value .int))
  | .unary op, [d] => (d.unary op).map fun d => .push (some d)
  | .binary op, [d, e] =>
    (d.binary op e).map fun
      | .ok d => .push (some d)
      | .error name => .raise (.fault name)
  | .leave _, values => some (.leave values.head?)
  | .throw, [.ref .null] => some (.raise (.fault nullFault))
  | .throw, [.ref exception] => some (.raise exception)
  | _, _ => none

/-- The reply to a call. -/
def callReply (descriptor : MethodDescriptor) : Reply :=
  (Kind.ofDescriptor descriptor.returnType).elim .nothing .value

/-- How a loadable constant comes onto the stack. -/
def constantAction (c : Constant) : Option Action :=
  match ofConstant c, c with
  | some d, _ => some (.push (some d))
  | none, .dynamic _ descriptor _ _ => (kindOf? descriptor).map fun kind => .ask (.value kind)
  | none, _ => some (.ask (.value .reference))

/-- How an instruction about a class goes on. -/
def typeAction (op : Opcode) (taken : List Datum) : Option Action :=
  match op, taken with
  | Opcode.checkcast, [d] => some (.ask (.same d))
  | Opcode.instanceof, _ => some (.ask (.value .int))
  | _, _ => some (.ask (.value .reference))

/-- How an access to a field goes on. -/
def fieldAction (op : Opcode) (kind : Kind) : Action :=
  if op = Opcode.putstatic ∨ op = Opcode.putfield then .ask .nothing else .ask (.value kind)

/-- How a node goes on with its operands. -/
def action : Node → List Datum → Option Action
  | .simple op, taken => operationAction (Operation.ofOpcode op) taken
  | .int op operand, _ =>
    some (if op = Opcode.newarray then .ask (.value .reference) else .push (some (.int operand)))
  | .type op _, taken => typeAction op taken
  | .field op _ _ descriptor, _ => (kindOf? descriptor).map (fieldAction op)
  | .call _ _ _ descriptor _, _ | .dynamicCall _ descriptor _ _, _ =>
    (MethodDescriptor.parse descriptor).toOption.map fun d => .ask (callReply d)
  | .jump op target, taken =>
    (jumps op taken).map fun taken => if taken then .jump target else .push none
  | .tableSwitch low high default targets, [.int v] =>
    some (.jump (tableTarget low high default targets v))
  | .lookupSwitch default keys targets, [.int v] => some (.jump (lookupTarget default keys targets v))
  | .newArrays .., _ => some (.ask (.value .reference))
  | .label _, _ | .line .., _ => some (.push none)
  | .constant c, _ => constantAction c
  | _, _ => none

/-! ## Effects -/

/-- What an instruction does to the activation of its method. -/
inductive Effect where
  | next (a : Activation)
  | jump (target : LabelId) (a : Activation)
  | ask (taken : List Datum) (reply : Reply) (a : Activation)
  | leave (value : Option Datum)
  | raise (exception : Ref)

/-- Pushes a datum if there is one. -/
def Activation.push? (a : Activation) (d : Option Datum) : Activation :=
  { a with stack := d.toList ++ a.stack }

/-- An action in an activation from which the operands have been taken. -/
def Action.effect (taken : List Datum) (a : Activation) : Action → Effect
  | push result => .next (a.push? result)
  | jump target => .jump target a
  | ask reply => .ask taken reply a
  | leave value => .leave value
  | raise exception => .raise exception

/-- The effect of an access to a local variable. -/
def accessEffect (access : SlotAccess) (slot : Nat) (a : Activation) : Option Effect :=
  match access, a.stack with
  | .load kind, _ => do
    let d ← a.locals slot
    if d.kind = kind then some (.next (a.push? (some d))) else none
  | .store kind, d :: rest =>
    if d.kind = kind ∧ slot + d.size ≤ slotCount then some (.next ⟨write a.locals slot d, rest⟩)
    else none
  | _, _ => none

/-- The effect of an increment of a local variable. -/
def incrementEffect (slot : Nat) (amount : Int) (a : Activation) : Option Effect :=
  match a.locals slot with
  | some (.int v) =>
    let sum := Datum.int (.ofInt (v.toInt + amount))
    some (.next { a with locals := Function.update a.locals slot (some sum) })
  | _ => none

/-- The stack that an operation leaves which works on words. -/
def rearranged : Operation → List Datum → Option (List Datum)
  | .pop, stack => (cut 1 stack).map Prod.snd
  | .pop2, stack => (cut 2 stack).map Prod.snd
  | .shuffle form, stack => shuffle form stack
  | _, _ => none

/-- The effect of an instruction that takes operands of fixed kinds. -/
def operandEffect (node : Node) (kinds : List Kind) (a : Activation) : Option Effect := do
  let (taken, stack) ← take kinds a.stack
  let action ← action node taken
  return action.effect taken { a with stack }

/-- The effect of an instruction. -/
def effect (node : Node) (a : Activation) : Option Effect :=
  match operands node, node with
  | some kinds, _ => operandEffect node kinds a
  | none, .simple op =>
    (rearranged (Operation.ofOpcode op) a.stack).map fun stack => .next { a with stack }
  | none, .var op slot => accessEffect (SlotAccess.ofOpcode op) slot.toNat a
  | none, .increment slot amount => incrementEffect slot.toNat amount.toInt a
  | none, _ => none

/-- An instruction with operands of fixed kinds takes them and acts. -/
theorem operandEffect_eq_some {node : Node} {kinds : List Kind} {a : Activation} {eff : Effect}
    (h : operandEffect node kinds a = some eff) :
    ∃ taken stack act, take kinds a.stack = some (taken, stack) ∧ action node taken = some act ∧
      eff = act.effect taken { a with stack } := by
  obtain ⟨⟨taken, stack⟩, took, h⟩ := Option.bind_eq_some_iff.mp h
  obtain ⟨act, acts, same⟩ := Option.bind_eq_some_iff.mp h
  exact ⟨taken, stack, act, took, acts, (Option.some.inj same).symm⟩

theorem effect_of_operands {node : Node} {kinds : List Kind} (known : operands node = some kinds)
    (a : Activation) : effect node a = operandEffect node kinds a := by
  unfold effect
  rw [known]

/-- Only an instruction with operands of fixed kinds asks. -/
theorem operandEffect_of_ask {node : Node} {a b : Activation} {taken : List Datum} {reply : Reply}
    (h : effect node a = some (.ask taken reply b)) : ∃ kinds, operands node = some kinds ∧
      operandEffect node kinds a = some (.ask taken reply b) := by
  cases known : operands node with
  | some kinds => exact ⟨kinds, rfl, effect_of_operands known a ▸ h⟩
  | none =>
    unfold effect at h
    rw [known] at h
    cases node with
    | simple op =>
      obtain ⟨stack, -, same⟩ := Option.map_eq_some_iff.mp h
      cases same
    | var op slot =>
      have h : accessEffect (SlotAccess.ofOpcode op) slot.toNat a = some (.ask taken reply b) := h
      unfold accessEffect at h
      split at h
      · obtain ⟨d, -, h⟩ := Option.bind_eq_some_iff.mp h
        split at h <;> cases h
      · split at h <;> cases h
      · cases h
    | increment slot amount =>
      have h : incrementEffect slot.toNat amount.toInt a = some (.ask taken reply b) := h
      unfold incrementEffect at h
      split at h <;> cases h
    | _ => cases h

/-- A throw raises an exception. -/
theorem raise_of_throw {taken : List Datum} {act : Action}
    (h : operationAction .throw taken = some act) : ∃ e, act = .raise e := by
  rcases taken with _ | ⟨d, _ | _⟩
  · cases h
  · cases d with
    | ref r => cases r <;> exact ⟨_, (Option.some.inj h).symm⟩
    | _ => cases h
  · cases d with
    | ref r => cases r <;> cases h
    | _ => cases h

/-- A switch jumps. -/
theorem jump_of_tableSwitch {low high : Int32} {default : LabelId} {targets : List LabelId}
    {taken : List Datum} {act : Action}
    (h : action (.tableSwitch low high default targets) taken = some act) : ∃ l, act = .jump l := by
  rcases taken with _ | ⟨d, _ | _⟩
  · cases h
  · cases d <;> first | cases h; done | exact ⟨_, (Option.some.inj h).symm⟩
  · cases d <;> cases h

theorem jump_of_lookupSwitch {default : LabelId} {keys : List Int32} {targets : List LabelId}
    {taken : List Datum} {act : Action}
    (h : action (.lookupSwitch default keys targets) taken = some act) : ∃ l, act = .jump l := by
  rcases taken with _ | ⟨d, _ | _⟩
  · cases h
  · cases d <;> first | cases h; done | exact ⟨_, (Option.some.inj h).symm⟩
  · cases d <;> cases h

end Bytecode.Machine
