import Bytecode.Analysis.Literal.Arithmetic
import Bytecode.Analysis.Value

/-!
# Transfer of values

What instructions do with the values that they take: every consumed value learns of its consumer,
and the produced value has the instruction as its only source. Literals are folded through
arithmetic, increments and the ways in which programs concatenate strings.

A string builder is followed from its allocation on. The copy made directly behind the allocation
shares its buffer, so that the constructor and later calls reach both; every other copy gets a
buffer of its own with the contents so far.
-/

namespace Bytecode.Analysis

/-- The class whose instances collect text. -/
def builderClass : String := "java/lang/StringBuilder"

/-- The class that builds the call sites of string concatenations. -/
def concatFactory : String := "java/lang/invoke/StringConcatFactory"

/-- The class whose helpers concatenate strings in compiled code. -/
def concatHelpers : String := "kotlin/jvm/internal/Intrinsics"

namespace Transfer

/-- A new value that an instruction produces. -/
def produce (insn : InsnId) (kind : Kind) (literal : Option Literal) : StoreM Value :=
  Store.make kind [insn] literal

/-- The value that an instruction pushes without taking one: a constant, a static field, a new
object. -/
def push (insn : Insn) : StoreM Value := do
  match insn.node with
  | .simple op =>
    match Operation.ofOpcode op with
    | .null => produce insn.id .reference (some .null)
    | .constant c =>
      let (kind, literal) := Literal.ofConstant c
      produce insn.id kind literal
    | _ => produce insn.id .uninitialized none
  | .int _ operand => produce insn.id .int (some (.int operand))
  | .constant c =>
    let (kind, literal) := Literal.ofConstant c
    produce insn.id kind literal
  | .field _ _ _ descriptor => produce insn.id (Kind.ofText descriptor) none
  | .type _ name =>
    if name = builderClass then produce insn.id .reference (some (.builder (← Store.alloc "")))
    else produce insn.id .reference none
  | _ => produce insn.id .uninitialized none

/-- Whether the last real instruction before a position allocates a string builder. -/
def followsAllocation (body : Body) : Nat → Bool
  | 0 => false
  | i + 1 =>
    match body[i]?.map Insn.node with
    | some (.type op name) => op == Opcode.new && name == builderClass
    | some node => node.isPseudo && followsAllocation body i
    | none => followsAllocation body i

/-- The copy of a value that a load, a store or a shuffle at a position makes. -/
def copy (body : Body) (index : Nat) (insn : InsnId) (v : Value) : StoreM Value := do
  Store.consume insn v
  match v.literal with
  | some (.builder i) =>
    if followsAllocation body index then produce insn v.kind (some (.builder i))
    else
      let text := (← get).buffers.contents i
      produce insn v.kind (some (.builder (← Store.alloc text)))
  | literal => produce insn v.kind literal

/-- The kind of the value that an instruction makes of one other value, if it makes one. -/
def unaryKind : Node → Option Kind
  | .simple op =>
    match Operation.ofOpcode op with
    | .unary u => some u.kind
    | .arrayLength => some .int
    | _ => none
  | .increment .. => some .int
  | .field op _ _ descriptor => if op = Opcode.getfield then some (Kind.ofText descriptor) else none
  | .int op _ => if op = Opcode.newarray then some .reference else none
  | .type op _ =>
    if op = Opcode.anewarray ∨ op = Opcode.checkcast then some .reference
    else if op = Opcode.instanceof then some .int
    else none
  | _ => none

/-- The literal that an instruction makes of another literal. -/
def unaryLiteral (node : Node) (l : Literal) : Option Literal :=
  match node with
  | .simple op =>
    match Operation.ofOpcode op with
    | .unary u => Fold.unary u l
    | _ => none
  | .increment _ amount => Fold.increment amount l
  | _ => none

/-- Takes one value and, for most instructions, produces one. -/
def unary (insn : Insn) (v : Value) : StoreM (Option Value) := do
  Store.consume insn.id v
  match unaryKind insn.node with
  | none => return none
  | some kind => some <$> produce insn.id kind (v.literal.bind (unaryLiteral insn.node))

/-- Takes two values and, for arithmetic and array loads, produces one. -/
def binary (insn : Insn) (v w : Value) : StoreM (Option Value) := do
  Store.consume insn.id v
  Store.consume insn.id w
  match insn.node with
  | .simple op =>
    match Operation.ofOpcode op with
    | .binary b =>
      let literal := v.literal.bind fun l => w.literal.bind fun m => Fold.binary b l m
      some <$> produce insn.id b.kind literal
    | .arrayLoad kind => some <$> produce insn.id kind none
    | _ => return none
  | _ => return none

/-- The text that an append with this descriptor adds for a literal argument. -/
def appendedText (b : Buffers) (descriptor : String) (argument : Literal) : Option String :=
  match descriptor with
  | "(Ljava/lang/Object;)Ljava/lang/StringBuilder;"
  | "(Ljava/lang/String;)Ljava/lang/StringBuilder;"
  | "(Ljava/lang/CharSequence;)Ljava/lang/StringBuilder;"
  | "(I)Ljava/lang/StringBuilder;"
  | "(J)Ljava/lang/StringBuilder;"
  | "(F)Ljava/lang/StringBuilder;"
  | "(D)Ljava/lang/StringBuilder;"
  | "(S)Ljava/lang/StringBuilder;" => argument.render b
  | "(Z)Ljava/lang/StringBuilder;" =>
    argument.asInt?.map fun v => if v = 0 then "false" else "true"
  | "(C)Ljava/lang/StringBuilder;" =>
    (argument.asInt?.bind Literal.charOf?).map fun c => String.ofList [c]
  | _ => none

/-- The effect of a method of a string builder on its buffer, and the literal that it returns. -/
def builderCall (name descriptor : String) (arguments : List Literal) : StoreM (Option Literal) := do
  match arguments with
  | .builder i :: rest =>
    let buffers := (← get).buffers
    match name with
    | "<init>" =>
      if descriptor = "(Ljava/lang/String;)V" ∨ descriptor = "(Ljava/lang/CharSequence;)V" then
        if let some text := rest.head?.bind (·.render buffers) then Store.append i text
      return none
    | "toString" =>
      return if descriptor = "()Ljava/lang/String;" then some (.string (buffers.contents i)) else none
    | "append" =>
      match rest.head?.bind (appendedText buffers descriptor) with
      | none => return none
      | some text =>
        Store.append i text
        return some (.builder i)
    | _ => return none
  | _ => return none

/-- The text that a concatenation call site makes of literal arguments. -/
def concatText (b : Buffers) (descriptor : String) (bootstrap : Handle) (constants : List Constant)
    (arguments : List Literal) : Option String := do
  let parsed ← (MethodDescriptor.parse descriptor).toOption
  if parsed.arguments.length ≠ arguments.length then none
  else
    let typed := parsed.arguments.zip arguments
    match bootstrap.name with
    | "makeConcat" => return String.join (← typed.mapM fun (type, l) => l.renderAs b type)
    | "makeConcatWithConstants" =>
      match constants with
      | .string recipe :: constants =>
        (Fold.followRecipe b recipe.toList typed constants).map String.ofList
      | _ => none
    | _ => none

/-- The literal that a call with literal arguments returns, as far as the method is known. -/
def callLiteral (node : Node) (arguments : List Literal) : StoreM (Option Literal) := do
  let buffers := (← get).buffers
  match node with
  | .call _ owner name descriptor _ =>
    if owner = builderClass then builderCall name descriptor arguments
    else if owner = concatHelpers ∧ name = "stringPlus" ∧
        descriptor = "(Ljava/lang/String;Ljava/lang/Object;)Ljava/lang/String;" then
      return match arguments with
        | l :: m :: _ => do return .string ((← l.render buffers) ++ (← m.render buffers))
        | _ => none
    else if owner = "java/lang/String" ∧ name = "concat" ∧
        descriptor = "(Ljava/lang/String;)Ljava/lang/String;" then
      return match arguments with
        | l :: m :: _ => do return .string ((← l.asString?) ++ (← m.asString?))
        | _ => none
    else return none
  | .dynamicCall _ descriptor bootstrap constants =>
    if bootstrap.owner = concatFactory then
      return (concatText buffers descriptor bootstrap constants arguments).map .string
    else return none
  | _ => return none

/-- The part of a method descriptor that names the return type: what follows the last closing
parenthesis, or `V` if there is none. -/
def returnText (descriptor : String) : String :=
  let cs := descriptor.toList
  if ')' ∈ cs then String.ofList (cs.reverse.takeWhile (· != ')')).reverse else "V"

/-- The kind of the value that a call or an array allocation pushes, if it pushes one. -/
def resultKind : Node → Option Kind
  | .newArrays .. => some .reference
  | .call _ _ _ descriptor _ | .dynamicCall _ descriptor _ _ =>
    (Descriptor.parse (returnText descriptor)).toOption.bind Kind.ofDescriptor
  | _ => none

/-- Takes the arguments of a call, the receiver first, and produces its result if there is one. -/
def call (insn : Insn) (arguments : List Value) : StoreM (Option Value) := do
  arguments.forM (Store.consume insn.id)
  let literal ← match arguments.mapM Value.literal with
    | some literals => callLiteral insn.node literals
    | none => pure none
  match resultKind insn.node with
  | none => return none
  | some kind => some <$> produce insn.id kind literal

end Transfer

end Bytecode.Analysis
