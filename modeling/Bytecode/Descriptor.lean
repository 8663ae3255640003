import Bytecode.Total

/-!
# Type and method descriptors

A descriptor is the compact text by which a class file names a type: one letter for a primitive
type, `L` name `;` for a class, and a `[` in front for an array. A method descriptor lists the
argument types between parentheses and then the return type.

`Descriptor.parse` and `Descriptor.text` are the two directions for a single type,
`MethodDescriptor.parse` and `MethodDescriptor.text` those for a method. `words` counts the words
that a call passes; `slots` is the same number in the 16 bits that numbers of slots have.
-/

namespace Bytecode

/-- Why a text is not a descriptor. Each cause carries the text that it complains about. -/
inductive DescriptorError where
  | empty
  | trailing (text : String)
  | unterminated (text : String)
  | voidArray (text : String)
  | unknownCharacter (found : Char) (text : String)
  | noParenthesis (text : String)
  | voidArgument (text : String)
  deriving DecidableEq, Repr, Inhabited

/-- The wording of a descriptor error. -/
def DescriptorError.message : DescriptorError → String
  | .empty => "Empty descriptor"
  | .trailing text => s!"Trailing data in descriptor '{text}'"
  | .unterminated text => s!"Unterminated object type in '{text}'"
  | .voidArray text => s!"Array of void in '{text}'"
  | .unknownCharacter found text => s!"Unknown descriptor character '{found}' in '{text}'"
  | .noParenthesis text => s!"Method descriptor '{text}' lacks '('"
  | .voidArgument text => s!"Void argument in '{text}'"

/-- A type as a descriptor denotes it; `void` occurs as a return type only. -/
inductive Descriptor where
  | void
  | boolean
  | char
  | byte
  | short
  | int
  | float
  | long
  | double
  | object (name : String)
  | array (element : Descriptor)
  deriving DecidableEq, Repr, Inhabited

namespace Descriptor

/-- The characters of a descriptor. -/
def chars : Descriptor → List Char
  | void => ['V']
  | boolean => ['Z']
  | char => ['C']
  | byte => ['B']
  | short => ['S']
  | int => ['I']
  | float => ['F']
  | long => ['J']
  | double => ['D']
  | object name => 'L' :: name.toList ++ [';']
  | array element => '[' :: element.chars

/-- The text of a descriptor. -/
def text (type : Descriptor) : String :=
  String.ofList type.chars

/-- Reads one descriptor and returns what follows it. -/
def parsePrefix : List Char → Except DescriptorError (Descriptor × List Char)
  | [] => .error .empty
  | 'V' :: rest => .ok (void, rest)
  | 'Z' :: rest => .ok (boolean, rest)
  | 'C' :: rest => .ok (char, rest)
  | 'B' :: rest => .ok (byte, rest)
  | 'S' :: rest => .ok (short, rest)
  | 'I' :: rest => .ok (int, rest)
  | 'F' :: rest => .ok (float, rest)
  | 'J' :: rest => .ok (long, rest)
  | 'D' :: rest => .ok (double, rest)
  | 'L' :: rest =>
    match rest.dropWhile (· != ';') with
    | _ :: after => .ok (object (String.ofList (rest.takeWhile (· != ';'))), after)
    | [] => .error (.unterminated (String.ofList ('L' :: rest)))
  | '[' :: rest =>
    match parsePrefix rest with
    | .error e => .error e
    | .ok (void, _) => .error (.voidArray (String.ofList ('[' :: rest)))
    | .ok (element, after) => .ok (array element, after)
  | c :: rest => .error (.unknownCharacter c (String.ofList (c :: rest)))

/-- A descriptor takes at least one character. -/
theorem length_lt_of_parsePrefix {cs rest : List Char} {type : Descriptor}
    (h : parsePrefix cs = .ok (type, rest)) : rest.length < cs.length := by
  fun_induction parsePrefix cs generalizing type rest with
  | case11 body c after eq =>
    have sub : after.length < (body.dropWhile (· != ';')).length := by rw [eq]; simp
    have le : (body.dropWhile (· != ';')).length ≤ body.length :=
      (List.dropWhile_sublist _).length_le
    simp only [Except.ok.injEq, Prod.mk.injEq] at h
    simp only [List.length_cons, ← h.2]
    omega
  | case15 body element after _ eq ih =>
    have := ih eq
    simp only [Except.ok.injEq, Prod.mk.injEq] at h
    simp only [List.length_cons, ← h.2]
    omega
  | _ => simp_all

/-- Reads a text that is one descriptor and nothing else. -/
def parseChars (cs : List Char) : Except DescriptorError Descriptor :=
  match parsePrefix cs with
  | .error e => .error e
  | .ok (type, []) => .ok type
  | .ok (_, _ :: _) => .error (.trailing (String.ofList cs))

/-- Reads a text that is one descriptor and nothing else. -/
def parse (text : String) : Except DescriptorError Descriptor :=
  parseChars text.toList

/-- The number of local variable slots, and of operand stack words, that a value of the type takes.
-/
def size : Descriptor → Nat
  | void => 0
  | long | double => 2
  | _ => 1

/-- Whether values of the type are references. -/
def isReference : Descriptor → Bool
  | object _ | array _ => true
  | _ => false

end Descriptor

/-- The argument types and the return type of a method. -/
structure MethodDescriptor where
  arguments : List Descriptor
  returnType : Descriptor
  deriving DecidableEq, Repr, Inhabited

namespace MethodDescriptor

/-- The characters of a method descriptor. -/
def chars (d : MethodDescriptor) : List Char :=
  '(' :: d.arguments.flatMap Descriptor.chars ++ ')' :: d.returnType.chars

/-- The text of a method descriptor. -/
def text (d : MethodDescriptor) : String :=
  String.ofList d.chars

/-- Reads argument types up to the closing parenthesis and returns what follows it. The whole
descriptor is named only by an error. -/
def parseArguments (whole : String) (cs : List Char) :
    Except DescriptorError (List Descriptor × List Char) :=
  match cs with
  | ')' :: after => .ok ([], after)
  | cs =>
    match h : Descriptor.parsePrefix cs with
    | .error e => .error e
    | .ok (.void, _) => .error (.voidArgument whole)
    | .ok (type, after) =>
      have : after.length < cs.length := Descriptor.length_lt_of_parsePrefix h
      match parseArguments whole after with
      | .error e => .error e
      | .ok (types, rest) => .ok (type :: types, rest)
termination_by cs.length

/-- Reads a method descriptor. -/
def parse (text : String) : Except DescriptorError MethodDescriptor :=
  match text.toList with
  | '(' :: cs =>
    match parseArguments text cs with
    | .error e => .error e
    | .ok (arguments, rest) =>
      match Descriptor.parseChars rest with
      | .error e => .error e
      | .ok returnType => .ok ⟨arguments, returnType⟩
  | _ => .error (.noParenthesis text)

/-- The words that a call passes: one for the receiver unless the method is static, then those of
the arguments. -/
def words (d : MethodDescriptor) (isStatic : Bool) : Nat :=
  (if isStatic then 0 else 1) + total Descriptor.size d.arguments

/-- The number of slots that a call fills. It has 16 bits and wraps around. -/
def slots (d : MethodDescriptor) (isStatic : Bool) : UInt16 :=
  .ofNat (d.words isStatic)

end MethodDescriptor

end Bytecode
