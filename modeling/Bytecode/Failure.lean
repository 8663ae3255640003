import Bytecode.ClassFile.Pool.Entry
import Bytecode.Identity
import Bytecode.Kind

/-!
# Failures

Every operation of the library that can fail does so with a `Failure`. A failure is a cause; the
wording is the business of the `message` functions, which are the only place where texts are built.
-/

namespace Bytecode

/-- What a reference into the constant pool should have led to. -/
inductive PoolRole where
  | utf8
  | classRef
  | nameAndType
  | member
  | invokeDynamic
  | methodHandle
  deriving DecidableEq, Repr

/-- The name of a role in messages. -/
def PoolRole.name : PoolRole → String
  | utf8 => "Utf8"
  | classRef => "Class"
  | nameAndType => "NameAndType"
  | member => "member reference"
  | invokeDynamic => "InvokeDynamic"
  | methodHandle => "MethodHandle"

/-- How deep dynamic constants may be nested in the arguments of each other. -/
def maxConstantNesting : Nat := 16

/-- Why data is malformed. -/
inductive FormatError where
  | descriptor (cause : DescriptorError)
  | magic (found : UInt32)
  | poolTag (tag : UInt8) (slot : Nat)
  | poolIndex (index : UInt16) (slots : Nat)
  | poolRole (expected : PoolRole) (index : UInt16) (found : PoolEntry)
  | notLoadable (index : UInt16) (found : PoolEntry)
  | missingBootstrap (index : UInt16)
  | nestedConstant (index : UInt16)
  | truncatedText (position : Nat)
  | textByte (found : UInt8) (position : Nat)
  | unpairedSurrogate
  | repeatedCode (signature : String)
  | elementTag (tag : UInt8)
  | codeLength (length : Nat)
  | unalignedTarget (position : Nat) (signature : String)
  | exceptionRange (start stop handler : Nat) (signature : String)
  | branchOutside (position : Nat) (target : Int)
  | wideOperand (found : UInt8) (position : Nat)
  | switchRange (position : Nat)
  | switchSize (position : Nat)
  | unknownOpcode (found : UInt8) (position : Nat)
  | slotRange (slot offset : Nat)
  deriving DecidableEq, Repr

/-- The wording of a format error. -/
def FormatError.message : FormatError → String
  | descriptor cause => cause.message
  | magic found => s!"Invalid magic 0x{Text.hexPadded 8 found.toNat}"
  | poolTag tag slot => s!"Unknown constant pool tag {tag.toNat} at entry {slot}"
  | poolIndex index slots => s!"Invalid constant pool index {index.toNat} (pool has {slots} slots)"
  | poolRole expected index found =>
    s!"Expected {expected.name} at {index.toNat}, found {found.describe}"
  | notLoadable index found => s!"Entry {index.toNat} is not loadable: {found.describe}"
  | missingBootstrap index => s!"Missing bootstrap method {index.toNat}"
  | nestedConstant index =>
    s!"Dynamic constant {index.toNat} nests deeper than {maxConstantNesting} levels"
  | truncatedText position => s!"Truncated modified UTF-8 sequence at {position}"
  | textByte found position =>
    s!"Invalid modified UTF-8 byte 0x{Text.hex found.toNat} at {position}"
  | unpairedSurrogate => "Unpaired surrogate in string constant"
  | repeatedCode signature => s!"Method {signature} has more than one Code attribute"
  | elementTag tag => s!"Invalid element value tag 0x{Text.hexPadded 2 tag.toNat}"
  | codeLength length => s!"Invalid code length {length}"
  | unalignedTarget position signature =>
    s!"Branch target {position} is not an instruction boundary in {signature}"
  | exceptionRange start stop handler signature =>
    s!"Invalid exception range [{start}, {stop}) -> {handler} in {signature}"
  | branchOutside position target => s!"Branch at {position} jumps outside the code to {target}"
  | wideOperand found position =>
    s!"Invalid WIDE operand 0x{Text.hexPadded 2 found.toNat} at {position}"
  | switchRange position => s!"Invalid TABLESWITCH range at {position}"
  | switchSize position => s!"Negative LOOKUPSWITCH size at {position}"
  | unknownOpcode found position =>
    s!"Unknown opcode 0x{Text.hexPadded 2 found.toNat} at {position}"
  | slotRange slot offset => s!"Local {slot} cannot be moved past slot {offset}"

/-- The wording of a format error as part of a longer message. -/
def FormatError.nested (e : FormatError) : String :=
  "Malformed - " ++ e.message

/-- Why the simulation of one instruction on an abstract frame fails, or the flow out of it. -/
inductive FlowError where
  | underflow
  | overflow (limit : Nat)
  | localOutside (slot : Nat)
  | heights (existing incoming : Nat)
  | wordSize (instruction : String) (words : Nat)
  | unsupported (instruction : String)
  | callDescriptor (text : String)
  | targetOutside
  | fallsOff
  deriving DecidableEq, Repr

/-- The wording of a flow error. -/
def FlowError.message : FlowError → String
  | underflow => "operand stack underflow"
  | overflow limit => s!"operand stack exceeds the declared maximum of {limit}"
  | localOutside slot => s!"local {slot} is outside the frame"
  | heights existing incoming => s!"stack heights {existing} and {incoming} differ at a join"
  | wordSize instruction words =>
    s!"{instruction} expects a {words}-word value on top of the stack"
  | unsupported instruction => s!"{instruction} is not supported"
  | callDescriptor text => s!"malformed call descriptor '{text}'"
  | targetOutside => "branch to a label outside the method"
  | fallsOff => "execution can fall off the end of the code"

/-- Why a method body cannot be analysed, or an analysis not be used. -/
inductive AnalysisError where
  | instruction (name : String) (index : Nat) (cause : FlowError)
  | merge (index : Nat) (cause : FlowError)
  | missingRangeLabel
  | unmarkedEdit (cached now : Nat)
  | unspillable (kind : Kind)
  deriving DecidableEq, Repr

/-- The wording of an analysis error. -/
def AnalysisError.message : AnalysisError → String
  | instruction name index cause => s!"{name} at instruction {index}: {cause.message}"
  | merge index cause => s!"merging into instruction {index}: {cause.message}"
  | missingRangeLabel => "exception range refers to a missing label"
  | unmarkedEdit cached now =>
    s!"instructions changed without a revision bump ({cached} cached, {now} now)"
  | unspillable kind => s!"cannot spill a stack value of kind {kind.name}"

/-- Why the verification types after an instruction cannot be inferred. -/
inductive InferenceError where
  | descriptor (cause : DescriptorError)
  | underflow
  | localOutside (slot : Nat)
  | heights (existing incoming : Nat)
  | initialized
  | subroutine
  | arrayType (code : Int32)
  | opcode (found : Opcode)
  | targetOutside
  | fallsOff
  deriving DecidableEq, Repr

/-- The wording of an inference error. -/
def InferenceError.message : InferenceError → String
  | descriptor cause => (FormatError.descriptor cause).nested
  | underflow => "stack underflow"
  | localOutside slot => s!"local {slot} out of range"
  | heights existing incoming => s!"stack heights {existing} and {incoming} meet"
  | initialized => "constructor called on an initialized value"
  | subroutine => "subroutines are not supported"
  | arrayType code => s!"invalid array type {code.toInt}"
  | opcode found => s!"unexpected opcode 0x{Text.hexPadded 2 found.toNat}"
  | targetOutside => "branch to a label outside the method"
  | fallsOff => "execution can fall off the end of the code"

/-- Why a class cannot be written. Methods are named by their signature. -/
inductive WriteError where
  | poolFull
  | textTooLong (length : Nat)
  | tooManyBootstraps
  | codeTooLong (signature : String) (length : Nat)
  | missingLabel (signature : String)
  | missingRangeLabel (signature : String)
  | branchTooFar (position : Nat) (signature : String)
  | noFrame (position : Nat) (signature : String)
  | unreachableAllocation (signature : String)
  | instruction (name : String) (index : Nat) (signature : String) (cause : InferenceError)
  | stackTooDeep
  deriving DecidableEq, Repr

/-- The wording of a write error. -/
def WriteError.message : WriteError → String
  | poolFull => "constant pool exceeds 65535 slots"
  | textTooLong length => s!"string constant of {length} bytes exceeds 65535"
  | tooManyBootstraps => "too many bootstrap methods"
  | codeTooLong signature length => s!"code of {signature} is {length} bytes long"
  | missingLabel signature => s!"{signature} refers to a label that is not in its body"
  | missingRangeLabel signature => s!"exception range of {signature} refers to a missing label"
  | branchTooFar position signature =>
    s!"branch at offset {position} of {signature} does not fit in 16 bits"
  | noFrame position signature => s!"no frame at offset {position} of {signature}"
  | unreachableAllocation signature => s!"uninitialized value of an unreachable NEW in {signature}"
  | instruction name index signature cause =>
    s!"{name} at instruction {index} of {signature}: {cause.message}"
  | stackTooDeep => "operand stack exceeds 65535 words"

/-- What an edit request asks for. -/
inductive EditKind where
  | insertBefore
  | replace
  deriving DecidableEq, Repr, Inhabited

/-- The name of a kind of edit. -/
def EditKind.name : EditKind → String
  | insertBefore => "insert-before"
  | replace => "replace"

/-- Why an operation of the library fails. The texts of `file` and `archive` come from outside. Work
that goes on beyond every bound on it is `endless`. -/
inductive Failure where
  | malformed (cause : FormatError)
  | outOfBounds
  | notSupported
  | empty
  | file (text : String)
  | archive (text : String)
  | invalidChecksum
  | analysis (owner signature : String) (cause : AnalysisError)
  | editConflict (target : InsnId) (kind : EditKind)
  | editTarget (target : InsnId)
  | write (owner : String) (cause : WriteError)
  | endless
  | custom (text : String)
  deriving DecidableEq, Repr

/-- The wording of a failure. -/
def Failure.message : Failure → String
  | malformed cause => cause.nested
  | outOfBounds => "Out of Bound read would have occurred!"
  | notSupported => "This file type is not supported"
  | empty => "Provided input was empty"
  | file text => text
  | archive text => text
  | invalidChecksum => "Invalid checksum"
  | analysis owner signature cause => s!"Analysis of {owner}.{signature} failed: {cause.message}"
  | editConflict target kind =>
    s!"Conflicting {kind.name} edits requested for instruction #{target.val}"
  | editTarget target => s!"Edit target #{target.val} is not part of the instruction sequence"
  | write owner cause => s!"Writing {owner} failed: {cause.message}"
  | endless => "The work does not come to an end"
  | custom text => text

/-- The wordings of a failure and of what lies behind it. Behind failures of files and archives lies
one of the same wording. -/
def Failure.chain (f : Failure) : List String :=
  match f with
  | file text | archive text => [text, text]
  | invalidChecksum => [f.message, f.message]
  | _ => [f.message]

/-- A malformed descriptor as a failure. -/
def Failure.descriptor (cause : DescriptorError) : Failure :=
  .malformed (.descriptor cause)

/-- What a value has become by work on it that may have failed on the way, and the result. -/
structure Attempt (α β : Type) where
  value : α
  result : Except Failure β

namespace Attempt

variable {m : Type → Type} [Monad m] {α β γ : Type}

/-- Work on a value with another result. -/
def map (f : β → γ) (x : Attempt α β) : Attempt α γ :=
  ⟨x.value, x.result.map f⟩

/-- Work on the elements of a list, one after the other, until it fails for one. -/
def forEach (f : α → m (Attempt α β)) : List α → m (Attempt (List α) (List β))
  | [] => return ⟨[], .ok []⟩
  | a :: rest => do
    let x ← f a
    match x.result with
    | .error e => return ⟨x.value :: rest, .error e⟩
    | .ok b =>
      let xs ← forEach f rest
      return ⟨x.value :: xs.value, xs.result.map (b :: ·)⟩

end Attempt

/-- Computations that take identities from a supply and can fail. -/
abbrev TryFresh := StateT Supply (Except Failure)

instance : MonadLift Fresh TryFresh :=
  ⟨fun x supply => .ok (x.run supply)⟩

end Bytecode
