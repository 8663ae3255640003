import Bytecode.Descriptor
import Bytecode.Opcode

/-!
# Kinds of values

The instruction set tells apart few kinds of values: all integers narrower than 32 bits are ints on
the operand stack, and all classes and arrays are references. `Uninitialized` is the kind of a slot
about which nothing is known.
-/

namespace Bytecode

/-- The kind of a value on the operand stack or in a local variable. -/
inductive Kind where
  | uninitialized
  | int
  | float
  | long
  | double
  | reference
  | returnAddress
  deriving DecidableEq, Repr, Inhabited

namespace Kind

/-- The name of a kind in messages. -/
def name : Kind → String
  | uninitialized => "Uninitialized"
  | int => "Int"
  | float => "Float"
  | long => "Long"
  | double => "Double"
  | reference => "Reference"
  | returnAddress => "ReturnAddress"

/-- The words that a value of the kind takes. -/
def size : Kind → Nat
  | long | double => 2
  | _ => 1

/-- Whether a value of the kind takes two words. -/
def isWide (k : Kind) : Bool :=
  k.size == 2

/-- The kind of the values of a type; `void` has none. -/
def ofDescriptor : Descriptor → Option Kind
  | .void => none
  | .boolean | .char | .byte | .short | .int => some int
  | .float => some float
  | .long => some long
  | .double => some double
  | .object _ | .array _ => some reference

/-- The kind of the values of the type that a text describes; nothing is known if it describes none.
-/
def ofText (descriptor : String) : Kind :=
  ((Descriptor.parse descriptor).toOption.bind ofDescriptor).getD uninitialized

/-- The position of the kind among the five variants of loads, stores and returns. -/
def variant? : Kind → Option UInt8
  | int => some 0
  | long => some 1
  | float => some 2
  | double => some 3
  | reference => some 4
  | uninitialized | returnAddress => none

/-- The kind of a variant of a load, store or return. -/
def ofVariant : Nat → Kind
  | 0 => int
  | 1 => long
  | 2 => float
  | 3 => double
  | _ => reference

/-- The instruction that loads a local variable of the kind. -/
def loadOpcode (k : Kind) : Option Opcode :=
  k.variant?.map (Opcode.iload + ·)

/-- The instruction that stores into a local variable of the kind. -/
def storeOpcode (k : Kind) : Option Opcode :=
  k.variant?.map (Opcode.istore + ·)

end Kind

namespace Descriptor

/-- The variant of loads, stores and returns that moves values of a type; `void` counts as an int.
-/
def variant (type : Descriptor) : UInt8 :=
  ((Kind.ofDescriptor type).bind Kind.variant?).getD 0

/-- The instruction that loads a local variable of the type. -/
def loadOpcode (type : Descriptor) : Opcode :=
  Opcode.iload + type.variant

/-- The instruction that stores into a local variable of the type. -/
def storeOpcode (type : Descriptor) : Opcode :=
  Opcode.istore + type.variant

/-- The instruction that returns from a method with this return type. -/
def returnOpcode (type : Descriptor) : Opcode :=
  if type = .void then Opcode.vreturn else Opcode.ireturn + type.variant

end Descriptor

end Bytecode
