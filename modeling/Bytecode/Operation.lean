import Bytecode.Instruction
import Bytecode.Kind

/-!
# Operations

What the opcodes without operands do, sorted into families: `Operation.ofOpcode` is the table. The
analysis, the constant folding and the inference of verification types all work on operations and
never on raw opcodes.
-/

namespace Bytecode

/-- The kinds that arithmetic works on, in the order in which opcodes list them. -/
inductive NumericKind where
  | int
  | long
  | float
  | double
  deriving DecidableEq, Repr, Inhabited

namespace NumericKind

/-- The kind at a position of the opcode order. -/
def ofIndex : Nat → NumericKind
  | 0 => int
  | 1 => long
  | 2 => float
  | _ => double

/-- The kind of the values. -/
def kind : NumericKind → Kind
  | int => .int
  | long => .long
  | float => .float
  | double => .double

end NumericKind

/-- The arithmetic operations that all numeric kinds have. -/
inductive Arithmetic where
  | add
  | sub
  | mul
  | div
  | rem
  deriving DecidableEq, Repr, Inhabited

/-- The shifts of integers. -/
inductive Shift where
  | left
  | right
  | unsignedRight
  deriving DecidableEq, Repr, Inhabited

/-- The bitwise operations of integers. -/
inductive Bitwise where
  | and
  | or
  | xor
  deriving DecidableEq, Repr, Inhabited

/-- The types to which an int can be narrowed in place. -/
inductive Narrowing where
  | byte
  | char
  | short
  deriving DecidableEq, Repr, Inhabited

/-- Operations that take one value and push one. -/
inductive UnaryOp where
  | neg (kind : NumericKind)
  | convert (source target : NumericKind)
  | narrow (target : Narrowing)
  deriving DecidableEq, Repr, Inhabited

/-- Operations that take two values and push one. Shifts and bitwise operations exist for ints and,
if `wide`, for longs. A comparison of floating point numbers has a result of its own for operands
without an order. -/
inductive BinaryOp where
  | arithmetic (op : Arithmetic) (kind : NumericKind)
  | shift (op : Shift) (wide : Bool)
  | bitwise (op : Bitwise) (wide : Bool)
  | compareLong
  | compareFloating (wide : Bool) (unordered : Int32)
  deriving DecidableEq, Repr, Inhabited

/-- The kind of the result of a unary operation. -/
def UnaryOp.kind : UnaryOp → Kind
  | neg k => k.kind
  | convert _ target => target.kind
  | narrow _ => .int

/-- The kind of the operand of a unary operation. -/
def UnaryOp.operand : UnaryOp → NumericKind
  | neg k => k
  | convert source _ => source
  | narrow _ => .int

/-- The kind of the result of a binary operation. -/
def BinaryOp.kind : BinaryOp → Kind
  | arithmetic _ k => k.kind
  | shift _ wide | bitwise _ wide => if wide then .long else .int
  | compareLong | compareFloating .. => .int

/-- The kinds of the operands of a binary operation. -/
def BinaryOp.operands : BinaryOp → NumericKind × NumericKind
  | arithmetic _ k => (k, k)
  | shift _ wide => (if wide then .long else .int, .int)
  | bitwise _ wide => if wide then (.long, .long) else (.int, .int)
  | compareLong => (.long, .long)
  | compareFloating wide _ => if wide then (.double, .double) else (.float, .float)

/-- The rearrangements of the topmost values. The number in a name counts the duplicated words, the
one behind `x` the words below which the duplicate goes. -/
inductive Shuffle where
  | dup
  | dupX1
  | dupX2
  | dup2
  | dup2X1
  | dup2X2
  | swap
  deriving DecidableEq, Repr, Inhabited

namespace Shuffle

/-- The shuffle at a position of the opcode order. -/
def ofIndex : Nat → Shuffle
  | 0 => dup
  | 1 => dupX1
  | 2 => dupX2
  | 3 => dup2
  | 4 => dup2X1
  | 5 => dup2X2
  | _ => swap

/-- The mnemonic of a shuffle. -/
def mnemonic : Shuffle → String
  | dup => "DUP"
  | dupX1 => "DUP_X1"
  | dupX2 => "DUP_X2"
  | dup2 => "DUP2"
  | dup2X1 => "DUP2_X1"
  | dup2X2 => "DUP2_X2"
  | swap => "SWAP"

end Shuffle

/-- What an opcode without operands does. -/
inductive Operation where
  | nop
  | null
  | constant (value : Constant)
  | arrayLoad (kind : Kind)
  | arrayStore (kind : Kind)
  | pop
  | pop2
  | shuffle (form : Shuffle)
  | binary (op : BinaryOp)
  | unary (op : UnaryOp)
  | arrayLength
  | leave (kind : Option Kind)
  | throw
  | monitor
  | other
  deriving Repr, Inhabited

namespace Operation

/-- The kind of the elements that the array instruction at a position of the opcode order moves. -/
def elementKind : Nat → Kind
  | 1 => .long
  | 2 => .float
  | 3 => .double
  | 4 => .reference
  | _ => .int

/-- The bits of the small floating point constants that have an opcode of their own. -/
def floatBits : Nat → UInt32
  | 0 => 0
  | 1 => 0x3f800000
  | _ => 0x40000000

/-- The bits of the small double constants that have an opcode of their own. -/
def doubleBits : Nat → UInt64
  | 0 => 0
  | _ => 0x3ff0000000000000

/-- The arithmetic operation at a position of the opcode order. -/
def arithmeticAt : Nat → Arithmetic
  | 0 => .add
  | 1 => .sub
  | 2 => .mul
  | 3 => .div
  | _ => .rem

/-- The shift or bitwise operation at a position of the opcode order. -/
def bitOperationAt : Nat → Bool → BinaryOp
  | 0, wide => .shift .left wide
  | 1, wide => .shift .right wide
  | 2, wide => .shift .unsignedRight wide
  | 3, wide => .bitwise .and wide
  | 4, wide => .bitwise .or wide
  | _, wide => .bitwise .xor wide

/-- The conversion at a position of the opcode order. -/
def conversionAt : Nat → UnaryOp
  | 0 => .convert .int .long
  | 1 => .convert .int .float
  | 2 => .convert .int .double
  | 3 => .convert .long .int
  | 4 => .convert .long .float
  | 5 => .convert .long .double
  | 6 => .convert .float .int
  | 7 => .convert .float .long
  | 8 => .convert .float .double
  | 9 => .convert .double .int
  | 10 => .convert .double .long
  | 11 => .convert .double .float
  | 12 => .narrow .byte
  | 13 => .narrow .char
  | _ => .narrow .short

/-- The comparison at a position of the opcode order. -/
def comparisonAt : Nat → BinaryOp
  | 0 => .compareLong
  | 1 => .compareFloating false (-1)
  | 2 => .compareFloating false 1
  | 3 => .compareFloating true (-1)
  | _ => .compareFloating true 1

/-- What the opcode does when it stands without operands. -/
def ofOpcode (op : Opcode) : Operation :=
  let n := op.toNat
  if n = 0x00 then .nop
  else if n = 0x01 then .null
  else if n ≤ 0x08 then .constant (.int (.ofInt (n - 3)))
  else if n ≤ 0x0a then .constant (.long (.ofInt (n - 0x09)))
  else if n ≤ 0x0d then .constant (.float (floatBits (n - 0x0b)))
  else if n ≤ 0x0f then .constant (.double (doubleBits (n - 0x0e)))
  else if n < 0x2e then .other
  else if n ≤ 0x35 then .arrayLoad (elementKind (n - 0x2e))
  else if n < 0x4f then .other
  else if n ≤ 0x56 then .arrayStore (elementKind (n - 0x4f))
  else if n = 0x57 then .pop
  else if n = 0x58 then .pop2
  else if n ≤ 0x5f then .shuffle (.ofIndex (n - 0x59))
  else if n ≤ 0x73 then
    .binary (.arithmetic (arithmeticAt ((n - 0x60) / 4)) (.ofIndex ((n - 0x60) % 4)))
  else if n ≤ 0x77 then .unary (.neg (.ofIndex (n - 0x74)))
  else if n ≤ 0x83 then .binary (bitOperationAt ((n - 0x78) / 2) ((n - 0x78) % 2 == 1))
  else if n < 0x85 then .other
  else if n ≤ 0x93 then .unary (conversionAt (n - 0x85))
  else if n ≤ 0x98 then .binary (comparisonAt (n - 0x94))
  else if n < 0xac then .other
  else if n ≤ 0xb0 then .leave (some (Kind.ofVariant (n - 0xac)))
  else if n = 0xb1 then .leave none
  else if n = 0xbe then .arrayLength
  else if n = 0xbf then .throw
  else if n = 0xc2 ∨ n = 0xc3 then .monitor
  else .other

end Operation

/-- What the opcode of a jump does: whether it takes values, and whether it always jumps. -/
inductive JumpForm where
  | always
  | alwaysWide
  | subroutine
  | compare
  | test
  | other
  deriving DecidableEq, Repr, Inhabited

/-- What the opcode of a jump does. -/
def JumpForm.ofOpcode (op : Opcode) : JumpForm :=
  let n := op.toNat
  if n = 0xa7 then .always
  else if n = 0xc8 then .alwaysWide
  else if n = 0xa8 ∨ n = 0xc9 then .subroutine
  else if 0x9f ≤ n ∧ n ≤ 0xa6 then .compare
  else if (0x99 ≤ n ∧ n ≤ 0x9e) ∨ n = 0xc6 ∨ n = 0xc7 then .test
  else .other

/-- What the opcode of a local variable access does. -/
inductive SlotAccess where
  | load (kind : Kind)
  | store (kind : Kind)
  | other
  deriving DecidableEq, Repr, Inhabited

/-- What the opcode of a local variable access does. -/
def SlotAccess.ofOpcode (op : Opcode) : SlotAccess :=
  let n := op.toNat
  if 0x15 ≤ n ∧ n ≤ 0x19 then .load (Kind.ofVariant (n - 0x15))
  else if 0x36 ≤ n ∧ n ≤ 0x3a then .store (Kind.ofVariant (n - 0x36))
  else .other

end Bytecode
