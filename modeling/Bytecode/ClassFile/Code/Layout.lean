import Bytecode.Opcode

/-!
# Operand layouts

How the operands of each opcode are stored behind it. Reading and writing of code both go by
`OperandLayout.ofOpcode`.
-/

namespace Bytecode

/-- How the operands of an opcode are stored. -/
inductive OperandLayout where
  | none
  | byte
  | short
  | arrayType
  | constant
  | wideConstant
  | slot
  | impliedSlot (op : Opcode) (slot : UInt16)
  | increment
  | wide
  | branch
  | wideBranch (op : Opcode)
  | tableSwitch
  | lookupSwitch
  | field
  | call
  | interfaceCall
  | dynamicCall
  | type
  | newArrays
  | undefined
  deriving DecidableEq, Repr

namespace OperandLayout

/-- The layout of the operands of an opcode. -/
def ofOpcode (op : Opcode) : OperandLayout :=
  let n := op.toNat
  if n ≤ 0x0f then none
  else if n = 0x10 then byte
  else if n = 0x11 then short
  else if n = 0x12 then constant
  else if n ≤ 0x14 then wideConstant
  else if n ≤ 0x19 then slot
  else if n ≤ 0x2d then
    impliedSlot (Opcode.iload + UInt8.ofNat ((n - 0x1a) / 4)) (UInt16.ofNat ((n - 0x1a) % 4))
  else if n ≤ 0x35 then none
  else if n ≤ 0x3a then slot
  else if n ≤ 0x4e then
    impliedSlot (Opcode.istore + UInt8.ofNat ((n - 0x3b) / 4)) (UInt16.ofNat ((n - 0x3b) % 4))
  else if n ≤ 0x83 then none
  else if n = 0x84 then increment
  else if n ≤ 0x98 then none
  else if n ≤ 0xa8 then branch
  else if n = 0xa9 then slot
  else if n = 0xaa then tableSwitch
  else if n = 0xab then lookupSwitch
  else if n ≤ 0xb1 then none
  else if n ≤ 0xb5 then field
  else if n ≤ 0xb8 then call
  else if n = 0xb9 then interfaceCall
  else if n = 0xba then dynamicCall
  else if n = 0xbb then type
  else if n = 0xbc then arrayType
  else if n = 0xbd then type
  else if n ≤ 0xbf then none
  else if n ≤ 0xc1 then type
  else if n ≤ 0xc3 then none
  else if n = 0xc4 then wide
  else if n = 0xc5 then newArrays
  else if n ≤ 0xc7 then branch
  else if n = 0xc8 then wideBranch Opcode.goto
  else if n = 0xc9 then wideBranch Opcode.jsr
  else undefined

end OperandLayout

end Bytecode
