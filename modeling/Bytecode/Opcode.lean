/-!
# Opcodes

An opcode is the byte that selects an instruction. The mnemonics below are those of the class file
format, in code order; codes above the last one have no mnemonic.

The named codes are the ones that the rest of the library refers to.
-/

namespace Bytecode

/-- The byte that selects an instruction. -/
abbrev Opcode := UInt8

namespace Opcode

/-- The mnemonics of the assigned codes, in code order. -/
def mnemonics : Array String :=
  #["NOP", "ACONST_NULL", "ICONST_M1", "ICONST_0", "ICONST_1", "ICONST_2", "ICONST_3",
    "ICONST_4", "ICONST_5", "LCONST_0", "LCONST_1", "FCONST_0", "FCONST_1", "FCONST_2",
    "DCONST_0", "DCONST_1", "BIPUSH", "SIPUSH", "LDC", "LDC_W", "LDC2_W", "ILOAD", "LLOAD",
    "FLOAD", "DLOAD", "ALOAD", "ILOAD_0", "ILOAD_1", "ILOAD_2", "ILOAD_3", "LLOAD_0", "LLOAD_1",
    "LLOAD_2", "LLOAD_3", "FLOAD_0", "FLOAD_1", "FLOAD_2", "FLOAD_3", "DLOAD_0", "DLOAD_1",
    "DLOAD_2", "DLOAD_3", "ALOAD_0", "ALOAD_1", "ALOAD_2", "ALOAD_3", "IALOAD", "LALOAD",
    "FALOAD", "DALOAD", "AALOAD", "BALOAD", "CALOAD", "SALOAD", "ISTORE", "LSTORE", "FSTORE",
    "DSTORE", "ASTORE", "ISTORE_0", "ISTORE_1", "ISTORE_2", "ISTORE_3", "LSTORE_0", "LSTORE_1",
    "LSTORE_2", "LSTORE_3", "FSTORE_0", "FSTORE_1", "FSTORE_2", "FSTORE_3", "DSTORE_0",
    "DSTORE_1", "DSTORE_2", "DSTORE_3", "ASTORE_0", "ASTORE_1", "ASTORE_2", "ASTORE_3",
    "IASTORE", "LASTORE", "FASTORE", "DASTORE", "AASTORE", "BASTORE", "CASTORE", "SASTORE",
    "POP", "POP2", "DUP", "DUP_X1", "DUP_X2", "DUP2", "DUP2_X1", "DUP2_X2", "SWAP", "IADD",
    "LADD", "FADD", "DADD", "ISUB", "LSUB", "FSUB", "DSUB", "IMUL", "LMUL", "FMUL", "DMUL",
    "IDIV", "LDIV", "FDIV", "DDIV", "IREM", "LREM", "FREM", "DREM", "INEG", "LNEG", "FNEG",
    "DNEG", "ISHL", "LSHL", "ISHR", "LSHR", "IUSHR", "LUSHR", "IAND", "LAND", "IOR", "LOR",
    "IXOR", "LXOR", "IINC", "I2L", "I2F", "I2D", "L2I", "L2F", "L2D", "F2I", "F2L", "F2D", "D2I",
    "D2L", "D2F", "I2B", "I2C", "I2S", "LCMP", "FCMPL", "FCMPG", "DCMPL", "DCMPG", "IFEQ",
    "IFNE", "IFLT", "IFGE", "IFGT", "IFLE", "IF_ICMPEQ", "IF_ICMPNE", "IF_ICMPLT", "IF_ICMPGE",
    "IF_ICMPGT", "IF_ICMPLE", "IF_ACMPEQ", "IF_ACMPNE", "GOTO", "JSR", "RET", "TABLESWITCH",
    "LOOKUPSWITCH", "IRETURN", "LRETURN", "FRETURN", "DRETURN", "ARETURN", "RETURN", "GETSTATIC",
    "PUTSTATIC", "GETFIELD", "PUTFIELD", "INVOKEVIRTUAL", "INVOKESPECIAL", "INVOKESTATIC",
    "INVOKEINTERFACE", "INVOKEDYNAMIC", "NEW", "NEWARRAY", "ANEWARRAY", "ARRAYLENGTH", "ATHROW",
    "CHECKCAST", "INSTANCEOF", "MONITORENTER", "MONITOREXIT", "WIDE", "MULTIANEWARRAY", "IFNULL",
    "IFNONNULL", "GOTO_W", "JSR_W"]

/-- The mnemonic of an assigned code. -/
def mnemonic? (op : Opcode) : Option String :=
  mnemonics[op.toNat]?

/-- The name of a code in messages and listings: its mnemonic, or `???`. -/
def mnemonic (op : Opcode) : String :=
  op.mnemonic?.getD "???"

/-- The code of a mnemonic. -/
def ofMnemonic? (name : String) : Option Opcode :=
  (mnemonics.idxOf? name).map UInt8.ofNat

/-- The code of `ICONST_0`. -/
@[match_pattern] abbrev iconst0 : Opcode := 0x03
/-- The code of `BIPUSH`. -/
@[match_pattern] abbrev bipush : Opcode := 0x10
/-- The code of `SIPUSH`. -/
@[match_pattern] abbrev sipush : Opcode := 0x11
/-- The code of `LDC`. -/
@[match_pattern] abbrev ldc : Opcode := 0x12
/-- The code of `LDC_W`. -/
@[match_pattern] abbrev ldcWide : Opcode := 0x13
/-- The code of `LDC2_W`. -/
@[match_pattern] abbrev ldc2Wide : Opcode := 0x14
/-- The code of `ILOAD`. -/
@[match_pattern] abbrev iload : Opcode := 0x15
/-- The code of `LLOAD`. -/
@[match_pattern] abbrev lload : Opcode := 0x16
/-- The code of `FLOAD`. -/
@[match_pattern] abbrev fload : Opcode := 0x17
/-- The code of `DLOAD`. -/
@[match_pattern] abbrev dload : Opcode := 0x18
/-- The code of `ALOAD`. -/
@[match_pattern] abbrev aload : Opcode := 0x19
/-- The code of `ILOAD_0`. -/
@[match_pattern] abbrev iload0 : Opcode := 0x1a
/-- The code of `ALOAD_3`. -/
@[match_pattern] abbrev aload3 : Opcode := 0x2d
/-- The code of `ISTORE`. -/
@[match_pattern] abbrev istore : Opcode := 0x36
/-- The code of `LSTORE`. -/
@[match_pattern] abbrev lstore : Opcode := 0x37
/-- The code of `FSTORE`. -/
@[match_pattern] abbrev fstore : Opcode := 0x38
/-- The code of `DSTORE`. -/
@[match_pattern] abbrev dstore : Opcode := 0x39
/-- The code of `ASTORE`. -/
@[match_pattern] abbrev astore : Opcode := 0x3a
/-- The code of `ISTORE_0`. -/
@[match_pattern] abbrev istore0 : Opcode := 0x3b
/-- The code of `ASTORE_3`. -/
@[match_pattern] abbrev astore3 : Opcode := 0x4e
/-- The code of `IINC`. -/
@[match_pattern] abbrev iinc : Opcode := 0x84
/-- The code of `IFEQ`. -/
@[match_pattern] abbrev ifeq : Opcode := 0x99
/-- The code of `IFLE`. -/
@[match_pattern] abbrev ifle : Opcode := 0x9e
/-- The code of `IF_ICMPEQ`. -/
@[match_pattern] abbrev ifIcmpeq : Opcode := 0x9f
/-- The code of `IF_ACMPNE`. -/
@[match_pattern] abbrev ifAcmpne : Opcode := 0xa6
/-- The code of `GOTO`. -/
@[match_pattern] abbrev goto : Opcode := 0xa7
/-- The code of `JSR`. -/
@[match_pattern] abbrev jsr : Opcode := 0xa8
/-- The code of `RET`. -/
@[match_pattern] abbrev ret : Opcode := 0xa9
/-- The code of `TABLESWITCH`. -/
@[match_pattern] abbrev tableswitch : Opcode := 0xaa
/-- The code of `LOOKUPSWITCH`. -/
@[match_pattern] abbrev lookupswitch : Opcode := 0xab
/-- The code of `IRETURN`. -/
@[match_pattern] abbrev ireturn : Opcode := 0xac
/-- The code of `RETURN`. -/
@[match_pattern] abbrev vreturn : Opcode := 0xb1
/-- The code of `GETSTATIC`. -/
@[match_pattern] abbrev getstatic : Opcode := 0xb2
/-- The code of `PUTSTATIC`. -/
@[match_pattern] abbrev putstatic : Opcode := 0xb3
/-- The code of `GETFIELD`. -/
@[match_pattern] abbrev getfield : Opcode := 0xb4
/-- The code of `PUTFIELD`. -/
@[match_pattern] abbrev putfield : Opcode := 0xb5
/-- The code of `INVOKEVIRTUAL`. -/
@[match_pattern] abbrev invokevirtual : Opcode := 0xb6
/-- The code of `INVOKESPECIAL`. -/
@[match_pattern] abbrev invokespecial : Opcode := 0xb7
/-- The code of `INVOKESTATIC`. -/
@[match_pattern] abbrev invokestatic : Opcode := 0xb8
/-- The code of `INVOKEINTERFACE`. -/
@[match_pattern] abbrev invokeinterface : Opcode := 0xb9
/-- The code of `INVOKEDYNAMIC`. -/
@[match_pattern] abbrev invokedynamic : Opcode := 0xba
/-- The code of `NEW`. -/
@[match_pattern] abbrev new : Opcode := 0xbb
/-- The code of `NEWARRAY`. -/
@[match_pattern] abbrev newarray : Opcode := 0xbc
/-- The code of `ANEWARRAY`. -/
@[match_pattern] abbrev anewarray : Opcode := 0xbd
/-- The code of `ATHROW`. -/
@[match_pattern] abbrev athrow : Opcode := 0xbf
/-- The code of `CHECKCAST`. -/
@[match_pattern] abbrev checkcast : Opcode := 0xc0
/-- The code of `INSTANCEOF`. -/
@[match_pattern] abbrev instanceof : Opcode := 0xc1
/-- The code of `WIDE`. -/
@[match_pattern] abbrev wide : Opcode := 0xc4
/-- The code of `MULTIANEWARRAY`. -/
@[match_pattern] abbrev multianewarray : Opcode := 0xc5
/-- The code of `IFNULL`. -/
@[match_pattern] abbrev ifnull : Opcode := 0xc6
/-- The code of `IFNONNULL`. -/
@[match_pattern] abbrev ifnonnull : Opcode := 0xc7
/-- The code of `GOTO_W`. -/
@[match_pattern] abbrev gotoWide : Opcode := 0xc8
/-- The code of `JSR_W`. -/
@[match_pattern] abbrev jsrWide : Opcode := 0xc9

/-- Whether the code returns from the method, with or without a value. -/
def isReturn (op : Opcode) : Bool :=
  ireturn ≤ op && op ≤ vreturn

end Opcode

end Bytecode
