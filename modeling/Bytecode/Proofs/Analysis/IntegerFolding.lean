import Bytecode.Opcode
import Bytecode.Proofs.Analysis.Folding

/-!
# Folding the integer instructions

What the instructions on ints and longs compute, stated over integers. An `IntegerRule` names the
widths of the operands and of the result, and gives the result before it is wrapped into its width;
`binaryRules` and `unaryRules` list the instructions by code and mnemonic.

`folds_integers` says that folding follows the rules on all literals: it gives the wrapped result,
and it gives nothing exactly where an operand is not of its width or the divisor is zero.
-/

namespace Bytecode.Analysis.Fold

open Machine

/-! ## Integers of a width -/

/-- The bits of an int, or of a long if `wide`. -/
def width (wide : Bool) : Nat := if wide then 64 else 32

/-- The integer that a literal of a width stands for. -/
def integer? : Bool → Literal → Option Int
  | false, .int v => some v.toInt
  | true, .long v => some v.toInt
  | _, _ => none

/-- The literal of a width that stands for an integer modulo two to the power of the width. -/
def wrapped : Bool → Int → Literal
  | false, n => .int (.ofInt n)
  | true, n => .long (.ofInt n)

/-- What is wrapped stands for the integer modulo two to the power of the width that is closest to
zero. -/
theorem integer?_wrapped (wide : Bool) (n : Int) :
    integer? wide (wrapped wide n) = some (n.bmod (2 ^ width wide)) := by
  cases wide
  · exact congrArg some Int32.toInt_ofInt
  · exact congrArg some Int64.toInt_ofInt

/-- A bitwise operation on natural numbers. -/
def bitwiseNat : Bitwise → Nat → Nat → Nat
  | .and, a, b => a &&& b
  | .or, a, b => a ||| b
  | .xor, a, b => a ^^^ b

/-- A bitwise operation on integers that have some bits. -/
def bitwiseInt (op : Bitwise) (bits : Nat) (a b : Int) : Int :=
  bitwiseNat op (a % 2 ^ bits).toNat (b % 2 ^ bits).toNat

/-! ## Rules -/

/-- What an instruction with two operands makes of integers: whether the operands and the result are
longs, and the result before it is wrapped, if there is one. -/
structure IntegerRule where
  left : Bool
  right : Bool
  result : Bool
  value : Int → Int → Option Int

namespace IntegerRule

/-- The literal that a rule gives for two literals. -/
def fold (rule : IntegerRule) (l r : Literal) : Option Literal := do
  let a ← integer? rule.left l
  let b ← integer? rule.right r
  (rule.value a b).map (wrapped rule.result)

/-- Arithmetic on two integers of a width. -/
def arithmetic (op : Arithmetic) (wide : Bool) : IntegerRule :=
  ⟨wide, wide, wide, fun a b => (integral op a b).toOption⟩

/-- A shift of an integer of a width; the distance is an int. -/
def shift (op : Shift) (wide : Bool) : IntegerRule :=
  ⟨wide, false, wide, fun a distance => some (shifted op (width wide) a distance)⟩

/-- A bitwise operation on two integers of a width. -/
def bitwise (op : Bitwise) (wide : Bool) : IntegerRule :=
  ⟨wide, wide, wide, fun a b => some (bitwiseInt op (width wide) a b)⟩

/-- The order of two longs, as an int. -/
def order : IntegerRule :=
  ⟨true, true, false, fun a b => some (orderOf a b).toInt⟩

end IntegerRule

/-- What an instruction with one operand makes of an integer: whether the operand and the result are
longs, and the result before it is wrapped. -/
structure UnaryRule where
  operand : Bool
  result : Bool
  value : Int → Int

/-- The literal that a rule gives for a literal. -/
def UnaryRule.fold (rule : UnaryRule) (l : Literal) : Option Literal :=
  (integer? rule.operand l).map fun a => wrapped rule.result (rule.value a)

/-- The instructions on two integers. -/
def binaryRules : List (Opcode × String × IntegerRule) :=
  [(0x60, "IADD", .arithmetic .add false), (0x61, "LADD", .arithmetic .add true),
    (0x64, "ISUB", .arithmetic .sub false), (0x65, "LSUB", .arithmetic .sub true),
    (0x68, "IMUL", .arithmetic .mul false), (0x69, "LMUL", .arithmetic .mul true),
    (0x6c, "IDIV", .arithmetic .div false), (0x6d, "LDIV", .arithmetic .div true),
    (0x70, "IREM", .arithmetic .rem false), (0x71, "LREM", .arithmetic .rem true),
    (0x78, "ISHL", .shift .left false), (0x79, "LSHL", .shift .left true),
    (0x7a, "ISHR", .shift .right false), (0x7b, "LSHR", .shift .right true),
    (0x7c, "IUSHR", .shift .unsignedRight false), (0x7d, "LUSHR", .shift .unsignedRight true),
    (0x7e, "IAND", .bitwise .and false), (0x7f, "LAND", .bitwise .and true),
    (0x80, "IOR", .bitwise .or false), (0x81, "LOR", .bitwise .or true),
    (0x82, "IXOR", .bitwise .xor false), (0x83, "LXOR", .bitwise .xor true),
    (0x94, "LCMP", .order)]

/-- The instructions that divide. -/
def divisions : List String := ["IDIV", "LDIV", "IREM", "LREM"]

/-- The instructions on one integer. -/
def unaryRules : List (Opcode × String × UnaryRule) :=
  [(0x74, "INEG", ⟨false, false, fun a => -a⟩), (0x75, "LNEG", ⟨true, true, fun a => -a⟩),
    (0x85, "I2L", ⟨false, true, fun a => a⟩), (0x88, "L2I", ⟨true, false, fun a => a⟩),
    (0x91, "I2B", ⟨false, false, narrowed .byte⟩), (0x92, "I2C", ⟨false, false, narrowed .char⟩),
    (0x93, "I2S", ⟨false, false, narrowed .short⟩)]

/-- The instruction that adds its amount to a local variable. -/
def incrementRule (amount : Int16) : UnaryRule :=
  ⟨false, false, fun a => a + amount.toInt⟩

/-! ## Folding follows the rules -/

/-- The numeric kind of the integers of a width. -/
def integerKind (wide : Bool) : NumericKind := if wide then .long else .int

theorem fold_bitwise32 (op : Bitwise) (a b : Int32) :
    bitwise32 op a b = .ofInt (bitwiseInt op 32 a.toInt b.toInt) := by
  symm
  rw [Int32.ofInt_eq_iff_bmod_eq_toInt, bitwiseInt, ← Int32.toInt_toBitVec, ← Int32.toInt_toBitVec,
    toInt_emod, toInt_emod, Int.toNat_natCast, Int.toNat_natCast]
  cases op with
  | and => exact (BitVec.toInt_and _ _).symm
  | or => exact (BitVec.toInt_or _ _).symm
  | xor => exact (BitVec.toInt_xor _ _).symm

theorem fold_bitwise64 (op : Bitwise) (a b : Int64) :
    bitwise64 op a b = .ofInt (bitwiseInt op 64 a.toInt b.toInt) := by
  symm
  rw [Int64.ofInt_eq_iff_bmod_eq_toInt, bitwiseInt, ← Int64.toInt_toBitVec, ← Int64.toInt_toBitVec,
    toInt_emod, toInt_emod, Int.toNat_natCast, Int.toNat_natCast]
  cases op with
  | and => exact (BitVec.toInt_and _ _).symm
  | or => exact (BitVec.toInt_or _ _).symm
  | xor => exact (BitVec.toInt_xor _ _).symm

/-- Folded arithmetic follows its rule. -/
theorem binary_arithmetic (op : Arithmetic) (wide : Bool) (l r : Literal) :
    binary (.arithmetic op (integerKind wide)) l r = (IntegerRule.arithmetic op wide).fold l r := by
  -- neither side has a result for literals of other kinds
  cases wide with
  | false =>
    cases l <;> cases r <;> try rfl
    case int.int a b =>
      show (int32 op a b).map Literal.int = (integral op a.toInt b.toInt).toOption.map _
      rw [fold_int32]
      cases integral op a.toInt b.toInt <;> rfl
  | true =>
    cases l <;> cases r <;> try rfl
    case long.long a b =>
      show (int64 op a b).map Literal.long = (integral op a.toInt b.toInt).toOption.map _
      rw [fold_int64]
      cases integral op a.toInt b.toInt <;> rfl

/-- A folded shift follows its rule. -/
theorem binary_shift (op : Shift) (wide : Bool) (l r : Literal) :
    binary (.shift op wide) l r = (IntegerRule.shift op wide).fold l r := by
  cases wide with
  | false =>
    cases l <;> cases r <;> try rfl
    case int.int a b => exact congrArg (some ∘ Literal.int) (fold_shift32 op a b)
  | true =>
    cases l <;> cases r <;> try rfl
    case long.int a b => exact congrArg (some ∘ Literal.long) (fold_shift64 op a b)

/-- A folded bitwise operation follows its rule. -/
theorem binary_bitwise (op : Bitwise) (wide : Bool) (l r : Literal) :
    binary (.bitwise op wide) l r = (IntegerRule.bitwise op wide).fold l r := by
  cases wide with
  | false =>
    cases l <;> cases r <;> try rfl
    case int.int a b => exact congrArg (some ∘ Literal.int) (fold_bitwise32 op a b)
  | true =>
    cases l <;> cases r <;> try rfl
    case long.long a b => exact congrArg (some ∘ Literal.long) (fold_bitwise64 op a b)

/-- The folded comparison of longs follows its rule. -/
theorem binary_compareLong (l r : Literal) :
    binary .compareLong l r = IntegerRule.order.fold l r := by
  cases l <;> cases r <;> try rfl
  case long.long a b =>
    show some (Literal.int (ordering 0 (some (compare a.toInt b.toInt)))) =
      some (Literal.int (.ofInt (orderOf a.toInt b.toInt).toInt))
    rw [fold_compare, Int32.ofInt_toInt]

/-- A folded negation wraps. -/
theorem unary_neg (wide : Bool) (l : Literal) :
    unary (.neg (integerKind wide)) l = (UnaryRule.mk wide wide fun a => -a).fold l := by
  cases wide with
  | false =>
    cases l <;> try rfl
    case int a =>
      show some (Literal.int (-a)) = some (Literal.int (.ofInt (-a.toInt)))
      rw [Int32.ofInt_neg, Int32.ofInt_toInt]
  | true =>
    cases l <;> try rfl
    case long a =>
      show some (Literal.long (-a)) = some (Literal.long (.ofInt (-a.toInt)))
      rw [Int64.ofInt_neg, Int64.ofInt_toInt]

/-- A folded narrowing keeps the low bits. -/
theorem unary_narrow (target : Narrowing) (l : Literal) :
    unary (.narrow target) l = (UnaryRule.mk false false (narrowed target)).fold l := by
  cases l <;> try rfl
  case int a => exact congrArg (some ∘ Literal.int) (fold_narrow target a)

/-- A folded conversion from a width to the other one keeps the integer where it can. -/
theorem unary_convert (source : Bool) (l : Literal) :
    unary (.convert (integerKind source) (integerKind !source)) l =
      (UnaryRule.mk source (!source) fun a => a).fold l := by
  cases source <;> cases l <;> rfl

/-- A folded increment wraps. -/
theorem increment_eq (amount : Int16) (l : Literal) :
    increment amount l = (incrementRule amount).fold l := by
  cases l <;> try rfl
  case int a =>
    show some (Literal.int (a + amount.toInt32)) =
      some (Literal.int (.ofInt (a.toInt + amount.toInt)))
    rw [Int32.ofInt_add, Int32.ofInt_toInt, Int32.ofInt_int16ToInt]

/-- A rule gives nothing where an operand is not of its width, or where it has no result. -/
theorem IntegerRule.fold_eq_none {rule : IntegerRule} {zero : Prop}
    (undefined : ∀ a b, rule.value a b = none ↔ zero ∧ b = 0) (l r : Literal) :
    rule.fold l r = none ↔ integer? rule.left l = none ∨ integer? rule.right r = none ∨
      zero ∧ integer? rule.right r = some 0 := by
  unfold IntegerRule.fold
  cases left : integer? rule.left l with
  | none => simp
  | some a =>
    cases right : integer? rule.right r with
    | none => simp
    | some b => simp [undefined a b]

/-- What a code stands for is folded by a rule for two operands: the result is that of the rule, and
there is none exactly where an operand is not of its width or the divisor of a division is zero. -/
def FoldsBinary (code : Opcode) (name : String) (rule : IntegerRule) : Prop :=
  ∃ op, Operation.ofOpcode code = .binary op ∧ ∀ l r, binary op l r = rule.fold l r ∧
    (binary op l r = none ↔ integer? rule.left l = none ∨ integer? rule.right r = none ∨
      name ∈ divisions ∧ integer? rule.right r = some 0)

/-- What a code stands for is folded by a rule for one operand: the result is that of the rule, and
there is none exactly where the operand is not of its width. -/
def FoldsUnary (code : Opcode) (rule : UnaryRule) : Prop :=
  ∃ op, Operation.ofOpcode code = .unary op ∧ ∀ l, unary op l = rule.fold l ∧
    (unary op l = none ↔ integer? rule.operand l = none)

section

variable {code : Opcode} {name : String}

theorem foldsBinary_of_eq {rule : IntegerRule} {op : BinaryOp}
    (decoded : Operation.ofOpcode code = .binary op) (folded : ∀ l r, binary op l r = rule.fold l r)
    (undefined : ∀ a b, rule.value a b = none ↔ name ∈ divisions ∧ b = 0) :
    FoldsBinary code name rule :=
  ⟨op, decoded, fun l r => ⟨folded l r, folded l r ▸ IntegerRule.fold_eq_none undefined l r⟩⟩

theorem foldsBinary_arithmetic (op : Arithmetic) (wide : Bool)
    (decoded : Operation.ofOpcode code = .binary (.arithmetic op (integerKind wide)))
    (divides : name ∈ divisions ↔ op = .div ∨ op = .rem) :
    FoldsBinary code name (.arithmetic op wide) := by
  refine foldsBinary_of_eq decoded (binary_arithmetic op wide) fun a b => ?_
  rw [divides]
  cases op <;> by_cases zero : b = 0 <;>
    simp [IntegerRule.arithmetic, integral, zero, Except.toOption]

theorem foldsBinary_shift (op : Shift) (wide : Bool)
    (decoded : Operation.ofOpcode code = .binary (.shift op wide)) (total : name ∉ divisions) :
    FoldsBinary code name (.shift op wide) :=
  foldsBinary_of_eq decoded (binary_shift op wide) fun a b => by simp [IntegerRule.shift, total]

theorem foldsBinary_bitwise (op : Bitwise) (wide : Bool)
    (decoded : Operation.ofOpcode code = .binary (.bitwise op wide)) (total : name ∉ divisions) :
    FoldsBinary code name (.bitwise op wide) :=
  foldsBinary_of_eq decoded (binary_bitwise op wide) fun a b => by
    simp [IntegerRule.bitwise, total]

theorem foldsBinary_order (decoded : Operation.ofOpcode code = .binary .compareLong)
    (total : name ∉ divisions) : FoldsBinary code name .order :=
  foldsBinary_of_eq decoded binary_compareLong fun a b => by simp [IntegerRule.order, total]

theorem foldsUnary_of_eq {rule : UnaryRule} {op : UnaryOp}
    (decoded : Operation.ofOpcode code = .unary op) (folded : ∀ l, unary op l = rule.fold l) :
    FoldsUnary code rule :=
  ⟨op, decoded, fun l => ⟨folded l, by rw [folded, UnaryRule.fold, Option.map_eq_none_iff]⟩⟩

end

theorem foldsBinary_of_mem :
    ∀ row ∈ binaryRules, FoldsBinary row.1 row.2.1 row.2.2 := by
  simp only [binaryRules, List.forall_mem_cons, List.not_mem_nil, false_implies, implies_true,
    and_true]
  exact ⟨foldsBinary_arithmetic .add false (by cbv) (by decide),
    foldsBinary_arithmetic .add true (by cbv) (by decide),
    foldsBinary_arithmetic .sub false (by cbv) (by decide),
    foldsBinary_arithmetic .sub true (by cbv) (by decide),
    foldsBinary_arithmetic .mul false (by cbv) (by decide),
    foldsBinary_arithmetic .mul true (by cbv) (by decide),
    foldsBinary_arithmetic .div false (by cbv) (by decide),
    foldsBinary_arithmetic .div true (by cbv) (by decide),
    foldsBinary_arithmetic .rem false (by cbv) (by decide),
    foldsBinary_arithmetic .rem true (by cbv) (by decide),
    foldsBinary_shift .left false (by cbv) (by decide),
    foldsBinary_shift .left true (by cbv) (by decide),
    foldsBinary_shift .right false (by cbv) (by decide),
    foldsBinary_shift .right true (by cbv) (by decide),
    foldsBinary_shift .unsignedRight false (by cbv) (by decide),
    foldsBinary_shift .unsignedRight true (by cbv) (by decide),
    foldsBinary_bitwise .and false (by cbv) (by decide),
    foldsBinary_bitwise .and true (by cbv) (by decide),
    foldsBinary_bitwise .or false (by cbv) (by decide),
    foldsBinary_bitwise .or true (by cbv) (by decide),
    foldsBinary_bitwise .xor false (by cbv) (by decide),
    foldsBinary_bitwise .xor true (by cbv) (by decide),
    foldsBinary_order (by cbv) (by decide)⟩

theorem foldsUnary_of_mem : ∀ row ∈ unaryRules, FoldsUnary row.1 row.2.2 := by
  simp only [unaryRules, List.forall_mem_cons, List.not_mem_nil, false_implies, implies_true,
    and_true]
  exact ⟨foldsUnary_of_eq (by cbv) (unary_neg false), foldsUnary_of_eq (by cbv) (unary_neg true),
    foldsUnary_of_eq (by cbv) (unary_convert false), foldsUnary_of_eq (by cbv) (unary_convert true),
    foldsUnary_of_eq (by cbv) (unary_narrow .byte), foldsUnary_of_eq (by cbv) (unary_narrow .char),
    foldsUnary_of_eq (by cbv) (unary_narrow .short)⟩

/-- Folding is the arithmetic of the integer instructions: every one of them is folded by its rule,
and so is an increment. What a rule gives is wrapped into the width of the result. -/
theorem folds_integers :
    (∀ code name rule, (code, name, rule) ∈ binaryRules →
      code.mnemonic? = some name ∧ FoldsBinary code name rule) ∧
    (∀ code name rule, (code, name, rule) ∈ unaryRules →
      code.mnemonic? = some name ∧ FoldsUnary code rule) ∧
    (∀ amount l, increment amount l = (incrementRule amount).fold l ∧
      (increment amount l = none ↔ integer? false l = none)) ∧
    ∀ wide n, integer? wide (wrapped wide n) = some (n.bmod (2 ^ width wide)) := by
  have named : ∀ row ∈ binaryRules, row.1.mnemonic? = some row.2.1 := by decide +kernel
  have named' : ∀ row ∈ unaryRules, row.1.mnemonic? = some row.2.1 := by decide +kernel
  refine ⟨fun code name rule row => ⟨named (code, name, rule) row, foldsBinary_of_mem _ row⟩,
    fun code name rule row => ⟨named' (code, name, rule) row, foldsUnary_of_mem _ row⟩,
    fun amount l => ?_, integer?_wrapped⟩
  rw [increment_eq, UnaryRule.fold, Option.map_eq_none_iff]
  exact ⟨rfl, Iff.rfl⟩

/-- The quotient of the smallest int and minus one wraps around to the smallest int. -/
theorem folds_integers_wrapping : (0x6c, "IDIV", IntegerRule.arithmetic .div false) ∈ binaryRules ∧
    binary (.arithmetic .div .int) (.int Int32.minValue) (.int (-1)) =
      some (.int Int32.minValue) := by
  have row : (0x6c, "IDIV", IntegerRule.arithmetic .div false) ∈ binaryRules := by
    simp [binaryRules]
  obtain ⟨op, decoded, folded⟩ := (folds_integers.1 _ _ _ row).2
  cases decoded
  exact ⟨row, (folded _ _).1⟩

example : binary (.arithmetic .rem .int) (.int Int32.minValue) (.int (-1)) = some (.int 0) := by
  decide

example : binary (.shift .left false) (.int 1) (.int (-31)) = some (.int 2) := by decide

end Bytecode.Analysis.Fold
