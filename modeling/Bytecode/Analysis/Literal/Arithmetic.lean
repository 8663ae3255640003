import Bytecode.Analysis.Literal
import Bytecode.Decimal.Layout
import Bytecode.Floating.Arithmetic
import Bytecode.Operation

/-!
# Arithmetic on literals

The result of an operation on literals, where it is known: integer arithmetic wraps around at its
width, division truncates and has no result for a zero divisor, and shift distances count modulo the
width. Floating point arithmetic is that of `Bytecode.Floating`.

The second half renders literals as text the way string concatenation in the analysed program does.
-/

namespace Bytecode.Analysis

namespace Fold

/-- Lifts an operation on bit patterns to 32 bit numbers. -/
def onSingles (f : Nat → Nat → Nat) (a b : UInt32) : UInt32 :=
  UInt32.ofNat (f a.toNat b.toNat)

/-- Lifts an operation on bit patterns to 64 bit numbers. -/
def onDoubles (f : Nat → Nat → Nat) (a b : UInt64) : UInt64 :=
  UInt64.ofNat (f a.toNat b.toNat)

/-- An arithmetic operation on ints. -/
def int32 (op : Arithmetic) (a b : Int32) : Option Int32 :=
  match op with
  | .add => some (a + b)
  | .sub => some (a - b)
  | .mul => some (a * b)
  | .div => if b = 0 then none else some (a / b)
  | .rem => if b = 0 then none else some (a % b)

/-- An arithmetic operation on longs. -/
def int64 (op : Arithmetic) (a b : Int64) : Option Int64 :=
  match op with
  | .add => some (a + b)
  | .sub => some (a - b)
  | .mul => some (a * b)
  | .div => if b = 0 then none else some (a / b)
  | .rem => if b = 0 then none else some (a % b)

/-- An arithmetic operation on floating point numbers of a format. -/
def floating (f : Floating.Format) : Arithmetic → Nat → Nat → Nat
  | .add => f.add
  | .sub => f.sub
  | .mul => f.mul
  | .div => f.div
  | .rem => f.rem

/-- A shift of an int; the distance counts modulo 32. -/
def shift32 (op : Shift) (a distance : Int32) : Int32 :=
  let n := UInt32.ofNat (distance.toInt % 32).toNat
  match op with
  | .left => (a.toUInt32 <<< n).toInt32
  | .right => a >>> n.toInt32
  | .unsignedRight => (a.toUInt32 >>> n).toInt32

/-- A shift of a long; the distance counts modulo 64. -/
def shift64 (op : Shift) (a : Int64) (distance : Int32) : Int64 :=
  let n := UInt64.ofNat (distance.toInt % 64).toNat
  match op with
  | .left => (a.toUInt64 <<< n).toInt64
  | .right => a >>> n.toInt64
  | .unsignedRight => (a.toUInt64 >>> n).toInt64

/-- A bitwise operation on ints. -/
def bitwise32 : Bitwise → Int32 → Int32 → Int32
  | .and, a, b => a &&& b
  | .or, a, b => a ||| b
  | .xor, a, b => a ^^^ b

/-- A bitwise operation on longs. -/
def bitwise64 : Bitwise → Int64 → Int64 → Int64
  | .and, a, b => a &&& b
  | .or, a, b => a ||| b
  | .xor, a, b => a ^^^ b

/-- The result of a comparison. -/
def ordering (unordered : Int32) : Option Ordering → Int32
  | some .lt => -1
  | some .eq => 0
  | some .gt => 1
  | none => unordered

/-- Narrows an int to a smaller type and widens it back. -/
def narrow : Narrowing → Int32 → Int32
  | .byte, v => v.toInt8.toInt32
  | .char, v => v.toUInt32.toUInt16.toUInt32.toInt32
  | .short, v => v.toInt16.toInt32

/-- The integer that a literal of a numeric kind converts to, brought into a range if the literal is
a floating point number. -/
def toInteger (low high : Int) : Literal → Option Int
  | .int v => some v.toInt
  | .long v => some v.toInt
  | .float b => some (Floating.single.toInt low high b.toNat)
  | .double b => some (Floating.double.toInt low high b.toNat)
  | _ => none

/-- The number of a format that a literal of a numeric kind converts to. -/
def toFloating (f : Floating.Format) : Literal → Option Nat
  | .int v => some (f.ofInt v.toInt)
  | .long v => some (f.ofInt v.toInt)
  | .float b => some (Floating.single.convert f b.toNat)
  | .double b => some (Floating.double.convert f b.toNat)
  | _ => none

/-- The numeric kind of a literal. -/
def numericKind? : Literal → Option NumericKind
  | .int _ => some .int
  | .long _ => some .long
  | .float _ => some .float
  | .double _ => some .double
  | _ => none

/-- The conversion of a literal between numeric kinds. -/
def convert (source target : NumericKind) (l : Literal) : Option Literal :=
  if numericKind? l ≠ some source then none
  else match target with
    | .int => (toInteger Int32.minValue.toInt Int32.maxValue.toInt l).map (.int ∘ Int32.ofInt)
    | .long => (toInteger Int64.minValue.toInt Int64.maxValue.toInt l).map (.long ∘ Int64.ofInt)
    | .float => (toFloating Floating.single l).map (.float ∘ UInt32.ofNat)
    | .double => (toFloating Floating.double l).map (.double ∘ UInt64.ofNat)

/-- The result of a unary operation on a literal. -/
def unary (op : UnaryOp) (l : Literal) : Option Literal :=
  match op, l with
  | .neg .int, .int v => some (.int (-v))
  | .neg .long, .long v => some (.long (-v))
  | .neg .float, .float b => some (.float (UInt32.ofNat (Floating.single.neg b.toNat)))
  | .neg .double, .double b => some (.double (UInt64.ofNat (Floating.double.neg b.toNat)))
  | .convert source target, l => convert source target l
  | .narrow target, .int v => some (.int (narrow target v))
  | _, _ => none

/-- The sum of an int literal and the amount of an increment. -/
def increment (amount : Int16) (l : Literal) : Option Literal :=
  l.asInt?.map fun v => .int (v + amount.toInt32)

/-- The result of a binary operation on literals. -/
def binary (op : BinaryOp) (l r : Literal) : Option Literal :=
  match op, l, r with
  | .arithmetic op .int, .int a, .int b => (int32 op a b).map .int
  | .arithmetic op .long, .long a, .long b => (int64 op a b).map .long
  | .arithmetic op .float, .float a, .float b =>
    some (.float (onSingles (floating Floating.single op) a b))
  | .arithmetic op .double, .double a, .double b =>
    some (.double (onDoubles (floating Floating.double op) a b))
  | .shift op false, .int a, .int b => some (.int (shift32 op a b))
  | .shift op true, .long a, .int b => some (.long (shift64 op a b))
  | .bitwise op false, .int a, .int b => some (.int (bitwise32 op a b))
  | .bitwise op true, .long a, .long b => some (.long (bitwise64 op a b))
  | .compareLong, .long a, .long b => some (.int (ordering 0 (some (compare a.toInt b.toInt))))
  | .compareFloating false u, .float a, .float b =>
    some (.int (ordering u (Floating.single.compare a.toNat b.toNat)))
  | .compareFloating true u, .double a, .double b =>
    some (.int (ordering u (Floating.double.compare a.toNat b.toNat)))
  | _, _, _ => none

end Fold

/-! ## Text of literals -/

namespace Literal

/-- The character that the low half of an int stands for, unless it is half of a pair. -/
def charOf? (value : Int32) : Option Char :=
  let code := value.toUInt32.toUInt16.toNat
  if 0xd800 ≤ code ∧ code ≤ 0xdfff then none else some (Char.ofNat code)

/-- The text of a literal in a string concatenation. A class has none that is known. -/
def render (b : Buffers) : Literal → Option String
  | int v => some (toString v.toInt)
  | long v => some (toString v.toInt)
  | float bits => some (Decimal.Layout.concatenated.text Floating.single bits.toNat)
  | double bits => some (Decimal.Layout.concatenated.text Floating.double bits.toNat)
  | string text => some text
  | null => some "null"
  | builder i => some (b.contents i)
  | classRef _ => none

/-- The text of a literal that is passed as a value of a type: an int may stand for a boolean or a
character. -/
def renderAs (b : Buffers) (type : Descriptor) (l : Literal) : Option String :=
  match type, l with
  | .boolean, int v => some (if v = 0 then "false" else "true")
  | .char, int v => (charOf? v).map fun c => String.ofList [c]
  | _, l => l.render b

end Literal

namespace Fold

/-- The text of a constant in a recipe. -/
def renderConstant : Constant → Option String
  | .int v => some (toString v.toInt)
  | .long v => some (toString v.toInt)
  | .float bits => some (Decimal.Layout.concatenated.text Floating.single bits.toNat)
  | .double bits => some (Decimal.Layout.concatenated.text Floating.double bits.toNat)
  | .string text => some text
  | _ => none

/-- Follows a recipe for a concatenation: the character with code 1 stands for the next argument,
the one with code 2 for the next constant, any other for itself. -/
def followRecipe (b : Buffers) :
    List Char → List (Descriptor × Literal) → List Constant → Option (List Char)
  | [], _, _ => some []
  | '\x01' :: _, [], _ => none
  | '\x01' :: recipe, (type, l) :: arguments, constants => do
    let text ← l.renderAs b type
    return text.toList ++ (← followRecipe b recipe arguments constants)
  | '\x02' :: _, _, [] => none
  | '\x02' :: recipe, arguments, c :: constants => do
    let text ← renderConstant c
    return text.toList ++ (← followRecipe b recipe arguments constants)
  | c :: recipe, arguments, constants => do
    return c :: (← followRecipe b recipe arguments constants)

end Fold

end Bytecode.Analysis
