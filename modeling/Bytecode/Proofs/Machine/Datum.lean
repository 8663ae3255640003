import Bytecode.Analysis.Literal.Arithmetic
import Bytecode.Text.ModifiedUtf8
import Mathlib.Algebra.Group.Int.Defs

/-!
# Data of the reference machine

What a running method holds in its slots and on its stack: numbers, and references to objects.
Integer operations are the mathematical ones, brought back into their width; operations on floating
point numbers are those of `Bytecode.Floating`, to which the machine adds nothing.

The second half renders data as text, in UTF-16 units, the way a running program does.
-/

namespace Bytecode.Machine

/-- What a reference leads to. Two texts with the same units can be different objects, and all text
constants have the identity 0. A fault is the exception that the machine itself raises. -/
inductive Ref where
  | null
  | text (identity : Nat) (units : List Nat)
  | classRef (name : String)
  | fault (className : String)
  | object (address : Nat)
  deriving DecidableEq, Repr, Inhabited

/-- What a stack entry or a local variable holds. Floating point numbers are kept as bit patterns.
-/
inductive Datum where
  | int (value : Int32)
  | long (value : Int64)
  | float (bits : UInt32)
  | double (bits : UInt64)
  | ref (value : Ref)
  deriving DecidableEq, Repr, Inhabited

namespace Datum

/-- The kind of a datum. -/
def kind : Datum → Kind
  | int _ => .int
  | long _ => .long
  | float _ => .float
  | double _ => .double
  | ref _ => .reference

/-- The words that a datum takes. -/
def size (d : Datum) : Nat :=
  d.kind.size

theorem size_eq (d : Datum) : d.size = 1 ∨ d.size = 2 := by
  cases d <;> simp [size, kind, Kind.size]

theorem kind_ne_uninitialized (d : Datum) : d.kind ≠ .uninitialized := by
  cases d <;> simp [kind]

end Datum

/-! ## Arithmetic -/

/-- The class of the exception that a division by zero raises. -/
def arithmeticFault : String := "java/lang/ArithmeticException"

/-- The class of the exception that a use of the null reference raises. -/
def nullFault : String := "java/lang/NullPointerException"

/-- Arithmetic on integers before it is brought back into its width. Division truncates, and by zero
it ends in an exception. -/
def integral (op : Arithmetic) (a b : Int) : Except String Int :=
  match op with
  | .add => .ok (a + b)
  | .sub => .ok (a - b)
  | .mul => .ok (a * b)
  | .div => if b = 0 then .error arithmeticFault else .ok (a.tdiv b)
  | .rem => if b = 0 then .error arithmeticFault else .ok (a.tmod b)

/-- A shift of an integer that has `width` bits; the distance counts modulo the width. -/
def shifted (op : Shift) (width : Nat) (a distance : Int) : Int :=
  let n := (distance % width).toNat
  match op with
  | .left => a * 2 ^ n
  | .right => a / 2 ^ n
  | .unsignedRight => a % 2 ^ width / 2 ^ n

/-- The order of two integers as a number. -/
def orderOf (a b : Int) : Int32 :=
  if a < b then -1 else if a = b then 0 else 1

/-- Keeps the low bits of an integer, with or without a sign. -/
def narrowed : Narrowing → Int → Int
  | .byte, a => a.bmod 256
  | .char, a => a % 65536
  | .short, a => a.bmod 65536

namespace Datum

/-- The conversions between numeric kinds. -/
def convert : NumericKind → NumericKind → Datum → Option Datum
  | .int, .long, int v => some (long (.ofInt v.toInt))
  | .int, .float, int v => some (float (.ofNat (Floating.single.ofInt v.toInt)))
  | .int, .double, int v => some (double (.ofNat (Floating.double.ofInt v.toInt)))
  | .long, .int, long v => some (int (.ofInt v.toInt))
  | .long, .float, long v => some (float (.ofNat (Floating.single.ofInt v.toInt)))
  | .long, .double, long v => some (double (.ofNat (Floating.double.ofInt v.toInt)))
  | .float, .int, float b =>
    some (int (.ofInt (Floating.single.toInt (-2 ^ 31) (2 ^ 31 - 1) b.toNat)))
  | .float, .long, float b =>
    some (long (.ofInt (Floating.single.toInt (-2 ^ 63) (2 ^ 63 - 1) b.toNat)))
  | .float, .double, float b =>
    some (double (.ofNat (Floating.single.convert Floating.double b.toNat)))
  | .double, .int, double b =>
    some (int (.ofInt (Floating.double.toInt (-2 ^ 31) (2 ^ 31 - 1) b.toNat)))
  | .double, .long, double b =>
    some (long (.ofInt (Floating.double.toInt (-2 ^ 63) (2 ^ 63 - 1) b.toNat)))
  | .double, .float, double b =>
    some (float (.ofNat (Floating.double.convert Floating.single b.toNat)))
  | _, _, _ => none

/-- The result of a unary operation. -/
def unary : UnaryOp → Datum → Option Datum
  | .neg .int, int v => some (int (.ofInt (-v.toInt)))
  | .neg .long, long v => some (long (.ofInt (-v.toInt)))
  | .neg .float, float b => some (float (.ofNat (Floating.single.neg b.toNat)))
  | .neg .double, double b => some (double (.ofNat (Floating.double.neg b.toNat)))
  | .convert source target, d => convert source target d
  | .narrow target, int v => some (int (.ofInt (narrowed target v.toInt)))
  | _, _ => none

/-- The result of a binary operation, or the class of the exception that it raises. -/
def binary : BinaryOp → Datum → Datum → Option (Except String Datum)
  | .arithmetic op .int, int a, int b =>
    some ((integral op a.toInt b.toInt).map fun n => int (.ofInt n))
  | .arithmetic op .long, long a, long b =>
    some ((integral op a.toInt b.toInt).map fun n => long (.ofInt n))
  | .arithmetic op .float, float a, float b =>
    some (.ok (float (.ofNat (Analysis.Fold.floating Floating.single op a.toNat b.toNat))))
  | .arithmetic op .double, double a, double b =>
    some (.ok (double (.ofNat (Analysis.Fold.floating Floating.double op a.toNat b.toNat))))
  | .shift op false, int a, int b => some (.ok (int (.ofInt (shifted op 32 a.toInt b.toInt))))
  | .shift op true, long a, int b => some (.ok (long (.ofInt (shifted op 64 a.toInt b.toInt))))
  | .bitwise op false, int a, int b => some (.ok (int (Analysis.Fold.bitwise32 op a b)))
  | .bitwise op true, long a, long b => some (.ok (long (Analysis.Fold.bitwise64 op a b)))
  | .compareLong, long a, long b => some (.ok (int (orderOf a.toInt b.toInt)))
  | .compareFloating false u, float a, float b =>
    some (.ok (int (Analysis.Fold.ordering u (Floating.single.compare a.toNat b.toNat))))
  | .compareFloating true u, double a, double b =>
    some (.ok (int (Analysis.Fold.ordering u (Floating.double.compare a.toNat b.toNat))))
  | _, _, _ => none

end Datum

/-! ## Constants and texts -/

/-- The UTF-16 units of a text. -/
def unitsOf (text : String) : List Nat :=
  Text.utf16 text.toList

theorem unitsOf_append (a b : String) : unitsOf (a ++ b) = unitsOf a ++ unitsOf b := by
  simp [unitsOf, Text.utf16]

theorem unitsOf_ofList (cs : List Char) : unitsOf (String.ofList cs) = Text.utf16 cs := by
  simp [unitsOf]

/-- The datum that a constant denotes by itself. -/
def ofConstant : Constant → Option Datum
  | .int v => some (.int v)
  | .float b => some (.float b)
  | .long v => some (.long v)
  | .double b => some (.double b)
  | .string text => some (.ref (.text 0 (unitsOf text)))
  | .classRef name => some (.ref (.classRef name))
  | .methodType _ | .handle _ | .dynamic .. => none

namespace Datum

/-- The text of a datum in a concatenation, where that does not depend on a method of an object. -/
def text? : Datum → Option (List Nat)
  | int v => some (unitsOf (toString v.toInt))
  | long v => some (unitsOf (toString v.toInt))
  | float b => some (unitsOf (Decimal.Layout.concatenated.text Floating.single b.toNat))
  | double b => some (unitsOf (Decimal.Layout.concatenated.text Floating.double b.toNat))
  | ref (.text _ units) => some units
  | ref .null => some (unitsOf "null")
  | ref _ => none

/-- The text of a datum that is passed as a value of a type: an int may stand for a boolean or for a
unit of text. -/
def textAs : Descriptor → Datum → Option (List Nat)
  | .boolean, int v => some (unitsOf (if v = 0 then "false" else "true"))
  | .char, int v => some [(v.toInt % 65536).toNat]
  | _, d => d.text?

end Datum

/-- Fills in a recipe for a concatenation: the character with code 1 stands for the next argument,
the one with code 2 for the next constant, any other for itself. -/
def fillIn : List Char → List (Descriptor × Datum) → List Constant → Option (List Nat)
  | [], _, _ => some []
  | '\x01' :: _, [], _ => none
  | '\x01' :: recipe, (type, d) :: arguments, constants => do
    return (← d.textAs type) ++ (← fillIn recipe arguments constants)
  | '\x02' :: _, _, [] => none
  | '\x02' :: recipe, arguments, c :: constants => do
    return (← (← ofConstant c).text?) ++ (← fillIn recipe arguments constants)
  | c :: recipe, arguments, constants => do
    return Text.unitsOf c ++ (← fillIn recipe arguments constants)

end Bytecode.Machine
