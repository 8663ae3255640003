import Bytecode.Floating.Arithmetic

/-!
# Layouts of floating point text

The digits of a number are the shortest ones that read back. A `Layout` decides how they are set:
which numbers are written positionally, whether a whole number shows a fraction, how an exponent is
marked and what infinity is called. The library has three layouts: `concatenated` for text that the
analysed program itself would build, `listing` for instruction listings and `diagnostic` for
messages.
-/

/-! ## Shortest decimals

`Floating.Format.shortest` finds the decimal with the fewest digits among those that lie in the
interval of reals rounding to a given number, and of these the one nearest to the number; of two
equally near ones the larger magnitude is taken. The interval includes its ends exactly if the
significand is even, because ties round to even.
-/

namespace Bytecode.Decimal

open Bytecode.Floating (Format)

/-- The decimal `digits * 10 ^ exponent`. -/
structure Scientific where
  digits : Nat
  exponent : Int
  deriving DecidableEq, Repr, Inhabited

/-- The reals that round to one number, as multiples of a common unit `num / den`: from `low` to
`high` around `mid`, ends included if `closed`. -/
structure Interval where
  low : Nat
  mid : Nat
  high : Nat
  num : Nat
  den : Nat
  closed : Bool
  deriving Repr

/-- The interval of a finite number `significand * 2 ^ exponent`. Below a power of two the numbers
lie twice as dense, so the lower end is nearer there. -/
def Interval.of (f : Format) (significand : Nat) (exponent : Int) : Interval :=
  let narrow := significand = f.leadingBit ∧ f.minExponent < exponent
  let (num, den) := Format.scale 1 (exponent - 2)
  { low := 4 * significand - (if narrow then 1 else 2)
    mid := 4 * significand
    high := 4 * significand + 2
    num, den
    closed := significand % 2 = 0 }

/-- The power `10 ^ k` as a quotient. -/
def pow10 (k : Int) : Nat × Nat :=
  if 0 ≤ k then (Nat.pow 10 k.toNat, 1) else (1, Nat.pow 10 (-k).toNat)

/-- The multiple of `10 ^ k` that lies in the interval and is nearest to its middle. -/
def Interval.nearest? (i : Interval) (k : Int) : Option Nat :=
  let (up, down) := pow10 k
  -- A multiple `q` of `10 ^ k` is compared with a bound `b` as `q * unit` with `b * point`.
  let point := i.num * down
  let unit := up * i.den
  let q := i.mid * point / unit
  let inside (n : Nat) : Bool :=
    let x := n * unit
    if i.closed then i.low * point ≤ x && x ≤ i.high * point
    else i.low * point < x && x < i.high * point
  let below := i.mid * point - q * unit
  let above := (q + 1) * unit - i.mid * point
  match inside q && q != 0, inside (q + 1) with
  | true, true => some (if below < above then q else q + 1)
  | true, false => some q
  | false, true => some (q + 1)
  | false, false => none

/-- The first grid among `10 ^ k`, `10 ^ (k - 1)`, … that has a point in the interval. Its points do
not end in a zero, since those would lie on the grid before. -/
def Interval.search (i : Interval) : Nat → Int → Option Scientific
  | 0, _ => none
  | fuel + 1, k =>
    match i.nearest? k with
    | some digits => some ⟨digits, k⟩
    | none => i.search fuel (k - 1)

/-- The number of decimal digits of a natural number. -/
def digitCount (n : Nat) : Nat :=
  (Nat.toDigits 10 n).length

/-- The shortest decimal of the positive number `significand * 2 ^ exponent`. The search starts on a
grid coarser than the number, so that the formats used here need fewer than 24 steps. -/
def shortest (f : Format) (significand : Nat) (exponent : Int) : Scientific :=
  let i := Interval.of f significand exponent
  let top : Int :=
    if i.den = 1 then digitCount (i.high * i.num)
    else digitCount (i.high * i.num) - (digitCount i.den : Int) + 2
  (i.search 24 top).getD ⟨0, 0⟩

/-! ## Layouts -/

/-- How the digits of a number are set. -/
structure Layout where
  /-- Whether a number whose leading digit has this weight is written without an exponent. -/
  positional : Int → Bool
  /-- Whether a whole number in positional notation ends in `.0`. -/
  wholeFraction : Bool
  /-- Whether a one digit mantissa ends in `.0`. -/
  mantissaFraction : Bool
  exponentMark : String
  infinity : String

namespace Layout

/-- Text that the analysed program would build: positional from a thousandth to below ten
million. -/
def concatenated : Layout where
  positional e := -3 ≤ e && e < 7
  wholeFraction := true
  mantissaFraction := true
  exponentMark := "E"
  infinity := "Infinity"

/-- Listings: always positional. -/
def listing : Layout where
  positional _ := true
  wholeFraction := false
  mantissaFraction := false
  exponentMark := "e"
  infinity := "inf"

/-- Messages: positional from a ten thousandth to below ten to the sixteenth. -/
def diagnostic : Layout where
  positional e := -4 ≤ e && e < 16
  wholeFraction := true
  mantissaFraction := false
  exponentMark := "e"
  infinity := "inf"

/-- Sets digits positionally; `point` digits stand before the decimal point. -/
def setPositional (l : Layout) (digits : List Char) (point : Int) : String :=
  let whole := if l.wholeFraction then ".0" else ""
  let n := digits.length
  if point ≤ 0 then
    "0." ++ String.ofList (List.replicate (-point).toNat '0' ++ digits)
  else if (n : Int) ≤ point then
    String.ofList (digits ++ List.replicate (point - n).toNat '0') ++ whole
  else
    String.ofList (digits.take point.toNat) ++ "." ++ String.ofList (digits.drop point.toNat)

/-- Sets digits with an exponent. -/
def setScientific (l : Layout) (digits : List Char) (exponent : Int) : String :=
  let mantissa := match digits with
    | [] => ""
    | [d] => String.ofList [d] ++ (if l.mantissaFraction then ".0" else "")
    | d :: rest => String.ofList [d] ++ "." ++ String.ofList rest
  mantissa ++ l.exponentMark ++ toString exponent

/-- The text of a number given by its bit pattern. -/
def text (l : Layout) (f : Format) (bits : Nat) : String :=
  match f.decode bits with
  | .nan => "NaN"
  | .infinite negative => if negative then "-" ++ l.infinity else l.infinity
  | .finite negative m e =>
    let body :=
      if m = 0 then (if l.wholeFraction then "0.0" else "0")
      else
        let s := shortest f m e
        let digits := Nat.toDigits 10 s.digits
        let leading := s.exponent + digits.length - 1
        if l.positional leading then l.setPositional digits (leading + 1)
        else l.setScientific digits leading
    if negative then "-" ++ body else body

end Layout

end Bytecode.Decimal
