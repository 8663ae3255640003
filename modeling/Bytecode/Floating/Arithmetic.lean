/-!
# Floating point arithmetic

The operations that the instruction set knows on floating point numbers, on bit patterns. Each is
the exact operation on the decoded values, rounded once. A NaN operand is passed on with its quiet
bit set, the left one first; an operation without a value (`0 / 0` for instance) yields
`Format.invalid`.
-/

/-! ## Binary floating point formats

A floating point number is kept as its bit pattern, so that the payload of a NaN and the sign of a
zero survive. `Format.decode` reads a pattern as an exact value `significand * 2 ^ exponent`, and
`Format.round` writes the pattern nearest to an exact quotient of natural numbers, ties to even.
Every operation of `Bytecode.Floating.Arithmetic` is exact arithmetic between these two.
-/

namespace Bytecode.Floating

/-- A format with a sign bit, an exponent field and a fraction field. -/
structure Format where
  fractionBits : Nat
  exponentBits : Nat
  deriving DecidableEq, Repr

/-- The 32 bit format. -/
def single : Format := ⟨23, 8⟩

/-- The 64 bit format. -/
def double : Format := ⟨52, 11⟩

/-- What a bit pattern stands for. -/
inductive Datum where
  | nan
  | infinite (negative : Bool)
  | finite (negative : Bool) (significand : Nat) (exponent : Int)
  deriving DecidableEq, Repr

namespace Format

/-- The exponent of the least significant bit of the smallest numbers. -/
def minExponent (f : Format) : Int :=
  2 - (1 <<< (f.exponentBits - 1) : Nat) - f.fractionBits

/-- The weight of the sign bit. -/
def signBit (f : Format) : Nat :=
  1 <<< (f.fractionBits + f.exponentBits)

/-- The weight of the bit in front of the fraction, which normal numbers have without writing it. -/
def leadingBit (f : Format) : Nat :=
  1 <<< f.fractionBits

/-- The pattern of positive infinity: an exponent field of ones above a fraction of zero. -/
def infinityBits (f : Format) : Nat :=
  (1 <<< f.exponentBits - 1) <<< f.fractionBits

/-- Puts a sign in front of a pattern without one. -/
def withSign (f : Format) (negative : Bool) (magnitude : Nat) : Nat :=
  if negative then f.signBit + magnitude else magnitude

/-- Whether a pattern has the sign bit. -/
def isNegative (f : Format) (bits : Nat) : Bool :=
  f.signBit ≤ bits

/-- The pattern without its sign bit. -/
def magnitude (f : Format) (bits : Nat) : Nat :=
  bits % f.signBit

/-- Whether a pattern is a NaN. -/
def isNaN (f : Format) (bits : Nat) : Bool :=
  f.infinityBits < f.magnitude bits

/-- The value of a pattern. -/
def decode (f : Format) (bits : Nat) : Datum :=
  let negative := f.isNegative bits
  let magnitude := f.magnitude bits
  if f.infinityBits < magnitude then .nan
  else if magnitude = f.infinityBits then .infinite negative
  else
    let field := magnitude >>> f.fractionBits
    let fraction := magnitude % f.leadingBit
    if field = 0 then .finite negative fraction f.minExponent
    else .finite negative (f.leadingBit + fraction) (f.minExponent + (field - 1 : Nat))

/-- The number `n * 2 ^ k` as a quotient. -/
def scale (n : Nat) (k : Int) : Nat × Nat :=
  if 0 ≤ k then (n <<< k.toNat, 1) else (n, 1 <<< (-k).toNat)

/-- The exponent of the last bit that a quotient `num / den` keeps: the quotient in units of it has
as many bits as a significand, unless the format ends before. -/
def lastExponent (f : Format) (num den : Nat) : Int :=
  let guess : Int := (num.log2 : Int) - den.log2 - f.fractionBits
  let (n, d) := scale num (-guess)
  let exact := if f.leadingBit ≤ n / (den * d) then guess else guess - 1
  max exact f.minExponent

/-- The pattern nearest to `num / den`, where of two equally near ones the even one is taken. -/
def round (f : Format) (negative : Bool) (num den : Nat) : Nat :=
  if num = 0 then f.withSign negative 0
  else
    let k := f.lastExponent num den
    let (n, d) := scale num (-k)
    let unit := den * d
    let quotient := n / unit
    let rest := n % unit
    let nearest :=
      if unit < 2 * rest || (2 * rest == unit && quotient % 2 == 1) then quotient + 1 else quotient
    let magnitude := (k - f.minExponent).toNat <<< f.fractionBits + nearest
    f.withSign negative (min magnitude f.infinityBits)

/-- The pattern nearest to `significand * 2 ^ exponent`. -/
def roundScaled (f : Format) (negative : Bool) (significand : Nat) (exponent : Int) : Nat :=
  let (num, den) := scale significand exponent
  f.round negative num den

end Format

/-! ## Operations -/

namespace Format

/-- The NaN that an operation without a value yields: quiet, with the sign bit. -/
def invalid (f : Format) : Nat :=
  f.signBit + f.infinityBits + 1 <<< (f.fractionBits - 1)

/-- A NaN with its quiet bit set. -/
def quiet (f : Format) (bits : Nat) : Nat :=
  bits ||| 1 <<< (f.fractionBits - 1)

/-- Lifts an operation on values to patterns; `none` stands for an operation without a value. -/
def lift (f : Format) (op : Datum → Datum → Option Nat) (a b : Nat) : Nat :=
  if f.isNaN a then f.quiet a
  else if f.isNaN b then f.quiet b
  else (op (f.decode a) (f.decode b)).getD f.invalid

/-- Changes the sign, also of a zero or a NaN. -/
def neg (f : Format) (bits : Nat) : Nat :=
  f.withSign (!f.isNegative bits) (f.magnitude bits)

/-- A significand as a multiple of `2 ^ base`, with its sign. -/
def aligned (negative : Bool) (significand : Nat) (exponent base : Int) : Int :=
  let n : Int := (significand <<< (exponent - base).toNat : Nat)
  if negative then -n else n

/-- The sum of two numbers. The sum of two zeros is negative only if both are. -/
def add (f : Format) : Nat → Nat → Nat :=
  f.lift fun
    | .infinite s, .infinite t => if s == t then some (f.withSign s f.infinityBits) else none
    | .infinite s, _ => some (f.withSign s f.infinityBits)
    | _, .infinite t => some (f.withSign t f.infinityBits)
    | .finite s m e, .finite t n k =>
      let base := min e k
      let sum := aligned s m e base + aligned t n k base
      let negative := if sum = 0 then s && t else sum < 0
      some (f.roundScaled negative sum.natAbs base)
    | _, _ => none

/-- The difference of two numbers. -/
def sub (f : Format) (a b : Nat) : Nat :=
  if f.isNaN a then f.quiet a
  else if f.isNaN b then f.quiet b
  else f.add a (f.neg b)

/-- The product of two numbers. -/
def mul (f : Format) : Nat → Nat → Nat :=
  f.lift fun
    | .infinite s, .infinite t => some (f.withSign (s != t) f.infinityBits)
    | .infinite s, .finite t n _ | .finite t n _, .infinite s =>
      if n = 0 then none else some (f.withSign (s != t) f.infinityBits)
    | .finite s m e, .finite t n k => some (f.roundScaled (s != t) (m * n) (e + k))
    | _, _ => none

/-- The quotient of two numbers. -/
def div (f : Format) : Nat → Nat → Nat :=
  f.lift fun
    | .infinite _, .infinite _ => none
    | .infinite s, .finite t _ _ => some (f.withSign (s != t) f.infinityBits)
    | .finite s _ _, .infinite t => some (f.withSign (s != t) 0)
    | .finite s m e, .finite t n k =>
      if n = 0 then
        if m = 0 then none else some (f.withSign (s != t) f.infinityBits)
      else
        let (num, den) := scale m (e - k)
        some (f.round (s != t) num (den * n))
    | _, _ => none

/-- The remainder of the division that truncates; it has the sign of the dividend. -/
def rem (f : Format) (a b : Nat) : Nat :=
  f.lift (fun
    | .finite s m e, .finite _ n k =>
      if n = 0 then none
      else
        let base := min e k
        let rest := (m <<< (e - base).toNat) % (n <<< (k - base).toNat)
        some (f.roundScaled s rest base)
    | .finite _ _ _, .infinite _ => some a
    | _, _ => none) a b

/-- The order of two numbers; a NaN has none. -/
def compare (f : Format) (a b : Nat) : Option Ordering :=
  match f.decode a, f.decode b with
  | .nan, _ | _, .nan => none
  | .infinite s, .infinite t =>
    some (if s == t then .eq else if s then .lt else .gt)
  | .infinite s, _ => some (if s then .lt else .gt)
  | _, .infinite t => some (if t then .gt else .lt)
  | .finite s m e, .finite t n k =>
    let base := min e k
    some (Ord.compare (aligned s m e base) (aligned t n k base))

/-- The number nearest to an integer. -/
def ofInt (f : Format) (n : Int) : Nat :=
  f.round (n < 0) n.natAbs 1

/-- The integer part, brought into the range from `low` to `high`; a NaN counts as zero. -/
def toInt (f : Format) (low high : Int) (bits : Nat) : Int :=
  match f.decode bits with
  | .nan => 0
  | .infinite negative => if negative then low else high
  | .finite negative m e =>
    let (num, den) := scale m e
    let n : Int := (num / den : Nat)
    max low (min high (if negative then -n else n))

/-- The number of format `g` nearest to one of format `f`. A NaN keeps its sign and the leading bits
of its payload. -/
def convert (f g : Format) (bits : Nat) : Nat :=
  match f.decode bits with
  | .nan =>
    let payload := bits % f.leadingBit
    g.withSign (f.isNegative bits) <|
      g.quiet (g.infinityBits + (payload <<< g.fractionBits) >>> f.fractionBits)
  | .infinite negative => g.withSign negative g.infinityBits
  | .finite negative m e => g.roundScaled negative m e

end Format

end Bytecode.Floating
