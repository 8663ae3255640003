import Bytecode.Archive.Unpack.PrefixCode
import Bytecode.Archive.Unpack.StateTable
import Bytecode.Total

/-!
# Literals of Zstandard data

A block starts with its literals, the octets that are not told by references. They stand as they
are, are all the same, or are written in a prefix code whose words are taken from the end. The code
of an earlier block can be used again.

The code is given by weights: each symbol of some weight takes twice the room of one of the weight
below, so that the last weight follows from the others.
-/

namespace Bytecode.Archive.Zstandard

open Unpack

/-- A code for octets up to a greatest one. Of words of one length, the greater octets have the
lesser ones, all bits of words are inverted, and then they form a prefix code. -/
structure LiteralCode where
  greatest : Nat
  inverted : PrefixCode
  deriving Repr

namespace LiteralCode

/-- The greatest weight. -/
def heaviest : Nat := 12

/-- The room that a symbol of some weight takes. -/
def room (weight : Nat) : Nat :=
  Nat.pow 2 weight / 2

/-- The code in which octets have given weights, of which the last one is left out. -/
def ofWeights? (weights : List Nat) : Option LiteralCode :=
  let taken := total room weights
  let width := Nat.log2 taken + 1
  let left := Nat.pow 2 width - taken
  let all := weights ++ [Nat.log2 left + 1]
  let lightest := all.count 1
  if weights.any (heaviest < ·) || taken == 0 || heaviest < width ||
    left ≠ Nat.pow 2 (Nat.log2 left) || lightest < 2 || lightest % 2 ≠ 0 then none
  else
    let lengths := all.map fun w => if w = 0 then 0 else width + 1 - w
    some ⟨weights.length, .ofLengths width lengths.reverse⟩

/-- Takes the word of an octet. -/
def octet (c : LiteralCode) : Backward UInt8 :=
  return UInt8.ofNat (c.greatest - (← c.inverted.symbol (return 1 - (← Backward.bit))))

/-- Takes a number of octets behind those that are known, the last one first. -/
def octets (c : LiteralCode) (known : Bytes) : Nat → Backward Bytes
  | 0 => return known.reverse
  | count + 1 => do c.octets ((← c.octet) :: known) count

/-- Takes symbols that the states of two rows tell in turn. When there are no bits for the state
behind one, it is the last of its row, and one of the other row follows. -/
def inTurn (t : StateTable) (state other : Nat) : Nat → Backward (List Nat)
  | 0 => throw .corrupt
  | most + 1 => do
    let s := t.state state
    if ← Backward.has s.next.width then
      let state ← StateTable.next s
      return s.symbol :: (← inTurn t other state most)
    else return [s.symbol, (t.state other).symbol]

/-- Weights that are told by states have a table up to this width. -/
def widestWeights : Nat := 6

/-- Takes weights. -/
def weights : Unpack (List Nat) := do
  let size := (← Unpack.octet).toNat
  if 128 ≤ size then
    let count := size - 127
    let pairs ← Unpack.octets ((count + 1) / 2)
    return (pairs.flatMap fun b => [b.toNat / 16, b.toNat % 16]).take count
  within (← Unpack.octets size) do
    let t ← StateTable.take widestWeights 256
    let work : Backward (List Nat) := do
      let state ← t.start
      let other ← t.start
      inTurn t state other 254
    return (← work.start (← get).rest).1

/-- Takes a code. -/
def take : Unpack LiteralCode := do
  required (ofWeights? (← weights))

/-- Takes a number of octets in four parts, of which the first three have sizes in front. -/
def inParts (c : LiteralCode) (size : Nat) : Unpack Bytes := do
  require (6 ≤ size)
  let part := (size + 3) / 4
  require (3 * part ≤ size)
  let sizes ← times (little 2) 3
  let parts ← sizes.mapM fun n => do (c.octets [] part).complete (← Unpack.octets n)
  return parts.flatten ++ (← (c.octets [] (size - 3 * part)).complete (← get).rest)

end LiteralCode

/-- Blocks have no more octets. -/
def longestBlock : Nat := 131072

/-- Takes the number of literals that are not in a code. -/
def plainSize : Unpack Nat := do
  if (← lowBit) = 0 then lowBits 5
  else if (← lowBit) = 0 then lowBits 12
  else lowBits 20

/-- Takes literals, given the code of an earlier block. Returns the code for later ones as well. -/
def literals (code : Option LiteralCode) : Unpack (Bytes × Option LiteralCode) := do
  let kind ← lowBits 2
  if kind < 2 then
    let size ← plainSize
    require (size ≤ longestBlock)
    if kind = 0 then return (← octets size, code)
    return (List.replicate size (← octet), code)
  let form ← lowBits 2
  let width := match form with | 0 | 1 => 10 | 2 => 14 | _ => 18
  let size ← lowBits width
  let packed ← octets (← lowBits width)
  require (size ≤ longestBlock)
  within packed do
    let code ← if kind = 2 then LiteralCode.take else required code
    let data ←
      if form = 0 then (code.octets [] size).complete (← get).rest
      else code.inParts size
    return (data, some code)

end Bytecode.Archive.Zstandard
