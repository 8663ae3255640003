import Bytecode.Archive.Unpack
import Bytecode.Archive.Unpack.StateTable

/-!
# Sequences of Zstandard data

Behind its literals a block has sequences. Each of them takes some literals and then refers to
octets that have been written before. The three numbers of a sequence are told by classes, which
three rows of states tell in turn with the bits that choose a number of the class, all of them taken
from the end.

The three distances that have been used last can be used again.
-/

namespace Bytecode.Archive.Zstandard

open Unpack

/-- A sequence: how many literals come first, what tells the distance, and how long the reference
is. -/
structure Sequence where
  literals : Nat
  distance : Nat
  length : Nat
  deriving DecidableEq, Repr

/-- One of the three numbers of a sequence: its classes, the table that is used if there is no
other, and how wide other tables can be. -/
structure Field where
  classes : Array ValueClass
  usual : StateTable
  widest : Nat

namespace Field

/-- Numbers of literals. -/
def literals : Field where
  classes := (ValueClass.ofWidths 0 (List.replicate 16 0 ++
    [1, 1, 1, 1, 2, 2, 3, 3, 4, 6, 7, 8, 9, 10, 11, 12, 13, 14, 15, 16])).toArray
  usual := .ofChances 6 ([4, 3] ++ List.replicate 11 2 ++ [1, 1, 1] ++ List.replicate 9 2 ++
    [3, 2] ++ List.replicate 5 1 ++ List.replicate 4 StateTable.rare)
  widest := 9

/-- What tells distances. -/
def distances : Field where
  classes := (ValueClass.ofWidths 1 (List.range 32)).toArray
  usual := .ofChances 5 (List.replicate 6 1 ++ [2, 2, 2] ++ List.replicate 15 1 ++
    List.replicate 5 StateTable.rare)
  widest := 8

/-- Lengths. -/
def lengths : Field where
  classes := (ValueClass.ofWidths 3 (List.replicate 32 0 ++
    [1, 1, 1, 1, 2, 2, 3, 3, 4, 4, 5, 7, 8, 9, 10, 11, 12, 13, 14, 15, 16])).toArray
  usual := .ofChances 6 ([1, 4, 3] ++ List.replicate 6 2 ++ List.replicate 37 1 ++
    List.replicate 7 StateTable.rare)
  widest := 9

/-- Takes a table of some kind, given the one of an earlier block. -/
def table (f : Field) (earlier : Option StateTable) : Nat → Unpack StateTable
  | 0 => return f.usual
  | 1 => do
    let s := (← octet).toNat
    require (s < f.classes.size)
    return .ofSymbol s
  | 2 => StateTable.take f.widest f.classes.size
  | _ => required earlier

/-- Takes the number that a state tells. -/
def value (f : Field) (t : StateTable) (state : Nat) : Backward Nat := do
  let c ← Unpack.required f.classes[(t.state state).symbol]?
  return c.least + (← Backward.bits c.width)

end Field

/-- The tables of the three numbers. -/
structure Tables where
  literals : StateTable
  distances : StateTable
  lengths : StateTable
  deriving Repr

/-- Takes a number of sequences behind those that are known, the last one first, given the states.
Behind the last one no states follow. -/
def sequencesFrom (t : Tables) (known : List Sequence) (literal distance length : Nat) :
    Nat → Backward (List Sequence)
  | 0 => return known.reverse
  | left + 1 => do
    let far ← Field.distances.value t.distances distance
    let long ← Field.lengths.value t.lengths length
    let first ← Field.literals.value t.literals literal
    let known := ⟨first, far, long⟩ :: known
    if left = 0 then return known.reverse
    let literal ← StateTable.next (t.literals.state literal)
    let length ← StateTable.next (t.lengths.state length)
    let distance ← StateTable.next (t.distances.state distance)
    sequencesFrom t known literal distance length left

/-- Takes a number of sequences. -/
def sequences (t : Tables) (count : Nat) : Backward (List Sequence) := do
  let literal ← t.literals.start
  let distance ← t.distances.start
  let length ← t.lengths.start
  sequencesFrom t [] literal distance length count

/-- Takes how many sequences there are. -/
def sequenceCount : Unpack Nat := do
  let n := (← octet).toNat
  if n < 128 then return n
  if n < 255 then return 256 * (n - 128) + (← octet).toNat
  return 0x7f00 + (← little 2)

/-- The distance that a number tells, and the distances that can be used again. Without literals the
last distance itself is not told again, but the one below it. -/
def usedDistance? (recent : List Nat) (told literals : Nat) : Option (Nat × List Nat) := do
  if 3 < told then return (told - 3, (told - 3) :: recent.take 2)
  let index := told - 1 + if literals = 0 then 1 else 0
  if index < 3 then Recent.moveToFront? recent index
  else
    let distance := (← recent.head?) - 1
    if distance = 0 then none
    return (distance, distance :: recent.take 2)

/-- Writes what sequences mean, and the literals that are left. References reach back to `origin`,
and no more than `limit` octets may have been written in all. Returns the distances that can be used
again. -/
def execute (origin limit : Nat) (recent : List Nat) (literals : Bytes) :
    List Sequence → Unpack (List Nat)
  | [] => do
    writeAll literals
    require ((← get).written.size ≤ limit)
    return recent
  | s :: rest => do
    let first := literals.take s.literals
    require (first.length = s.literals)
    writeAll first
    let (distance, recent) ← required (usedDistance? recent s.distance s.literals)
    let size := (← get).written.size
    require (distance ≤ size - origin)
    require (size + s.length ≤ limit)
    repeatWritten distance s.length
    execute origin limit recent (literals.drop s.literals) rest

end Bytecode.Archive.Zstandard
