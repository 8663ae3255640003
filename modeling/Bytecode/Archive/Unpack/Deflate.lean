import Bytecode.Archive.Unpack.PrefixCode
import Bytecode.Archive.Unpack
import Bytecode.Archive.Unpack.WordTable

/-!
# Deflated data

Data is deflated in blocks. A block holds its data as it is, or symbols in a prefix code: octets,
and references to octets that have been written before, with a length and a distance. The code is a
fixed one, or its word lengths stand in front of the block. Bits are taken from the least
significant end of octets.

Data comes in two forms, of which the enhanced one reaches further back and repeats longer texts.
The plain form has to use its codes up and to come to its end.
-/

namespace Bytecode.Archive

/-- The forms of deflated data. -/
inductive DeflateForm where
  | plain
  | enhanced
  deriving DecidableEq, Repr

namespace DeflateForm

/-- The classes of lengths. Those in the last one are chosen by the form. -/
def lengthClasses (form : DeflateForm) : Array ValueClass :=
  let last := match form with | .plain => ⟨258, 0⟩ | .enhanced => ⟨3, 16⟩
  let widths := [0, 0, 0, 0] ++ (List.range 6).flatMap fun n => List.replicate 4 n
  (ValueClass.ofWidths 3 widths ++ [last]).toArray

/-- The classes of distances. -/
def distanceClasses (form : DeflateForm) : Array ValueClass :=
  let most := match form with | .plain => 14 | .enhanced => 15
  (ValueClass.ofWidths 1 ([0, 0] ++ (List.range most).flatMap fun n => [n, n])).toArray

end DeflateForm

namespace Deflate

open Unpack

/-- The longest word. -/
def longestWord : Nat := 15

/-- The code of octets, lengths and the end of a block in blocks without a code of their own. -/
def fixedLetters : PrefixCode :=
  .ofLengths longestWord (List.replicate 144 8 ++ List.replicate 112 9 ++ List.replicate 24 7 ++
    List.replicate 8 8)

/-- The code of distances in blocks without a code of their own. -/
def fixedDistances : PrefixCode :=
  .ofLengths longestWord (List.replicate 32 5)

/-- Takes a value of one of some classes. -/
def value (classes : Array ValueClass) (index : Nat) : Unpack Nat := do
  let c ← required classes[index]?
  return c.least + (← lowBits c.width)

/-- The symbol that ends a block. -/
def endOfBlock : Nat := 256

/-- Writes again what has been written at a distance. Only in the enhanced form a distance can reach
beyond the beginning, where all octets are zero. -/
def refer (form : DeflateForm) (distance length : Nat) : Unpack Unit := do
  let size := (← get).written.size
  let missing := min length (distance - size)
  require (form = .enhanced || missing = 0)
  writeAll (List.replicate missing 0)
  repeatWritten distance (length - missing)

/-- Takes the symbols of a block, of which there are no more than bits. -/
def symbols (form : DeflateForm) (letter distance : Unpack Nat) : Nat → Unpack Unit
  | 0 => throw .ended
  | most + 1 => do
    let s ← letter
    if s = endOfBlock then return ()
    if s < endOfBlock then write (UInt8.ofNat s)
    else
      let length ← value form.lengthClasses (s - 257)
      let back ← value form.distanceClasses (← distance)
      refer form back length
    symbols form letter distance most

/-- Takes word lengths in a code that can also repeat them. -/
def wordLengths (symbol : Unpack Nat) (wanted : Nat) : Nat → List Nat → Unpack (List Nat)
  | 0, _ => throw .corrupt
  | most + 1, known => do
    require (known.length ≤ wanted)
    if wanted = known.length then return known.reverse
    match ← symbol with
    | 16 =>
      match known with
      | [] => throw .corrupt
      | last :: _ =>
        wordLengths symbol wanted most (List.replicate (3 + (← lowBits 2)) last ++ known)
    | 17 => wordLengths symbol wanted most (List.replicate (3 + (← lowBits 3)) 0 ++ known)
    | 18 => wordLengths symbol wanted most (List.replicate (11 + (← lowBits 7)) 0 ++ known)
    | length => wordLengths symbol wanted most (length :: known)

/-- The order in which the lengths of the words for word lengths are given. -/
def lengthOrder : List Nat :=
  [16, 17, 18, 0, 8, 7, 9, 6, 10, 5, 11, 4, 12, 3, 13, 2, 14, 1, 15]

/-- The lengths of the words for word lengths, given in their order. -/
def lengthLengths (given : List Nat) : List Nat :=
  (lengthOrder.zip given).foldl (fun all (i, l) => all.set i l) (List.replicate 19 0)

/-- What takes a symbol in a code whose words have given lengths. In the plain form the words of a
code leave no room, unless it is at most one word of one bit where that is allowed. -/
def reader? (form : DeflateForm) (width : Nat) (mayBeTrivial : Bool) (lengths : List Nat) :
    Option (Unpack Nat) :=
  match form with
  | .plain =>
    let c := PrefixCode.ofLengths longestWord lengths
    if c.isComplete || mayBeTrivial && c.isTrivial && c.room?.isSome then some (c.symbol lowBit)
    else none
  | .enhanced => (WordTable.ofLengths? width longestWord lengths).map (·.symbol)

/-- Takes the codes in front of a block, and returns what takes a letter and what takes the class of
a distance. -/
def codes (form : DeflateForm) : Unpack (Unpack Nat × Unpack Nat) := do
  let letterCount := 257 + (← lowBits 5)
  let distanceCount := 1 + (← lowBits 5)
  let given ← times (lowBits 3) (4 + (← lowBits 4))
  require (form = .enhanced || letterCount ≤ 286 && distanceCount ≤ 30)
  let length ← required (reader? form 7 false (lengthLengths given))
  let lengths ← wordLengths length (letterCount + distanceCount)
    (letterCount + distanceCount + 1) []
  require (lengths.getD endOfBlock 0 ≠ 0)
  let letter ← required (reader? form 9 true (lengths.take letterCount))
  let distance ← required (reader? form 7 true (lengths.drop letterCount))
  return (letter, distance)

/-- Takes a block that holds its data as it is. -/
def plainBlock : Unpack Unit := do
  let length ← little 2
  require (length + (← little 2) = 0xffff)
  let data := (← get).rest.take length
  writeAll data
  modify fun s => { s with rest := s.rest.drop length }
  if data.length < length then throw .ended

/-- Takes blocks up to the one that is marked as the last. There are no more of them than bits. -/
def blocks (form : DeflateForm) : Nat → Unpack Unit
  | 0 => throw .ended
  | most + 1 => do
    let isLast := (← lowBit) == 1
    match ← lowBits 2 with
    | 0 => plainBlock
    | 1 =>
      symbols form (fixedLetters.symbol lowBit) (fixedDistances.symbol lowBit) ((← bitsLeft) + 1)
    | 2 =>
      let (letter, distance) ← codes form
      symbols form letter distance ((← bitsLeft) + 1)
    | _ => throw .corrupt
    if isLast then return () else blocks form most

/-- Takes all blocks. -/
def stream (form : DeflateForm) : Unpack Unit := do
  blocks form ((← bitsLeft) + 1)

/-- The data that has been deflated. The enhanced form may break off. -/
def unpack? (form : DeflateForm) (packed : Bytes) : Option Bytes :=
  match form, (stream form).start packed with
  | _, (written, none) | .enhanced, (written, some .ended) => some written
  | _, _ => none

end Deflate

end Bytecode.Archive
