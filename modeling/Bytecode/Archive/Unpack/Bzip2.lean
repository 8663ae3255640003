import Bytecode.Archive.Unpack
import Bytecode.Bytes
import Bytecode.Archive.Checksum
import Bytecode.Archive.Unpack.PrefixCode

/-!
# Data in bzip2 form

The data is cut into blocks, and every block is sorted. The column that tells a block is written in
several prefix codes, of which one is selected for each group of symbols. Every block has a
checksum, and so have all together. Bits are taken from the most significant end of octets.
-/

/-! ## Sorted columns

A text can be told by the last column of the sorted table of its rotations, together with the row in
which the text itself stands. Since equal octets come close together there, the column is given by
how recently each of its octets has been seen, and runs of the most recent one are counted.

`column?` gets the column back, `unsort` the text, and `expandRuns?` is for texts in
which long runs have been counted before they were sorted.
-/

namespace Bytecode.Archive.Sorted

/-- The digits of a run stay below this weight. -/
def heaviest : Nat := 2097152

/-- Adds a run of the most recent octet to a column that must not become longer than a limit. -/
def addRun? (limit : Nat) (recent : Bytes) (run : Nat) (column : Array UInt8) :
    Option (Array UInt8) :=
  if run = 0 then some column
  else if limit < column.size + run then none
  else recent.head?.map fun b => column ++ Array.replicate run b

/-- The column that symbols tell, which must not become longer than a limit. The symbols 0 and 1 are
digits of the length of a run, the lightest first, where 1 counts two; each other symbol is by one
greater than the index of an octet among the recent ones. -/
def column? (limit : Nat) (recent : Bytes) (run weight : Nat) (column : Array UInt8) :
    List Nat → Option (Array UInt8)
  | [] => addRun? limit recent run column
  | s :: rest => do
    if s < 2 then
      if heaviest ≤ weight then none
      column? limit recent (run + (s + 1) * weight) (2 * weight) column rest
    else
      let column ← addRun? limit recent run column
      if limit ≤ column.size then none
      let (b, recent) ← Recent.moveToFront? recent (s - 1)
      column? limit recent 0 1 (column.push b) rest

/-- The rows of the table in the order of the octets in the column: those that begin with the
octets. -/
def following (column : Array UInt8) : Array Nat :=
  ((List.range column.size).mergeSort fun i j => column.getD i 0 ≤ column.getD j 0).toArray

/-- The text in a row of the table with a last column. -/
def unsort (column : Array UInt8) (row : Nat) : Bytes :=
  let next := following column
  let step (s : Nat × Array UInt8) (_ : Nat) : Nat × Array UInt8 :=
    (next.getD s.1 0, s.2.push (column.getD s.1 0))
  ((List.range column.size).foldl step (next.getD row 0, #[])).2.toList

/-- A text has as many octets as its column. -/
theorem length_unsort (column : Array UInt8) (row : Nat) :
    (unsort column row).length = column.size := by
  have h (next : Array Nat) (l : List Nat) (s : Nat × Array UInt8) :
      (l.foldl (fun (s : Nat × Array UInt8) (_ : Nat) =>
        (next.getD s.1 0, s.2.push (column.getD s.1 0))) s).2.size = s.2.size + l.length := by
    induction l generalizing s with
    | nil => rfl
    | cons a l ih => rw [List.foldl_cons, ih, Array.size_push, List.length_cons]; omega
  simp only [unsort, Array.length_toList]
  rw [h]
  simp

/-- The longest run that is not counted. -/
def longestRun : Nat := 4

/-- Expands the rest of a text in which a run that has come to its greatest length is followed by
the number of octets it goes on. -/
def expandRunsFrom (expanded : Array UInt8) (last : UInt8) (run : Nat) :
    Bytes → Option (Array UInt8)
  | [] => if run = longestRun then none else some expanded
  | b :: rest =>
    if run = longestRun then
      expandRunsFrom (expanded ++ Array.replicate b.toNat last) last 0 rest
    else if run ≠ 0 ∧ b = last then expandRunsFrom (expanded.push b) last (run + 1) rest
    else expandRunsFrom (expanded.push b) b 1 rest

/-- Expands the runs of a text. -/
def expandRuns? (text : Bytes) : Option Bytes :=
  (expandRunsFrom #[] 0 0 text).map Array.toList

end Bytecode.Archive.Sorted

/-! ## Blocks -/

namespace Bytecode.Archive.Bzip2

open Unpack

/-- The text in front of all blocks. -/
def mark : Bytes := "BZh".toUTF8.toList

/-- The number in front of a block. -/
def blockMark : Nat := 0x314159265359

/-- The number behind the last block. -/
def endMark : Nat := 0x177245385090

/-- How many symbols make a group. -/
def groupSize : Nat := 50

/-- The longest word of a code. -/
def longestWord : Nat := 20

/-- Takes the octets that occur in a block, in their order. -/
def alphabet : Unpack Bytes := do
  let marks ← (← times highBit 16).mapM fun hasAny =>
    if hasAny = 1 then times highBit 16 else return List.replicate 16 0
  return (marks.flatten.zipIdx.filter (·.1 == 1)).map fun (_, i) => UInt8.ofNat i

/-- Takes a number below a bound as so many bits of one in front of a zero. -/
def unary : Nat → Unpack Nat
  | 0 => throw .corrupt
  | bound + 1 => do
    if (← highBit) = 0 then return 0
    return 1 + (← unary bound)

/-- Takes the length of a word, told by steps from another length, of which there are no more than
bits. -/
def wordLength (length : Nat) : Nat → Unpack Nat
  | 0 => throw .ended
  | most + 1 => do
    require (1 ≤ length && length ≤ longestWord)
    if (← highBit) = 0 then return length
    if (← highBit) = 0 then wordLength (length + 1) most else wordLength (length - 1) most

/-- Takes the lengths of a number of words, each told by steps from the one before. -/
def wordLengths (length : Nat) : Nat → Unpack (List Nat)
  | 0 => return []
  | count + 1 => do
    let length ← wordLength length ((← bitsLeft) + 1)
    return length :: (← wordLengths length count)

/-- Takes the code of so many symbols. -/
def code (count : Nat) : Unpack PrefixCode := do
  return .ofLengths longestWord (← wordLengths (← highBits 5) count)

/-- Takes symbols up to a last one, in the codes of the groups. The first group has `left` symbols
to come; `found` has those that have been taken, the last one first. -/
def symbols (last : Nat) (left : Nat) (found : List Nat) : List PrefixCode → Unpack (List Nat)
  | [] => throw .corrupt
  | c :: codes => do
    match left with
    | 0 => symbols last groupSize found codes
    | left + 1 =>
      let s ← c.symbol highBit
      if s = last then return found.reverse else symbols last left (s :: found) (c :: codes)
termination_by codes => (codes.length, left)

/-- Takes a block of at most so many octets, and returns its checksum. -/
def block (limit : Nat) : Unpack UInt32 := do
  let expected ← highBits 32
  require ((← highBit) = 0)
  let row ← highBits 24
  let octets ← alphabet
  require (!octets.isEmpty)
  let codeCount ← highBits 3
  require (2 ≤ codeCount && codeCount ≤ 6)
  let groupCount ← highBits 15
  require (groupCount ≠ 0)
  let selectors ← times (unary codeCount) groupCount
  let codes ← times (code (octets.length + 2)) codeCount
  let selected ← required (Recent.items? codes selectors)
  let symbols ← symbols (octets.length + 1) groupSize [] selected
  let column ← required (Sorted.column? limit octets 0 1 #[] symbols)
  require (row < column.size)
  let text ← required (Sorted.expandRuns? (Sorted.unsort column row))
  require ((highChecksum text).toNat = expected)
  writeAll text
  return highChecksum text

/-- Takes blocks of at most so many octets, given the checksum of those in front. There are no more
of them than bits. -/
def blocks (limit : Nat) (checksum : UInt32) : Nat → Unpack Unit
  | 0 => throw .ended
  | most + 1 => do
    let mark ← highBits 48
    if mark = endMark then require ((← highBits 32) = checksum.toNat)
    else
      require (mark = blockMark)
      let next ← block limit
      blocks limit ((checksum <<< 1 ||| checksum >>> 31) ^^^ next) most

/-- Takes all data. -/
def stream : Unpack Unit := do
  require ((← octets 3) = mark)
  let level := (← octet).toNat
  require (49 ≤ level && level ≤ 57)
  blocks (100000 * (level - 48)) 0 ((← bitsLeft) + 1)

/-- The data in a packed form, which other data may follow. -/
def unpack? (packed : Bytes) : Option Bytes :=
  stream.complete? packed

end Bytecode.Archive.Bzip2
