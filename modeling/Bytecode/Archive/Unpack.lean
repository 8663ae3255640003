import Bytecode.Bytes

/-!
# Unpacking

The contents of an archive can be packed in several ways. `Unpack` is the type of work on packed
data: it takes octets and bits, and writes what they stand for. It can be interrupted, because the
data ends or because it is corrupt. What has been written is kept, since packed data refers back to
it.

Some ways of packing take the bits of an octet from the least significant end, others from the most
significant one; no work mixes the two.
-/

namespace Bytecode.Archive

/-- Why no more can be read of packed data. -/
inductive Interruption where
  | ended
  | corrupt
  deriving DecidableEq, Repr

/-- What is left of packed data, and what has been written. Of an octet that has been begun, `held`
is what the `count` bits left of it denote. -/
structure Unpacking where
  rest : Bytes
  held : Nat := 0
  count : Nat := 0
  written : Array UInt8 := #[]
  deriving Repr

/-- Work on packed data. -/
abbrev Unpack := ExceptT Interruption (StateM Unpacking)

namespace Unpack

/-- Fails unless something holds of the data. -/
def require (isRight : Bool) : Unpack Unit :=
  if isRight then return () else throw .corrupt

/-- A value that the data has to have. -/
def required {α : Type} : Option α → Unpack α
  | some a => return a
  | none => throw .corrupt

/-- Takes one octet, after the bits of a begun one have been dropped. -/
def octet : Unpack UInt8 := do
  match (← get).rest with
  | [] => throw .ended
  | b :: rest =>
    modify fun s => { s with rest, held := 0, count := 0 }
    return b

/-- Takes a number of octets. -/
def octets (count : Nat) : Unpack Bytes := do
  let taken := (← get).rest.take count
  if taken.length < count then throw .ended
  modify fun s => { s with rest := s.rest.drop count, held := 0, count := 0 }
  return taken

/-- Drops the bits of a begun octet. -/
def align : Unpack Unit :=
  modify fun s => { s with held := 0, count := 0 }

/-- Does work on other data, and goes on behind it. -/
def within {α : Type} (data : Bytes) (work : Unpack α) : Unpack α := do
  let behind := (← get).rest
  modify fun s => { s with rest := data, held := 0, count := 0 }
  let a ← work
  modify fun s => { s with rest := behind, held := 0, count := 0 }
  return a

/-- Takes a number with its least significant octet first. -/
def little (width : Nat) : Unpack Nat :=
  return Bytes.toNat (← octets width).reverse

/-- Takes a number with its most significant octet first. -/
def big (width : Nat) : Unpack Nat :=
  return Bytes.toNat (← octets width)

/-- Takes a number of items. -/
def times {α : Type} (item : Unpack α) : Nat → Unpack (List α)
  | 0 => return []
  | n + 1 => return (← item) :: (← times item n)

/-- Takes the least significant bit that is left. -/
def lowBit : Unpack Nat := do
  let s ← get
  match s.count, s.rest with
  | count + 1, _ =>
    set { s with held := s.held / 2, count }
    return s.held % 2
  | 0, b :: rest =>
    set { s with rest, held := b.toNat / 2, count := 7 }
    return b.toNat % 2
  | 0, [] => throw .ended

/-- Takes a number of bits, the least significant one first. -/
def lowBits : Nat → Unpack Nat
  | 0 => return 0
  | n + 1 => do
    let low ← lowBit
    return low + 2 * (← lowBits n)

/-- The next bits without taking them, at least 16 if so many are left, the least significant one
first, and whether there are none. -/
def coming : Unpack (Nat × Bool) := do
  let s ← get
  let next := Bytes.toNat (s.rest.take 2).reverse
  return (s.held + Nat.pow 2 s.count * next, s.count == 0 && s.rest.isEmpty)

/-- Takes the most significant bit that is left. -/
def highBit : Unpack Nat := do
  let s ← get
  match s.count, s.rest with
  | count + 1, _ =>
    set { s with held := s.held % Nat.pow 2 count, count }
    return s.held / Nat.pow 2 count
  | 0, b :: rest =>
    set { s with rest, held := b.toNat % 128, count := 7 }
    return b.toNat / 128
  | 0, [] => throw .ended

/-- Takes a number of bits, the most significant one first. -/
def highBits (count : Nat) : Unpack Nat :=
  return (← times highBit count).foldl (fun n bit => 2 * n + bit) 0

/-- How many bits are left. -/
def bitsLeft : Unpack Nat :=
  return 8 * (← get).rest.length + (← get).count

/-- Writes an octet. -/
def write (b : UInt8) : Unpack Unit :=
  modify fun s => { s with written := s.written.push b }

/-- Writes octets. -/
def writeAll (data : Bytes) : Unpack Unit :=
  modify fun s => { s with written := s.written ++ data.toArray }

/-- The octet that has been written at a distance. -/
def writtenAt (distance : Nat) : Unpack UInt8 := do
  let found (s : Unpacking) : Option UInt8 :=
    if distance ≤ s.written.size then s.written[s.written.size - distance]? else none
  required (found (← get))

/-- Writes again what has been written at a distance. -/
def repeatWritten (distance : Nat) : Nat → Unpack Unit
  | 0 => return ()
  | length + 1 => do
    write (← writtenAt distance)
    repeatWritten distance length

/-- What work writes that starts with some packed data, and why it was interrupted, if it was. -/
def start (work : Unpack Unit) (data : Bytes) : Bytes × Option Interruption :=
  let (result, s) := work.run { rest := data }
  (s.written.toList, match result with | .ok () => none | .error cause => some cause)

/-- What work writes that starts with some packed data and comes to its end. -/
def complete? (work : Unpack Unit) (data : Bytes) : Option Bytes :=
  match work.start data with
  | (written, none) => some written
  | (_, some _) => none

end Unpack

/-! ## Classes of values

Large numbers are told by a class and by some bits that choose one of the numbers in it. The classes
follow each other without gaps, and the greater their numbers are, the more of them they have.
-/

/-- A class of numbers: the least one, and how many bits tell which one is meant. -/
structure ValueClass where
  least : Nat
  width : Nat
  deriving DecidableEq, Repr, Inhabited

namespace ValueClass

/-- Classes of given widths that follow each other, of which the first has a least number. -/
def ofWidths (least : Nat) : List Nat → List ValueClass
  | [] => []
  | width :: rest => ⟨least, width⟩ :: ofWidths (least + Nat.pow 2 width) rest

/-- Every width makes a class. -/
theorem length_ofWidths (least : Nat) (widths : List Nat) :
    (ofWidths least widths).length = widths.length := by
  induction widths generalizing least with
  | nil => rfl
  | cons width rest ih => rw [ofWidths, List.length_cons, ih, List.length_cons]

end ValueClass

end Bytecode.Archive

/-! ## Recent items

Some forms of data tell an item by how recently it has been used: the index counts items, of which
the last one used stands in front.
-/

namespace Bytecode.Archive.Recent

/-- The item at an index, and the items with this one in front. -/
def moveToFront? {α : Type} (items : List α) (index : Nat) : Option (α × List α) := do
  let a ← items[index]?
  return (a, a :: items.eraseIdx index)

/-- The items that are meant by indices, each of which counts after the item before has been moved
to the front. -/
def items? {α : Type} (items : List α) : List Nat → Option (List α)
  | [] => some []
  | index :: rest => do
    let (a, items) ← moveToFront? items index
    return a :: (← items? items rest)

/-- Moving to the front keeps all items. -/
theorem length_of_moveToFront? {α : Type} {items moved : List α} {index : Nat} {a : α}
    (h : moveToFront? items index = some (a, moved)) : moved.length = items.length := by
  unfold moveToFront? at h
  cases hi : items[index]? with
  | none => simp [hi] at h
  | some b =>
    obtain ⟨hlt, -⟩ := List.getElem?_eq_some_iff.1 hi
    simp only [hi, Option.bind_eq_bind, Option.bind_some, Option.pure_def, Option.some.injEq,
      Prod.mk.injEq] at h
    rw [← h.2, List.length_cons, List.length_eraseIdx_of_lt hlt]
    omega

end Bytecode.Archive.Recent
