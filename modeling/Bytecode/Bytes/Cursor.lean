import Bytecode.Bytes
import Bytecode.Failure

/-!
# Reading at a position

A `Cursor` is a position in the contents of a file together with the contents from there on, kept
in step by its invariant. Reading beyond the end fails and leaves nothing read. `Reader` is the type
of parsers.
-/

namespace Bytecode

/-- A position in some contents. -/
structure Cursor where
  data : Bytes
  position : Nat := 0
  rest : Bytes := data
  rest_eq : rest = data.drop position := by simp
  position_le : position ≤ data.length := by simp

/-- Parsers of contents. -/
abbrev Reader := StateT Cursor (Except Failure)

namespace Cursor

/-- The start of some contents. -/
def ofBytes (data : Bytes) : Cursor :=
  { data }

theorem length_rest (c : Cursor) : c.rest.length = c.data.length - c.position := by
  rw [c.rest_eq, List.length_drop]

/-- Whether anything is left to read. -/
def hasMore (c : Cursor) : Bool :=
  !c.rest.isEmpty

/-- Moves to a position, at most behind the last octet. -/
def seek (position : Nat) (c : Cursor) : Except Failure Cursor :=
  if h : position ≤ c.data.length then
    .ok { data := c.data, position, rest := c.data.drop position, rest_eq := rfl, position_le := h }
  else .error .outOfBounds

/-- Moves forward over octets that are there. -/
def skip (c : Cursor) (count : Nat) (h : (c.rest.take count).length = count) : Cursor where
  data := c.data
  position := c.position + count
  rest := c.rest.drop count
  rest_eq := by rw [c.rest_eq, List.drop_drop]
  position_le := by
    have := c.length_rest
    have := c.position_le
    rw [List.length_take] at h
    omega

end Cursor

namespace Reader

/-- The position of the cursor. -/
def position : Reader Nat :=
  return (← get).position

/-- Moves the cursor to a position, at most behind the last octet. -/
def seek (target : Nat) : Reader Unit := do
  set (← (← get).seek target)

/-- Moves the cursor forward. -/
def advance (step : Nat) : Reader Unit := fun c =>
  if h : (c.rest.take step).length = step then .ok ((), c.skip step h) else .error .outOfBounds

/-- Moves the cursor to the next multiple of an alignment. -/
def align (alignment : Nat) : Reader Unit := do
  let c ← get
  advance ((alignment - c.position % alignment) % alignment)

/-- The octet at the cursor, which is not moved. -/
def peek : Reader UInt8 := do
  match (← get).rest with
  | [] => throw .outOfBounds
  | b :: _ => return b

/-- Reads a number of octets. -/
def bytes (count : Nat) : Reader Bytes := fun c =>
  if h : (c.rest.take count).length = count then .ok (c.rest.take count, c.skip count h)
  else .error .outOfBounds

/-- Reads a big-endian word. -/
def word (α : Type) [Word α] : Reader α :=
  return Word.decode (← bytes (Word.width α))

/-- Reads one octet. -/
def u8 : Reader UInt8 := word UInt8

/-- Reads a 16 bit number. -/
def u16 : Reader UInt16 := word UInt16

/-- Reads a 32 bit number. -/
def u32 : Reader UInt32 := word UInt32

/-- Runs a parser and returns the octets that it has read. -/
def consumed {α : Type} (item : Reader α) : Reader (α × Bytes) := do
  let before ← get
  let value ← item
  return (value, before.rest.take ((← position) - before.position))

/-- Runs a parser a number of times. -/
def replicate {α : Type} (item : Reader α) : Nat → Reader (List α)
  | 0 => return []
  | n + 1 => return (← item) :: (← replicate item n)

/-- Reads a 16 bit count and then so many items. -/
def counted {α : Type} (item : Reader α) : Reader (List α) := do
  replicate item (← u16).toNat

end Reader

/-- Reads a word from the start of some contents. -/
def Bytes.readWord (α : Type) [Word α] (data : Bytes) : Except Failure α :=
  Prod.fst <$> (Reader.word α).run (Cursor.ofBytes data)

/-- Reads a word at an offset and returns the offset behind it. -/
def Bytes.readWordAt (α : Type) [Word α] (data : Bytes) (offset : Nat) : Except Failure (α × Nat) :=
  let source := (data.drop offset).take (Word.width α)
  if source.length = Word.width α then .ok (Word.decode source, offset + Word.width α)
  else .error .outOfBounds

/-- Overwrites the octets at an offset by a word and returns the offset behind it. -/
def Bytes.writeWordAt {α : Type} [Word α] (data : Bytes) (offset : Nat) (value : α) :
    Except Failure (Bytes × Nat) :=
  let stop := offset + Word.width α
  if stop ≤ data.length then .ok (data.take offset ++ Word.encode value ++ data.drop stop, stop)
  else .error .outOfBounds

end Bytecode
