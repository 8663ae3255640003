import Bytecode.Archive.Unpack.Zstandard.Literals
import Bytecode.Archive.Unpack.Zstandard.Sequences
import Bytecode.Bytes

/-!
# Data in Zstandard form

The data is a row of frames, some of which only are to be skipped. A frame consists of blocks. A
block holds its octets as they are, repeats one octet, or has literals and sequences. A frame can
tell the number of its octets, and end with a digest of them.
-/

namespace Bytecode.Archive.Digest

/-! ## Digests of octets

A digest of 64 bits. Octets are taken in stripes of four words, each of which goes into a lane of
its own; the lanes are merged, and the octets that are left go in one by one, as far as they do not
make words.
-/

def prime₁ : UInt64 := 0x9e3779b185ebca87

def prime₂ : UInt64 := 0xc2b2ae3d27d4eb4f

def prime₃ : UInt64 := 0x165667b19e3779f9

def prime₄ : UInt64 := 0x85ebca77c2b2ae63

def prime₅ : UInt64 := 0x27d4eb2f165667c5

/-- Moves all bits up, and those that leave the word to its lower end. -/
def turn (x : UInt64) (count : UInt64) : UInt64 :=
  x <<< count ||| x >>> (64 - count)

/-- The word that octets denote, the least significant one first. -/
def word (data : Bytes) : UInt64 :=
  UInt64.ofNat (Bytes.toNat data.reverse)

/-- A lane after one more word. -/
def mix (lane x : UInt64) : UInt64 :=
  turn (lane + x * prime₂) 31 * prime₁

/-- The lanes. -/
structure Lanes where
  a : UInt64 := prime₁ + prime₂
  b : UInt64 := prime₂
  c : UInt64 := 0
  d : UInt64 := 0 - prime₁
  deriving Repr

namespace Lanes

/-- The lanes after one more stripe. -/
def next (l : Lanes) (stripe : Bytes) : Lanes where
  a := mix l.a (word (stripe.take 8))
  b := mix l.b (word ((stripe.drop 8).take 8))
  c := mix l.c (word ((stripe.drop 16).take 8))
  d := mix l.d (word (stripe.drop 24))

/-- The lanes after all stripes, and the octets that are left. -/
def all (l : Lanes) (data : Bytes) : Lanes × Bytes :=
  let stripe := data.take 32
  if _ : stripe.length = 32 then (l.next stripe).all (data.drop 32) else (l, data)
termination_by data.length
decreasing_by
  rename_i h
  simp only [stripe, List.length_take, List.length_drop] at h ⊢
  omega

/-- The lanes in one word. -/
def merge (l : Lanes) : UInt64 :=
  let whole := turn l.a 1 + turn l.b 7 + turn l.c 12 + turn l.d 18
  [l.a, l.b, l.c, l.d].foldl (fun h lane => (h ^^^ mix 0 lane) * prime₁ + prime₄) whole

end Lanes

/-- Takes words into a digest, then a half word, then octets. -/
def finish (h : UInt64) (data : Bytes) : UInt64 :=
  match data with
  | a :: b :: c :: d :: e :: f :: g :: i :: rest =>
    finish (turn (h ^^^ mix 0 (word [a, b, c, d, e, f, g, i])) 27 * prime₁ + prime₄) rest
  | a :: b :: c :: d :: rest =>
    finish (turn (h ^^^ word [a, b, c, d] * prime₁) 23 * prime₂ + prime₃) rest
  | a :: rest => finish (turn (h ^^^ a.toUInt64 * prime₅) 11 * prime₁) rest
  | [] => h

/-- Spreads every bit of a word. -/
def spread (h : UInt64) : UInt64 :=
  let h := (h ^^^ h >>> 33) * prime₂
  let h := (h ^^^ h >>> 29) * prime₃
  h ^^^ h >>> 32

/-- The digest of octets. -/
def ofBytes (data : Bytes) : UInt64 :=
  let (lanes, rest) := Lanes.all {} data
  let h := if rest.length = data.length then prime₅ else lanes.merge
  spread (finish (h + UInt64.ofNat data.length) rest)

end Bytecode.Archive.Digest

namespace Bytecode.Archive.Zstandard

/-! ## The frames -/

open Unpack

/-- The number in front of a frame. -/
def frameMark : Nat := 0xfd2fb528

/-- The number in front of a frame to be skipped, but for its last four bits. -/
def skippedMark : Nat := 0x184d2a5

/-- Frames that need more room are refused. -/
def widestWindow : Nat := 0x8000001

/-- What the header of a frame says: the room that it needs, how many octets it has, and whether a
digest stands behind them. -/
structure Header where
  window : Nat
  size : Option Nat
  hasDigest : Bool
  deriving DecidableEq, Repr

/-- Takes the room that a frame needs. -/
def window : Unpack Nat := do
  let fraction ← lowBits 3
  let exponent ← lowBits 5
  require (exponent ≤ 21)
  return Nat.pow 2 (10 + exponent) / 8 * (8 + fraction)

/-- Takes the size of a frame in a form, unless there is none. -/
def frameSize (isWhole : Bool) : Nat → Unpack (Option Nat)
  | 0 => if isWhole then some <$> little 1 else return none
  | 1 => return some (256 + (← little 2))
  | 2 => some <$> little 4
  | _ => some <$> little 8

/-- Takes the header of a frame. Frames that need a dictionary are refused. A frame that is whole
needs room for just its octets. -/
def header : Unpack Header := do
  let dictionary ← lowBits 2
  let hasDigest := (← lowBit) == 1
  require ((← lowBit) = 0)
  let _ ← lowBit
  let isWhole := (← lowBit) == 1
  let form ← lowBits 2
  let room ← if isWhole then pure none else some <$> window
  require ((← little (Nat.pow 2 dictionary / 2)) = 0)
  let size ← frameSize isWhole form
  let window := room.getD (size.getD 0)
  require (window ≤ widestWindow)
  return { window, size, hasDigest }

/-- What a block leaves to the next one of its frame: the code of literals and the tables of
sequences, once there were any, and the distances that can be used again. -/
structure Memory where
  code : Option LiteralCode := none
  tables : Option Tables := none
  recent : List Nat := [1, 4, 8]
  deriving Repr

/-- Takes the literals and sequences of a block of a frame that starts at `origin`. -/
def packedBlock (origin longest : Nat) (m : Memory) : Unpack Memory := do
  let limit := (← get).written.size + longest
  let (literals, code) ← literals m.code
  let count ← sequenceCount
  if count = 0 then
    require (← get).rest.isEmpty
    return { m with code, recent := ← execute origin limit m.recent literals [] }
  require ((← lowBits 2) = 0)
  let lengthKind ← lowBits 2
  let distanceKind ← lowBits 2
  let literalKind ← lowBits 2
  let tables : Tables := {
    literals := ← Field.literals.table (m.tables.map (·.literals)) literalKind
    distances := ← Field.distances.table (m.tables.map (·.distances)) distanceKind
    lengths := ← Field.lengths.table (m.tables.map (·.lengths)) lengthKind }
  let sequences ← (sequences tables count).complete (← get).rest
  return { code, tables, recent := ← execute origin limit m.recent literals sequences }

/-- Takes blocks up to the one that is marked as the last. There are no more of them than octets. -/
def blocks (origin longest : Nat) (m : Memory) : Nat → Unpack Unit
  | 0 => throw .ended
  | most + 1 => do
    let n ← little 3
    let size := n / 8
    require (size ≤ longest)
    let m ←
      match n / 2 % 4 with
      | 0 => do
        writeAll (← octets size)
        pure m
      | 1 => do
        writeAll (List.replicate size (← octet))
        pure m
      | 2 => within (← octets size) (packedBlock origin longest m)
      | _ => throw .corrupt
    if n % 2 = 1 then return () else blocks origin longest m most

/-- Takes a frame behind its mark. -/
def frame : Unpack Unit := do
  let header ← header
  let origin := (← get).written.size
  blocks origin (min header.window longestBlock) {} ((← get).rest.length + 1)
  let data := (← get).written.toList.drop origin
  require (header.size.all (· == data.length))
  if header.hasDigest then
    require ((← little 4) = (Digest.ofBytes data).toNat % Nat.pow 2 32)

/-- Takes all frames, at least one. There are no more of them than octets. -/
def frames : Nat → Unpack Unit
  | 0 => throw .ended
  | most + 1 => do
    let mark ← little 4
    if mark / 16 = skippedMark then discard (octets (← little 4))
    else
      require (mark = frameMark)
      frame
    if (← get).rest.isEmpty then return () else frames most

/-- The data in a packed form. -/
def unpack? (packed : Bytes) : Option Bytes :=
  (frames (packed.length + 1)).complete? packed

end Bytecode.Archive.Zstandard
