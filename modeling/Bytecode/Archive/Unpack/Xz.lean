import Bytecode.Archive.Checksum
import Bytecode.Archive.Unpack.Lzma
import Bytecode.Archive.Unpack.Xz.Filter
import Bytecode.Bytes

/-!
# Data in xz form

The data is cut into blocks, which hold chunks in LZMA form. A header tells the kind of check that
every block ends with; behind the blocks stand an index that counts them, and a footer that repeats
the header. Headers, index and footer have checksums of their own.
-/

namespace Bytecode.Archive.Xz

/-! ## Digests of blocks

A digest of 256 bits. The octets are filled up with a mark, zeros and their number, and cut into
groups of 16 words; each group is stretched to 64 words, and each of these goes into the eight words
of the digest.
-/

/-- Words that differ from round to round: the fractions of the cube roots of the first primes. -/
def roundWords : Array UInt32 :=
  #[0x428a2f98, 0x71374491, 0xb5c0fbcf, 0xe9b5dba5, 0x3956c25b, 0x59f111f1, 0x923f82a4, 0xab1c5ed5,
    0xd807aa98, 0x12835b01, 0x243185be, 0x550c7dc3, 0x72be5d74, 0x80deb1fe, 0x9bdc06a7, 0xc19bf174,
    0xe49b69c1, 0xefbe4786, 0x0fc19dc6, 0x240ca1cc, 0x2de92c6f, 0x4a7484aa, 0x5cb0a9dc, 0x76f988da,
    0x983e5152, 0xa831c66d, 0xb00327c8, 0xbf597fc7, 0xc6e00bf3, 0xd5a79147, 0x06ca6351, 0x14292967,
    0x27b70a85, 0x2e1b2138, 0x4d2c6dfc, 0x53380d13, 0x650a7354, 0x766a0abb, 0x81c2c92e, 0x92722c85,
    0xa2bfe8a1, 0xa81a664b, 0xc24b8b70, 0xc76c51a3, 0xd192e819, 0xd6990624, 0xf40e3585, 0x106aa070,
    0x19a4c116, 0x1e376c08, 0x2748774c, 0x34b0bcb5, 0x391c0cb3, 0x4ed8aa4a, 0x5b9cca4f, 0x682e6ff3,
    0x748f82ee, 0x78a5636f, 0x84c87814, 0x8cc70208, 0x90befffa, 0xa4506ceb, 0xbef9a3f7, 0xc67178f2]

/-- The words of a digest. -/
structure Digest where
  a : UInt32
  b : UInt32
  c : UInt32
  d : UInt32
  e : UInt32
  f : UInt32
  g : UInt32
  h : UInt32
  deriving DecidableEq, Repr

namespace Digest

/-- The digest before all octets: the fractions of the square roots of the first primes. -/
def first : Digest :=
  ⟨0x6a09e667, 0xbb67ae85, 0x3c6ef372, 0xa54ff53a, 0x510e527f, 0x9b05688c, 0x1f83d9ab, 0x5be0cd19⟩

/-- Moves all bits down, and those that leave the word to its upper end. -/
def turn (x : UInt32) (count : UInt32) : UInt32 :=
  x >>> count ||| x <<< (32 - count)

/-- The digest after one more round with a word. -/
def round (s : Digest) (x : UInt32) : Digest :=
  let choice := (s.e &&& s.f) ^^^ (~~~ s.e &&& s.g)
  let most := (s.a &&& s.b) ^^^ (s.a &&& s.c) ^^^ (s.b &&& s.c)
  let low := s.h + (turn s.e 6 ^^^ turn s.e 11 ^^^ turn s.e 25) + choice + x
  let high := (turn s.a 2 ^^^ turn s.a 13 ^^^ turn s.a 22) + most
  ⟨low + high, s.a, s.b, s.c, s.d + low, s.e, s.f, s.g⟩

/-- Stretches a group by a word. -/
def stretch (group : Array UInt32) : Array UInt32 :=
  let back (count : Nat) : UInt32 := group.getD (group.size - count) 0
  let x := back 15
  let y := back 2
  group.push (back 16 + (turn x 7 ^^^ turn x 18 ^^^ (x >>> 3)) + back 7 +
    (turn y 17 ^^^ turn y 19 ^^^ (y >>> 10)))

/-- The digest after one more group. -/
def next (s : Digest) (group : Array UInt32) : Digest :=
  let group := Nat.repeat stretch 48 group
  let t := (group.zipWith (· + ·) roundWords).foldl round s
  ⟨s.a + t.a, s.b + t.b, s.c + t.c, s.d + t.d, s.e + t.e, s.f + t.f, s.g + t.g, s.h + t.h⟩

/-- The words of octets, the most significant one first. -/
def words : Bytes → List UInt32
  | a :: b :: c :: d :: rest => UInt32.ofNat (Bytes.toNat [a, b, c, d]) :: words rest
  | _ => []

/-- The octets, filled up to whole groups. -/
def filled (data : Bytes) : Bytes :=
  data ++ 0x80 :: List.replicate ((119 - data.length % 64) % 64) 0 ++
    Bytes.ofNat 8 (8 * data.length)

/-- Takes all groups of octets into a digest. -/
def all (s : Digest) (data : Bytes) : Digest :=
  let group := data.take 64
  if _ : group.length = 64 then (s.next (words group).toArray).all (data.drop 64) else s
termination_by data.length
decreasing_by
  rename_i h
  simp only [group, List.length_take, List.length_drop] at h ⊢
  omega

/-- The digest of octets. -/
def ofBytes (data : Bytes) : Bytes :=
  let s := first.all (filled data)
  [s.a, s.b, s.c, s.d, s.e, s.f, s.g, s.h].flatMap fun x => Bytes.ofNat 4 x.toNat

end Digest

/-! ## The file -/

open Unpack

/-- The text in front. -/
def mark : Bytes := [0xfd, 0x37, 0x7a, 0x58, 0x5a, 0]

/-- The text at the end. -/
def endMark : Bytes := [0x59, 0x5a]

/-- The kinds of checks at the end of a block. -/
inductive Check where
  | none
  | short
  | long
  | digest
  deriving DecidableEq, Repr

namespace Check

/-- The kind of check with a number. -/
def ofNumber? : Nat → Option Check
  | 0 => some .none
  | 1 => some .short
  | 4 => some .long
  | 10 => some .digest
  | _ => Option.none

/-- Takes the check of some data. -/
def verify (c : Check) (data : Bytes) : Unpack Unit :=
  match c with
  | .none => return ()
  | .short => do require ((← little 4) = (checksum data).toNat)
  | .long => do require ((← little 8) = (longChecksum data).toNat)
  | .digest => do require ((← octets 32) = Digest.ofBytes data)

end Check

/-- Takes the checksum of some data. -/
def verifyChecksum (data : Bytes) : Unpack Unit :=
  Check.short.verify data

/-- Takes a number in groups of seven bits, the lowest group first. All but the last group are
marked. -/
def number : Nat → Unpack Nat
  | 0 => throw .corrupt
  | most + 1 => do
    let b := (← octet).toNat
    if b < 128 then return b
    return b - 128 + 128 * (← number most)

/-- Takes a number, which has at most nine groups. -/
def groupedNumber : Unpack Nat :=
  number 9

/-- Does some work, and returns the octets that it has taken as well. -/
def taken {α : Type} (work : Unpack α) : Unpack (α × Bytes) := do
  let before := (← get).rest
  let a ← work
  return (a, before.take (before.length - (← get).rest.length))

/-- Takes zeros that make a number of octets a multiple of four. -/
def padding (length : Nat) : Unpack Unit := do
  require ((← octets ((4 - length % 4) % 4)).all (· == 0))

/-- The number of the form in which blocks are packed. -/
def chunksFilter : Nat := 0x21

/-- How far back references can reach, given the number that tells it. -/
def reach? (n : Nat) : Option Nat :=
  if n < 40 then some ((2 + n % 2) * Nat.pow 2 (n / 2 + 11))
  else if n = 40 then some 0xffffffff
  else none

/-- Takes a filter. -/
def filter : Unpack Filter := do
  let number ← groupedNumber
  let size ← groupedNumber
  if number = 3 then
    require (size = 1)
    return .differences ((← octet).toNat + 1)
  let machine ← required (Filter.machine? number)
  require (size = 0 || size = 4)
  return .branches machine (UInt32.ofNat (← little size))

/-- Takes what a header of a block says, and returns the filters and how far back references reach.
The sizes that it can tell say nothing new. -/
def blockSettings : Unpack (List Filter × Nat) := do
  let flags := (← octet).toNat
  if flags.testBit 6 then discard groupedNumber
  if flags.testBit 7 then discard groupedNumber
  let filters ← times filter (flags % 4)
  require ((← groupedNumber) = chunksFilter)
  require ((← groupedNumber) = 1)
  return (filters, ← required (reach? (← octet).toNat))

/-- Takes the rest of the header of a block that begins with its size. -/
def blockHeader (size : UInt8) : Unpack (List Filter × Nat) := do
  let header ← octets (4 * size.toNat + 3 - 4)
  verifyChecksum (size :: header)
  within header do
    let settings ← blockSettings
    require ((← get).rest.all (· == 0))
    return settings

/-- Takes the filters of what has been written from an octet on back, the last filter first. -/
def unfilter (start : Nat) (filters : List Filter) : Unpack Unit :=
  modify fun s =>
    let data := filters.foldr Filter.decode (s.written.toList.drop start)
    { s with written := s.written.extract 0 start ++ data.toArray }

/-- Takes the rest of a block whose header begins with a size. -/
def block (check : Check) (size : UInt8) : Unpack Unit := do
  let (filters, reach) ← blockHeader size
  let start := (← get).written.size
  let ((), packed) ← taken do Lzma.chunks { reach } ((← get).rest.length + 1)
  padding packed.length
  unfilter start filters
  check.verify ((← get).written.toList.drop start)

/-- Takes the rest of the index of so many blocks. -/
def index (blocks : Nat) : Unpack Unit := do
  let ((), records) ← taken do
    require ((← groupedNumber) = blocks)
    for _ in List.range blocks do
      require ((← groupedNumber) ≠ 0)
      discard groupedNumber
  let ((), zeros) ← taken (padding (records.length + 1))
  verifyChecksum (0 :: records ++ zeros)

/-- Takes blocks and the index. `count` blocks are in front, and no more come than octets. -/
def blocks (check : Check) (count : Nat) : Nat → Unpack Unit
  | 0 => throw .ended
  | most + 1 => do
    let size ← octet
    if size = 0 then index count
    else
      block check size
      blocks check (count + 1) most

/-- Takes all data. -/
def stream : Unpack Unit := do
  require ((← octets 6) = mark)
  let flags ← octets 2
  verifyChecksum flags
  let check ← required do
    let [0, n] := flags | none
    Check.ofNumber? n.toNat
  blocks check 0 ((← get).rest.length + 1)
  let expected ← little 4
  let footer ← octets 6
  require (expected = (checksum footer).toNat)
  require (footer.drop 4 = flags)
  require ((← octets 2) = endMark)

/-- The data in a packed form, which other data may follow. -/
def unpack? (packed : Bytes) : Option Bytes :=
  stream.complete? packed

end Bytecode.Archive.Xz
