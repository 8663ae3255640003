import Bytecode.Archive.Unpack

/-!
# Data in LZMA form

The data consists of octets and of references to octets that have been written before, all of them
range coded. A reference tells a length and a distance, or uses one of the last four distances
again. The contexts of bits depend on the kinds of the last symbols, on the position, and on what
has been written.
-/

/-! ## Range coded data

A bit is told by the part of a range that a number falls into. The range is cut in proportion to the
chance that the bit is zero. Every bit has a context, and the chance is what has been seen of
earlier bits of this context. As the range becomes narrow, the number takes up more octets of the
data.

Beyond the end of the data all octets are 1.
-/

namespace Bytecode.Archive

/-- A reader of range coded data: the octets that are left, the range, the number in it, and the
chances of a zero in every context, in parts of 2048. -/
structure RangeCoder where
  rest : Bytes
  range : UInt32 := 0xffffffff
  code : UInt32
  chances : Array UInt16
  overran : Bool := false
  deriving Repr

/-- Work on range coded data. -/
abbrev RangeCoded := StateT RangeCoder Unpack

namespace RangeCoder

/-- The chances in a number of contexts of which nothing has been seen. -/
def evenChances (count : Nat) : Array UInt16 :=
  Array.replicate count 1024

/-- A reader of data, given the chances. The data starts with a zero and with the number. -/
def ofData? (data : Bytes) (chances : Array UInt16) : Option RangeCoder :=
  match data with
  | 0 :: a :: b :: c :: d :: rest =>
    some { rest, code := UInt32.ofNat (Bytes.toNat [a, b, c, d]), chances }
  | _ => none

/-- Whether the data has come to its end, and nothing is left in the range. -/
def isFinished (s : RangeCoder) : Bool :=
  s.rest.isEmpty && !s.overran && s.code == 0

/-- Takes an octet into the range if that has become narrow. -/
def widen : RangeCoded Unit :=
  modify fun s =>
    if s.range < 0x1000000 then
      match s.rest with
      | b :: rest =>
        { s with rest, range := s.range <<< 8, code := s.code <<< 8 ||| b.toUInt32 }
      | [] => { s with range := s.range <<< 8, code := s.code <<< 8 ||| 1, overran := true }
    else s

/-- The reader after the part of a range has been found in which the number is, which a zero has
below a bound. -/
def decided (s : RangeCoder) (context : Nat) (chance : UInt16) (bound : UInt32) :
    Nat × RangeCoder :=
  if s.code < bound then
    (0, { s with
      range := bound
      chances := s.chances.setIfInBounds context (chance + ((2048 - chance) >>> 5)) })
  else
    (1, { s with
      range := s.range - bound
      code := s.code - bound
      chances := s.chances.setIfInBounds context (chance - (chance >>> 5)) })

/-- Takes a bit in a context. -/
def bit (context : Nat) : RangeCoded Nat := do
  widen
  modifyGet fun (s : RangeCoder) =>
    let chance := s.chances.getD context 0
    s.decided context chance ((s.range >>> 11) * chance.toUInt32)

/-- Takes a bit whose values are equally likely. -/
def evenBit : RangeCoded Nat := do
  widen
  modifyGet fun (s : RangeCoder) =>
    let half := s.range >>> 1
    if s.code < half then (0, { s with range := half })
    else (1, { s with range := half, code := s.code - half })

/-- Takes a number of bits whose values are equally likely, the most significant one first. -/
def evenBits (n : Nat) : Nat → RangeCoded Nat
  | 0 => return n
  | width + 1 => do evenBits (2 * n + (← evenBit)) width

/-- Takes bits whose contexts, from a first one on, tell which bits were before. They denote a
number behind those in `path`, the most significant one first. -/
def branchFrom (first path : Nat) : Nat → RangeCoded Nat
  | 0 => return path
  | width + 1 => do branchFrom first (2 * path + (← bit (first + path))) width

/-- Takes a number of so many bits, the most significant one first. -/
def branch (first width : Nat) : RangeCoded Nat :=
  return (← branchFrom first 1 width) - Nat.pow 2 width

/-- Takes a number of so many bits, the least significant one first. -/
def lowBranch (first path : Nat) : Nat → RangeCoded Nat
  | 0 => return 0
  | width + 1 => do
    let low ← bit (first + path)
    return low + 2 * (← lowBranch first (2 * path + low) width)

end RangeCoder

end Bytecode.Archive

/-! ## Settings -/

namespace Bytecode.Archive.Lzma

open Unpack RangeCoder

/-- How contexts are chosen: how many bits of the octet before count for an octet, how many bits of
the position count for an octet, and how many for all else. -/
structure Settings where
  octetBits : Nat
  octetPlaceBits : Nat
  placeBits : Nat
  deriving DecidableEq, Repr

/-- The settings that an octet denotes. -/
def Settings.ofOctet? (b : UInt8) : Option Settings :=
  if b < 225 then some ⟨b.toNat % 9, b.toNat / 9 % 5, b.toNat / 45⟩ else none

/-- What is known of the symbols so far. `phase` tells the kinds of the last ones; octets that have
been written count from `origin` on, and not farther back than `reach`. -/
structure Memory where
  settings : Settings
  origin : Nat
  reach : Nat
  phase : Nat := 0
  distances : List Nat := [1, 1, 1, 1]
  deriving Repr

/-- Work on data in this form. -/
abbrev Work := StateT Memory RangeCoded

/-! ## Contexts

All contexts of one table are next to each other. There are 12 phases and up to 16 places.
-/

/-- Whether a reference comes. -/
def referenceAt (phase place : Nat) : Nat := 16 * phase + place

/-- Whether a reference uses a distance again. -/
def againAt (phase : Nat) : Nat := 192 + phase

/-- Whether the distance is not the last one, not the second last one, not the third last one. -/
def earlierAt (index phase : Nat) : Nat := 204 + 12 * index + phase

/-- Whether a reference with the last distance is longer than one octet. -/
def longAt (phase place : Nat) : Nat := 240 + 16 * phase + place

/-- The class of the distance of a reference of some length. -/
def classAt (length : Nat) : Nat := 432 + 64 * min (length - 2) 3

/-- The lower bits of a distance of a class. -/
def lowerAt (distanceClass : Nat) : Nat := 688 + 32 * (distanceClass - 4)

/-- The lowest bits of a great distance. -/
def lowestAt : Nat := 1008

/-- The length of a reference with a distance of its own. -/
def newLengthAt : Nat := 1024

/-- The length of a reference that uses a distance again. -/
def againLengthAt : Nat := 1538

/-- An octet. -/
def octetAt : Nat := 2052

/-- How many contexts there are for an octet. -/
def octetContexts : Nat := 768

/-- How many contexts there are under some settings. -/
def Settings.contexts (s : Settings) : Nat :=
  octetAt + octetContexts * Nat.pow 2 (s.octetBits + s.octetPlaceBits)

/-! ## Symbols -/

/-- How many octets that have been written count. -/
def position : Work Nat :=
  return (← getThe Unpacking).written.size - (← get).origin

/-- Goes on to a phase. -/
def enter (phase : Nat → Nat) : Work Unit :=
  modify fun m => { m with phase := phase m.phase }

/-- Takes an octet that comes instead of a known one, whose bits choose the contexts as long as they
are the same. -/
def unlike (first known : Nat) (isSame : Bool) (path : Nat) : Nat → RangeCoded Nat
  | 0 => return path
  | width + 1 => do
    let expected := known / Nat.pow 2 width % 2
    let context := if isSame then 256 * (1 + expected) + path else path
    let b ← bit (first + context)
    unlike first known (isSame && b == expected) (2 * path + b) width

/-- Takes an octet. -/
def octet : Work Unit := do
  let m ← get
  let position ← position
  let before ← if position = 0 then pure 0 else writtenAt 1
  let choice := position % Nat.pow 2 m.settings.octetPlaceBits * Nat.pow 2 m.settings.octetBits +
    before.toNat / Nat.pow 2 (8 - m.settings.octetBits)
  let first := octetAt + octetContexts * choice
  let b ←
    if m.phase < 7 then branchFrom first 1 8
    else do
      let known ← writtenAt (m.distances.headD 1)
      unlike first known.toNat true 1 8
  write (UInt8.ofNat b)
  enter fun phase => if phase < 4 then 0 else if phase < 10 then phase - 3 else phase - 6

/-- Takes a length. -/
def length (first place : Nat) : Work Nat := do
  if (← bit first) = 0 then return 2 + (← branch (first + 2 + 8 * place) 3)
  if (← bit (first + 1)) = 0 then return 10 + (← branch (first + 130 + 8 * place) 3)
  return 18 + (← branch (first + 258) 8)

/-- Takes a distance, given the length. The class tells the two highest bits and how many follow. -/
def distance (length : Nat) : Work Nat := do
  let distanceClass ← branch (classAt length) 6
  if distanceClass < 4 then return distanceClass + 1
  let width := distanceClass / 2 - 1
  let high := (2 + distanceClass % 2) * Nat.pow 2 width
  if distanceClass < 14 then
    return high + (← lowBranch (lowerAt distanceClass) 1 width) + 1
  let middle ← evenBits 0 (width - 4)
  return high + 16 * middle + (← lowBranch lowestAt 1 4) + 1

/-- Writes what a reference means. -/
def refer (distance length : Nat) : Work Unit := do
  require (decide (distance ≤ (← position)) && decide (distance ≤ (← get).reach))
  repeatWritten distance length

/-- Takes the length of a reference that uses a distance again. -/
def again (index place : Nat) : Work Unit := do
  let (distance, distances) ← required (Recent.moveToFront? (← get).distances index)
  let length ← length againLengthAt place
  modify fun m => { m with distances }
  enter fun phase => if phase < 7 then 8 else 11
  refer distance length

/-- Takes a symbol. -/
def symbol : Work Unit := do
  let m ← get
  let phase := m.phase
  let place := (← position) % Nat.pow 2 m.settings.placeBits
  if (← bit (referenceAt phase place)) = 0 then octet
  else if (← bit (againAt phase)) = 0 then
    let length ← length newLengthAt place
    let distance ← distance length
    modify fun m => { m with distances := distance :: m.distances.take 3 }
    enter fun phase => if phase < 7 then 7 else 10
    refer distance length
  else if (← bit (earlierAt 0 phase)) = 0 then
    if (← bit (longAt phase place)) = 0 then
      enter fun phase => if phase < 7 then 9 else 11
      refer (m.distances.headD 1) 1
    else again 0 place
  else if (← bit (earlierAt 1 phase)) = 0 then again 1 place
  else again (2 + (← bit (earlierAt 2 phase))) place

/-- Takes symbols until so many octets have been written. Every symbol writes some. -/
def symbols (size : Nat) : Nat → Work Unit
  | 0 => return ()
  | most + 1 => do
    if size ≤ (← getThe Unpacking).written.size then return ()
    symbol
    symbols size most

/-- Takes the symbols of exactly so many octets. -/
def text (size : Nat) : Work Unit := do
  let size := (← getThe Unpacking).written.size + size
  symbols size size
  widen
  require ((← getThe Unpacking).written.size = size)

/-- How far back references can reach that are declared to reach so far, in data that has so many
octets. -/
def reach (declared size : Nat) : Nat :=
  (max 4096 (min declared size) + 15) / 16 * 16

/-- The size of the settings in front of data. -/
def settingsSize : Nat := 5

/-- References cannot be declared to reach farther. -/
def farthest : Nat := 0xfffffff0

/-- Takes data of so many octets. A version stands in front, which says nothing. -/
def stream (size : Nat) : Unpack Unit := do
  let _ ← octets 2
  require ((← little 2) = settingsSize)
  let settings ← required (Settings.ofOctet? (← Unpack.octet))
  let declared ← little 4
  require (declared ≤ farthest)
  let coder ← required (RangeCoder.ofData? (← get).rest (evenChances settings.contexts))
  let memory : Memory := { settings, origin := 0, reach := reach declared size }
  let _ ← ((text size).run memory).run coder

/-- The data in a packed form, given its size. -/
def unpack? (size : Nat) (packed : Bytes) : Option Bytes :=
  (stream size).complete? packed

/-! ## Chunks of LZMA data

Data in LZMA form can be cut into chunks, between which the settings can change and all that is
known can be forgotten. Other chunks hold their octets as they are. A zero stands behind the last
chunk.
-/

/-- What goes over from one chunk to the next: where the octets begin to which references can reach,
once a chunk has said so, and what is known of the symbols, once settings have been given. -/
structure Progress where
  reach : Nat
  origin : Option Nat := none
  known : Option (Memory × Array UInt16) := none

namespace Progress

/-- Begins anew, with a memory of nothing. -/
def renew (p : Progress) (origin : Nat) (settings : Settings) : Progress :=
  { p with known := some (⟨settings, origin, p.reach, 0, [1, 1, 1, 1]⟩,
      evenChances settings.contexts) }

end Progress

/-- Takes a chunk of symbols that has so many octets, and `packed` octets in this form. -/
def symbolChunk (p : Progress) (size packed : Nat) : Unpack Progress := do
  let (memory, chances) ← required p.known
  let coder ← required (RangeCoder.ofData? (← octets packed) chances)
  let ((_, memory), coder) ← ((text size).run memory).run coder
  require coder.isFinished
  return { p with known := some (memory, coder.chances) }

/-- Takes a chunk after the octet that tells its kind. The first chunk has to forget what has been
written, and the first one with symbols behind such a chunk has to give settings. -/
def chunk (p : Progress) (kind : Nat) : Unpack Progress := do
  let p ←
    if 0xe0 ≤ kind ∨ kind = 1 then
      pure { p with origin := some (← get).written.size, known := none }
    else pure p
  let origin ← required p.origin
  if kind < 0x80 then
    require (kind ≤ 2)
    writeAll (← octets ((← big 2) + 1))
    return p
  let size := kind % 0x20 * 0x10000 + (← big 2) + 1
  let packed := (← big 2) + 1
  if 0xc0 ≤ kind then
    let settings ← required (Settings.ofOctet? (← Unpack.octet))
    require (settings.octetBits + settings.octetPlaceBits ≤ 4)
    symbolChunk (p.renew origin settings) size packed
  else if 0xa0 ≤ kind then
    let (memory, _) ← required p.known
    symbolChunk (p.renew origin memory.settings) size packed
  else symbolChunk p size packed

/-- Takes all chunks, of which there are no more than octets. -/
def chunks (p : Progress) : Nat → Unpack Unit
  | 0 => throw .ended
  | most + 1 => do
    let kind := (← Unpack.octet).toNat
    if kind = 0 then return ()
    chunks (← chunk p kind) most

end Bytecode.Archive.Lzma
