import Bytecode.Bytes

/-!
# Filters

Data can be changed before it is packed, so that it has more repetitions. A filter of differences
replaces octets by what they differ from earlier ones. A filter of branches replaces the distances
in the branch instructions of a machine by the positions to which they lead. Here both are taken
back.
-/

namespace Bytecode.Archive.Xz

/-- The machines whose branches are known. -/
inductive Machine where
  | x86
  | powerPc
  | itanium
  | arm
  | thumb
  | sparc
  | arm64
  deriving DecidableEq, Repr

namespace Machine

/-! ## Words of 32 bits -/

/-- Replaces words by what they become at their positions. -/
def mapWords (isBig : Bool) (become : UInt32 → UInt32 → UInt32) (position : UInt32)
    (done : Array UInt8) : Bytes → Array UInt8
  | a :: b :: c :: d :: rest =>
    let order (octets : Bytes) : Bytes := if isBig then octets else octets.reverse
    let word := become position (UInt32.ofNat (Bytes.toNat (order [a, b, c, d])))
    mapWords isBig become (position + 4) (done ++ (order (Bytes.ofNat 4 word.toNat)).toArray) rest
  | rest => done ++ rest.toArray

/-- A call in PowerPC code. -/
def powerPcWord (position word : UInt32) : UInt32 :=
  if word &&& 0xfc000003 = 0x48000001 then
    0x48000001 ||| (((word &&& 0x03fffffc) - position) &&& 0x03fffffc)
  else word

/-- A call in ARM code, whose distance counts from two instructions on. -/
def armWord (position word : UInt32) : UInt32 :=
  if word >>> 24 = 0xeb then
    let distance : UInt32 := (word &&& 0xffffff) <<< 2
    let target : UInt32 := (distance - (position + 8)) >>> 2
    0xeb000000 ||| (target &&& 0xffffff)
  else word

/-- A call in SPARC code. -/
def sparcWord (position word : UInt32) : UInt32 :=
  if word >>> 22 = 0x100 ∨ word >>> 22 = 0x1ff then
    let distance : UInt32 := word <<< 2
    let target : UInt32 := (distance - position) >>> 2
    let sign : UInt32 := if target &&& 0x400000 = 0 then 0 else 0x3fc00000
    sign ||| (target &&& 0x3fffff) ||| 0x40000000
  else word

/-- A call in ARM64 code, or the address of a page. -/
def arm64Word (position word : UInt32) : UInt32 :=
  let instructions : UInt32 := position >>> 2
  let pages : UInt32 := position >>> 12
  if word >>> 26 = 0x25 then 0x94000000 ||| ((word - instructions) &&& 0x03ffffff)
  else if word &&& 0x9f000000 = 0x90000000 then
    let low : UInt32 := (word &&& 0x60000000) >>> 29
    let high : UInt32 := (word &&& 0xffffe0) >>> 3
    let page := low ||| high
    if (page + 0x20000) &&& 0x1c0000 ≠ 0 then word
    else
      let page := page - pages
      let low : UInt32 := (page &&& 3) <<< 29
      let high : UInt32 := (page &&& 0x3fffc) <<< 3
      let sign : UInt32 := if page &&& 0x20000 = 0 then 0 else 0xe00000
      (word &&& 0x9000001f) ||| low ||| high ||| sign
  else word

/-! ## Pairs of half words -/

/-- Replaces the calls in Thumb code. -/
def thumbCalls (position : UInt32) (done : Array UInt8) : Bytes → Array UInt8
  | a :: b :: c :: d :: rest =>
    if b &&& 0xf8 = 0xf0 ∧ d &&& 0xf8 = 0xf8 then
      let high := (b.toUInt32 &&& 7) <<< 19 ||| a.toUInt32 <<< 11
      let low := (d.toUInt32 &&& 7) <<< 8 ||| c.toUInt32
      let distance : UInt32 := (high ||| low) <<< 1
      let target : UInt32 := (distance - (position + 4)) >>> 1
      let octet (width : UInt32) : UInt8 := (target >>> width).toUInt8
      thumbCalls (position + 4)
        (done ++ #[octet 11, 0xf0 ||| (octet 19 &&& 7), octet 0, 0xf8 ||| (octet 8 &&& 7)]) rest
    else thumbCalls (position + 2) (done ++ #[a, b]) (c :: d :: rest)
  | rest => done ++ rest.toArray
termination_by octets => octets.length

/-! ## Bundles of three instructions -/

/-- Which instructions of a bundle can be branches, by the kind of the bundle. -/
def branchSlots : Array Nat :=
  #[0, 0, 0, 0, 0, 0, 0, 0, 0, 0, 0, 0, 0, 0, 0, 0, 4, 4, 6, 6, 0, 0, 7, 7, 4, 4, 0, 0, 4, 4, 0, 0]

/-- An instruction of 41 bits in Itanium code. -/
def itaniumInstruction (position : UInt32) (instruction : Nat) : Nat :=
  if instruction / Nat.pow 2 37 % 16 ≠ 5 ∨ instruction / Nat.pow 2 9 % 8 ≠ 0 then instruction
  else
    let low := instruction / Nat.pow 2 13 % Nat.pow 2 20
    let high := instruction / Nat.pow 2 36 % 2
    let distance : UInt32 := UInt32.ofNat (high * Nat.pow 2 20 + low) <<< 4
    let target : UInt32 := (distance - position) >>> 4
    let kept := instruction - high * Nat.pow 2 36 - low * Nat.pow 2 13
    let low := target.toNat % Nat.pow 2 20
    let high := target.toNat / Nat.pow 2 20 % 2
    kept + high * Nat.pow 2 36 + low * Nat.pow 2 13

/-- Replaces the branches in a bundle. -/
def itaniumBundle (position : UInt32) (bundle : Nat) : Nat :=
  let step (bundle slot : Nat) : Nat :=
    let place := Nat.pow 2 (5 + 41 * slot)
    let instruction := bundle / place % Nat.pow 2 41
    if (branchSlots.getD (bundle % 32) 0).testBit slot then
      bundle - instruction * place + itaniumInstruction position instruction * place
    else bundle
  (List.range 3).foldl step bundle

/-- Replaces the branches in Itanium code. -/
def itaniumBranches (position : UInt32) (done : Array UInt8) (data : Bytes) : Array UInt8 :=
  let octets := data.take 16
  if _ : octets.length = 16 then
    let bundle := itaniumBundle position (Bytes.toNat octets.reverse)
    itaniumBranches (position + 16) (done ++ (Bytes.ofNat 16 bundle).reverse.toArray) (data.drop 16)
  else done ++ data.toArray
termination_by data.length
decreasing_by
  rename_i h
  simp only [octets, List.length_take, List.length_drop] at h ⊢
  omega

/-! ## Instructions at all positions -/

/-- Whether an octet can be the highest one of a distance. -/
def isSign (b : UInt8) : Bool :=
  b == 0 || b == 0xff

/-- Where the last of the octets is that may belong to another instruction, by which of the octets
in front began one. -/
def lastDoubtful : Array Nat :=
  #[0, 1, 2, 2, 3, 3, 3, 3]

/-- Which doubts an instruction can begin with. -/
def allowedDoubts : List Nat :=
  [0, 1, 2, 4]

/-- The distance that a target stands for, given the position behind the instruction. Targets of
which an octet would look like the highest one have been changed once more. -/
def x86Distance (position : UInt32) (doubts : Nat) (target : UInt32) : Nat → UInt32
  | 0 => target - position
  | most + 1 =>
    let distance := target - position
    let index := 8 * UInt32.ofNat (lastDoubtful.getD doubts 0)
    if doubts = 0 ∨ !isSign (distance >>> (24 - index)).toUInt8 then distance
    else x86Distance position doubts (distance ^^^ ((1 <<< (32 - index)) - 1)) most

/-- Replaces the calls and jumps in x86 code from an index on. `since` tells how far the last octet
is away that looks like an instruction, and `doubts` which of the octets in front do. -/
def x86Calls (start : UInt32) (data : Array UInt8) (i since doubts : Nat) : Nat → Array UInt8
  | 0 => data
  | most + 1 =>
    let octet (j : Nat) : UInt8 := data.getD j 0
    if data.size < i + 5 then data
    else if octet i &&& 0xfe ≠ 0xe8 then x86Calls start data (i + 1) (since + 1) doubts most
    else
      let doubts := if 3 < since then 0 else doubts * Nat.pow 2 (since - 1) % 8
      let isDoubtful := !allowedDoubts.contains doubts ||
        doubts ≠ 0 && isSign (octet (i + 4 - lastDoubtful.getD doubts 0))
      if isDoubtful || !isSign (octet (i + 4)) then
        x86Calls start data (i + 1) 1 (2 * doubts + 1) most
      else
        let target := UInt32.ofNat
          (Bytes.toNat [octet (i + 4), octet (i + 3), octet (i + 2), octet (i + 1)])
        let distance := x86Distance (start + UInt32.ofNat (i + 5)) doubts target 32
        let sign : UInt8 := if distance &&& 0x1000000 = 0 then 0 else 0xff
        let octets := [distance.toUInt8, (distance >>> 8).toUInt8, (distance >>> 16).toUInt8, sign]
        let put (data : Array UInt8) (entry : UInt8 × Nat) : Array UInt8 :=
          data.setIfInBounds (i + 1 + entry.2) entry.1
        x86Calls start (octets.zipIdx.foldl put data) (i + 5) 5 doubts most

/-- Replaces the positions in the branches of code that begins at a position. -/
def decode (m : Machine) (start : UInt32) (data : Bytes) : Bytes :=
  Array.toList <| match m with
    | .x86 => x86Calls start data.toArray 0 1 0 data.length
    | .powerPc => mapWords true powerPcWord start #[] data
    | .itanium => itaniumBranches start #[] data
    | .arm => mapWords false armWord start #[] data
    | .thumb => thumbCalls start #[] data
    | .sparc => mapWords true sparcWord start #[] data
    | .arm64 => mapWords false arm64Word start #[] data

end Machine

/-- The filters. -/
inductive Filter where
  | differences (distance : Nat)
  | branches (machine : Machine) (start : UInt32)
  deriving DecidableEq, Repr

namespace Filter

/-- The machine of a filter with a number. -/
def machine? : Nat → Option Machine
  | 4 => some .x86
  | 5 => some .powerPc
  | 6 => some .itanium
  | 7 => some .arm
  | 8 => some .thumb
  | 9 => some .sparc
  | 10 => some .arm64
  | _ => none

/-- The octets that have given differences from those at a distance. -/
def sums (distance : Nat) (data : Bytes) : Bytes :=
  let step (done : Array UInt8) (b : UInt8) : Array UInt8 :=
    done.push (b + if distance ≤ done.size then done.getD (done.size - distance) 0 else 0)
  (data.foldl step #[]).toList

/-- The data before a filter has been applied. -/
def decode (f : Filter) (data : Bytes) : Bytes :=
  match f with
  | differences distance => sums distance data
  | branches machine start => machine.decode start data

end Filter

end Bytecode.Archive.Xz
