import Bytecode.Bytes

/-!
# Checksums

The cyclic redundancy check that archives keep for every entry: the remainder of the contents, read
as a polynomial over two elements, modulo a fixed polynomial of degree 32. Bits count from the least
significant one. Packed data also has checksums whose bits count from the most significant one, and
some of degree 64.
-/

namespace Bytecode.Archive

/-- The remainder after one more bit of zero. -/
def shiftRemainder (r : UInt32) : UInt32 :=
  if r &&& 1 = 1 then (r >>> 1) ^^^ 0xedb88320 else r >>> 1

/-- The remainders of all octets. -/
def remainders : Array UInt32 :=
  Array.ofFn fun i : Fin 256 => Nat.repeat shiftRemainder 8 (UInt32.ofNat i.val)

/-- The remainder after one more octet. -/
def nextRemainder (r : UInt32) (b : UInt8) : UInt32 :=
  remainders.getD ((r ^^^ b.toUInt32) &&& 0xff).toNat 0 ^^^ (r >>> 8)

/-- The checksum of some contents. -/
def checksum (data : Bytes) : UInt32 :=
  ~~~ data.foldl nextRemainder 0xffffffff

/-- The remainder after one more bit of zero, where bits count from the most significant one. -/
def shiftHighRemainder (r : UInt32) : UInt32 :=
  if r &&& 0x80000000 = 0 then r <<< 1 else (r <<< 1) ^^^ 0x04c11db7

/-- The remainders of all octets, where bits count from the most significant one. -/
def highRemainders : Array UInt32 :=
  Array.ofFn fun i : Fin 256 => Nat.repeat shiftHighRemainder 8 (UInt32.ofNat i.val <<< 24)

/-- The checksum whose bits count from the most significant one. -/
def highChecksum (data : Bytes) : UInt32 :=
  ~~~ data.foldl (fun r b =>
    highRemainders.getD ((r >>> 24) ^^^ b.toUInt32).toNat 0 ^^^ (r <<< 8)) 0xffffffff

/-- The remainder of degree 64 after one more bit of zero. -/
def shiftLongRemainder (r : UInt64) : UInt64 :=
  if r &&& 1 = 1 then (r >>> 1) ^^^ 0xc96c5795d7870f42 else r >>> 1

/-- The remainders of degree 64 of all octets. -/
def longRemainders : Array UInt64 :=
  Array.ofFn fun i : Fin 256 => Nat.repeat shiftLongRemainder 8 (UInt64.ofNat i.val)

/-- The checksum of degree 64. -/
def longChecksum (data : Bytes) : UInt64 :=
  ~~~ data.foldl (fun r b =>
    longRemainders.getD ((r ^^^ b.toUInt64) &&& 0xff).toNat 0 ^^^ (r >>> 8)) 0xffffffffffffffff

end Bytecode.Archive
