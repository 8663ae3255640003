import Bytecode.Bytes
import Bytecode.Failure

/-!
# Modified UTF-8

Texts in a constant pool are stored in a variant of UTF-8: characters beyond the basic plane are
written as two surrogates, each by three octets, and the character NUL is written by two octets, so
that no octet is zero.

`utf16` and `ofUtf16` convert between characters and UTF-16 units, `encodeUnit` and `decodeUnits`
between units and octets. Decoding accepts longer forms of a unit than the shortest one.
-/

namespace Bytecode.Text

/-- The UTF-16 units of a character. -/
def unitsOf (c : Char) : List Nat :=
  if c.toNat < 0x10000 then [c.toNat]
  else [0xd800 + (c.toNat - 0x10000) / 0x400, 0xdc00 + (c.toNat - 0x10000) % 0x400]

/-- The UTF-16 units of a text. -/
def utf16 (cs : List Char) : List Nat :=
  cs.flatMap unitsOf

/-- Whether a unit is the first one of a surrogate pair. -/
def isHighSurrogate (u : Nat) : Bool :=
  0xd800 ≤ u && u < 0xdc00

/-- Whether a unit is the second one of a surrogate pair. -/
def isLowSurrogate (u : Nat) : Bool :=
  0xdc00 ≤ u && u < 0xe000

/-- The text of UTF-16 units, unless a surrogate stands alone. -/
def ofUtf16 : List Nat → Option (List Char)
  | [] => some []
  | [u] => if isHighSurrogate u || isLowSurrogate u then none else some [Char.ofNat u]
  | u :: v :: rest =>
    if isHighSurrogate u then
      if isLowSurrogate v then
        (Char.ofNat (0x10000 + (u - 0xd800) * 0x400 + (v - 0xdc00)) :: ·) <$> ofUtf16 rest
      else none
    else if isLowSurrogate u then none
    else (Char.ofNat u :: ·) <$> ofUtf16 (v :: rest)

/-- The octets of a UTF-16 unit. -/
def encodeUnit (u : Nat) : Bytes :=
  if 1 ≤ u ∧ u < 0x80 then [UInt8.ofNat u]
  else if u < 0x800 then [UInt8.ofNat (0xc0 + u / 0x40), UInt8.ofNat (0x80 + u % 0x40)]
  else
    [UInt8.ofNat (0xe0 + u / 0x1000), UInt8.ofNat (0x80 + u / 0x40 % 0x40),
      UInt8.ofNat (0x80 + u % 0x40)]

/-- The octets of a text. -/
def encodeModified (text : String) : Bytes :=
  (utf16 text.toList).flatMap encodeUnit

/-- The bits that an octet contributes which continues a unit. -/
def continuation? (b : UInt8) : Option Nat :=
  if b.toNat / 0x40 = 2 then some (b.toNat % 0x40) else none

/-- The UTF-16 units of octets, of which the first stands at a position. -/
def decodeUnits (position : Nat) : Bytes → Except FormatError (List Nat)
  | [] => .ok []
  | b :: rest =>
    let n := b.toNat
    if 1 ≤ n ∧ n < 0x80 then (n :: ·) <$> decodeUnits (position + 1) rest
    else if n / 0x20 = 6 then
      match rest with
      | [] => .error (.truncatedText position)
      | c :: rest =>
        match continuation? c with
        | some x => ((n % 0x20 * 0x40 + x) :: ·) <$> decodeUnits (position + 2) rest
        | none => .error (.truncatedText position)
    else if n / 0x10 = 14 then
      match rest with
      | c :: d :: rest =>
        match continuation? c, continuation? d with
        | some x, some y =>
          ((n % 0x10 * 0x1000 + x * 0x40 + y) :: ·) <$> decodeUnits (position + 3) rest
        | _, _ => .error (.truncatedText position)
      | _ => .error (.truncatedText position)
    else .error (.textByte b position)

/-- Whether an octet is a character by itself. -/
def isPlain (b : UInt8) : Bool :=
  1 ≤ b && b < 0x80

/-- The text of octets. Octets that are all characters by themselves are taken as they are. -/
def decodeModified (bytes : Bytes) : Except FormatError String :=
  if bytes.all isPlain then .ok (String.ofList (bytes.map fun b => Char.ofNat b.toNat))
  else do
    match ofUtf16 (← decodeUnits 0 bytes) with
    | some cs => return String.ofList cs
    | none => throw .unpairedSurrogate

end Bytecode.Text
