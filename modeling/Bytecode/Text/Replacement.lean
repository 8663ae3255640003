import Bytecode.Bytes

/-!
# Text that is not UTF-8

Names in archives can be in an old code page, and octets that ought to be UTF-8 need not be.
-/

/-! ## Text in an old code page

One octet for each character: the lower half is ASCII, the upper half holds accented letters, lines
and boxes, and some Greek letters and signs.
-/

namespace Bytecode.Text

/-- The characters of the upper half of the code page. -/
def upperHalf : List Char :=
  ("ÇüéâäàåçêëèïîìÄÅÉæÆôöòûùÿÖÜ¢£¥₧ƒáíóúñÑªº¿⌐¬½¼¡«»░▒▓│┤╡╢╖╕╣║╗╝╜╛┐└┴┬├─┼╞╟╚╔╩╦╠═╬╧╨╤╥╙╘╒╓╫╪┘┌█▄▌▐▀" ++
    "αßΓπΣσµτΦΘΩδ∞φε∩≡±≥≤⌠⌡÷≈°∙·√ⁿ²■\u00a0").toList

/-- The character of an octet. -/
def codePageChar (b : UInt8) : Char :=
  if b < 0x80 then Char.ofNat b.toNat else upperHalf.getD (b.toNat - 0x80) ' '

/-- The text of octets. -/
def decodeCodePage (bytes : Bytes) : String :=
  String.ofList (bytes.map codePageChar)

/-! ## Text with replacements

Octets that ought to be UTF-8, but need not be. What is no character is replaced by a mark, one for
each longest sequence of octets that could have started a character.
-/

/-- The mark in place of what is no character. -/
def replacement : Char := '\ufffd'

/-- How many octets have to follow the first one of a character, and the range of the first of them.
-/
def following? (b : UInt8) : Option (Nat × UInt8 × UInt8) :=
  if b < 0x80 then some (0, 0x80, 0xbf)
  else if 0xc2 ≤ b ∧ b ≤ 0xdf then some (1, 0x80, 0xbf)
  else if b = 0xe0 then some (2, 0xa0, 0xbf)
  else if b = 0xed then some (2, 0x80, 0x9f)
  else if 0xe1 ≤ b ∧ b ≤ 0xef then some (2, 0x80, 0xbf)
  else if b = 0xf0 then some (3, 0x90, 0xbf)
  else if b = 0xf4 then some (3, 0x80, 0x8f)
  else if 0xf1 ≤ b ∧ b ≤ 0xf3 then some (3, 0x80, 0xbf)
  else none

/-- How many of the next octets, at most `count`, can continue a character, of which the first has a
narrower range. -/
def continuing : Nat → UInt8 → UInt8 → Bytes → Nat
  | 0, _, _, _ => 0
  | _, _, _, [] => 0
  | count + 1, low, high, b :: rest =>
    if low ≤ b ∧ b ≤ high then continuing count 0x80 0xbf rest + 1 else 0

/-- The code of a character with its first octet and those that follow. -/
def codeOf (first : UInt8) (rest : Bytes) : Nat :=
  let head := if rest.isEmpty then first.toNat else first.toNat % Nat.pow 2 (6 - rest.length)
  rest.foldl (fun code b => code * 0x40 + b.toNat % 0x40) head

/-- The characters of octets. -/
def replacedChars : Bytes → List Char
  | [] => []
  | b :: rest =>
    match following? b with
    | none => replacement :: replacedChars rest
    | some (count, low, high) =>
      let found := continuing count low high rest
      (if found = count then Char.ofNat (codeOf b (rest.take count)) else replacement) ::
        replacedChars (rest.drop found)
termination_by bytes => bytes.length
decreasing_by
  all_goals
    simp only [List.length_drop, List.length_cons]
    omega

/-- The text of octets, with a replacement for what is no character. -/
def decodeReplacing (bytes : Bytes) : String :=
  String.ofList (replacedChars bytes)

end Bytecode.Text
