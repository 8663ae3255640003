/-!
# JSON

Reports as JSON text, laid out with an indentation of two spaces. Empty arrays and objects stay on
one line.
-/

namespace Bytecode.Text

/-- A JSON value as reports need it. -/
inductive Json where
  | null
  | bool (value : Bool)
  | number (value : Nat)
  | string (text : String)
  | array (items : List Json)
  | object (fields : List (String × Json))
  deriving Repr

namespace Json

/-- A hexadecimal digit. -/
def hexDigit (n : Nat) : Char :=
  Nat.digitChar (n % 16)

/-- How one character is written inside a string. -/
def escape (c : Char) : List Char :=
  match c with
  | '"' => ['\\', '"']
  | '\\' => ['\\', '\\']
  | '\n' => ['\\', 'n']
  | '\r' => ['\\', 'r']
  | '\t' => ['\\', 't']
  | '\x08' => ['\\', 'b']
  | '\x0c' => ['\\', 'f']
  | c =>
    if c.toNat < 0x20 then ['\\', 'u', '0', '0', hexDigit (c.toNat / 16), hexDigit c.toNat] else [c]

/-- A string with its quotes. -/
def quoted (text : String) : String :=
  "\"" ++ String.ofList (text.toList.flatMap escape) ++ "\""

/-- A line break and the indentation at a depth. -/
def lineBreak (depth : Nat) : String :=
  "\n" ++ "".pushn ' ' (2 * depth)

/-- Parts between brackets, each on a line of its own. -/
def block (opening closing : String) (depth : Nat) (parts : List String) : String :=
  if parts.isEmpty then opening ++ closing
  else
    opening ++ lineBreak (depth + 1) ++ ("," ++ lineBreak (depth + 1)).intercalate parts ++
      lineBreak depth ++ closing

mutual

/-- The text of a value that stands at a depth. -/
def render (depth : Nat) : Json → String
  | null => "null"
  | bool true => "true"
  | bool false => "false"
  | number n => toString n
  | string text => quoted text
  | array items => block "[" "]" depth (renderItems (depth + 1) items)
  | object fields => block "\x7b" "\x7d" depth (renderFields (depth + 1) fields)

/-- The texts of the items of an array. -/
def renderItems (depth : Nat) : List Json → List String
  | [] => []
  | item :: rest => render depth item :: renderItems depth rest

/-- The texts of the fields of an object. -/
def renderFields (depth : Nat) : List (String × Json) → List String
  | [] => []
  | (name, value) :: rest => (quoted name ++ ": " ++ render depth value) :: renderFields depth rest

end

end Json

end Bytecode.Text
