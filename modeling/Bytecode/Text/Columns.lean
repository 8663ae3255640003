import Bytecode.Text.Width

/-!
# Columns

Tables as lines of text: columns stand two spaces apart and are as wide as the widest line of their
cells, up to a limit, and lines end with their last visible character. A row takes as many lines as
its tallest cell.
-/

namespace Bytecode.Text

/-! ## Wrapping of lines

How a line is broken that is too wide for its column: between words where that works, and within a
word that is too wide for a line of its own. What is shown as one shape is not taken apart.
-/

/-- Whether a character is shown together with the characters `shape` before it, the last one first.
-/
def joinsShape (shape : List Char) (c : Char) : Bool :=
  let code := c.toNat
  isColumnless code || isTone code ||
    match shape with
    | [before] => isFlagLetter before.toNat && isFlagLetter code
    | before :: _ => before.toNat == joiner && (isPicture code || hasPicture code)
    | [] => true

/-- The characters of the first shape of a text behind those that have been found, which come last
one first, and the text behind the shape. -/
def shapeFrom (shape : List Char) : List Char → List Char × List Char
  | [] => (shape.reverse, [])
  | c :: rest =>
    if joinsShape shape c then shapeFrom (c :: shape) rest else (shape.reverse, c :: rest)

theorem shapeFrom_append (shape cs : List Char) :
    (shapeFrom shape cs).1 ++ (shapeFrom shape cs).2 = shape.reverse ++ cs := by
  induction cs generalizing shape with
  | nil => simp [shapeFrom]
  | cons c rest ih =>
    unfold shapeFrom
    split
    · simp [ih]
    · rfl

/-- The shapes of a text. There are no more of them than characters. -/
def shapesUpTo : Nat → List Char → List (List Char)
  | 0, _ => []
  | _, [] => []
  | most + 1, cs =>
    let (shape, rest) := shapeFrom [] cs
    shape :: shapesUpTo most rest

/-- The shapes of a text. -/
def shapes (text : String) : List (List Char) :=
  shapesUpTo text.length text.toList

/-- The shapes that fit into a number of columns, and the ones behind them. -/
def fitting (room : Nat) : List (List Char) → List (List Char) × List (List Char)
  | [] => ([], [])
  | shape :: rest =>
    let columns := width (String.ofList shape)
    if room < columns then ([], shape :: rest)
    else
      let (fit, left) := fitting (room - columns) rest
      (shape :: fit, left)

/-- The part of a word that fits into a number of columns, and what is left of the word. -/
def splitWord (room : Nat) (word : String) : String × String :=
  let (fit, left) := fitting room (shapes word)
  (String.ofList fit.flatten, String.ofList left.flatten)

/-- The first character of a text, and the text behind it. -/
def splitFirst (text : String) : String × String :=
  (String.ofList (text.toList.take 1), String.ofList (text.toList.drop 1))

/-- With no more than this number of columns left, nothing is added to a line. -/
def fewColumns : Nat := 2

/-- The lines of words behind a line that has been begun. Every step takes a word, ends a line, or
makes a word shorter. -/
def wrapWords (columns : Nat) : Nat → String → List String → List String
  | 0, line, words => line :: words
  | _, line, [] => if line.isEmpty then [] else [line]
  | fuel + 1, line, word :: words =>
    let isFresh := line.isEmpty
    let extended := if isFresh then word else line ++ " " ++ word
    let used := width line + if isFresh then 0 else 1
    let next (line : String) : List String :=
      if columns - fewColumns < width line then line :: wrapWords columns fuel "" words
      else wrapWords columns fuel line words
    if used + width word ≤ columns then next extended
    else if !isFresh && columns - used ≤ fewColumns then
      line :: wrapWords columns fuel "" (word :: words)
    else if columns < width word then
      let (fit, left) := splitWord (columns - used) word
      let (fit, left) := if isFresh && fit.isEmpty then splitFirst left else (fit, left)
      (if isFresh then fit else line ++ " " ++ fit) :: wrapWords columns fuel "" (left :: words)
    else line :: next word

/-- The lines of a text in a column. -/
def wrap (columns : Nat) (line : String) : List String :=
  if width line ≤ columns then [line]
  else
    let words := line.splitOn " "
    wrapWords columns (2 * (line.length + words.length) + 1) "" words

/-! ## Tables -/

/-- The heading of a column, and whether its cells stand at its right edge. -/
structure Column where
  title : String
  atRight : Bool := false
  deriving DecidableEq, Repr

/-- Whether a character is white space in the sense of Unicode. -/
def isBlank (c : Char) : Bool :=
  let n := c.toNat
  (9 ≤ n && n ≤ 13) || (0x2000 ≤ n && n ≤ 0x200a) ||
    [0x20, 0x85, 0xa0, 0x1680, 0x2028, 0x2029, 0x202f, 0x205f, 0x3000].contains n

theorem isBlank_of_isWhitespace {c : Char} (h : c.isWhitespace = true) : isBlank c = true := by
  simp only [Char.isWhitespace, Bool.or_eq_true, decide_eq_true_eq] at h
  rcases h with ((rfl | rfl) | rfl) | rfl <;> decide

/-- A text without the white space at its end. -/
def trimEnd (text : String) : String :=
  String.ofList (text.toList.reverse.dropWhile isBlank).reverse

/-- A line of a cell, in a column with a width. -/
def cell (column : Column) (columnWidth : Nat) (text : String) : String :=
  let fill := "".pushn ' ' (columnWidth - width text)
  if column.atRight then fill ++ text else text ++ fill

/-- The lines of a row. Cells with fewer lines than others are blank below. -/
def rowLines (columns : List (Column × Nat)) (row : List (List String)) : List String :=
  (List.range ((row.map List.length).foldl max 0)).map fun line =>
    trimEnd ("  ".intercalate (columns.mapIdx fun i (column, columnWidth) =>
      cell column columnWidth ((row.getD i []).getD line "")))

/-- How wide a column can be. -/
def widestColumn : Nat := 65535

/-- A table with the headings in its first line, and the rows below. -/
def table (columns : List Column) (rows : List (List String)) : List String :=
  let all := (columns.map Column.title :: rows).map fun row => row.map (·.splitOn "\n")
  let widths := columns.mapIdx fun i _ =>
    min widestColumn ((all.flatMap fun row => (row.getD i []).map width).foldl max 0)
  let wrapped := all.map fun row =>
    (row.zip widths).map fun (lines, columnWidth) => lines.flatMap (wrap columnWidth)
  wrapped.flatMap (rowLines (columns.zip widths))

end Bytecode.Text
