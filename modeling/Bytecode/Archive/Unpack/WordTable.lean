import Bytecode.Archive.Unpack

/-!
# Word tables

A word table tells a symbol for whatever bits come next. It is made like a prefix code from the
lengths of words, the least significant bit first, but the lengths need not leave each word a place
of its own: among words that begin with each other the last one wins, and bits that begin no word
tell the symbol 0. A symbol always takes as many bits as its word has.

The words up to some width are entries of the table. Each of the longer ones hangs in a tree below
an entry, which no shorter word may have.
-/

namespace Bytecode.Archive

/-- What bits tell, the first one first. -/
inductive WordTree where
  | symbol (s : Nat)
  | fork (zero one : WordTree)
  deriving Repr, Inhabited

namespace WordTree

/-- The symbol that bits tell. -/
def find (bits : Nat) : WordTree → Nat
  | symbol s => s
  | fork zero one => if bits % 2 = 0 then zero.find (bits / 2) else one.find (bits / 2)

/-- What words go on with behind a tree. The symbol 0 gives way, any other one does not. -/
def branches? : WordTree → Option (WordTree × WordTree)
  | fork zero one => some (zero, one)
  | symbol 0 => some (symbol 0, symbol 0)
  | symbol _ => none

/-- Puts a symbol at the end of a word of so many bits. The word must not go on behind the word of
another symbol. -/
def insert? (s : Nat) (word : Nat) : Nat → WordTree → Option WordTree
  | 0, _ => some (symbol s)
  | width + 1, t => do
    let (zero, one) ← t.branches?
    if word % 2 = 0 then return fork (← insert? s (word / 2) width zero) one
    return fork zero (← insert? s (word / 2) width one)

/-- A symbol is told by the bits of its word. -/
theorem find_of_insert? {s word width bits : Nat} {t t' : WordTree}
    (h : insert? s word width t = some t') (hw : bits % Nat.pow 2 width = word % Nat.pow 2 width) :
    t'.find bits = s := by
  induction width generalizing word bits t t' with
  | zero =>
    simp only [insert?, Option.some.injEq] at h
    rw [← h, find]
  | succ width ih =>
    have hw : bits % (Nat.pow 2 width * 2) = word % (Nat.pow 2 width * 2) := hw
    have hlow : bits % 2 = word % 2 := by
      rw [← Nat.mod_mul_left_mod bits (Nat.pow 2 width) 2, hw, Nat.mod_mul_left_mod]
    have hhigh : bits / 2 % Nat.pow 2 width = word / 2 % Nat.pow 2 width := by
      rw [← Nat.mod_mul_left_div_self bits, hw, Nat.mod_mul_left_div_self]
    unfold insert? at h
    simp only [Option.bind_eq_bind, Option.bind_eq_some_iff, Option.pure_def] at h
    obtain ⟨⟨zero, one⟩, -, h⟩ := h
    split at h
    · rename_i h0
      obtain ⟨t₀, ht, h⟩ := Option.bind_eq_some_iff.1 h
      cases h
      rw [find, if_pos (by omega)]
      exact ih ht hhigh
    · rename_i h0
      obtain ⟨t₁, ht, h⟩ := Option.bind_eq_some_iff.1 h
      cases h
      rw [find, if_neg (by omega)]
      exact ih ht hhigh

end WordTree

/-- A word table of some width, and the lengths of the words of all symbols. -/
structure WordTable where
  width : Nat
  entries : Array WordTree
  lengths : Array Nat
  deriving Repr

namespace WordTable

/-- The lowest bits of a number, so many of them, in the opposite order. -/
def reversed (n : Nat) : Nat → Nat
  | 0 => 0
  | width + 1 => n % 2 * Nat.pow 2 width + reversed (n / 2) width

/-- Adds a word of some length to the entries. -/
def addWord? (width : Nat) (entries : Array WordTree) (s word length : Nat) :
    Option (Array WordTree) :=
  if length ≤ width then
    let places := (List.range (Nat.pow 2 (width - length))).map fun i => word + i * Nat.pow 2 length
    some (places.foldl (fun all place => all.setIfInBounds place (.symbol s)) entries)
  else do
    let place := word % Nat.pow 2 width
    let t ← (entries.getD place default).insert? s (word / Nat.pow 2 width) (length - width)
    return entries.setIfInBounds place t

/-- The first words of all lengths up to a longest one, given the lengths of the words. -/
def firstWords (longest : Nat) (lengths : List Nat) : Array Nat :=
  let step (firsts : Array Nat) (length : Nat) : Array Nat :=
    let before := if length = 0 then 0 else lengths.count length
    firsts.push (2 * (firsts.back?.getD 0 + before))
  (List.range longest).foldl step #[0]

/-- The table of some width for words of given lengths, none of which is longer than `longest`. -/
def ofLengths? (width longest : Nat) (lengths : List Nat) : Option WordTable := do
  let step (s : Array Nat × Array WordTree) (entry : Nat × Nat) :
      Option (Array Nat × Array WordTree) :=
    let (length, symbol) := entry
    if length = 0 then some s
    else do
      let word := s.1.getD length 0
      let entries ← addWord? width s.2 symbol (reversed word length) length
      return (s.1.setIfInBounds length (word + 1), entries)
  let blank := Array.replicate (Nat.pow 2 width) (WordTree.symbol 0)
  let (_, entries) ← lengths.zipIdx.foldlM step (firstWords longest lengths, blank)
  return ⟨width, entries, lengths.toArray⟩

/-- The symbol that bits tell. -/
def find (t : WordTable) (bits : Nat) : Nat :=
  (t.entries.getD (bits % Nat.pow 2 t.width) default).find (bits / Nat.pow 2 t.width)

/-- Takes the word of a symbol and returns the symbol. Bits beyond the end of the data count as
zero, but they cannot be taken. -/
def symbol (t : WordTable) : Unpack Nat := do
  let (bits, isEmpty) ← Unpack.coming
  if isEmpty then throw .ended
  let s := t.find bits
  let length := t.lengths.getD s 0
  Unpack.require (length ≠ 0)
  discard (Unpack.lowBits length)
  return s

end WordTable

end Bytecode.Archive
