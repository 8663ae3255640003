import Bytecode.Archive.Unpack

/-!
# Prefix codes

A prefix code gives every symbol a word of bits, such that no word is the start of another one. Only
the lengths of the words are given: the words of one length follow each other in the order of their
symbols, and come after all that start with a shorter word.
-/

namespace Bytecode.Archive

/-- A prefix code: how many words there are of each length, the shortest first, and the symbols in
the order of their words. -/
structure PrefixCode where
  counts : List Nat
  symbols : Array Nat
  deriving Repr

namespace PrefixCode

/-- The code in which the symbols have words of given lengths, up to a longest one. Symbols of
length zero have no word. -/
def ofLengths (longest : Nat) (lengths : List Nat) : PrefixCode :=
  let of (length : Nat) : List Nat :=
    (lengths.zipIdx.filter fun (l, _) => l == length).map Prod.snd
  let all := (List.range longest).map fun n => of (n + 1)
  ⟨all.map List.length, all.flatten.toArray⟩

/-- How much room the words leave for others, counted in words of the longest length; none if there
is not even room for them. -/
def room? (c : PrefixCode) : Option Nat :=
  c.counts.foldl (fun room count => room.bind fun room =>
    if 2 * room < count then none else some (2 * room - count)) (some 1)

/-- Whether there is room for all words, and no room is left. -/
def isComplete (c : PrefixCode) : Bool :=
  c.room? == some 0

/-- Whether no word has more than one bit. -/
def isTrivial (c : PrefixCode) : Bool :=
  (c.counts.drop 1).all (· == 0)

/-- Takes the rest of a word. So far its bits denote `word`; the words of this length start with
`first`, and those that are shorter have the symbols before `index`. -/
def symbolFrom {m : Type → Type} [Monad m] [MonadExceptOf Interruption m] (bit : m Nat)
    (symbols : Array Nat) (word first index : Nat) : List Nat → m Nat
  | [] => throw .corrupt
  | count :: counts => do
    let word := 2 * word + (← bit)
    if word < 2 * first + count then return symbols.getD (index + (word - 2 * first)) 0
    else symbolFrom bit symbols word (2 * first + count) (index + count) counts

/-- Takes a word of a code and returns its symbol. -/
def symbol {m : Type → Type} [Monad m] [MonadExceptOf Interruption m] (c : PrefixCode)
    (bit : m Nat) : m Nat :=
  symbolFrom bit c.symbols 0 0 0 c.counts

end PrefixCode

end Bytecode.Archive
