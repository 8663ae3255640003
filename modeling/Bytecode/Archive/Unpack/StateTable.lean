import Bytecode.Archive.Unpack

/-!
# Tables of states

A text over some alphabet can be told by a row of states, each of which stands for a symbol and
tells by a few bits which one comes next. A symbol has as many states as it is likely, so that few
bits lead to a likely one. Symbols that are too rare for that have one state at the end of the
table.

`StateTable.ofChances` makes the table, and `StateTable.take` takes the chances that it is made of.
-/

namespace Bytecode.Archive

/-! ## Bits taken from the end

Some parts of packed data are read from their end on, the most significant bit of the last octet
first. The first bit of one only marks where the others begin.
-/

/-- Work on bits that are taken from the end of data. -/
abbrev Backward := StateT (List Bool) Unpack

namespace Backward

/-- The bits of an octet, the most significant one first. -/
def octetBits (b : UInt8) : List Bool :=
  (List.range 8).map fun i => b.toNat.testBit (7 - i)

/-- The bits of data behind the mark, which is in the last octet. -/
def ofData? (data : Bytes) : Option (List Bool) :=
  match data.reverse with
  | [] => none
  | last :: before =>
    match (octetBits last).dropWhile (!·) with
    | [] => none
    | _ :: bits => some (bits ++ before.flatMap octetBits)

/-- Takes a bit. -/
def bit : Backward Nat := do
  match ← get with
  | [] => throw .corrupt
  | b :: rest =>
    set rest
    return b.toNat

/-- Takes a number of bits behind those that denote `n`, the most significant one first. -/
def bitsFrom (n : Nat) : Nat → Backward Nat
  | 0 => return n
  | width + 1 => do bitsFrom (2 * n + (← bit)) width

/-- Takes a number of bits, the most significant one first. -/
def bits (width : Nat) : Backward Nat :=
  bitsFrom 0 width

/-- Whether there are so many bits. -/
def has (width : Nat) : Backward Bool :=
  return ((← get).take width).length == width

/-- Does work on the bits of data, and returns the bits that are left as well. -/
def start {α : Type} (work : Backward α) (data : Bytes) : Unpack (α × List Bool) := do
  work.run (← Unpack.required (ofData? data))

/-- Does work that takes all bits of data. -/
def complete {α : Type} (work : Backward α) (data : Bytes) : Unpack α := do
  let (a, left) ← work.start data
  Unpack.require left.isEmpty
  return a

end Backward

/-! ## States -/

/-- A state: its symbol, and the class of the states that can follow. -/
structure TableState where
  symbol : Nat
  next : ValueClass
  deriving DecidableEq, Repr, Inhabited

/-- A table with `2 ^ width` states. -/
structure StateTable where
  width : Nat
  states : Array TableState
  deriving Repr

namespace StateTable

/-- The state with a number. -/
def state (t : StateTable) (n : Nat) : TableState :=
  t.states.getD n default

/-- The table for texts of one symbol. -/
def ofSymbol (s : Nat) : StateTable :=
  ⟨0, #[⟨s, ⟨0, 0⟩⟩]⟩

/-- The chance of a rare symbol. -/
def rare : Int := -1

/-- The symbols of all states, given the chances of the symbols. The states of likely symbols are
strewn over the table, all at one distance. -/
def strewn (width : Nat) (chances : List Int) : List Nat :=
  let size := Nat.pow 2 width
  let rares := (chances.zipIdx.filter (·.1 == rare)).map Prod.snd
  let likely := chances.zipIdx.flatMap fun (c, s) => List.replicate c.toNat s
  let step := size / 2 + size / 8 + 3
  let places := ((List.range size).map (· * step % size)).filter (· + rares.length < size)
  let put (all : Array Nat) (entry : Nat × Nat) : Array Nat :=
    all.setIfInBounds entry.1 entry.2
  let all := (places.zip likely).foldl put (Array.replicate size 0)
  ((rares.zipIdx.map fun (s, i) => (size - 1 - i, s)).foldl put all).toList

/-- The table for symbols with given chances, of which there are `2 ^ width` in all. Of all states
of a symbol, the later ones are told by fewer bits. -/
def ofChances (width : Nat) (chances : List Int) : StateTable :=
  let step (s : Array Nat × Array TableState) (symbol : Nat) : Array Nat × Array TableState :=
    let n := s.1.getD symbol 0
    let bits := width - Nat.log2 n
    (s.1.setIfInBounds symbol (n + 1),
      s.2.push ⟨symbol, ⟨n * Nat.pow 2 bits - Nat.pow 2 width, bits⟩⟩)
  ⟨width, ((strewn width chances).foldl step ((chances.map Int.natAbs).toArray, #[])).2⟩

/-- Takes a chance when `left` parts are left to be given. Small numbers have a bit less. -/
def chance (left : Nat) : Unpack Int := do
  let width := Nat.log2 (left + 1)
  let low ← Unpack.lowBits width
  let unused := 2 * Nat.pow 2 width - 1 - (left + 1)
  if low < unused then return (low : Int) - 1
  if (← Unpack.lowBit) = 0 then return (low : Int) - 1
  return (low + Nat.pow 2 width - unused : Nat) - 1

/-- Takes how many more symbols have no chance. There are no more than bits. -/
def gap : Nat → Unpack Nat
  | 0 => throw .ended
  | most + 1 => do
    let n ← Unpack.lowBits 2
    if n < 3 then return n
    return 3 + (← gap most)

/-- Takes the chances of up to so many symbols when `left` parts are left to be given. The chances
of the symbols before are known, the last one first. -/
def chances (left : Nat) (known : List Int) : Nat → Unpack (List Int)
  | 0 => do
    Unpack.require (left = 0)
    return known.reverse
  | most + 1 => do
    if left = 0 then return known.reverse
    let c ← chance left
    Unpack.require (c.natAbs ≤ left)
    if c = 0 then
      let skipped ← gap ((← Unpack.bitsLeft) + 1)
      Unpack.require (skipped ≤ most)
      chances left (List.replicate (skipped + 1) 0 ++ known) (most - skipped)
    else chances (left - c.natAbs) (c :: known) most
termination_by most => most

/-- Takes a table for so many symbols at most, which is not wider than `widest`. -/
def take (widest symbolCount : Nat) : Unpack StateTable := do
  let width := 5 + (← Unpack.lowBits 4)
  Unpack.require (width ≤ widest)
  let chances ← chances (Nat.pow 2 width) [] symbolCount
  Unpack.align
  return ofChances width chances

/-- Takes the number of the first state. -/
def start (t : StateTable) : Backward Nat :=
  Backward.bits t.width

/-- Takes the number of the state behind another one. -/
def next (s : TableState) : Backward Nat :=
  return s.next.least + (← Backward.bits s.next.width)

end StateTable

end Bytecode.Archive
