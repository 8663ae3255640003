import Bytecode.Total

/-!
# Contexts of prediction

A symbol of a text can be predicted from the symbols in front of it. A context stands for some
symbols in a row. Its states are the symbols that have followed them so far, each with a count that
tells how likely it is to follow again. What the total of a context exceeds the counts by is the
chance that another symbol follows, which only a shorter context can tell.

The states of a context are kept with likely ones in front. A context with a single state has no
total: the chance of its symbol is learned elsewhere.
-/

namespace Bytecode.Archive.Prediction

/-- Where the symbol of a state leads: to the context that is longer by it, or to the place behind
the symbol in the text, if that context has not been made yet. -/
inductive Target where
  | unknown
  | text (place : Nat)
  | context (index : Nat)
  deriving DecidableEq, Repr, Inhabited

/-- A symbol that can follow a context. -/
structure State where
  symbol : UInt8
  count : Nat
  target : Target := .unknown
  deriving DecidableEq, Repr, Inhabited

/-- Some symbols in a row. It is told of a context whether its counts have been halved, whether high
symbols can follow it, and whether its last symbol is high. -/
structure Context where
  states : Array State
  total : Nat := 0
  isHalved : Bool := false
  hasHigh : Bool := false
  endsHigh : Bool := false
  shorter : Option Nat := none
  deriving Repr, Inhabited

/-- Whether a symbol is high. Letters are, while digits and most marks are not. -/
def isHigh (symbol : UInt8) : Bool :=
  decide (0x40 ≤ symbol)

/-- Counts do not become greater. -/
def mostCount : Nat := 124

namespace Context

/-- How many symbols beside the first one can follow. -/
def others (c : Context) : Nat :=
  c.states.size - 1

/-- Whether only one symbol can follow. -/
def isSingle (c : Context) : Bool :=
  c.others == 0

/-- The state with an index. -/
def state (c : Context) (index : Nat) : State :=
  c.states.getD index default

/-- The index of the state of a symbol. -/
def find (c : Context) (symbol : UInt8) : Nat :=
  c.states.findIdx (·.symbol == symbol)

/-- A number for what is told of a context. -/
def flags (c : Context) : Nat :=
  4 * c.isHalved.toNat + 8 * c.hasHigh.toNat + 16 * c.endsHigh.toNat

/-- Changes the state with an index. -/
def modifyState (c : Context) (index : Nat) (f : State → State) : Context :=
  { c with states := c.states.modify index f }

/-- Adds to the count of a state. -/
def add (c : Context) (index amount : Nat) : Context :=
  let c := c.modifyState index fun s => { s with count := s.count + amount }
  { c with total := c.total + amount }

/-- Adds to the count of a state among several ones, unless that is great. -/
def addModestly (c : Context) (index amount : Nat) : Context :=
  if (c.state index).count < mostCount - 9 then c.add index amount else c

/-- Adds one to the count of a single state that is below a bound. -/
def addSingle (c : Context) (bound : Nat) : Context :=
  if (c.state 0).count < bound then
    c.modifyState 0 fun s => { s with count := s.count + 1 }
  else c

/-- Exchanges a state with the one in front of it. -/
def raise (c : Context) (index : Nat) : Context :=
  { c with states := c.states.swapIfInBounds (index - 1) index }

/-- The count for a symbol that follows a new context, which is longer than a context that it
follows too. -/
def countOfLonger (c : Context) (symbol : UInt8) : Nat :=
  if c.isSingle then (c.state 0).count
  else
    let count := (c.state (c.find symbol)).count - 1
    let rest := c.total - c.others - count
    if 2 * count ≤ rest then 1 + (decide (rest < 5 * count)).toNat
    else 1 + (count + 2 * rest - 3) / rest

/-- The context with a total, where one had been for a single state. `escape` is the chance that
another symbol follows. -/
def withTotal (c : Context) (escape : Nat) : Context :=
  let count := (c.state 0).count
  let count := if count < mostCount / 4 - 1 then 2 * count else mostCount - 4
  { c.modifyState 0 fun s => { s with count } with total := count + escape }

/-- Adds a symbol that has followed a context, but was predicted by the count in a shorter one.
`rivals` is how many other symbols can follow that one, and `rest` the total without them. -/
def insert (c : Context) (symbol : UInt8) (target : Target) (count rivals rest escape : Nat) :
    Context :=
  let c :=
    if c.isSingle then c.withTotal (escape + (decide (2 < rivals)).toNat)
    else { c with total := c.total + (decide (3 * c.others + 1 < rivals)).toNat }
  let weight := 2 * count * (c.total + 6)
  let sum := rest + c.total
  let above (n : Nat) : Nat := (decide (n * sum < weight)).toNat
  let (count, grown) :=
    if weight < 6 * sum then (1 + above 1 + (decide (4 * sum ≤ weight)).toNat, 4)
    else
      let count := 4 + above 9 + above 12 + above 15
      (count, count)
  { c with
    states := c.states.push { symbol, count, target }
    total := c.total + grown
    hasHigh := c.hasHigh || isHigh symbol }

/-- Halves all counts, and puts a state in front whose count had become too great. Counts are
rounded up unless the context is as long as it can be; otherwise states without a count are dropped.
-/
def halve (c : Context) (index : Nat) (isLongest : Bool) : Context :=
  let escape := c.total - Bytecode.total State.count c.states.toList
  let halved (s : State) : State := { s with count := (s.count + (!isLongest).toNat) / 2 }
  let first := c.state index
  let first := halved { first with count := first.count + 4 }
  let behind := (c.states.toList.eraseIdx index).map halved
  let sorted := (first :: behind).mergeSort fun s t => decide (t.count ≤ s.count)
  let kept := sorted.filter (0 < ·.count)
  let dropped := sorted.length - kept.length
  let escape := escape + dropped
  match kept with
  | [s] =>
    let count := min ((2 * s.count + escape - 1) / escape) (mostCount / 3)
    { c with states := #[{ s with count }], isHalved := false, hasHigh := isHigh s.symbol }
  | _ =>
    { c with
      states := kept.toArray
      total := Bytecode.total State.count kept + (escape - escape / 2)
      isHalved := true
      hasHigh := if dropped = 0 then c.hasHigh else kept.any (isHigh ·.symbol) }

end Context

end Bytecode.Archive.Prediction
