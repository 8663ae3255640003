import Bytecode.Archive.Unpack
import Bytecode.Archive.Unpack.Prediction.Model

/-!
# Data packed by prediction

A symbol is told by the part of a range that a number falls into. The range is cut in proportion to
the counts of the symbols that can follow the current context; what remains stands for an escape to
a shorter context, in which the symbols that have been excluded do not count. An escape from the
context of no symbols ends the data, and then the number has to be where its part begins.

In front of the data stands a word of settings: how many symbols a context can have, how much memory
a model can take, and what happens to a model that takes more. The memory of a model is not limited
here.
-/

namespace Bytecode.Archive.Prediction

open Unpack

/-- A range: where it begins, how wide it is, and how far behind its beginning the number is. -/
structure Interval where
  first : UInt32 := 0
  width : UInt32 := 0xffffffff
  distance : UInt32
  deriving DecidableEq, Repr

/-- Work on data that is packed by prediction. -/
abbrev Work := StateT Model (StateT Interval Unpack)

/-! ## The range -/

/-- Takes octets as long as all numbers in the range begin with the same octet, or the range is
narrow. -/
def widen : Nat → Work Unit
  | 0 => return ()
  | most + 1 => do
    let r ← getThe Interval
    let isSettled := decide (r.first ^^^ (r.first + r.width) < 0x1000000)
    if isSettled || decide (r.width < 0x8000) then
      let width := if isSettled then r.width else (0 - r.first) &&& 0x7fff
      let b ← octet
      modifyThe Interval fun r =>
        ⟨r.first <<< 8, width <<< 8, r.distance <<< 8 ||| b.toUInt32⟩
      widen most

/-- Cuts the range into equal parts, and returns in which of them the number is. -/
def cut (parts : Nat) : Work Nat := do
  modifyThe Interval fun r => { r with width := r.width / UInt32.ofNat parts }
  let r ← getThe Interval
  return (r.distance / r.width).toNat

/-- Narrows the range to some of its parts. It is wide again after a few octets. -/
def narrow (first count : Nat) : Work Unit := do
  modifyThe Interval fun r =>
    let skipped := UInt32.ofNat first * r.width
    ⟨r.first + skipped, r.width * UInt32.ofNat count, r.distance - skipped⟩
  widen 8

/-! ## Symbols -/

/-- The state in whose parts a number is, with its index, and where these parts begin. -/
def stateAt? (number first : Nat) : List (State × Nat) → Option (State × Nat × Nat)
  | [] => none
  | (s, index) :: rest =>
    let behind := first + s.count
    if number < behind then some (s, index, first) else stateAt? number behind rest

/-- Takes a symbol that follows a context with several states, or none for an escape. -/
def amongSeveral (c : Context) : Work (Option UInt8) := do
  let number ← cut c.total
  match stateAt? number 0 c.states.toList.zipIdx with
  | some (s, index, first) =>
    narrow first s.count
    modify fun m => if index = 0 then m.afterFirst else m.afterLater index
    return s.symbol
  | none =>
    require (number < c.total)
    let sum := total State.count c.states.toList
    narrow sum (c.total - sum)
    modify fun m => { m with wasLikely := false }
    return none

/-- Takes the symbol of a single state, or none for an escape. The chance is a mean over the past.
-/
def ofSingle (c : Context) : Work (Option UInt8) := do
  let i := (← get).singleChanceAt
  let chance := (← get).chances.getD i 0
  let learned (chance : Nat) (m : Model) : Model :=
    { m with chances := m.chances.setIfInBounds i chance }
  let mean := (chance + 32) / 128
  if (← cut certain) < chance then
    narrow 0 chance
    modify fun m => (learned (chance + 128 - mean) m).afterSingle
    return (c.state 0).symbol
  else
    narrow chance (certain - chance)
    modify fun m =>
      { learned (chance - mean) m with
        escape := escapeShares.getD ((chance - mean) / 1024) 0
        wasLikely := false }
    return none

/-- The states of a context whose symbols do not follow a longer one, with their indexes. -/
def newStates (c longer : Context) : List (State × Nat) :=
  let mark (marks : Array Bool) (s : State) : Array Bool :=
    marks.setIfInBounds s.symbol.toNat true
  let marks := longer.states.foldl mark (Array.replicate 256 false)
  c.states.toList.zipIdx.filter fun (s, _) => !marks.getD s.symbol.toNat false

/-- Goes on to a shorter context that more symbols can follow, and returns it, if there is one. -/
def shorten (c : Context) : Nat → Work (Option Context)
  | 0 => return none
  | most + 1 => do
    let current := (← get).current
    match ((← get).context current).shorter with
    | none => return none
    | some i =>
      modify fun m => { m with fall := m.fall + 1, current := i }
      let shorter := (← get).context i
      if shorter.others = c.others then shorten c most else return shorter

/-- Takes the chance of an escape out of what is known of it. -/
def takeEscape (at? : Option Nat) : Work Nat := do
  let mean := ((at?.bind ((← get).escapes[·]?)).map Escape.mean).getD 0
  modify (·.modifyEscape at? fun e => { e with sum := e.sum - mean })
  return max mean 1

/-- Takes a symbol that does not follow a context from shorter ones, or none at the end of the
data. -/
def amongNew (longer : Context) : Nat → Work (Option UInt8)
  | 0 => return none
  | most + 1 => do
    let some c ← shorten longer (most + 1) | return none
    let states := newStates c longer
    let sum := total (fun (s, _) => s.count) states
    let at? := (← get).escapeAt? longer.others
    let escape ← takeEscape at?
    let number ← cut (sum + escape)
    match stateAt? number 0 states with
    | some (s, index, first) =>
      narrow first s.count
      modify fun m => (m.modifyEscape at? Escape.afterFound).afterEscape index
      return s.symbol
    | none =>
      require (number < sum + escape)
      narrow sum escape
      modify (·.modifyEscape at? (·.addSeen (sum + escape)))
      amongNew c most

/-- Takes a symbol, or none at the end of the data. A context is shorter than fewer others than
there are. -/
def symbol : Work (Option UInt8) := do
  let c := (← get).context (← get).current
  let most := (← get).contexts.size
  match ← if c.isSingle then ofSingle c else amongSeveral c with
  | some symbol => return symbol
  | none => amongNew c most

/-- Takes symbols to the end of the data, and writes them. -/
def symbols : Nat → Work Unit
  | 0 => return ()
  | most + 1 => do
    match ← symbol with
    | some symbol => do
      write symbol
      symbols most
    | none => require ((← getThe Interval).distance = 0)

/-! ## Streams -/

/-- An octet of packed data does not stand for more symbols than that, because no symbol is more
likely than 511 parts of 512. -/
def symbolsPerOctet : Nat := 4096

/-- Takes packed data. Data that breaks off stands for the symbols before. -/
def stream : Unpack Unit := do
  let settings ← little 2
  let order := settings % 16 + 1
  require (decide (2 ≤ order) && decide (settings / 4096 < 2))
  let number ← big 4
  require (number < 0xffffffff)
  let most := symbolsPerOctet * ((← get).rest.length + 4)
  let work := ((symbols most).run (Model.ofOrder order)).run { distance := UInt32.ofNat number }
  try
    let _ ← work
  catch
    | .ended => return ()
    | .corrupt => throw .corrupt

/-- The data in a packed form. -/
def unpack? (packed : Bytes) : Option Bytes :=
  stream.complete? packed

end Bytecode.Archive.Prediction
