import Bytecode.Archive.Unpack.Prediction.Context

/-!
# Models of a text

A model holds all contexts that a text has shown so far. The first one is that of no symbols, which
every symbol can follow. It grows with the text: `learn` is told which symbol has followed, counts
it in the contexts that have predicted it, and adds it to those that have not.

A context is made when its symbols come for the second time. Before that, a state leads to a place
in the text, where the symbol stands that has followed.
-/

namespace Bytecode.Archive.Prediction

/-- Which state of which context. -/
structure Place where
  context : Nat
  index : Nat
  deriving DecidableEq, Repr, Inhabited

/-- How likely it is that another symbol follows than those of a context, as the mean of what was
seen: a sum, by which power of two it is divided, and after how many symbols the mean becomes
slower. -/
structure Escape where
  sum : Nat
  width : Nat
  left : Nat
  deriving DecidableEq, Repr, Inhabited

/-- All that has been learned. The next symbol is expected in `current`, which is a part of
`longest`, and is less than the longest possible one by `fall` symbols. `found` is the state that
has predicted the last symbol in `current`. -/
structure Model where
  contexts : Array Context
  text : Array UInt8 := #[]
  current : Nat := 0
  longest : Nat := 0
  found : Nat := 0
  fall : Nat
  run : Int
  shortestRun : Int
  wasLikely : Bool := false
  escape : Nat := 0
  chances : Array Nat
  escapes : Array Escape
  deriving Repr

/-! ## Chances -/

/-- The bucket of every number. Small numbers have their own, and greater ones share. -/
def buckets : Array Nat :=
  (List.range 5 ++ (List.range 22).flatMap fun i => List.replicate (i + 1) (5 + i)).toArray

/-- How many numbers have a bucket that is not above one. -/
def numbersTo (bucket : Nat) : Nat :=
  (buckets.filter (· ≤ bucket)).size

/-- The chance of a symbol is told in such parts. -/
def certain : Nat := 16384

/-- What the chances of single symbols are less than `certain` at first, by what is known of their
contexts. -/
def firstDoubts : List Nat :=
  [0x3cdd, 0x1f3f, 0x59bf, 0x48f3, 0x64a1, 0x5abc, 0x6632, 0x6051]

/-- The chances of single symbols before anything has been seen. Every bucket has 64 of them. -/
def firstChances : Array Nat :=
  let row (bucket : Nat) : List Nat :=
    firstDoubts.map fun doubt => certain - doubt / (numbersTo bucket + 1)
  ((List.range 25).flatMap fun bucket => (List.replicate 8 (row bucket)).flatten).toArray

/-- How likely other symbols are before anything has been seen. Every bucket has 32 such. -/
def firstEscapes : Array Escape :=
  let escape (bucket : Nat) : Escape := ⟨8 * (2 * (numbersTo (bucket + 3) - 3) + 5), 3, 7⟩
  ((List.range 24).flatMap fun bucket => List.replicate 32 (escape bucket)).toArray

/-- The share of an escape from a single symbol, by its chance. -/
def escapeShares : Array Nat :=
  #[25, 14, 9, 7, 5, 5, 4, 4, 4, 3, 3, 3, 2, 2, 2, 2]

namespace Escape

/-- The mean of what was seen. -/
def mean (e : Escape) : Nat :=
  e.sum / Nat.pow 2 e.width

/-- Adds what has been seen. -/
def addSeen (e : Escape) (seen : Nat) : Escape :=
  { e with sum := (e.sum + seen) % 65536 }

/-- The mean after a symbol has been found. It becomes slower with time. -/
def afterFound (e : Escape) : Escape :=
  if 7 ≤ e.width then e
  else if e.left = 1 then
    ⟨2 * e.sum % 65536, e.width + 1, 3 * Nat.pow 2 e.width⟩
  else { e with left := e.left - 1 }

end Escape

namespace Model

/-- The model before a text, given how many symbols a context can have. -/
def ofOrder (order : Nat) : Model :=
  let symbols := (List.range 256).map fun n => ({ symbol := UInt8.ofNat n, count := 1 } : State)
  let shortestRun : Int := -(min order 12 : Nat) - 1
  { contexts := #[{ states := symbols.toArray, total := 257 }]
    fall := order
    run := shortestRun
    shortestRun
    chances := firstChances
    escapes := firstEscapes }

/-! ## Contexts -/

/-- The context with an index. -/
def context (m : Model) (i : Nat) : Context :=
  m.contexts.getD i default

/-- Changes a context. -/
def modifyContext (m : Model) (i : Nat) (f : Context → Context) : Model :=
  { m with contexts := m.contexts.modify i f }

/-- The state at a place. -/
def state (m : Model) (p : Place) : State :=
  (m.context p.context).state p.index

/-- The model in which the state at a place leads somewhere. -/
def lead (m : Model) (p : Place) (target : Target) : Model :=
  m.modifyContext p.context fun c => c.modifyState p.index fun s => { s with target }

/-- Where the symbol was found. -/
def foundPlace (m : Model) : Place :=
  ⟨m.current, m.found⟩

/-- The contexts that are shorter than one, given a number that is not less than theirs. -/
def shorterOf (m : Model) (i : Nat) : Nat → List Nat
  | 0 => []
  | most + 1 =>
    match (m.context i).shorter with
    | some j => j :: m.shorterOf j most
    | none => []

/-- The contexts that are shorter than one, the longest one first. A shorter one has been made
before. -/
def shorter (m : Model) (i : Nat) : List Nat :=
  m.shorterOf i i

/-- The model without the last symbol of its text. -/
def forget (m : Model) : Model :=
  { m with text := m.text.pop }

/-! ## Growth -/

/-- Counts a symbol once more in the context in front of shorter ones, before a context is made from
its states. -/
def countForGrowth (m : Model) (i index : Nat) (shorter : List Nat) : Model :=
  let c := m.context i
  if !c.isSingle then m.modifyContext i (·.addModestly index 1)
  else if ((shorter.head?.map m.context).map Context.isSingle).getD false then
    m.modifyContext i (·.addSingle 24)
  else m

/-- Follows the contexts that are shorter than one while the state of a symbol leads to a place in
the text, and collects these states. Returns the context to which the next one leads. `known` is the
index of the first state, if it has been counted. -/
def collect (m : Model) (symbol : UInt8) (target : Target) (known : Option Nat)
    (found : List Place) (last : Nat) : List Nat → Model × List Place × Nat
  | [] => (m, found, last)
  | i :: shorter =>
    let index := known.getD ((m.context i).find symbol)
    let m := if known.isSome then m else m.countForGrowth i index shorter
    match (m.state ⟨i, index⟩).target with
    | .context next => (m, found, next)
    | _ => m.collect symbol target none (⟨i, index⟩ :: found) i shorter

/-- Makes a context that is longer than another one, to which the state at a place leads from now
on. -/
def addContext (m : Model) (c : Context) (p : Place) (shorter : Nat) : Model × Nat :=
  let made := m.contexts.size
  let m := { m with contexts := m.contexts.push { c with shorter := some shorter } }
  (m.lead p (.context made), made)

/-- Makes the contexts to which the state at a place leads, and those that are parts of them, and
returns the longest one. If this state itself is to be left out, it is not led to it. -/
def grow (m : Model) (p : Place) (isLeftOut : Bool) (known : Option Nat) : Model × Nat :=
  let s := m.state p
  let found := if isLeftOut then [] else [p]
  let (m, found, next) := m.collect s.symbol s.target known found p.context (m.shorter p.context)
  match found, s.target with
  | _ :: _, .text place =>
    let symbol := m.text.getD place 0
    let count := (m.context next).countOfLonger symbol
    let c : Context :=
      { states := #[{ symbol, count, target := .text (place + 1) }]
        hasHigh := isHigh symbol
        endsHigh := isHigh s.symbol }
    found.foldl (fun (m, next) p => m.addContext c p next) (m, next)
  | _, _ => (m, next)

/-- Lets the state of a symbol in the contexts that are shorter than one lead to a place in the
text, as long as they lead nowhere, and returns the first state that leads anywhere, or the last
context. -/
def fallThrough (m : Model) (symbol : UInt8) (target : Target) (known : Option Nat) (last : Nat) :
    List Nat → Model × (Place ⊕ Nat)
  | [] => (m, .inr last)
  | i :: shorter =>
    let index := known.getD ((m.context i).find symbol)
    let count (c : Context) : Context :=
      if c.isSingle then c.addSingle 32 else c.addModestly index 2
    let m := if known.isSome then m else m.modifyContext i count
    if (m.state ⟨i, index⟩).target = .unknown then
      let m := { m with fall := m.fall + 1 }.lead ⟨i, index⟩ target
      m.fallThrough symbol target none i shorter
    else (m, .inl ⟨i, index⟩)

/-- Finds the longest context to which a symbol leads that has led nowhere yet in the context where
it was found. -/
def fallBack (m : Model) (known : Option Nat) : Model × Nat :=
  let p := m.foundPlace
  let target := Target.text m.text.size
  let m := { m with fall := m.fall + 1 }.lead p target
  match m.fallThrough (m.state p).symbol target known m.current (m.shorter m.current) with
  | (m, .inr last) => (m, last)
  | (m, .inl q) =>
    let (m, next) :=
      match (m.state q).target with
      | .context next => (m, next)
      | _ => m.grow q false none
    let m := m.lead q (.context next)
    if m.fall = 1 ∧ m.current = m.longest then ((m.lead p (.context next)).forget, next)
    else (m, next)

/-! ## Learning -/

/-- Counts a symbol also in the context that is shorter than the current one, unless its count is
great, and returns the index of its state there. -/
def countShorter (m : Model) (s : State) : Model × Option Nat :=
  match (m.context m.current).shorter with
  | none => (m, none)
  | some i =>
    if mostCount / 4 ≤ s.count then (m, none)
    else
      let c := m.context i
      if c.isSingle then (m.modifyContext i (·.addSingle 32), some 0)
      else
        let index := c.find s.symbol
        if 0 < index ∧ (c.state (index - 1)).count ≤ (c.state index).count then
          (m.modifyContext i fun c => (c.raise index).addModestly (index - 1) 2, some (index - 1))
        else (m.modifyContext i (·.addModestly index 2), some index)

/-- Adds the symbol that was found in the current context to the longer ones, where it was not. -/
def insert (m : Model) (s : State) (target : Target) : Model :=
  let c := m.context m.current
  let rest := c.total - c.others - s.count
  let longer := (m.longest :: m.shorter m.longest).takeWhile (· ≠ m.current)
  let escape := m.escape
  let step (m : Model) (i : Nat) : Model :=
    m.modifyContext i (·.insert s.symbol target s.count c.others rest escape)
  longer.foldl step m

/-- The model in which a context is the one behind the text. -/
def enter (m : Model) (i : Nat) : Model :=
  { m with current := i, longest := i }

/-- Learns the symbol that was found. -/
def learn (m : Model) : Model :=
  let p := m.foundPlace
  let s := m.state p
  let (m, known) := m.countShorter s
  if m.fall = 0 ∧ s.target ≠ .unknown then
    let (m, next) := m.grow p true known
    (m.lead p (.context next)).enter next
  else
    let m := { m with text := m.text.push s.symbol }
    let behind := m.text.size
    let (m, next) :=
      match s.target with
      | .unknown => m.fallBack known
      | .text _ => m.grow p false known
      | .context next => (m, next)
    let m := { m with fall := m.fall - 1 }
    if m.fall = 0 then
      let m := m.insert s (.context next)
      (if m.longest = m.current then m else m.forget).enter next
    else (m.insert s (.text behind)).enter next

/-- Goes on to the context to which the symbol leads that was found. -/
def goOn (m : Model) : Model :=
  match m.fall, (m.state m.foundPlace).target with
  | 0, .context next => m.enter next
  | _, _ => m.learn

/-- Halves the counts of the current context if that of the state has become too great that was
found. -/
def halveIfGreat (m : Model) : Model :=
  if (m.state m.foundPlace).count ≤ mostCount then m
  else
    let index := m.found
    let isLongest := m.fall == 0
    { m with found := 0 }.modifyContext m.current (·.halve index isLongest)

/-- Counts the symbol that was found. -/
def count (m : Model) : Model :=
  let index := m.found
  m.modifyContext m.current (·.add index 4)

/-- The model after a symbol was found in the first state of a context. -/
def afterFirst (m : Model) : Model :=
  let c := m.context m.current
  let isLikely := decide (c.total ≤ 2 * (c.state 0).count)
  let m := { m with found := 0, wasLikely := isLikely, run := m.run + isLikely.toNat }
  m.count.halveIfGreat.goOn

/-- The model after a symbol was found in a state behind the first one. -/
def afterLater (m : Model) (index : Nat) : Model :=
  let m := { m with found := index, wasLikely := false }.count
  let c := m.context m.current
  if (c.state (index - 1)).count < (c.state index).count then
    ({ m with found := index - 1 }.modifyContext m.current (·.raise index)).halveIfGreat.goOn
  else m.goOn

/-- The model after the symbol of a single state was found. -/
def afterSingle (m : Model) : Model :=
  let m := { m with found := 0, wasLikely := true, run := m.run + 1 }
  (m.modifyContext m.current (·.addSingle 196)).goOn

/-- The model after a symbol was found that a longer context has not predicted. -/
def afterEscape (m : Model) (index : Nat) : Model :=
  let m := { m with found := index }.count.halveIfGreat
  { m with run := m.shortestRun }.learn

/-! ## Escapes -/

/-- Which chance that of the single symbol is. -/
def singleChanceAt (m : Model) : Nat :=
  let c := m.context m.current
  let rivals := ((c.shorter.map m.context).map Context.others).getD 0
  let rivalClass := if rivals = 0 then 0 else if rivals = 1 then 2 else if rivals < 11 then 4 else 6
  64 * buckets.getD ((c.state 0).count - 1) 0 + m.wasLikely.toNat + rivalClass + c.flags +
    if m.run < 0 then 32 else 0

/-- Which escape is that from the current context, given how many symbols beside the first one are
excluded. From the context of no symbols there is none to learn. -/
def escapeAt? (m : Model) (excluded : Nat) : Option Nat :=
  let c := m.context m.current
  if c.others = 255 then none
  else
    let rivals := ((c.shorter.map m.context).map Context.others).getD 0
    let isUnsure := decide (11 * (c.others + 1) < c.total)
    let isCrowded := decide (2 * c.others < rivals + excluded)
    some (32 * (buckets.getD (c.others + 2) 0 - 3) + isUnsure.toNat + 2 * isCrowded.toNat + c.flags)

/-- Changes what is known of an escape. -/
def modifyEscape (m : Model) (at? : Option Nat) (f : Escape → Escape) : Model :=
  match at? with
  | none => m
  | some i => { m with escapes := m.escapes.modify i f }

end Model

end Bytecode.Archive.Prediction
