import Bytecode.Identity
import Bytecode.Analysis.Literal

/-!
# Abstract values

An abstract value describes what a stack entry or a local variable can hold: its kind, the
instructions that may have produced it, the key of its consumers, and its literal where that is
known. Values have an identity: two slots hold the same value if the same copy was never made or
merged in between.

The `Store` holds what all values of one analysis share: the usage table, the buffers of string
builders and the supply of identities.
-/

/-! ## Usage classes

Every abstract value has a usage key, and every key belongs to a class that holds the instructions
which consume a value of the class. Where control flow joins, the classes of the joining values are
united.

The table keeps for every key the representative of its class, and at the representative the keys
and the consumers of the class. `find` therefore needs no search.
-/

namespace Bytecode.Analysis

/-- The key of a value in the usage table. -/
structure UsageKey where
  val : Nat
  deriving DecidableEq, Hashable, Repr, Inhabited

/-- A partition of the keys handed out so far, with a set of consumers for every class. -/
structure UsageTable where
  representatives : Array Nat := #[]
  members : Array (List Nat) := #[]
  consumers : Array InsnSet := #[]
  deriving Repr, Inhabited

namespace UsageTable

/-- A new key in a class of its own. -/
def fresh (t : UsageTable) : UsageKey × UsageTable :=
  let key := t.representatives.size
  (⟨key⟩, {
    representatives := t.representatives.push key
    members := t.members.push [key]
    consumers := t.consumers.push [] })

/-- The representative of the class of a key. -/
def find (t : UsageTable) (key : UsageKey) : UsageKey :=
  ⟨t.representatives.getD key.val key.val⟩

/-- The instructions that consume a value of the class of a key. -/
def usages (t : UsageTable) (key : UsageKey) : InsnSet :=
  t.consumers.getD (t.find key).val []

/-- Whether two keys belong to one class. -/
def sameClass (t : UsageTable) (a b : UsageKey) : Bool :=
  t.find a == t.find b

/-- Adds a consumer to the class of a key. -/
def record (t : UsageTable) (key : UsageKey) (insn : InsnId) : UsageTable :=
  { t with consumers := t.consumers.modify (t.find key).val (InsnSet.insert insn) }

/-- Unites the classes of two keys. The class with more consumers keeps its representative, the
first one if both have equally many. -/
def union (t : UsageTable) (a b : UsageKey) : UsageTable :=
  let ra := (t.find a).val
  let rb := (t.find b).val
  if ra = rb then t
  else
    let ca := t.consumers.getD ra []
    let cb := t.consumers.getD rb []
    let (kept, dropped) := if cb.length ≤ ca.length then (ra, rb) else (rb, ra)
    let moved := t.members.getD dropped []
    { representatives := moved.foldl (fun known key => known.setIfInBounds key kept) t.representatives
      members := (t.members.modify kept (moved ++ ·)).setIfInBounds dropped []
      consumers := (t.consumers.setIfInBounds kept (InsnSet.union ca cb)).setIfInBounds dropped [] }

end UsageTable

/-! ## Values -/

/-- The identity of an abstract value. -/
structure ValueId where
  val : Nat
  deriving DecidableEq, Hashable, Repr, Inhabited

/-- What a slot can hold. -/
structure Value where
  id : ValueId
  kind : Kind
  sources : InsnSet
  key : UsageKey
  literal : Option Literal
  deriving Repr, Inhabited

namespace Value

/-- The words that the value takes. -/
def size (v : Value) : Nat :=
  v.kind.size

/-- Whether the value takes two words. -/
def isWide (v : Value) : Bool :=
  v.kind.isWide

/-- Whether two values agree in all that they say about a slot. -/
def sameState (b : Buffers) (v w : Value) : Bool :=
  v.kind == w.kind && v.sources == w.sources &&
    match v.literal, w.literal with
    | some l, some m => l.same b m
    | none, none => true
    | _, _ => false

end Value

/-- What the values of one analysis share. -/
structure Store where
  usages : UsageTable := {}
  buffers : Buffers := {}
  nextValue : Nat := 0
  deriving Repr, Inhabited

/-- Computations on a store. -/
abbrev StoreM := StateM Store

namespace Store

/-- A new value with a usage class of its own. -/
def make (kind : Kind) (sources : InsnSet) (literal : Option Literal) : StoreM Value := fun s =>
  let (key, usages) := s.usages.fresh
  (⟨⟨s.nextValue⟩, kind, sources, key, literal⟩, { s with usages, nextValue := s.nextValue + 1 })

/-- A value about which nothing is known. -/
def empty : StoreM Value :=
  make .uninitialized [] none

/-- A value of a type that no instruction produced. -/
def ofType (type : Descriptor) : StoreM Value :=
  match Kind.ofDescriptor type with
  | some kind => make kind [] none
  | none => empty

/-- Notes that an instruction consumes a value. -/
def consume (insn : InsnId) (v : Value) : StoreM Unit :=
  modify fun s => { s with usages := s.usages.record v.key insn }

/-- A new buffer. -/
def alloc (text : String) : StoreM BufferId := fun s =>
  let (i, buffers) := s.buffers.alloc text
  (i, { s with buffers })

/-- Adds a text to a buffer. -/
def append (i : BufferId) (text : String) : StoreM Unit :=
  modify fun s => { s with buffers := s.buffers.append i text }

/-- The literal that two values have in common, with the identity of the first one. -/
def commonLiteral (b : Buffers) (v w : Value) : Option Literal :=
  match v.literal, w.literal with
  | some l, some m => if l.same b m then some l else none
  | _, _ => none

/-- The value of a slot where control flow joins: what holds of both values. The consumers of both
are united. The old value stays as it is if the incoming one tells nothing new. -/
def merge (old incoming : Value) : StoreM Value := fun s =>
  let s := { s with usages := s.usages.union old.key incoming.key }
  if old.id = incoming.id then (old, s)
  else
    let kind := if old.kind = incoming.kind then old.kind else .uninitialized
    let sources := old.sources.union incoming.sources
    let literal := commonLiteral s.buffers old incoming
    if kind = old.kind ∧ sources = old.sources ∧ literal.isSome = old.literal.isSome then (old, s)
    else (⟨⟨s.nextValue⟩, kind, sources, old.key, literal⟩, { s with nextValue := s.nextValue + 1 })

end Store

end Bytecode.Analysis
