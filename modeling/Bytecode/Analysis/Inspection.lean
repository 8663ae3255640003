import Bytecode.Analysis.Dataflow

/-!
# Inspections

Questions that an editor of bodies asks an analysis: where code can be inserted so that its result
lies at a given depth of the stack before an instruction (`safePushLocations`), where a given stack
entry can be changed (`safeModifyLocations`), how the topmost entries can be put aside
(`spill`), and which literal an entry holds.

Depths count from the top of the stack: the topmost entry has depth 0.
-/

namespace Bytecode.Analysis

/-- An analysis of a method of a class. -/
structure Inspection where
  owner : String
  method : Method
  frames : Frames

namespace Inspection

/-- The stack entry at a depth before an instruction. -/
def valueAt (a : Inspection) (insn : InsnId) (depth : Nat) : Option Value :=
  (a.frames.frame insn).bind (·.stackAt? depth)

/-- The literal at a depth of the stack before an instruction. -/
def literalAt (a : Inspection) (insn : InsnId) (depth : Nat) : Option Literal :=
  (a.valueAt insn depth).bind Value.literal

/-- What is found when the producers of a stack entry are followed back. -/
structure Trace where
  processed : InsnSet := []
  locations : InsnSet := []
  usages : InsnSet := []
  next : InsnSet := []

/-- Follows one producer back, for an entry that lies on the `below` lowest entries. A producer that
finds just these entries is a location; one that finds more is followed on through the entry that it
finds above them. The search fails at a producer that finds other entries. -/
def follow (frames : Frames) (below : List Value) (t : Trace) (source : InsnId) : Option Trace := do
  let frame ← frames.frame source
  let stack := frame.stack.reverse
  if stack.length < below.length then none
  else if (below.zip stack).any fun (v, w) => v.id != w.id then none
  else match stack[below.length]? with
    | none => return { t with locations := t.locations.insert source }
    | some entry =>
      let unseen := entry.sources.filter fun s => !t.processed.contains s
      return { t with
        usages := t.usages.union (frames.usages entry)
        next := t.next.union unseen }

/-- Follows the pending producers back, round by round. Each round but the last processes an
instruction that was not processed before. -/
def search (frames : Frames) (below : List Value) : Nat → InsnSet → Trace → Option Trace
  | 0, _, t => some t
  | _, [], t => some t
  | fuel + 1, pending, t => do
    let t ← pending.foldlM (follow frames below)
      { t with processed := t.processed.union pending, next := [] }
    search frames below fuel t.next t

/-- The instructions before which a value can be pushed so that it lies beneath the `depth` topmost
entries before `insn`, in the order of the body. There are none if that cannot be done safely. -/
def safePushLocations (a : Inspection) (insn : InsnId) (depth : Nat) : List InsnId :=
  match a.frames.frame insn with
  | none => []
  | some frame =>
    if frame.stack.length < depth then []
    else match depth with
      | 0 => [insn]
      | above + 1 =>
        match frame.stackAt? above with
        | none => []
        | some target =>
          let below := (frame.stack.drop depth).reverse
          let consumers := a.frames.usages target
          if 1 < consumers.length then []
          else match search a.frames below (a.frames.frames.size + 1) target.sources {} with
            | none => []
            | some t =>
              let extra := t.usages.filter fun i =>
                consumers.head? != some i && !t.processed.contains i
              if extra.isEmpty then
                t.locations.mergeSort fun i j =>
                  (a.frames.indexOf? i).getD 0 ≤ (a.frames.indexOf? j).getD 0
              else []

/-- The instructions before which the entry at a depth of the stack before `insn` lies on top of the
stack, in the order of the body: those that follow its producers. There are none if the entry has
several consumers. -/
def safeModifyLocations (a : Inspection) (insn : InsnId) (depth : Nat) : List InsnId :=
  match a.valueAt insn depth with
  | none => []
  | some v =>
    if 1 < (a.frames.usages v).length then []
    else
      let producers := (v.sources.filterMap a.frames.indexOf?).mergeSort (· ≤ ·)
      producers.filterMap fun i => a.method.body[i + 1]?.map Insn.id

/-- The first local variable slot that nothing before `insn` uses. -/
def nextFreeLocal (a : Inspection) (insn : InsnId) : Nat :=
  (a.frames.frame insn).elim a.frames.maxLocals fun f => min f.locals.length 65535

/-- The stores that take entries off the stack into the slots from `slot` on, and the loads that
bring them back. Slot numbers have 16 bits and wrap around. Together with a failure stand the stores
before it. -/
def spillFrom (slot : UInt16) : List Value → List Node × Except AnalysisError (List Node)
  | [] => ([], .ok [])
  | v :: rest =>
    match v.kind.storeOpcode, v.kind.loadOpcode with
    | some store, some load =>
      let (stores, loads) := spillFrom (slot + .ofNat v.size) rest
      (.var store slot :: stores, loads.map (.var load slot :: ·))
    | _, _ => ([], .error (.unspillable v.kind))

/-- The stores that put the `depth` topmost entries before an instruction aside, the topmost first,
and the loads that bring them back in the opposite order. -/
def spill (a : Inspection) (insn : InsnId) (depth : Nat) : List Node × Except Failure (List Node) :=
  match a.frames.frame insn with
  | none => ([], .ok [])
  | some frame =>
    if depth = 0 ∨ frame.stack.length < depth then ([], .ok [])
    else
      let (stores, loads) := spillFrom (.ofNat (a.nextFreeLocal insn)) (frame.stack.take depth)
      (stores, loads.mapError (.analysis a.owner a.method.signature))

/-- Adds a text to the builder literal at a depth of the stack before an instruction and returns its
contents. All values with the same buffer see the change. -/
def appendAt (a : Inspection) (insn : InsnId) (depth : Nat) (text : String) :
    Option (String × Inspection) :=
  match a.literalAt insn depth with
  | some (.builder i) =>
    let store := a.frames.store
    let buffers := store.buffers.append i text
    some (buffers.contents i, { a with frames := { a.frames with store := { store with buffers } } })
  | _ => none

end Inspection

end Bytecode.Analysis
