import Bytecode.Analysis.Frame
import Bytecode.ControlFlow

/-!
# Dataflow analysis

`analyze` computes a frame for every reachable node of a method: the join of the states in which
control can reach it. Nodes whose frame has changed wait in a queue, first come first served, and a
visit carries the state behind a node to its successors and the state before it to its handlers.

A frame changes only by enlarging the sources of a slot or by losing its kind or its literal, so
that the visits are bounded by `visitBound`. The loop takes that many steps at most; an analysis
that would take more is endless.
-/

namespace Bytecode.Analysis

/-- The state of the analysis between two visits. -/
structure Flow where
  frames : Array (Option Frame)
  queue : List Nat
  store : Store
  deriving Repr

/-- What the analysis of one method needs to know about it. -/
structure Context where
  body : Body
  positions : LabelPositions
  ranges : List CoveredRange

/-- The result of an analysis: the frames before the nodes, what their values share, and the room
that the method needs. -/
structure Frames where
  frames : Array (Option Frame)
  store : Store
  positions : Std.HashMap InsnId Nat
  maxLocals : Nat
  maxStack : Nat

namespace Frames

/-- The frame before the node at a position, unless it cannot be reached. -/
def frameAt (r : Frames) (i : Nat) : Option Frame :=
  r.frames[i]?.join

/-- The position of an instruction. -/
def indexOf? (r : Frames) (insn : InsnId) : Option Nat :=
  r.positions[insn]?

/-- The frame before an instruction. -/
def frame (r : Frames) (insn : InsnId) : Option Frame :=
  (r.indexOf? insn).bind r.frameAt

/-- The consumers of a value. -/
def usages (r : Frames) (v : Value) : InsnSet :=
  r.store.usages.usages v.key

end Frames

namespace Flow

/-- The jumps after which control never goes on with the next node. -/
def always : JumpForm → Bool
  | .always | .alwaysWide => true
  | _ => false

/-- Joins a frame into the one at a position. If that changes, the position is queued. -/
def mergeInto (flow : Flow) (target : Nat) (incoming : Frame) : Except AnalysisError Flow :=
  let enqueue (queue : List Nat) := if target ∈ queue then queue else queue ++ [target]
  match flow.frames[target]?.join with
  | none =>
    .ok { flow with
      frames := flow.frames.setIfInBounds target (some incoming)
      queue := enqueue flow.queue }
  | some existing =>
    match (existing.merge incoming).run flow.store with
    | .error e => .error (.merge target e)
    | .ok ((merged, changed), store) =>
      .ok { frames := flow.frames.setIfInBounds target (some merged)
            queue := if changed then enqueue flow.queue else flow.queue
            store }

/-- The frame at the entry of a handler: the locals of the covered node, and the exception. -/
def handlerFrame (before : Frame) (caught : String) : Step Frame := do
  let entry : Frame := { before with stack := [] }
  entry.push (← Store.ofType (.object caught))

/-- Carries the state before a node to a handler around it. -/
def visitHandler (before : Frame) (fail : FlowError → AnalysisError) (flow : Flow)
    (range : CoveredRange) : Except AnalysisError Flow :=
  match (handlerFrame before range.caught).run flow.store with
  | .error e => .error (fail e)
  | .ok (entry, store) => mergeInto { flow with store } range.handler entry

/-- Simulates a node and carries the states around it to where control can go. -/
def visitNode (ctx : Context) (i : Nat) (insn : Insn) (before : Frame) (flow : Flow) :
    Except AnalysisError Flow := do
  let fail := AnalysisError.instruction insn.node.describe i
  let (after, store) ← ((before.execute ctx.body i insn).run flow.store).mapError fail
  let successors ← (ctx.body.successors ctx.positions always i insn.node).mapError fun
    | .targetOutside => fail .targetOutside
    | .fallsOff => fail .fallsOff
  let flow ← successors.foldlM (fun flow target => mergeInto flow target after) { flow with store }
  (ctx.ranges.filter (·.covers i)).foldlM (visitHandler before fail) flow

/-- Visits a position. -/
def visit (ctx : Context) (i : Nat) (flow : Flow) : Except AnalysisError Flow :=
  match ctx.body[i]?, flow.frames[i]?.join with
  | some insn, some before => visitNode ctx i insn before flow
  | _, _ => .ok flow

/-- Visits the queued positions until none is left. -/
def run (ctx : Context) : Nat → Flow → Except AnalysisError Flow
  | 0, flow => .ok flow
  | fuel + 1, flow =>
    match flow.queue with
    | [] => .ok flow
    | i :: queue => do run ctx fuel (← visit ctx i { flow with queue })

end Flow

/-- The number of visits after which no frame can change any more: every node is visited once, and
again for every change of a slot. A slot gains each node of the body as a source, or loses its kind
or its literal, at most once; a node raises the stack by at most two values. -/
def visitBound (nodes slots : Nat) : Nat :=
  nodes * ((slots + 2 * nodes + 1) * (nodes + 2) + 1) + 1

/-- The values of the locals at the entry of a method: the receiver, the arguments, and nothing. -/
def entryLocals (owner : String) (isStatic : Bool) (arguments : List Descriptor) (maxLocals : Nat) :
    StoreM (List Value) := do
  let receiver ← if isStatic then pure [] else List.singleton <$> Store.ofType (.object owner)
  let passed ← arguments.mapM fun type => do
    let v ← Store.ofType type
    if v.isWide then return [v, ← Store.empty] else return [v]
  let given := receiver ++ passed.flatten
  let rest ← (List.replicate (maxLocals - given.length) ()).mapM fun _ => Store.empty
  return given ++ rest

/-- Computes the frames of a method of a class. -/
def analyze (owner : String) (m : Method) : Except Failure Frames := do
  let fail := Failure.analysis owner m.signature
  let descriptor ← m.parseDescriptor
  let declared := if m.maxStack.isNone then m.body.slotsNeeded else m.maxLocals.toNat
  let maxLocals := max declared (descriptor.slots m.isStatic).toNat
  let insnPositions := m.body.insnPositions
  if m.body.isEmpty then
    return { frames := #[], store := {}, positions := insnPositions, maxLocals, maxStack := 0 }
  let positions := LabelPositions.ofTable m.body.labelTable
  match m.coveredRanges positions with
  | none => throw (fail .missingRangeLabel)
  | some ranges =>
    let (locals, store) := (entryLocals owner m.isStatic descriptor.arguments maxLocals).run {}
    let entry : Frame := { locals, limit := m.maxStack.map UInt16.toNat }
    let start : Flow := {
      frames := (Array.replicate m.body.size none).setIfInBounds 0 (some entry)
      queue := [0]
      store }
    let flow ← (Flow.run ⟨m.body, positions, ranges⟩ (visitBound m.body.size locals.length) start).mapError
      fail
    if !flow.queue.isEmpty then throw .endless
    let words := flow.frames.foldl (fun n f => max n (f.elim 0 Frame.stackWords)) 0
    return {
      frames := flow.frames
      store := flow.store
      positions := insnPositions
      maxLocals
      maxStack := min words 65535 }

end Bytecode.Analysis
