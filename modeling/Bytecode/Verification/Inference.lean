import Bytecode.Class
import Bytecode.ControlFlow
import Bytecode.Verification.Frame

/-!
# Inference of type frames

`inferFrames` computes a type frame for every reachable node of a method. It works like the dataflow
analysis: nodes whose frame has changed wait in a queue, and a visit carries the frame behind a node
to its successors and the locals before it to the handlers around it.

A slot changes only towards a supertype. Where the chains of superclasses end, a slot therefore
changes only so often, which `visitBound` counts. The loop takes that many steps at most; an
inference that would take more is endless.
-/

namespace Bytecode

/-- The result of an inference: the frames before the nodes, and the room that the method needs. -/
structure MethodFrames where
  frames : Array (Option TypeFrame)
  maxStack : Nat
  maxLocals : Nat
  deriving Repr

/-- What the inference needs to know about a method. -/
structure InferenceContext where
  hierarchy : Hierarchy
  owner : String
  signature : String
  body : Body
  positions : LabelPositions
  ranges : List CoveredRange

/-- The state of the inference between two visits. -/
structure InferenceState where
  frames : Array (Option TypeFrame)
  queue : List Nat
  maxStack : Nat := 0
  deriving DecidableEq, Repr

namespace InferenceContext

/-- An inference error at a position. -/
def fail (ctx : InferenceContext) (i : Nat) (cause : InferenceError) : Failure :=
  let name := (ctx.body[i]?).elim "label" fun insn => insn.node.describe
  .write ctx.owner (.instruction name i ctx.signature cause)

/-- The nodes to which control can go from a position. -/
def successors (ctx : InferenceContext) (i : Nat) (node : Node) : Except Failure (List Nat) :=
  (ctx.body.successors ctx.positions (· == .always) i node).mapError fun
    | .targetOutside => ctx.fail i .targetOutside
    | .fallsOff => ctx.fail i .fallsOff

/-- Joins a frame into the one at a position. If that changes, the position is queued. -/
def mergeInto (ctx : InferenceContext) (s : InferenceState) (target : Nat) (incoming : TypeFrame) :
    Except Failure InferenceState := do
  let update (frame : TypeFrame) : InferenceState := { s with
    frames := s.frames.setIfInBounds target (some frame)
    queue := if target ∈ s.queue then s.queue else s.queue ++ [target] }
  match s.frames[target]?.join with
  | none => return update incoming
  | some existing =>
    let merged ← (existing.merge ctx.hierarchy incoming).mapError (ctx.fail target)
    if merged = existing then return s else return update merged

/-- The frame at the entry of a handler: the locals of the covered node, and the exception. -/
def handlerFrame (before : TypeFrame) (range : CoveredRange) : TypeFrame :=
  { locals := before.locals, stack := [.object range.caught] }

/-- Simulates a node and carries the frames around it to where control can go. -/
def visitNode (ctx : InferenceContext) (i : Nat) (node : Node) (before : TypeFrame)
    (s : InferenceState) : Except Failure InferenceState := do
  let after ← (before.execute ctx.body ctx.owner i node).mapError (ctx.fail i)
  let s := { s with maxStack := max s.maxStack (max before.stack.length after.stack.length) }
  let successors ← ctx.successors i node
  let s ← successors.foldlM (fun s target => ctx.mergeInto s target after) s
  (ctx.ranges.filter (·.covers i)).foldlM
    (fun s range => ctx.mergeInto s range.handler (handlerFrame before range)) s

/-- Visits a position. -/
def visit (ctx : InferenceContext) (i : Nat) (s : InferenceState) :
    Except Failure InferenceState :=
  match ctx.body[i]?, s.frames[i]?.join with
  | some insn, some before => ctx.visitNode i insn.node before s
  | _, _ => .ok s

/-- Visits the queued positions until none is left. -/
def run (ctx : InferenceContext) : Nat → InferenceState → Except Failure InferenceState
  | 0, s => .ok s
  | fuel + 1, s =>
    match s.queue with
    | [] => .ok s
    | i :: queue => do ctx.run fuel (← ctx.visit i { s with queue })

/-- The number of visits after which no frame can change any more, if no chain of superclasses is
longer than `Hierarchy.maxDepth`: every node is visited once, and again for every change of a slot.
A slot that is changed stops being null, or it loses a dimension of its array or a class of its chain
of superclasses. Names have at most `names` characters, and a node raises the stack by at most two
words. -/
def visitBound (nodes maxLocals names : Nat) : Nat :=
  nodes * ((maxLocals + 2 * nodes) * (names + Hierarchy.maxDepth + 2) + 1) + 1

end InferenceContext

/-- No type that a node brings into a frame has a name of more characters, unless the inference knows
its class by itself. -/
def Node.nameLength : Node → Nat
  | .type _ name => name.length + 3
  | .newArrays descriptor _ => descriptor.length
  | .call _ owner _ descriptor _ => max owner.length descriptor.length
  | .field _ _ _ descriptor | .dynamicCall _ descriptor _ _ => descriptor.length
  | .constant (.dynamic _ descriptor _ _) => descriptor.length
  | _ => 0

/-- The longest name among the classes that the inference knows by itself. -/
def longestKnownClass : String := "java/lang/invoke/MethodHandle"

/-- The length of the longest name or descriptor that can come into a frame of a method. -/
def Method.longestName (m : Method) (owner : String) : Nat :=
  let nodes := m.body.foldl (fun n insn => max n insn.node.nameLength) m.descriptor.length
  let caught := m.exceptions.map fun r => (r.catchType.elim 0 String.length)
  caught.foldl max (max nodes (max owner.length longestKnownClass.length))

/-- The types at the entry of a method of a class named `owner`, in a number of slots. -/
def Method.entryFrame (m : Method) (owner : String) (arguments : List Descriptor)
    (maxLocals : Nat) : TypeFrame :=
  let receiver : List VerificationType :=
    if m.isStatic then []
    else if m.name = "<init>" ∧ owner ≠ objectClass then [.uninitializedThis]
    else [.object owner]
  let passed := (arguments.filterMap VerificationType.ofDescriptor).flatMap fun type =>
    if type.isWide then [type, .top] else [type]
  { locals := (receiver ++ passed).take maxLocals ++
      List.replicate (maxLocals - (receiver ++ passed).length) .top }

/-- Infers the type frames of a method of a class named `owner`. -/
def inferFrames (h : Hierarchy) (owner : String) (m : Method) : Except Failure MethodFrames := do
  let descriptor ← m.parseDescriptor
  let maxLocals := max (max m.maxLocals.toNat (descriptor.slots m.isStatic).toNat) m.body.slotsNeeded
  if m.body.isEmpty then return { frames := #[], maxStack := 0, maxLocals }
  let positions := LabelPositions.ofTable m.body.labelTable
  match m.coveredRanges positions with
  | none => throw (.write owner (.missingRangeLabel m.signature))
  | some ranges =>
    let entry := m.entryFrame owner descriptor.arguments maxLocals
    let start : InferenceState := {
      frames := (Array.replicate m.body.size none).setIfInBounds 0 (some entry)
      queue := [0] }
    let bound := InferenceContext.visitBound m.body.size maxLocals (m.longestName owner)
    let final ← InferenceContext.run ⟨h, owner, m.signature, m.body, positions, ranges⟩ bound start
    if !final.queue.isEmpty then throw .endless
    if 65535 < final.maxStack then throw (.write owner .stackTooDeep)
    return { frames := final.frames, maxStack := final.maxStack, maxLocals }

/-- What the hierarchy tells about a class itself. -/
def Class.header (c : Class) : ClassHeader :=
  ⟨c.superName, c.isInterface⟩

/-- The hierarchy that a class sees: itself, and the known classes. -/
def Class.hierarchy (c : Class) (known : String → Option ClassHeader) : Hierarchy :=
  fun name => if name = c.name then some c.header else known name

end Bytecode
