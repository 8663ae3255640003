import Bytecode.Method
import Bytecode.Operation
import Std.Data.HashMap

/-!
# Control flow

Where control can go from a node of a body: to the targets of a jump or switch, to the next node
unless the node transfers control, and to the handlers of the exception ranges around it. A label
with several nodes denotes the last of them.
-/

namespace Bytecode

/-- Where labels stand in a body. -/
abbrev LabelPositions := LabelId → Option Nat

/-- The positions that a table lists. -/
def LabelPositions.ofTable (table : Std.HashMap LabelId Nat) : LabelPositions :=
  fun l => table[l]?

/-- The positions of the labels of a body. -/
def Body.labelTable (body : Body) : Std.HashMap LabelId Nat :=
  (body.foldl (fun (table, i) insn =>
    match insn.node with
    | .label l => (Std.HashMap.insert table l i, i + 1)
    | _ => (table, i + 1)) (∅, 0)).1

/-- The positions of the instructions of a body. -/
def Body.insnPositions (body : Body) : Std.HashMap InsnId Nat :=
  (body.foldl (fun (table, i) insn => (Std.HashMap.insert table insn.id i, i + 1)) (∅, 0)).1

/-- An exception range in terms of positions: the nodes from `start` to before `stop` are covered.
-/
structure CoveredRange where
  start : Nat
  stop : Nat
  handler : Nat
  catchType : Option String
  deriving DecidableEq, Repr

namespace CoveredRange

/-- The range in terms of positions, if all its labels have one. -/
def of (positions : LabelPositions) (r : ExceptionRange) : Option CoveredRange := do
  return ⟨← positions r.start, ← positions r.stop, ← positions r.handler, r.catchType⟩

/-- Whether a node is covered. -/
def covers (r : CoveredRange) (i : Nat) : Bool :=
  r.start ≤ i && i < r.stop

/-- The class of the exceptions that the handler takes. -/
def caught (r : CoveredRange) : String :=
  r.catchType.getD "java/lang/Throwable"

end CoveredRange

/-- The exception ranges of a method in terms of positions, unless a label is missing. -/
def Method.coveredRanges (m : Method) (positions : LabelPositions) : Option (List CoveredRange) :=
  m.exceptions.mapM (CoveredRange.of positions)

/-- Why control does not stay inside a body. -/
inductive EdgeError where
  | targetOutside
  | fallsOff
  deriving DecidableEq, Repr

/-- Whether control can go on to the next node, if the jumps that always jump are those of `always`.
-/
def Node.fallsThrough (always : JumpForm → Bool) : Node → Bool
  | .jump op _ => !always (.ofOpcode op)
  | .tableSwitch .. | .lookupSwitch .. => false
  | .simple op => !(op.isReturn || op == Opcode.athrow)
  | _ => true

/-- The nodes to which control can go from the node at a position, other than handlers: the targets
in their order, then the next node. -/
def Body.successors (body : Body) (positions : LabelPositions) (always : JumpForm → Bool) (i : Nat)
    (node : Node) : Except EdgeError (List Nat) :=
  match node.targets.mapM positions with
  | none => .error .targetOutside
  | some targets =>
    if node.fallsThrough always then
      if i + 1 < body.size then .ok (targets ++ [i + 1]) else .error .fallsOff
    else .ok targets

end Bytecode
