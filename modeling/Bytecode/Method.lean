import Bytecode.Failure
import Bytecode.Instruction
import Std.Data.HashMap

/-!
# Methods

A method is its header, its body and the tables beside the body: exception ranges and named local
variables, both bounded by labels. `Method.revision` counts the announced edits of the body, so that
results about it can be recognised as outdated.

`Method.copy` makes a body that shares no identity with the given one: nodes are new, and labels are
replaced by new ones consistently in nodes and tables.
-/

namespace Bytecode

/-- A part of a class file that the library carries along without looking inside. -/
structure Attribute where
  name : String
  data : Bytes
  deriving DecidableEq, Repr, Inhabited

/-- A range of a body whose exceptions of one type, or of any, go to a handler. -/
structure ExceptionRange where
  start : LabelId
  stop : LabelId
  handler : LabelId
  catchType : Option String
  deriving DecidableEq, Repr, Inhabited

namespace ExceptionRange

/-- The labels of a range. -/
def labels (r : ExceptionRange) : List LabelId :=
  [r.start, r.stop, r.handler]

/-- Replaces the labels of a range. -/
def mapLabels (f : LabelId → LabelId) (r : ExceptionRange) : ExceptionRange :=
  { r with start := f r.start, stop := f r.stop, handler := f r.handler }

end ExceptionRange

/-- A named local variable with the range in which its slot holds it. -/
structure LocalVariable where
  name : String
  descriptor : String
  signature : Option String
  start : LabelId
  stop : LabelId
  index : UInt16
  deriving DecidableEq, Repr, Inhabited

namespace LocalVariable

/-- The labels of a variable. -/
def labels (v : LocalVariable) : List LabelId :=
  [v.start, v.stop]

/-- Replaces the labels of a variable. -/
def mapLabels (f : LabelId → LabelId) (v : LocalVariable) : LocalVariable :=
  { v with start := f v.start, stop := f v.stop }

end LocalVariable

/-- The access flags of a class, field or method. -/
abbrev Access := UInt16

/-- A method with its body. A body without nodes stands for none. -/
structure Method where
  id : MethodId
  revision : Nat := 0
  access : Access
  name : String
  descriptor : String
  body : Body := #[]
  maxLocals : UInt16 := 0
  maxStack : Option UInt16 := none
  exceptions : List ExceptionRange := []
  localVariables : List LocalVariable := []
  attributes : List Attribute := []
  deriving Repr, Inhabited

namespace Method

/-- Whether the method takes no receiver. -/
def isStatic (m : Method) : Bool :=
  m.access &&& 0x0008 != 0

/-- The name and the descriptor, which identify a method in its class. -/
def signature (m : Method) : String :=
  m.name ++ m.descriptor

/-- The parsed descriptor. -/
def parseDescriptor (m : Method) : Except Failure MethodDescriptor :=
  (MethodDescriptor.parse m.descriptor).mapError Failure.descriptor

/-- Announces an edit of the body: results about the old body are outdated, and the stack height is
unknown. -/
def markModified (m : Method) : Method :=
  { m with revision := m.revision + 1, maxStack := none }

/-- Every label that the body or a table mentions, in order. -/
def labels (m : Method) : List LabelId :=
  m.body.toList.flatMap (·.node.labels) ++ m.exceptions.flatMap ExceptionRange.labels ++
    m.localVariables.flatMap LocalVariable.labels

/-- Replaces the labels of the body and the tables. -/
def mapLabels (f : LabelId → LabelId) (m : Method) : Method :=
  { m with
    body := m.body.map fun insn => { insn with node := insn.node.mapLabels f }
    exceptions := m.exceptions.map (·.mapLabels f)
    localVariables := m.localVariables.map (·.mapLabels f) }

end Method

/-! ## Copies of methods

`Method.copy` gives a body a second life under new identities, as the inliner needs for every call
site. Labels are renamed by one table for the nodes, the exception ranges and the variables, and the
table sends different labels to different new ones.
-/

/-- Numbers the labels of a list in the order of their first occurrence. -/
def numberLabels (labels : List LabelId) : Std.HashMap LabelId Nat :=
  labels.foldl (fun table l => if table.contains l then table else table.insert l table.size) ∅

/-- The new label that a numbering gives to a label, counted from `base`. -/
def renamed (table : Std.HashMap LabelId Nat) (base : Nat) (l : LabelId) : LabelId :=
  match table[l]? with
  | some n => ⟨base + n⟩
  | none => l

namespace Body

/-- Gives the nodes of a body the identities from `base` on. -/
def renumber (body : Body) (base : Nat) : Body :=
  body.mapIdx fun i insn => { insn with id := ⟨base + i⟩ }

end Body

namespace Method

/-- A method with the same body under new identities, not yet edited. -/
def copy (m : Method) : Fresh Method := do
  let table := numberLabels m.labels
  let insnBase ← Fresh.block m.body.size
  let labelBase ← Fresh.block table.size
  let id ← Fresh.methodId
  let relabelled := m.mapLabels (renamed table labelBase)
  return { relabelled with id, revision := 0, body := relabelled.body.renumber insnBase }

end Method

end Bytecode
