import Bytecode.Method
import Std.Data.HashMap

/-!
# Edits

Edits of a body are first requested and then applied at once, so that requests can refer to the
instructions of the body as it was. A batch holds at most one insertion and one replacement for
every instruction; a second request of the same kind is a conflict.

An inserted block goes in front of its target, also if the target is replaced.
-/

namespace Bytecode

/-- Requested edits of a body. -/
structure EditBatch where
  inserts : Std.HashMap InsnId (List Insn) := ∅
  replacements : Std.HashMap InsnId (List Insn) := ∅
  stopped : Bool := false

namespace EditBatch

/-- The number of requests. -/
def size (b : EditBatch) : Nat :=
  b.inserts.size + b.replacements.size

/-- Whether nothing is requested. -/
def isEmpty (b : EditBatch) : Bool :=
  b.size == 0

/-- Adds a request for a target that has none of this kind. -/
def request (requests : Std.HashMap InsnId (List Insn)) (kind : EditKind) (target : InsnId)
    (block : List Insn) : Except Failure (Std.HashMap InsnId (List Insn)) :=
  if requests.contains target then .error (.editConflict target kind)
  else .ok (requests.insert target block)

/-- Requests that a block be inserted before an instruction. -/
def insertBefore (b : EditBatch) (target : InsnId) (block : List Insn) : Except Failure EditBatch :=
  (request b.inserts .insertBefore target block).map fun inserts => { b with inserts }

/-- Requests that an instruction be replaced by a block. -/
def replace (b : EditBatch) (target : InsnId) (block : List Insn) : Except Failure EditBatch :=
  (request b.replacements .replace target block).map fun replacements => { b with replacements }

/-- Some target of the batch that is not among the instructions of a body. -/
def missingTarget? (b : EditBatch) (body : Body) : Option InsnId :=
  let present : Std.HashMap InsnId Unit := body.foldl (fun t insn => t.insert insn.id ()) ∅
  (b.inserts.keys ++ b.replacements.keys).find? fun target => !present.contains target

/-- What the batch makes of one node. -/
def edited (b : EditBatch) (insn : Insn) : List Insn :=
  (b.inserts[insn.id]?).getD [] ++ (b.replacements[insn.id]?).getD [insn]

/-- Applies the requests and tells whether there were any. All targets have to be in the body. -/
def apply (b : EditBatch) (body : Body) : Except Failure (Bool × Body) :=
  if b.isEmpty then .ok (false, body)
  else match b.missingTarget? body with
    | some target => .error (.editTarget target)
    | none => .ok (true, (body.toList.flatMap b.edited).toArray)

end EditBatch

/-- A batch while it is filled by a traversal, and the instruction that is being visited. -/
structure EditCursor where
  batch : EditBatch
  current : InsnId

namespace EditCursor

/-- Requests an insertion before the visited instruction. -/
def insertBefore (c : EditCursor) (block : List Insn) : Except Failure EditCursor :=
  (c.batch.insertBefore c.current block).map fun batch => { c with batch }

/-- Requests the replacement of the visited instruction. -/
def replace (c : EditCursor) (block : List Insn) : Except Failure EditCursor :=
  (c.batch.replace c.current block).map fun batch => { c with batch }

/-- Requests an insertion before some instruction. -/
def insertBeforeAt (c : EditCursor) (target : InsnId) (block : List Insn) :
    Except Failure EditCursor :=
  (c.batch.insertBefore target block).map fun batch => { c with batch }

/-- Requests the replacement of some instruction. -/
def replaceAt (c : EditCursor) (target : InsnId) (block : List Insn) : Except Failure EditCursor :=
  (c.batch.replace target block).map fun batch => { c with batch }

/-- Ends the traversal behind the visited instruction. -/
def stop (c : EditCursor) : EditCursor :=
  { c with batch := { c.batch with stopped := true } }

end EditCursor

namespace EditBatch

/-- Fills a batch by a visit of the nodes from a position on. -/
def collectFrom {m : Type → Type} [Monad m] (visit : EditCursor → Insn → Nat → m EditCursor) :
    Nat → List Insn → EditBatch → m EditBatch
  | _, [], b => pure b
  | i, insn :: rest, b => do
    let cursor ← visit ⟨b, insn.id⟩ insn i
    if cursor.batch.stopped then return cursor.batch
    collectFrom visit (i + 1) rest cursor.batch

/-- Fills a batch by a visit of all nodes in order, until one stops the traversal. -/
def collect {m : Type → Type} [Monad m] (body : Body)
    (visit : EditCursor → Insn → Nat → m EditCursor) : m EditBatch :=
  collectFrom visit 0 body.toList {}

/-- Visits a body and applies what the visit requests. -/
def editWith {m : Type → Type} [Monad m] [MonadExceptOf Failure m] (body : Body)
    (visit : EditCursor → Insn → Nat → m EditCursor) : m (Bool × Body) := do
  match (← collect body visit).apply body with
  | .ok result => return result
  | .error e => throw e

end EditBatch

end Bytecode
