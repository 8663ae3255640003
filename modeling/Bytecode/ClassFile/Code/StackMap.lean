import Bytecode.ClassFile.Code.Encoding

/-!
# Stack maps

From version 50 on, code comes with a stack map: the type frames at all offsets to which control can
come otherwise than from the instruction before. Every frame is written in full, with its distance
from the frame before. A wide value takes one entry, and unused locals at the end are left out.
-/

namespace Bytecode

/-- The first version of class files with stack maps. -/
def stackMapVersion : UInt16 := 50

/-- The entries of a list of words: the second words of wide values are left out. -/
def entriesOfWords : List VerificationType → List VerificationType
  | [] => []
  | type :: rest =>
    if type.isWide then
      match rest with
      | [] => [type]
      | _ :: rest => type :: entriesOfWords rest
    else type :: entriesOfWords rest

/-- The entries of the locals: unknown ones at the end are left out. -/
def entriesOfLocals (locals : List VerificationType) : List VerificationType :=
  ((entriesOfWords locals).reverse.dropWhile (· == .top)).reverse

namespace Node

/-- Whether control never goes on with the next node. -/
def endsFlow : Node → Bool
  | jump op _ => op == Opcode.goto
  | tableSwitch .. | lookupSwitch .. => true
  | simple op => op.isReturn || op == Opcode.athrow
  | _ => false

end Node

namespace Emission

/-- The offsets behind instructions after which control never goes on. -/
def offsetsAfterTransfers : List PlacedInsn → List Nat
  | p :: q :: rest =>
    if p.node.endsFlow then q.offset :: offsetsAfterTransfers (q :: rest)
    else offsetsAfterTransfers (q :: rest)
  | _ => []

/-- Removes repetitions from an ascending list. -/
def dedupAscending : List Nat → List Nat
  | a :: b :: rest => if a = b then dedupAscending (b :: rest) else a :: dedupAscending (b :: rest)
  | l => l

/-- The offsets at which a frame is needed, in ascending order: the targets of branches, the
handlers of the ranges that cover something, and what follows an instruction after which control
never goes on. -/
def frameOffsets (e : Emission) (signature : String) (exceptions : List ExceptionRange) :
    Except WriteError (List Nat) := do
  let targets ← (e.placed.toList.flatMap (·.node.targets)).mapM (e.offsetOf signature)
  let handlers ← exceptions.filterMapM fun r => do
    if (← e.offsetOf signature r.start) < (← e.offsetOf signature r.stop) then
      return some (← e.offsetOf signature r.handler)
    else return none
  let offsets := offsetsAfterTransfers e.placed.toList ++ targets ++ handlers
  return dedupAscending ((offsets.filter (· < e.length)).mergeSort)

/-- The offsets of the instructions that have been laid out. -/
def placedOffsets (e : Emission) : Std.HashMap Nat Nat :=
  e.placed.foldl (fun table p => table.insert p.index p.offset) ∅

/-- The positions of the instructions that have been laid out. -/
def placedIndices (e : Emission) : Std.HashMap Nat Nat :=
  e.placed.foldl (fun table p => table.insert p.offset p.index) ∅

/-- The stored form of a verification type. -/
def encodeType (offsets : Std.HashMap Nat Nat) (signature : String) :
    VerificationType → Building Bytes
  | .top => return [0]
  | .integer => return [1]
  | .float => return [2]
  | .double => return [3]
  | .long => return [4]
  | .null => return [5]
  | .uninitializedThis => return [6]
  | .object name => return 7 :: Word.encode (← Building.classRef name)
  | .uninitialized creation =>
    match offsets[creation]? with
    | some offset => return 8 :: Bytes.u16 offset
    | none => Building.fail (.unreachableAllocation signature)

/-- The stored form of a list of verification types. -/
def encodeTypes (offsets : Std.HashMap Nat Nat) (signature : String)
    (types : List VerificationType) : Building Bytes := do
  let encoded ← types.mapM (encodeType offsets signature)
  return Bytes.u16 types.length ++ encoded.flatten

/-- The stored form of a frame at a distance from the frame before. -/
def encodeFrame (offsets : Std.HashMap Nat Nat) (signature : String) (distance : Nat)
    (frame : TypeFrame) : Building Bytes := do
  let locals ← encodeTypes offsets signature (entriesOfLocals frame.locals)
  let stack ← encodeTypes offsets signature (entriesOfWords frame.stack.reverse)
  return 255 :: Bytes.u16 distance ++ locals ++ stack

/-- The stored forms of the frames at ascending offsets, of which the first is counted from
`base`. -/
def encodeFrames (frameAt : Nat → Option TypeFrame) (offsets : Std.HashMap Nat Nat)
    (signature : String) : Nat → List Nat → Building (List Bytes)
  | _, [] => return []
  | base, offset :: rest => do
    match frameAt offset with
    | none => Building.fail (.noFrame offset signature)
    | some frame =>
      let encoded ← encodeFrame offsets signature (offset - base) frame
      return encoded :: (← encodeFrames frameAt offsets signature (offset + 1) rest)

/-- The stack map of a body that has been laid out, unless it needs no frames. -/
def stackMap (e : Emission) (frames : MethodFrames) (signature : String)
    (exceptions : List ExceptionRange) : Building (Option Bytes) := do
  match e.frameOffsets signature exceptions with
  | .error cause => Building.fail cause
  | .ok [] => return none
  | .ok offsets =>
    let indices := e.placedIndices
    let frameAt (offset : Nat) : Option TypeFrame :=
      (indices[offset]?).bind fun index => frames.frames[index]?.join
    let encoded ← encodeFrames frameAt e.placedOffsets signature 0 offsets
    return some (Bytes.u16 offsets.length ++ encoded.flatten)

end Emission

end Bytecode
