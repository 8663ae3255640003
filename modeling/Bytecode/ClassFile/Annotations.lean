import Bytecode.ClassFile.Pool

/-!
# Annotations in class files

The element values of an annotation nest without a limit of their own. They are only skipped, to
find where the next annotation starts; every value takes an octet at least, so that the number of
octets bounds the nesting.
-/

namespace Bytecode.AnnotationUse

/-- Skips a counted sequence of named element values. -/
def skipPairs (skipValue : Reader Unit) : Reader Unit := do
  let count ← Reader.u16
  let _ ← Reader.replicate (do Reader.advance 2; skipValue) count.toNat

/-- Skips what follows the tag of an element value. -/
def skipTagged (skipValue : Reader Unit) (tag : UInt8) : Reader Unit :=
  match Char.ofNat tag.toNat with
  | 'B' | 'C' | 'D' | 'F' | 'I' | 'J' | 'S' | 'Z' | 's' | 'c' => Reader.advance 2
  | 'e' => Reader.advance 4
  | '@' => do
    Reader.advance 2
    skipPairs skipValue
  | '[' => do
    let count ← Reader.u16
    let _ ← Reader.replicate skipValue count.toNat
  | _ => throw (.malformed (.elementTag tag))

/-- Skips an element value that nests less deep than `depth`. -/
def skipValue : Nat → Reader Unit
  | 0 => throw .outOfBounds
  | depth + 1 => do skipTagged (skipValue depth) (← Reader.u8)

/-- Reads the use of an annotation whose element values nest less deep than `depth`. -/
def readNested (pool : ConstantPool) (depth : Nat) : Reader AnnotationUse := do
  let descriptor ← (pool.utf8 (← Reader.u16)).mapError Failure.malformed
  let ((), body) ← Reader.consumed (skipPairs (skipValue depth))
  return ⟨descriptor, body⟩

/-- Reads the uses of annotations that an attribute lists. -/
def readAll (pool : ConstantPool) (data : Bytes) : Except Failure (List AnnotationUse) :=
  Prod.fst <$> (Reader.counted (readNested pool (data.length + 1))).run (Cursor.ofBytes data)

end Bytecode.AnnotationUse
