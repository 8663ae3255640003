import Bytecode.Instruction
import Bytecode.Kind

/-!
# Literals

A literal is a value that the analysis knows exactly. The contents of a string builder change while
the analysis runs, and all copies of a builder see the change: a builder literal therefore names a
buffer among `Buffers`, and `Literal.same` compares buffers by identity or by contents.
-/

namespace Bytecode.Analysis

/-- The name of a buffer. -/
structure BufferId where
  val : Nat
  deriving DecidableEq, Repr, Inhabited

/-- The contents of the buffers allocated so far. -/
structure Buffers where
  texts : Array String := #[]
  deriving Repr, Inhabited

namespace Buffers

/-- A new buffer. -/
def alloc (b : Buffers) (text : String) : BufferId × Buffers :=
  (⟨b.texts.size⟩, ⟨b.texts.push text⟩)

/-- The contents of a buffer. -/
def contents (b : Buffers) (i : BufferId) : String :=
  b.texts.getD i.val ""

/-- Adds a text at the end of a buffer. -/
def append (b : Buffers) (i : BufferId) (text : String) : Buffers :=
  ⟨b.texts.modify i.val (· ++ text)⟩

/-- A new buffer with the contents of another one. -/
def detach (b : Buffers) (i : BufferId) : BufferId × Buffers :=
  b.alloc (b.contents i)

/-- Whether two buffers are the same or have the same contents. -/
def same (b : Buffers) (i j : BufferId) : Bool :=
  i == j || b.contents i == b.contents j

end Buffers

/-- A value that is known exactly. Floating point numbers are kept as bit patterns. -/
inductive Literal where
  | int (value : Int32)
  | long (value : Int64)
  | float (bits : UInt32)
  | double (bits : UInt64)
  | string (text : String)
  | classRef (name : String)
  | null
  | builder (buffer : BufferId)
  deriving DecidableEq, Repr, Inhabited

namespace Literal

/-- Whether two literals are equal in view of the buffers. -/
def same (b : Buffers) : Literal → Literal → Bool
  | builder i, builder j => b.same i j
  | x, y => x == y

/-- The value of an int literal. -/
def asInt? : Literal → Option Int32
  | int value => some value
  | _ => none

/-- The text of a string literal. -/
def asString? : Literal → Option String
  | string text => some text
  | _ => none

/-- The kind and, where it is known, the literal of a loadable constant. -/
def ofConstant : Constant → Kind × Option Literal
  | .int value => (.int, some (int value))
  | .float bits => (.float, some (float bits))
  | .long value => (.long, some (long value))
  | .double bits => (.double, some (double bits))
  | .string text => (.reference, some (string text))
  | .classRef name => (.reference, some (classRef name))
  | .methodType _ | .handle _ => (.reference, none)
  | .dynamic _ descriptor _ _ => (Kind.ofText descriptor, none)

end Literal

end Bytecode.Analysis
