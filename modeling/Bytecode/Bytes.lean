/-!
# Bytes and big-endian words

File contents are lists of octets. `Word` describes the fixed width types that are stored with their
most significant octet first; `Word.encode` and `Word.decode` are inverse on lists of that width.
-/

namespace Bytecode

/-- The contents of a file or of a part of it. -/
abbrev Bytes := List UInt8

namespace Bytes

/-- The last `width` octets of a number, most significant first. -/
def ofNat : Nat → Nat → Bytes
  | 0, _ => []
  | width + 1, n => ofNat width (n / 256) ++ [UInt8.ofNat n]

/-- The number that octets denote, most significant first. -/
def toNat (bytes : Bytes) : Nat :=
  bytes.foldl (fun n b => n * 256 + b.toNat) 0

@[simp]
theorem length_ofNat (width n : Nat) : (ofNat width n).length = width := by
  induction width generalizing n with
  | zero => rfl
  | succ width ih => simp [ofNat, ih]

theorem toNat_concat (bytes : Bytes) (b : UInt8) :
    toNat (bytes ++ [b]) = toNat bytes * 256 + b.toNat := by
  simp [toNat]

/-- Reading back gives the number modulo what the octets can hold. -/
theorem toNat_ofNat (width n : Nat) : toNat (ofNat width n) = n % Nat.pow 256 width := by
  induction width generalizing n with
  | zero => simp [ofNat, toNat, Nat.mod_one]
  | succ width ih =>
    have split : n % Nat.pow 256 (width + 1) = n % 256 + 256 * (n / 256 % Nat.pow 256 width) := by
      change n % (Nat.pow 256 width * 256) = _
      rw [Nat.mul_comm, Nat.mod_mul]
    rw [ofNat, toNat_concat, ih, UInt8.toNat_ofNat', split]
    omega

end Bytes

/-- A fixed width type with a big-endian form. -/
class Word (α : Type) where
  width : Nat
  ofBits : Nat → α
  toBits : α → Nat

namespace Word

instance : Word UInt8 := ⟨1, UInt8.ofNat, UInt8.toNat⟩
instance : Word UInt16 := ⟨2, UInt16.ofNat, UInt16.toNat⟩
instance : Word UInt32 := ⟨4, UInt32.ofNat, UInt32.toNat⟩
instance : Word UInt64 := ⟨8, UInt64.ofNat, UInt64.toNat⟩
instance : Word Int8 := ⟨1, Int8.ofNat, (·.toUInt8.toNat)⟩
instance : Word Int16 := ⟨2, Int16.ofNat, (·.toUInt16.toNat)⟩
instance : Word Int32 := ⟨4, Int32.ofNat, (·.toUInt32.toNat)⟩
instance : Word Int64 := ⟨8, Int64.ofNat, (·.toUInt64.toNat)⟩

/-- The octets of a value. -/
def encode {α : Type} [Word α] (value : α) : Bytes :=
  Bytes.ofNat (width α) (toBits value)

/-- The value of octets. -/
def decode {α : Type} [Word α] (bytes : Bytes) : α :=
  ofBits (Bytes.toNat bytes)

end Word

/-- The two octets of a 16 bit number, which most counts and indices of a class file are. -/
def Bytes.u16 (n : Nat) : Bytes :=
  Bytes.ofNat 2 n

/-- The four octets of a 32 bit number, which lengths of a class file are. -/
def Bytes.u32 (n : Nat) : Bytes :=
  Bytes.ofNat 4 n

end Bytecode
