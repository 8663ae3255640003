import Bytecode.ClassFile.Code.StackMap
import Bytecode.Proofs.Coding.Serving
import Bytecode.Proofs.Verification.Tidiness
import Mathlib.Data.List.DropRight
import Mathlib.Data.List.TakeWhile

/-!
# The entries of stack maps

How the frames of a stack map are stored, read and understood. A frame holds its distance from the frame
before and an entry for each value, of which `StoredType.octets` are the octets; `readStackMap` reads them
back. A class is stored as a slot of the pool, and the creation of an object as an offset in the code:
`StoredType.Denotes` says which type an entry stands for.

The entries of the locals leave out the second words of wide values and `top` at the end. Both are found
again: where the locals are paired, the entries expand to them (`expand_entriesOfLocals`).
-/

namespace Bytecode

open Reader

/-! ## Stored forms -/

/-- An entry of a frame in a stack map. -/
inductive StoredType where
  | top
  | integer
  | float
  | double
  | long
  | null
  | uninitializedThis
  | object (slot : UInt16)
  | uninitialized (offset : UInt16)
  deriving DecidableEq, Repr

namespace StoredType

/-- The stored form of an entry. -/
def octets : StoredType → Bytes
  | top => [0]
  | integer => [1]
  | float => [2]
  | double => [3]
  | long => [4]
  | null => [5]
  | uninitializedThis => [6]
  | object slot => 7 :: Word.encode slot
  | uninitialized offset => 8 :: Word.encode offset

/-- Reads an entry. -/
def read : Reader StoredType := do
  match (← Reader.u8).toNat with
  | 0 => return top
  | 1 => return integer
  | 2 => return float
  | 3 => return double
  | 4 => return long
  | 5 => return null
  | 6 => return uninitializedThis
  | 7 => return object (← Reader.u16)
  | 8 => return uninitialized (← Reader.u16)
  | _ => throw .notSupported

theorem reads (t : StoredType) (position : Nat) : Reads read position t.octets t := by
  cases t with
  | object slot => exact Reads.u8_bind (Reads.u16_word slot _).map
  | uninitialized offset => exact Reads.u8_bind (Reads.u16_word offset _).map
  | _ => exact Reads.u8_bind (Reads.pure _ _)

end StoredType

/-- A frame of a stack map, with the distance from the frame before. -/
structure StoredFrame where
  distance : UInt16
  locals : List StoredType
  stack : List StoredType
  deriving DecidableEq, Repr

/-- The stored form of counted entries. -/
def storedTypes (types : List StoredType) : Bytes :=
  Bytes.u16 types.length ++ types.flatMap StoredType.octets

namespace StoredFrame

/-- The stored form of a frame, which is written in full. -/
def octets (f : StoredFrame) : Bytes :=
  255 :: Word.encode f.distance ++ storedTypes f.locals ++ storedTypes f.stack

/-- Reads a frame that is written in full. -/
def read : Reader StoredFrame := do
  if (← Reader.u8) ≠ 255 then throw .notSupported
  return ⟨← Reader.u16, ← Reader.counted StoredType.read, ← Reader.counted StoredType.read⟩

/-- The counts of a frame fit. -/
structure Fits (f : StoredFrame) : Prop where
  locals : f.locals.length < 65536
  stack : f.stack.length < 65536

theorem reads {f : StoredFrame} (fits : f.Fits) (position : Nat) :
    Reads read position f.octets f := by
  have counted {types : List StoredType} (few : types.length < 65536) (at_ : Nat) :
      Reads (Reader.counted StoredType.read) at_ (storedTypes types) types := by
    have := Reads.counted (f := id) types few (fun t _ at_ => t.reads at_) at_
    rwa [List.map_id] at this
  rw [octets, List.append_assoc]
  refine Reads.u8_bind (Reads.guard (by decide) ?_)
  exact (Reads.u16_word f.distance _).bind ((counted fits.locals _).bind (counted fits.stack _).map)

/-- Frames with the offsets at which they stand, of which the first is counted from `base`: the distance of
every other frame is counted from right behind the frame before. -/
def located : Nat → List StoredFrame → List (Nat × StoredFrame)
  | _, [] => []
  | base, f :: rest =>
    (base + f.distance.toNat, f) :: located (base + f.distance.toNat + 1) rest

end StoredFrame

/-- The stored form of a stack map. -/
def storedMap (frames : List StoredFrame) : Bytes :=
  Bytes.u16 frames.length ++ frames.flatMap StoredFrame.octets

/-- Reads a stack map whose frames are written in full. -/
def readStackMap : Reader (List StoredFrame) :=
  Reader.counted StoredFrame.read

theorem reads_storedMap {frames : List StoredFrame} (few : frames.length < 65536)
    (fits : ∀ f ∈ frames, f.Fits) (position : Nat) :
    Reads readStackMap position (storedMap frames) frames := by
  have := Reads.counted (f := id) frames few
    (fun f member at_ => StoredFrame.reads (fits f member) at_) position
  rwa [List.map_id] at this

/-! ## What entries stand for -/

/-- A builder has noted the slot of a class. -/
def PoolBuilder.Names (b : PoolBuilder) (slot : UInt16) (name : String) : Prop :=
  ∃ text, b.slots[PoolEntry.utf8 name]? = some text ∧ b.slots[PoolEntry.classRef text]? = some slot

theorem PoolBuilder.Names.mono {b c : PoolBuilder} {slot : UInt16} {name : String}
    (h : b.Names slot name) (knows : b.Knows c) : c.Names slot name := by
  obtain ⟨text, named, referred⟩ := h
  exact ⟨text, knows.slots _ _ named, knows.slots _ _ referred⟩

/-- The slot that a builder has noted is that of the class in the pool that it stands for. -/
theorem PoolBuilder.Names.className {b : PoolBuilder} {t : Tables} {slot : UInt16} {name : String}
    (h : b.Names slot name) (shows : b.Shows t) : t.pool.className slot = .ok name := by
  obtain ⟨text, named, referred⟩ := h
  exact ConstantPool.className_of_entry (shows.slots _ _ referred)
    (ConstantPool.utf8_of_entry (shows.slots _ _ named))

/-- The type for which an entry stands, in view of the slots of a builder and of the offsets at which the
instructions have been laid out. -/
inductive StoredType.Denotes (b : PoolBuilder) (e : Emission) : StoredType → VerificationType → Prop
  | top : Denotes b e .top .top
  | integer : Denotes b e .integer .integer
  | float : Denotes b e .float .float
  | double : Denotes b e .double .double
  | long : Denotes b e .long .long
  | null : Denotes b e .null .null
  | uninitializedThis : Denotes b e .uninitializedThis .uninitializedThis
  | object {slot : UInt16} {name : String} (named : b.Names slot name) :
    Denotes b e (.object slot) (.object name)
  | uninitialized {p : PlacedInsn} (placed : p ∈ e.placed.toList) :
    Denotes b e (.uninitialized (UInt16.ofNat p.offset)) (.uninitialized p.index)

theorem StoredType.Denotes.mono {b c : PoolBuilder} {e : Emission} {t : StoredType}
    {type : VerificationType} (h : Denotes b e t type) (knows : b.Knows c) : Denotes c e t type := by
  cases h with
  | object named => exact .object (named.mono knows)
  | uninitialized placed => exact .uninitialized placed
  | top => exact .top
  | integer => exact .integer
  | float => exact .float
  | double => exact .double
  | long => exact .long
  | null => exact .null
  | uninitializedThis => exact .uninitializedThis

/-! ## Words and entries -/

/-- The words of values: a wide value takes a second one. -/
def wordsOfValues (values : List VerificationType) : List VerificationType :=
  values.flatMap fun type => if type.isWide then [type, .top] else [type]

/-- The locals that entries stand for, in a number of slots: slots without an entry are unknown. -/
def expandLocals (slots : Nat) (entries : List VerificationType) : List VerificationType :=
  (wordsOfValues entries ++ List.replicate slots VerificationType.top).take slots

variable {type : VerificationType} {types : List VerificationType}

theorem wordsOfValues_wide (wide : type.isWide = true) :
    wordsOfValues (type :: types) = type :: .top :: wordsOfValues types := by
  rw [wordsOfValues, List.flatMap_cons, if_pos wide]
  rfl

theorem wordsOfValues_narrow (narrow : type.isWide = false) :
    wordsOfValues (type :: types) = type :: wordsOfValues types := by
  rw [wordsOfValues, List.flatMap_cons, narrow]
  rfl

theorem wordsOfValues_tops (k : Nat) :
    wordsOfValues (List.replicate k .top) = List.replicate k VerificationType.top := by
  induction k with
  | zero => rfl
  | succ k ih => rw [List.replicate_succ, wordsOfValues_narrow rfl, ih]

theorem entriesOfWords_wide (wide : type.isWide = true) (second : VerificationType) :
    entriesOfWords (type :: second :: types) = type :: entriesOfWords types := by
  rw [entriesOfWords.eq_def]
  exact if_pos wide

theorem entriesOfWords_narrow (narrow : type.isWide = false) :
    entriesOfWords (type :: types) = type :: entriesOfWords types := by
  rw [entriesOfWords.eq_def]
  exact if_neg (by rw [narrow]; exact Bool.false_ne_true)

/-- The entries of whole values are the values. -/
theorem entriesOfWords_wordsOfValues (values : List VerificationType) :
    entriesOfWords (wordsOfValues values) = values := by
  induction values with
  | nil => rfl
  | cons type values ih =>
    cases wide : type.isWide with
    | true => rw [wordsOfValues_wide wide, entriesOfWords_wide wide, ih]
    | false => rw [wordsOfValues_narrow wide, entriesOfWords_narrow wide, ih]

theorem paired_of_cons (paired : Paired (type :: types)) : Paired types :=
  fun k t found wide inside => paired (k + 1) t found wide (Nat.succ_lt_succ inside)

/-- The words of the entries of paired words are these words, up to the second word of a wide value at the
end. -/
theorem wordsOfValues_entriesOfWords (paired : Paired types) :
    ∃ k, wordsOfValues (entriesOfWords types) = types ++ List.replicate k .top := by
  induction types using entriesOfWords.induct with
  | case1 => exact ⟨0, rfl⟩
  | case2 type wide =>
    have last : entriesOfWords [type] = [type] := by
      rw [entriesOfWords.eq_def]
      exact if_pos wide
    exact ⟨1, by rw [last, wordsOfValues_wide wide]; rfl⟩
  | case3 type wide second rest ih =>
    have top : second = .top := by
      have := paired 0 type rfl wide (by simp)
      exact Option.some.inj this
    obtain ⟨k, same⟩ := ih (paired_of_cons (paired_of_cons paired))
    refine ⟨k, ?_⟩
    rw [entriesOfWords_wide wide, wordsOfValues_wide wide, same, top]
    rfl
  | case4 type rest narrow ih =>
    have narrow : type.isWide = false := by simpa using narrow
    obtain ⟨k, same⟩ := ih (paired_of_cons paired)
    refine ⟨k, ?_⟩
    rw [entriesOfWords_narrow narrow, wordsOfValues_narrow narrow, same]
    rfl

/-- The entries of locals are those of their words, without `top` at the end. -/
theorem entriesOfLocals_append (types : List VerificationType) :
    ∃ k, entriesOfWords types = entriesOfLocals types ++ List.replicate k .top := by
  let left := (entriesOfWords types).reverse.takeWhile (· == .top)
  have tops : left = List.replicate left.length .top :=
    List.eq_replicate_of_mem fun t member =>
      beq_iff_eq.mp (List.mem_takeWhile_imp (p := (· == VerificationType.top)) member)
  refine ⟨left.length, ?_⟩
  rw [entriesOfLocals, ← List.reverse_replicate, ← tops, ← List.reverse_append,
    List.takeWhile_append_dropWhile, List.reverse_reverse]

theorem getLast?_entriesOfLocals (types : List VerificationType) :
    (entriesOfLocals types).getLast? ≠ some .top := by
  intro last
  have some_ : entriesOfLocals types ≠ [] := fun none_ => by rw [none_] at last; cases last
  rw [List.getLast?_eq_getLast_of_ne_nil some_] at last
  have known := List.rdropWhile_last_not (· == VerificationType.top) (entriesOfWords types) some_
  exact known (beq_iff_eq.mpr (Option.some.inj last))

/-- **Locals are found again.** Paired locals are those for which their entries stand. -/
theorem expand_entriesOfLocals (paired : Paired types) :
    expandLocals types.length (entriesOfLocals types) = types := by
  obtain ⟨k, words⟩ := wordsOfValues_entriesOfWords paired
  obtain ⟨j, dropped⟩ := entriesOfLocals_append types
  have filled (n : Nat) : (wordsOfValues (entriesOfLocals types) ++
      List.replicate j VerificationType.top) ++ List.replicate n .top =
        types ++ List.replicate (k + n) .top := by
    have split : wordsOfValues (entriesOfWords types) =
        wordsOfValues (entriesOfLocals types) ++ List.replicate j .top := by
      conv_lhs => rw [dropped, wordsOfValues, List.flatMap_append]
      exact congrArg (_ ++ ·) (wordsOfValues_tops j)
    rw [← split, words, List.append_assoc, List.replicate_append_replicate]
  have enough := filled types.length
  rw [List.append_assoc, List.replicate_append_replicate] at enough
  -- Only the first `types.length` words count, and so many of them are filled in either way.
  have cut : expandLocals types.length (entriesOfLocals types) =
      (wordsOfValues (entriesOfLocals types) ++
        List.replicate (j + types.length) VerificationType.top).take types.length := by
    rw [expandLocals, List.take_append, List.take_append, List.take_replicate, List.take_replicate]
    congr 2
    omega
  rw [cut, enough, List.take_left]

end Bytecode
