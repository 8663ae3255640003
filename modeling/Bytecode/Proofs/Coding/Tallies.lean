import Bytecode.ClassFile.Writing
import Bytecode.Proofs.Coding.Requests

/-!
# Class files as their counts divide them up

A `FiledClass` is a class file taken apart: wherever the format stores a count or a length, it has
the number that is stored and, separately, the items or the contents that stand behind it. Its octets
are determined by these parts, and its tallies list every count and length with what follows it.

A count takes 16 bits and a length 32, so that a tally can be wrong. `Tally.Cut` says what is left of
the right number then, and `Quantity.isGuarded` which quantities the writer looks at.
-/

namespace Bytecode

/-- What a count or a length of a class file tells the number of. The slots of the constant pool
include the first one, which is not stored. -/
inductive Quantity where
  | poolSlots | interfaces | fields | methods
  | attributes | attributeOctets | annotations | bootstraps | bootstrapArguments
  | codeOctets | exceptions | codeTables | lines | localVariables | variableTypes
  | frames | frameLocals | frameWords
  deriving DecidableEq, Repr

/-- Whether a method that could exceed the quantity is refused, or cannot exist. -/
def Quantity.isGuarded : Quantity → Bool
  | codeOctets | codeTables | frames | frameLocals | frameWords => true
  | _ => false

/-- A count or a length: how many octets it takes, what is stored, and what would be right. -/
structure Tally where
  quantity : Quantity
  width : Nat
  stored : Nat
  actual : Nat
  deriving DecidableEq, Repr

/-- How many numbers there is room for. -/
def Tally.room (t : Tally) : Nat :=
  Nat.pow 256 t.width

/-- A tally that is stored modulo the room that there is. There is always room for a quantity that is
guarded. -/
structure Tally.Cut (t : Tally) : Prop where
  stored : t.stored = t.actual % t.room
  guarded : t.quantity.isGuarded = true → t.actual < t.room

theorem Tally.Cut.right_iff {t : Tally} (cut : t.Cut) :
    t.stored = t.actual ↔ t.quantity.isGuarded = true ∨ t.actual < t.room := by
  rw [cut.stored]
  constructor
  · intro same
    have := Nat.mod_lt t.actual (Nat.pow_pos (by decide) : 0 < t.room)
    exact .inr (same ▸ this)
  · rintro (guarded | fits)
    · exact Nat.mod_eq_of_lt (cut.guarded guarded)
    · exact Nat.mod_eq_of_lt fits

theorem Tally.cut_nil : ∀ t ∈ ([] : List Tally), t.Cut :=
  fun _ member => absurd member List.not_mem_nil

/-! ## Counted items and labelled contents -/

/-- The octets of a number do not tell what they cannot hold. -/
theorem Bytes.ofNat_mod (width n : Nat) : ofNat width (n % Nat.pow 256 width) = ofNat width n := by
  induction width generalizing n with
  | zero => rfl
  | succ width ih =>
    have power : Nat.pow 256 (width + 1) = 256 * Nat.pow 256 width := Nat.mul_comm ..
    have last : UInt8.ofNat (n % Nat.pow 256 (width + 1)) = UInt8.ofNat n := by
      apply UInt8.toNat_inj.mp
      rw [UInt8.toNat_ofNat', UInt8.toNat_ofNat', power, Nat.mod_mul_right_mod]
    rw [ofNat, ofNat, last, power, Nat.mod_mul_right_div_self, ih]

theorem Word.encode_ofNat16 (n : Nat) : Word.encode (UInt16.ofNat n) = Bytes.u16 n :=
  (congrArg (Bytes.ofNat 2) UInt16.toNat_ofNat').trans (Bytes.ofNat_mod 2 n)

theorem Word.encode_ofNat32 (n : Nat) : Word.encode (UInt32.ofNat n) = Bytes.u32 n :=
  (congrArg (Bytes.ofNat 4) UInt32.toNat_ofNat').trans (Bytes.ofNat_mod 4 n)

/-- Items behind their count. -/
structure Counted (α : Type) where
  count : UInt16
  items : List α

namespace Counted

variable {α : Type}

/-- Items behind as many bits of their number as there is room for. -/
def ofItems (items : List α) : Counted α :=
  ⟨UInt16.ofNat items.length, items⟩

def octets (item : α → Bytes) (c : Counted α) : Bytes :=
  Word.encode c.count ++ c.items.flatMap item

def tallies (q : Quantity) (inner : α → List Tally) (c : Counted α) : List Tally :=
  ⟨q, 2, c.count.toNat, c.items.length⟩ :: c.items.flatMap inner

theorem octets_ofItems (item : α → Bytes) (items : List α) :
    (ofItems items).octets item = Bytes.u16 items.length ++ items.flatMap item :=
  congrArg (· ++ _) (Word.encode_ofNat16 _)

theorem cut_ofItems {q : Quantity} {inner : α → List Tally} {items : List α}
    (fits : q.isGuarded = false ∨ items.length < 65536)
    (each : ∀ a ∈ items, ∀ t ∈ inner a, t.Cut) :
    ∀ t ∈ (ofItems items).tallies q inner, t.Cut := by
  intro t member
  rcases List.mem_cons.mp member with rfl | member
  · refine ⟨UInt16.toNat_ofNat', fun guarded => fits.resolve_left fun free => ?_⟩
    rw [free] at guarded
    cases guarded
  · obtain ⟨a, listed, inside⟩ := List.mem_flatMap.mp member
    exact each a listed t inside

end Counted

/-- An attribute: the slot of its name, and its contents behind their length. -/
structure Labelled (α : Type) where
  name : UInt16
  length : UInt32
  content : α

namespace Labelled

variable {α : Type}

/-- Contents behind as many bits of their length as there is room for. -/
def ofContent (stored : α → Bytes) (name : UInt16) (content : α) : Labelled α :=
  ⟨name, UInt32.ofNat (stored content).length, content⟩

def octets (stored : α → Bytes) (a : Labelled α) : Bytes :=
  Word.encode a.name ++ Word.encode a.length ++ stored a.content

def tallies (stored : α → Bytes) (inner : α → List Tally) (a : Labelled α) : List Tally :=
  ⟨.attributeOctets, 4, a.length.toNat, (stored a.content).length⟩ :: inner a.content

theorem octets_ofContent (stored : α → Bytes) (name : UInt16) (content : α) :
    (ofContent stored name content).octets stored = attributeBytes name (stored content) :=
  congrArg (_ ++ · ++ _) (Word.encode_ofNat32 _)

theorem cut_ofContent {stored : α → Bytes} {inner : α → List Tally} {name : UInt16} {content : α}
    (inside : ∀ t ∈ inner content, t.Cut) :
    ∀ t ∈ (ofContent stored name content).tallies stored inner, t.Cut := by
  intro t member
  rcases List.mem_cons.mp member with rfl | member
  · exact ⟨UInt32.toNat_ofNat', fun guarded => by cases guarded⟩
  · exact inside t member

end Labelled

/-! ## Code -/

/-- A frame of a stack map, with the octets of each of its types. -/
structure FiledFrame where
  distance : UInt16
  locals : Counted Bytes
  words : Counted Bytes

namespace FiledFrame

def octets (f : FiledFrame) : Bytes :=
  255 :: Word.encode f.distance ++ f.locals.octets id ++ f.words.octets id

def tallies (f : FiledFrame) : List Tally :=
  f.locals.tallies .frameLocals (fun _ => []) ++ f.words.tallies .frameWords fun _ => []

end FiledFrame

/-- The contents of a code attribute. -/
structure FiledCode where
  maxStack : UInt16
  maxLocals : UInt16
  length : UInt32
  code : Bytes
  exceptions : Counted ExceptionEntry
  tableCount : UInt16
  lines : Option (Labelled (Counted LineEntry))
  localVariables : Option (Labelled (Counted VariableEntry))
  variableTypes : Option (Labelled (Counted VariableEntry))
  stackMap : Option (Labelled (Counted FiledFrame))

namespace FiledCode

/-- The octets of each table. -/
def tables (c : FiledCode) : List Bytes :=
  (c.lines.map (Labelled.octets (Counted.octets LineEntry.encode))).toList ++
    (c.localVariables.map (Labelled.octets (Counted.octets VariableEntry.encode))).toList ++
    (c.variableTypes.map (Labelled.octets (Counted.octets VariableEntry.encode))).toList ++
    (c.stackMap.map (Labelled.octets (Counted.octets FiledFrame.octets))).toList

def octets (c : FiledCode) : Bytes :=
  Word.encode c.maxStack ++ Word.encode c.maxLocals ++ Word.encode c.length ++ c.code ++
    c.exceptions.octets ExceptionEntry.encode ++ Word.encode c.tableCount ++ c.tables.flatten

def tallies (c : FiledCode) : List Tally :=
  ⟨.codeOctets, 4, c.length.toNat, c.code.length⟩ ::
    c.exceptions.tallies .exceptions (fun _ => []) ++
    ⟨.codeTables, 2, c.tableCount.toNat, c.tables.length⟩ ::
    (c.lines.toList.flatMap (Labelled.tallies (Counted.octets LineEntry.encode)
        (Counted.tallies .lines fun _ => [])) ++
      c.localVariables.toList.flatMap (Labelled.tallies (Counted.octets VariableEntry.encode)
        (Counted.tallies .localVariables fun _ => [])) ++
      c.variableTypes.toList.flatMap (Labelled.tallies (Counted.octets VariableEntry.encode)
        (Counted.tallies .variableTypes fun _ => [])) ++
      c.stackMap.toList.flatMap (Labelled.tallies (Counted.octets FiledFrame.octets)
        (Counted.tallies .frames FiledFrame.tallies)))

end FiledCode

/-! ## Members and classes -/

/-- A field or a method. A method with a body has code in front of the attributes that are carried
along. -/
structure FiledMember where
  access : Access
  name : UInt16
  descriptor : UInt16
  attributeCount : UInt16
  code : Option (Labelled FiledCode)
  carried : List (Labelled Bytes)

namespace FiledMember

/-- The octets of each attribute. -/
def attributes (m : FiledMember) : List Bytes :=
  (m.code.map (Labelled.octets FiledCode.octets)).toList ++ m.carried.map (Labelled.octets id)

def octets (m : FiledMember) : Bytes :=
  Word.encode m.access ++ Word.encode m.name ++ Word.encode m.descriptor ++
    Word.encode m.attributeCount ++ m.attributes.flatten

def tallies (m : FiledMember) : List Tally :=
  ⟨.attributes, 2, m.attributeCount.toNat, m.attributes.length⟩ ::
    (m.code.toList.flatMap (Labelled.tallies FiledCode.octets FiledCode.tallies) ++
      m.carried.flatMap (Labelled.tallies id fun _ => []))

end FiledMember

/-- A bootstrap method. -/
structure FiledBootstrap where
  handle : UInt16
  arguments : Counted UInt16

namespace FiledBootstrap

def octets (m : FiledBootstrap) : Bytes :=
  Word.encode m.handle ++ m.arguments.octets Word.encode

def tallies (m : FiledBootstrap) : List Tally :=
  m.arguments.tallies .bootstrapArguments fun _ => []

end FiledBootstrap

/-- What stands between the constant pool of a class file and the attributes of the class. -/
structure FiledMembers where
  access : Access
  name : UInt16
  superName : UInt16
  interfaces : Counted UInt16
  fields : Counted FiledMember
  methods : Counted FiledMember

namespace FiledMembers

def octets (m : FiledMembers) : Bytes :=
  Word.encode m.access ++ Word.encode m.name ++ Word.encode m.superName ++
    m.interfaces.octets Word.encode ++ m.fields.octets FiledMember.octets ++
    m.methods.octets FiledMember.octets

def tallies (m : FiledMembers) : List Tally :=
  m.interfaces.tallies .interfaces (fun _ => []) ++ m.fields.tallies .fields FiledMember.tallies ++
    m.methods.tallies .methods FiledMember.tallies

end FiledMembers

/-- A class file. Its pool is the octets of the slots behind the first one. -/
structure FiledClass where
  minorVersion : UInt16
  majorVersion : UInt16
  poolCount : UInt16
  pool : Bytes
  slots : List PoolEntry
  stored : ConstantPool.Stored 1 pool slots
  members : FiledMembers
  attributeCount : UInt16
  carried : List (Labelled Bytes)
  visible : Option (Labelled (Counted Bytes))
  invisible : Option (Labelled (Counted Bytes))
  bootstraps : Option (Labelled (Counted FiledBootstrap))

namespace FiledClass

/-- The octets of each attribute. -/
def attributes (f : FiledClass) : List Bytes :=
  f.carried.map (Labelled.octets id) ++
    ((f.visible.map (Labelled.octets (Counted.octets id))).toList ++
      ((f.invisible.map (Labelled.octets (Counted.octets id))).toList ++
        (f.bootstraps.map (Labelled.octets (Counted.octets FiledBootstrap.octets))).toList))

def octets (f : FiledClass) : Bytes :=
  Word.encode classFileMagic ++ Word.encode f.minorVersion ++ Word.encode f.majorVersion ++
    Word.encode f.poolCount ++ f.pool ++ f.members.octets ++
    Word.encode f.attributeCount ++ f.attributes.flatten

/-- Every count and every length of the file. -/
def tallies (f : FiledClass) : List Tally :=
  ⟨.poolSlots, 2, f.poolCount.toNat, f.slots.length + 1⟩ :: f.members.tallies ++
    ⟨.attributes, 2, f.attributeCount.toNat, f.attributes.length⟩ ::
    (f.carried.flatMap (Labelled.tallies id fun _ => []) ++
      f.visible.toList.flatMap (Labelled.tallies (Counted.octets id)
        (Counted.tallies .annotations fun _ => [])) ++
      f.invisible.toList.flatMap (Labelled.tallies (Counted.octets id)
        (Counted.tallies .annotations fun _ => [])) ++
      f.bootstraps.toList.flatMap (Labelled.tallies (Counted.octets FiledBootstrap.octets)
        (Counted.tallies .bootstraps FiledBootstrap.tallies)))

end FiledClass

end Bytecode
