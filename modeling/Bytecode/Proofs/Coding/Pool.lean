import Bytecode.ClassFile.Pool
import Bytecode.Proofs.Coding.ModifiedUtf8
import Bytecode.Proofs.Coding.Reads

/-!
# Constant pools survive their stored form

Every entry that has a stored form is read back from it. The octets of a pool need not be those that
`PoolEntry.encode` gives, because a text has longer forms than the shortest one; `Stored` therefore
says of some octets only that they are read as some slots. Octets that have been read once are
`Stored`, and so is what is put behind them.
-/

namespace Bytecode

open Reader

namespace PoolEntry

/-- Whether an entry has a stored form: a text has to fit its length. -/
def Storable : PoolEntry → Prop
  | unusable => False
  | utf8 text => (Text.encodeModified text).length < 65536
  | _ => True

theorem Storable.usable {e : PoolEntry} (h : e.Storable) : e ≠ unusable := by
  rintro rfl
  exact h

/-- The slots that an entry takes. -/
def slots (e : PoolEntry) : List PoolEntry :=
  if e.isWide then [e, unusable] else [e]

theorem slots_of_wide {e : PoolEntry} (wide : e.isWide = true) : e.slots = [e, unusable] := by
  rw [slots, wide]
  rfl

theorem slots_of_narrow {e : PoolEntry} (narrow : e.isWide = false) : e.slots = [e] := by
  rw [slots, narrow]
  rfl

private theorem reads_pair (entry : UInt16 → UInt16 → PoolEntry) (i j : UInt16) (position : Nat) :
    Reads (readPair entry) position (Word.encode i ++ Word.encode j) (entry i j) :=
  (Reads.u16_word i position).bind ((Reads.u16_word j _).map)

/-- An entry is read back from its stored form. -/
theorem reads {e : PoolEntry} (storable : e.Storable) (slot position : Nat) :
    Reads (read slot) position e.encode e := by
  cases e with
  | unusable => exact storable.elim
  | utf8 text =>
    have size : (UInt16.ofNat (Text.encodeModified text).length).toNat =
        (Text.encodeModified text).length := UInt16.toNat_ofNat_of_lt' storable
    refine Reads.u8_bind ((Reads.u16 _ _).bind ?_)
    rw [size]
    refine (Reads.bytes_self _ _).bind_nil ?_
    rw [Text.decodeModified_encodeModified]
    exact Reads.lift_bind rfl (Reads.pure (utf8 text) _)
  | integer value => exact Reads.u8_bind (Reads.word value _).map
  | float bits => exact Reads.u8_bind (Reads.u32_word bits _).map
  | long value => exact Reads.u8_bind (Reads.word value _).map
  | double bits => exact Reads.u8_bind (Reads.word bits _).map
  | classRef name => exact Reads.u8_bind (Reads.u16_word name _).map
  | string text => exact Reads.u8_bind (Reads.u16_word text _).map
  | fieldRef owner pair => exact Reads.u8_bind (reads_pair fieldRef owner pair _)
  | methodRef owner pair isInterface =>
    cases isInterface with
    | false => exact Reads.u8_bind (reads_pair (methodRef · · false) owner pair _)
    | true => exact Reads.u8_bind (reads_pair (methodRef · · true) owner pair _)
  | nameAndType name descriptor => exact Reads.u8_bind (reads_pair nameAndType name descriptor _)
  | methodHandle kind reference =>
    exact Reads.u8_bind ((Reads.u8 kind _).bind (Reads.u16_word reference _).map)
  | methodType descriptor => exact Reads.u8_bind (Reads.u16_word descriptor _).map
  | dynamic bootstrap pair => exact Reads.u8_bind (reads_pair dynamic bootstrap pair _)
  | invokeDynamic bootstrap pair => exact Reads.u8_bind (reads_pair invokeDynamic bootstrap pair _)
  | module name => exact Reads.u8_bind (Reads.u16_word name _).map
  | package name => exact Reads.u8_bind (Reads.u16_word name _).map

private theorem readPair_confined (entry : UInt16 → UInt16 → PoolEntry) :
    Confined (readPair entry) :=
  Confined.u16.bind fun _ => Confined.u16.bind fun _ => Confined.pure _

/-- What is read as an entry depends on its octets alone. -/
theorem read_confined (slot : Nat) : Confined (read slot) := by
  refine Confined.u8.bind fun tag => ?_
  split
  · exact Confined.u16.bind fun _ => (Confined.bytes _).bind fun _ =>
      (Confined.lift _).bind fun _ => Confined.pure _
  · exact (Confined.word Int32).bind fun _ => Confined.pure _
  · exact (Confined.word UInt32).bind fun _ => Confined.pure _
  · exact (Confined.word Int64).bind fun _ => Confined.pure _
  · exact (Confined.word UInt64).bind fun _ => Confined.pure _
  · exact Confined.u16.bind fun _ => Confined.pure _
  · exact Confined.u16.bind fun _ => Confined.pure _
  · exact readPair_confined _
  · exact readPair_confined _
  · exact readPair_confined _
  · exact readPair_confined _
  · exact Confined.u8.bind fun _ => Confined.u16.bind fun _ => Confined.pure _
  · exact Confined.u16.bind fun _ => Confined.pure _
  · exact readPair_confined _
  · exact readPair_confined _
  · exact Confined.u16.bind fun _ => Confined.pure _
  · exact Confined.u16.bind fun _ => Confined.pure _
  · exact Confined.fail _

end PoolEntry

namespace ConstantPool

/-- Octets that are read as the entries of some slots, of which the first has a number. -/
inductive Stored : Nat → Bytes → List PoolEntry → Prop where
  | nil (slot : Nat) : Stored slot [] []
  | cons {slot : Nat} {bytes more : Bytes} {e : PoolEntry} {es : List PoolEntry}
      (reads : ∀ position, Reads (PoolEntry.read slot) position bytes e)
      (rest : Stored (slot + e.slots.length) more es) : Stored slot (bytes ++ more) (e.slots ++ es)

namespace Stored

variable {slot : Nat} {bytes more : Bytes} {es fs : List PoolEntry}

theorem append (first : Stored slot bytes es) (second : Stored (slot + es.length) more fs) :
    Stored slot (bytes ++ more) (es ++ fs) := by
  induction first with
  | nil slot => exact second
  | cons reads _ ih =>
    rw [List.append_assoc, List.append_assoc]
    rw [List.length_append, ← Nat.add_assoc] at second
    exact cons reads (ih second)

/-- An entry in its stored form. -/
theorem single {e : PoolEntry} (storable : e.Storable) : Stored slot e.encode e.slots := by
  have := cons (fun position => PoolEntry.reads storable slot position) (nil (slot + e.slots.length))
  rwa [List.append_nil, List.append_nil] at this

/-- Stored slots are read back. -/
theorem reads (h : Stored slot bytes es) (position : Nat) :
    Reads (readEntries slot es.length) position bytes es := by
  induction h generalizing position with
  | nil slot =>
    rw [List.length_nil, readEntries]
    exact Reads.pure [] position
  | @cons slot bytes more e es first _ ih =>
    -- The number of slots that are left is that of the remaining entries, whatever the entry takes.
    cases wide : e.isWide with
    | false =>
      rw [PoolEntry.slots_of_narrow wide] at ih ⊢
      show Reads (readEntries slot (es.length + 1)) _ _ (e :: es)
      rw [readEntries]
      refine (first position).bind ?_
      rw [wide]
      exact (ih _).map
    | true =>
      rw [PoolEntry.slots_of_wide wide] at ih ⊢
      show Reads (readEntries slot (es.length + 1 + 1)) _ _ (e :: .unusable :: es)
      rw [readEntries]
      refine (first position).bind ?_
      rw [wide]
      exact (ih _).map

/-- What has been read as slots is stored as these slots. -/
theorem of_readEntries {count : Nat} {c c' : Cursor} (ran : readEntries slot count c = .ok (es, c')) :
    ∃ bytes, c.rest = bytes ++ c'.rest ∧ c'.position = c.position + bytes.length ∧
      Stored slot bytes es := by
  induction count using Nat.strongRecOn generalizing slot es c with
  | ind count ih =>
    cases count with
    | zero =>
      rw [readEntries] at ran
      obtain ⟨rfl, rfl⟩ := pure_eq_ok ran
      exact ⟨[], rfl, rfl, nil slot⟩
    | succ count =>
      rw [readEntries] at ran
      obtain ⟨e, between, here, ran⟩ := bind_eq_ok ran
      obtain ⟨taken, shows, at_, reads⟩ := PoolEntry.read_confined slot c e between here
      -- Both forms of an entry go on behind it, with fewer slots to read.
      have others {k : Nat} {fs : List PoolEntry} (fewer : k < count + 1)
          (rest : readEntries (slot + e.slots.length) k between = .ok (fs, c')) :
          ∃ bytes, c.rest = bytes ++ c'.rest ∧ c'.position = c.position + bytes.length ∧
            Stored slot bytes (e.slots ++ fs) := by
        obtain ⟨more, shows', at', stored⟩ := ih k fewer rest
        refine ⟨taken ++ more, ?_, ?_, cons reads stored⟩
        · rw [shows, shows', List.append_assoc]
        · rw [at', at_, List.length_append, Nat.add_assoc]
      cases wide : e.isWide with
      | true =>
        rw [wide] at ran
        obtain ⟨fs, after, rest, ran⟩ := bind_eq_ok ran
        obtain ⟨rfl, rfl⟩ := pure_eq_ok ran
        rw [PoolEntry.slots_of_wide wide] at others
        exact others (Nat.lt_succ_of_le (Nat.sub_le ..)) rest
      | false =>
        rw [wide] at ran
        obtain ⟨fs, after, rest, ran⟩ := bind_eq_ok ran
        obtain ⟨rfl, rfl⟩ := pure_eq_ok ran
        rw [PoolEntry.slots_of_narrow wide] at others
        exact others (Nat.lt_succ_self _) rest

end Stored

/-- The pool whose slots behind the first one are given. -/
def ofSlots (slots : List PoolEntry) : ConstantPool :=
  ⟨(.unusable :: slots).toArray⟩

@[simp]
theorem size_ofSlots (slots : List PoolEntry) : (ofSlots slots).size = slots.length + 1 := by
  simp [ofSlots, size]

/-- A pool is read back from the count of its slots and its stored slots. -/
theorem Stored.reads_pool {bytes : Bytes} {slots : List PoolEntry} (h : Stored 1 bytes slots)
    (size : slots.length + 1 < 65536) (position : Nat) :
    Reads read position (Bytes.u16 (slots.length + 1) ++ bytes) (ofSlots slots) := by
  have count : (UInt16.ofNat (slots.length + 1)).toNat - 1 = slots.length := by
    rw [UInt16.toNat_ofNat_of_lt' size, Nat.add_sub_cancel]
  refine (Reads.u16 (slots.length + 1) position).bind ?_
  show Reads (readEntries 1 ((UInt16.ofNat (slots.length + 1)).toNat - 1) >>= _) _ _ _
  rw [count]
  exact (h.reads _).map

theorem readEntries_confined (slot count : Nat) : Confined (readEntries slot count) := by
  induction count using Nat.strongRecOn generalizing slot with
  | ind count ih =>
    cases count with
    | zero =>
      rw [readEntries]
      exact Confined.pure []
    | succ count =>
      rw [readEntries]
      refine (PoolEntry.read_confined slot).bind fun e => ?_
      split
      · exact (ih _ (Nat.lt_succ_of_le (Nat.sub_le ..)) _).bind fun _ => Confined.pure _
      · exact (ih _ (Nat.lt_succ_self _) _).bind fun _ => Confined.pure _

/-- What is read as a pool depends on its octets alone. -/
theorem read_confined : Confined read :=
  Confined.u16.bind fun _ => (readEntries_confined 1 _).bind fun _ => Confined.pure _

/-- A pool that has been read, and the octets of its slots behind those of their count. -/
theorem of_read {c c' : Cursor} {pool : ConstantPool} (ran : read c = .ok (pool, c')) :
    ∃ count bytes slots, c.rest = count ++ bytes ++ c'.rest ∧ count.length = 2 ∧
      pool = ofSlots slots ∧ Stored 1 bytes slots := by
  obtain ⟨n, c₁, counted, ran⟩ := bind_eq_ok ran
  obtain ⟨slots, c₂, entries, ran⟩ := bind_eq_ok ran
  obtain ⟨rfl, rfl⟩ := pure_eq_ok ran
  obtain ⟨count, shows₁, size, -⟩ := word_eq_ok counted
  obtain ⟨bytes, shows₂, -, stored⟩ := Stored.of_readEntries entries
  refine ⟨count, bytes, slots, ?_, size, rfl, stored⟩
  rw [shows₁, shows₂, List.append_assoc]

end ConstantPool

end Bytecode
