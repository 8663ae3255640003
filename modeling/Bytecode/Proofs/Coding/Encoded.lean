import Bytecode.ClassFile.Writing
import Bytecode.Proofs.Coding.Decoded
import Bytecode.Proofs.Coding.Layout

/-!
# Code attributes

What stands beside the code in its attribute: the exception ranges, and the tables for debuggers. Of
the tables only this matters, that a reader gets over them (`StoredTable`) and can look up the names
in them. The count of a table and the length of a stack map are stored modulo what their octets hold;
a reader then finds fewer entries, but some it finds.

`Encodes` says of some octets that they are the code attribute of a body: how the code has been laid
out, which exception ranges are stored, and that the tables behind them can be read.
`encodeCode_provides` proves it of what `Method.encodeCode` returns.
-/

namespace Bytecode

open Reader

/-! ## Entries of tables -/

theorem ExceptionEntry.reads (e : ExceptionEntry) (position : Nat) :
    Reads read position e.encode e := by
  rw [encode, List.append_assoc, List.append_assoc]
  exact (Reads.u16_word e.start _).bind ((Reads.u16_word e.stop _).bind
    ((Reads.u16_word e.handler _).bind (Reads.u16_word e.catchType _).map))

theorem LineEntry.reads (e : LineEntry) (position : Nat) : Reads read position e.encode e :=
  (Reads.u16_word e.start _).bind (Reads.u16_word e.line _).map

theorem VariableEntry.reads (e : VariableEntry) (position : Nat) :
    Reads read position e.encode e := by
  rw [encode, List.append_assoc, List.append_assoc, List.append_assoc]
  exact (Reads.u16_word e.start _).bind ((Reads.u16_word e.length _).bind
    ((Reads.u16_word e.name _).bind ((Reads.u16_word e.descriptor _).bind
      (Reads.u16_word e.index _).map)))

/-- Of counted items a reader finds so many as the count says, which is stored in two octets. -/
theorem counted_of_stored {α : Type} {item : Reader α} {stored : α → Bytes}
    (each : ∀ a position, Reads item position (stored a) a) (l : List α) :
    ∃ c, (Reader.counted item).run (Cursor.ofBytes (Bytes.u16 l.length ++ l.flatMap stored)) =
      .ok (l.take (l.length % 65536), c) := by
  have count : (l.take (l.length % 65536)).length = (UInt16.ofNat l.length).toNat := by
    rw [List.length_take, UInt16.toNat_ofNat']
    exact Nat.min_eq_left (Nat.mod_le _ _)
  have front : Reads (Reader.counted item) 0
      (Bytes.u16 l.length ++ (l.take (l.length % 65536)).flatMap stored)
      (l.take (l.length % 65536)) := by
    refine (Reads.u16 l.length 0).bind ?_
    rw [← count]
    have := Reads.replicate (f := id) (l.take (l.length % 65536))
      (fun a _ position => each a position) (0 + (Bytes.u16 l.length).length)
    rwa [List.map_id] at this
  obtain ⟨c, ran, -⟩ := front.run ((l.drop (l.length % 65536)).flatMap stored)
  rw [List.append_assoc, ← List.flatMap_append, List.take_append_drop] at ran
  exact ⟨c, ran⟩

/-! ## Tables inside code attributes -/

namespace CodeAttribute

/-- Whether the contents of a table with a name can be read. -/
structure Readable (pool : ConstantPool) (name : String) (data : Bytes) : Prop where
  lines : name = "LineNumberTable" →
    ∃ entries c, (Reader.counted LineEntry.read).run (Cursor.ofBytes data) = .ok (entries, c)
  locals_ : name = "LocalVariableTable" ∨ name = "LocalVariableTypeTable" →
    ∃ entries c, (Reader.counted VariableEntry.read).run (Cursor.ofBytes data) = .ok (entries, c) ∧
      ∀ v ∈ entries, v.Named pool

/-- Some octets are a table that can be read. -/
def StoredTable (pool : ConstantPool) (table : Bytes) : Prop :=
  ∃ slot name length data, table = Word.encode (slot : UInt16) ++ Bytes.u32 length ++ data ∧
    data.length = length % 4294967296 ∧ pool.utf8 slot = .ok name ∧ Readable pool name data

/-- The names of all variables can be looked up. -/
structure AllNamed (pool : ConstantPool) (a : CodeAttribute) : Prop where
  localVariables : ∀ v ∈ a.localVariables, v.Named pool
  variableTypes : ∀ v ∈ a.variableTypes, v.Named pool

variable {pool : ConstantPool}

/-- Tables that can be read are read, and change neither code nor exception ranges. -/
theorem reads_tables {tables : List Bytes} (stored : ∀ table ∈ tables, StoredTable pool table)
    {a : CodeAttribute} (named : a.AllNamed pool) :
    ∃ a', (∀ position, Reads (readTables pool a tables.length) position tables.flatten a') ∧
      a'.code = a.code ∧ a'.exceptions = a.exceptions ∧ a'.AllNamed pool := by
  induction tables with
  | nil => exact ⟨a, Reads.pure a, rfl, rfl, named⟩
  | cons table tables ih =>
    obtain ⟨a', rest, code, exceptions, named'⟩ :=
      ih fun other member => stored other (List.mem_cons_of_mem _ member)
    obtain ⟨slot, name, length, data, rfl, size, found, readable⟩ :=
      stored table List.mem_cons_self
    have count : data.length = (UInt32.ofNat length).toNat := by
      rw [size, UInt32.toNat_ofNat']
    -- A table is taken whole, whatever of it is then used.
    have start {next : String → Bytes → Reader CodeAttribute} {result : CodeAttribute}
        (h : ∀ position, Reads (next name data) position tables.flatten result) (position : Nat) :
        Reads (do
          let name ← (pool.utf8 (← Reader.u16)).mapError Failure.malformed
          let data ← Reader.bytes (← Reader.u32).toNat
          next name data) position
          ((Word.encode slot ++ Bytes.u32 length ++ data) ++ tables.flatten) result := by
      rw [List.append_assoc, List.append_assoc]
      have named : (pool.utf8 slot).mapError Failure.malformed = .ok name := by
        rw [found]
        rfl
      refine (Reads.u16_word slot _).bind (Reads.lift_bind named ?_)
      · refine (Reads.u32 length _).bind ?_
        rw [← count]
        exact (Reads.bytes_self data _).bind (h _)
    by_cases lines : name = "LineNumberTable"
    · obtain ⟨entries, c, ran⟩ := readable.lines lines
      subst lines
      exact ⟨{ a' with lines := entries ++ a'.lines },
        start fun position => Reads.lift_bind ran (rest position).map, code, exceptions,
        named'.localVariables, named'.variableTypes⟩
    by_cases locals_ : name = "LocalVariableTable"
    · obtain ⟨entries, c, ran, each⟩ := readable.locals_ (.inl locals_)
      subst locals_
      exact ⟨{ a' with localVariables := entries ++ a'.localVariables },
        start fun position => Reads.lift_bind ran (rest position).map, code, exceptions,
        fun v member => (List.mem_append.mp member).elim (each v) (named'.localVariables v),
        named'.variableTypes⟩
    by_cases types : name = "LocalVariableTypeTable"
    · obtain ⟨entries, c, ran, each⟩ := readable.locals_ (.inr types)
      subst types
      exact ⟨{ a' with variableTypes := entries ++ a'.variableTypes },
        start fun position => Reads.lift_bind ran (rest position).map, code, exceptions,
        named'.localVariables,
        fun v member => (List.mem_append.mp member).elim (each v) (named'.variableTypes v)⟩
    · refine ⟨a', start fun position => ?_, code, exceptions, named'⟩
      split
      · exact absurd rfl lines
      · exact absurd rfl locals_
      · exact absurd rfl types
      · exact rest position

/-- A code attribute is read back from its parts. -/
theorem reads_attribute (maxStack maxLocals : Nat) {code : Bytes} {exceptions : List ExceptionEntry}
    {tables : List Bytes} (some_ : code ≠ []) (size : code.length ≤ 65535)
    (few : exceptions.length < 65536) (fewer : tables.length < 65536)
    (stored : ∀ table ∈ tables, StoredTable pool table) :
    ∃ a, Reads (read pool) 0
        (Bytes.u16 maxStack ++ (Bytes.u16 maxLocals ++ (Bytes.u32 code.length ++ (code ++
          (Bytes.u16 exceptions.length ++ exceptions.flatMap ExceptionEntry.encode ++
            (Bytes.u16 tables.length ++ tables.flatten)))))) a ∧
      a.code = code ∧ a.exceptions = exceptions ∧ a.AllNamed pool := by
  have length : (UInt32.ofNat code.length).toNat = code.length :=
    UInt32.toNat_ofNat_of_lt' (Nat.lt_of_le_of_lt size (by decide))
  have count : (UInt16.ofNat tables.length).toNat = tables.length :=
    UInt16.toNat_ofNat_of_lt' fewer
  have ranges := Reads.counted (f := id) exceptions few fun e _ position => e.reads position
  rw [List.map_id] at ranges
  obtain ⟨a, reads, same, ranges', named⟩ := reads_tables stored
    (a := ⟨UInt16.ofNat maxStack, UInt16.ofNat maxLocals, code, exceptions, [], [], []⟩)
    ⟨fun _ member => (List.not_mem_nil member).elim, fun _ member => (List.not_mem_nil member).elim⟩
  refine ⟨a, ?_, same, ranges', named⟩
  refine (Reads.u16 maxStack _).bind ((Reads.u16 maxLocals _).bind ((Reads.u32 code.length _).bind ?_))
  rw [length]
  refine Reads.guard ?_ ((Reads.bytes_self code _).bind ((ranges _).bind ?_))
  · have := List.length_pos_iff.mpr some_
    omega
  · refine (Reads.u16 tables.length _).bind ?_
    rw [count]
    exact reads _

end CodeAttribute

end Bytecode

/-! ## What a body is encoded to -/

namespace Bytecode

namespace Building

variable {α β : Type}

/-- A request for each element of a list. -/
theorem Provides.mapM {f : α → Building β} {Q : α → β → Tables → Prop} {l : List α}
    (each : ∀ a ∈ l, (f a).Provides (Q a)) :
    (l.mapM f).Provides fun bs t => List.Forall₂ (fun a b => Q a b t) l bs := by
  induction l with
  | nil => exact .pure fun t => .nil
  | cons a l ih =>
    rw [List.mapM_cons]
    refine (each a List.mem_cons_self).bind fun b _ => ?_
    refine (ih fun a member => each a (List.mem_cons_of_mem _ member)).bind fun bs _ => ?_
    exact .pure fun t rest first => .cons first rest

/-- A request behind one that fails. -/
theorem Provides.fail_bind (cause : WriteError) {next : α → Building β} {Q : β → Tables → Prop} :
    (Building.fail cause >>= next).Provides Q :=
  (Provides.fail (Q := fun _ _ => False) cause).bind fun _ never => never.elim fun _ => False.elim

/-- A request that looks at the builder first. -/
theorem Provides.of_get {next : PoolBuilder → Building β} {Q : PoolBuilder → β → Tables → Prop}
    (each : ∀ b, (next b).Provides (Q b)) : ∀ b t, b.Shows t → ∀ r b',
      (MonadState.get >>= next : Building β) b = (r, b') →
        b.Leads b' ∧ ∃ t', b'.Shows t' ∧ t.Extends t' ∧
          ∀ a, r = .ok a → ∀ later, t'.Extends later → Q b a later :=
  fun b t shows r b' ran => each b b t shows r b' ran

/-- A request behind a computation that requests nothing. -/
theorem Provides.pure_bind {a : α} {next : α → Building β} {Q : β → Tables → Prop}
    (h : (next a).Provides Q) : (Pure.pure a >>= next).Provides Q :=
  h

end Building

namespace Emission

open Building

variable {e : Emission} {signature : String}

/-! ## Exception ranges -/

/-- What an entry says about an exception range of a body that has been laid out. -/
structure Records (e : Emission) (t : Tables) (r : ExceptionRange) (entry : ExceptionEntry) :
    Prop where
  start : entry.start = UInt16.ofNat (e.mark r.start).val
  stop : entry.stop = UInt16.ofNat (e.mark r.stop).val
  handler : entry.handler = UInt16.ofNat (e.mark r.handler).val
  catchType : r.catchType = none ∧ entry.catchType = 0 ∨
    ∃ name, r.catchType = some name ∧ t.pool.className entry.catchType = .ok name

/-- Whether an exception range covers something. -/
def covers (e : Emission) (r : ExceptionRange) : Bool :=
  (e.mark r.start).val < (e.mark r.stop).val

theorem offsetOf_eq {l : LabelId} {o : Nat} (h : e.offsetOf signature l = .ok o) :
    o = (e.mark l).val := by
  rw [mark_of_labels (Assembles.of_offsetOf h)]
  rfl

/-- The entries are those of the ranges that cover something. -/
theorem exceptionEntries_provides (rs : List ExceptionRange) :
    (e.exceptionEntries signature rs).Provides fun entries t =>
      List.Forall₂ (e.Records t) (rs.filter e.covers) entries := by
  induction rs with
  | nil => exact .pure fun t => .nil
  | cons r rs ih =>
    rw [exceptionEntries]
    dsimp only
    cases starts : e.offsetOf signature r.start with
    | error cause => exact .fail_bind cause
    | ok start =>
    refine Provides.pure_bind ?_
    cases stops : e.offsetOf signature r.stop with
    | error cause => exact .fail_bind cause
    | ok stop =>
    refine Provides.pure_bind ?_
    cases handles : e.offsetOf signature r.handler with
    | error cause => exact .fail_bind cause
    | ok handler =>
    refine Provides.pure_bind ?_
    obtain rfl := offsetOf_eq starts
    obtain rfl := offsetOf_eq stops
    obtain rfl := offsetOf_eq handles
    have selected : e.covers r = decide ((e.mark r.start).val < (e.mark r.stop).val) := rfl
    split
    · rename_i some_
      rw [List.filter_cons_of_pos (selected.trans (decide_eq_true some_))]
      cases catchType : r.catchType with
      | none =>
        refine Provides.pure_bind (ih.bind fun entries _ => .pure fun t rest => .cons ?_ rest)
        exact ⟨rfl, rfl, rfl, .inl ⟨catchType, rfl⟩⟩
      | some name =>
        refine (classRef_provides name).bind fun slot _ => ih.bind fun entries _ => ?_
        exact .pure fun t rest found => .cons ⟨rfl, rfl, rfl, .inr ⟨name, catchType, found⟩⟩ rest
    · rename_i none_
      rw [List.filter_cons_of_neg (by rw [selected]; simpa using none_)]
      exact ih

/-! ## Tables for debuggers -/

/-- There are no more lines than line markers. -/
theorem length_lineEntries_le (e : Emission) : e.lineEntries.length ≤ e.lines.size := by
  rw [lineEntries, ← Array.length_toList]
  exact List.length_filterMap_le ..

/-- The names of the variables can be looked up. -/
theorem variableEntries_provides (descriptor : LocalVariable → Option String)
    (vs : List LocalVariable) :
    (e.variableEntries descriptor vs).Provides fun entries t =>
      entries.length ≤ vs.length ∧ ∀ v ∈ entries, v.Named t.pool := by
  induction vs with
  | nil => exact .pure fun t => ⟨Nat.le_refl 0, fun v member => (List.not_mem_nil member).elim⟩
  | cons v vs ih =>
    have dropped : (e.variableEntries descriptor vs).Provides fun entries t =>
        entries.length ≤ (v :: vs).length ∧ ∀ v ∈ entries, v.Named t.pool :=
      ih.mono fun entries t rest => ⟨Nat.le_succ_of_le rest.1, rest.2⟩
    rw [variableEntries]
    split
    · split
      · exact dropped
      · refine (utf8_provides v.name).bind fun name _ => ?_
        refine (utf8_provides _).bind fun slot _ => ih.bind fun entries _ => ?_
        refine .pure fun t rest described named => ⟨Nat.succ_le_succ rest.1, ?_⟩
        intro entry member
        rcases List.mem_cons.mp member with rfl | member
        · exact ⟨⟨_, named⟩, _, described⟩
        · exact rest.2 entry member
    · exact dropped

end Emission

namespace CodeAttribute

open Building

/-- At most one table, which can be read. -/
structure OptionalTable (pool : ConstantPool) (tables : List Bytes) : Prop where
  one : tables.length ≤ 1
  stored : ∀ table ∈ tables, StoredTable pool table

theorem OptionalTable.nil (pool : ConstantPool) : OptionalTable pool [] :=
  ⟨Nat.zero_le 1, fun _ member => (List.not_mem_nil member).elim⟩

theorem OptionalTable.singleton {pool : ConstantPool} {table : Bytes}
    (stored : StoredTable pool table) : OptionalTable pool [table] :=
  ⟨Nat.le_refl 1, fun _ member => List.mem_singleton.mp member ▸ stored⟩

theorem length_flatten_map {α : Type} {stored : α → Bytes} {width : Nat}
    (size : ∀ a, (stored a).length = width) (l : List α) :
    (l.map stored).flatten.length = width * l.length := by
  induction l with
  | nil => rfl
  | cons a l ih =>
    rw [List.map_cons, List.flatten_cons, List.length_append, size, ih, List.length_cons,
      Nat.mul_succ, Nat.add_comm]

/-- A table whose entries can be read and whose length fits. -/
theorem codeTable_provides {α : Type} {item : Reader α} {stored : α → Bytes} {width : Nat}
    (each : ∀ a position, Reader.Reads item position (stored a) a)
    (size : ∀ a, (stored a).length = width) (name : String) (l : List α)
    (fits : width * l.length + 2 < 4294967296) {P : Tables → Prop}
    (readable : ∀ t data entries, P t → entries ⊆ l → ∀ c,
      (Reader.counted item).run (Cursor.ofBytes data) = .ok (entries, c) → Readable t.pool name data) :
    (codeTable name (l.map stored)).Provides fun tables t =>
      P t → OptionalTable t.pool tables := by
  rw [codeTable]
  split
  · exact .pure fun t _ => .nil t.pool
  · refine (utf8_provides name).bind fun slot _ => .pure fun t found good => .singleton ?_
    refine ⟨slot, name, _, _, rfl, ?_, found, ?_⟩
    · refine (Nat.mod_eq_of_lt ?_).symm
      rw [List.length_append, length_flatten_map size, Bytes.length_u16]
      omega
    · obtain ⟨c, ran⟩ := counted_of_stored each l
      rw [List.length_map]
      exact readable t _ _ good (List.take_subset ..) c ran

end CodeAttribute

namespace Emission

open Building

variable {e : Emission} {signature : String}

/-! ## Stack maps -/

theorem encodeType_provides (offsets : Std.HashMap Nat Nat) (type : VerificationType) :
    (encodeType offsets signature type).Provides fun _ _ => True := by
  cases type with
  | object name => exact (classRef_provides name).bind fun _ _ => .pure fun _ _ => trivial
  | uninitialized creation =>
    rw [encodeType]
    split
    · exact .pure fun _ => trivial
    · exact .fail _
  | _ => exact .pure fun _ => trivial

theorem encodeTypes_provides (offsets : Std.HashMap Nat Nat) (types : List VerificationType) :
    (encodeTypes offsets signature types).Provides fun _ _ => True :=
  (Provides.mapM fun type _ => encodeType_provides offsets type).bind fun _ _ =>
    .pure fun _ _ => trivial

theorem encodeFrames_provides (frameAt : Nat → Option TypeFrame) (offsets : Std.HashMap Nat Nat)
    (base : Nat) (l : List Nat) :
    (encodeFrames frameAt offsets signature base l).Provides fun _ _ => True := by
  induction l generalizing base with
  | nil => exact .pure fun _ => trivial
  | cons offset l ih =>
    rw [encodeFrames]
    split
    · exact .fail _
    · refine Provides.bind (Q := fun _ _ => True) ?_ fun _ _ =>
        (ih (offset + 1)).bind fun _ _ => .pure fun _ _ _ => trivial
      exact (encodeTypes_provides offsets _).bind fun _ _ =>
        (encodeTypes_provides offsets _).bind fun _ _ => .pure fun _ _ _ => trivial

theorem stackMap_provides (frames : MethodFrames) (exceptions : List ExceptionRange) :
    (e.stackMap frames signature exceptions).Provides fun _ _ => True := by
  rw [stackMap]
  split
  · exact .fail _
  · exact .pure fun _ => trivial
  · exact (encodeFrames_provides _ _ _ _).bind fun _ _ => .pure fun _ _ => trivial

end Emission

namespace Method

open Building CodeAttribute

/-- Some octets are the code attribute of a body, with an emission for its code and entries for its
exception ranges. What follows the tables that can be read is left over by a reader. -/
structure Encodes (m : Method) (frames : MethodFrames) (t : Tables) (e : Emission) (code : Bytes)
    (entries : List ExceptionEntry) (bytes : Bytes) : Prop where
  covers : e.Covers frames m.body.toList
  back : e.ReadBack t
  assembled : e.assemble m.signature = .ok code
  size : code.length ≤ 65535
  exceptions : List.Forall₂ (e.Records t) (m.exceptions.filter e.covers) entries
  octets : ∃ (maxStack maxLocals : Nat) (tables : List Bytes) (tail : Bytes),
    bytes = (Bytes.u16 maxStack ++ (Bytes.u16 maxLocals ++ (Bytes.u32 code.length ++ (code ++
      (Bytes.u16 entries.length ++ entries.flatMap ExceptionEntry.encode ++
        (Bytes.u16 tables.length ++ tables.flatten)))))) ++ tail ∧
    tables.length ≤ 4 ∧ ∀ table ∈ tables, StoredTable t.pool table

/-- A code attribute of whose last table a reader takes a part. -/
theorem Encodes.of_tables {m : Method} {frames : MethodFrames} {t : Tables} {e : Emission}
    {code : Bytes} {entries : List ExceptionEntry} (covers : e.Covers frames m.body.toList)
    (back : e.ReadBack t) (assembled : e.assemble m.signature = .ok code)
    (size : ¬ 65535 < code.length)
    (exceptions : List.Forall₂ (e.Records t) (m.exceptions.filter e.covers) entries)
    {lines locals_ types last stored : List Bytes} {tail : Bytes}
    (lined : OptionalTable t.pool lines) (named : OptionalTable t.pool locals_)
    (typed : OptionalTable t.pool types) (readable : OptionalTable t.pool stored)
    (same : last.length = stored.length) (split : last.flatten = stored.flatten ++ tail)
    (maxStack maxLocals : Nat) :
    m.Encodes frames t e code entries
      (Bytes.u16 maxStack ++ Bytes.u16 maxLocals ++ Bytes.u32 code.length ++ code ++
        Bytes.u16 entries.length ++ entries.flatMap ExceptionEntry.encode ++
        Bytes.u16 (lines ++ locals_ ++ types ++ last).length ++
        (lines ++ locals_ ++ types ++ last).flatten) where
  covers := covers
  back := back
  assembled := assembled
  size := Nat.le_of_not_lt size
  exceptions := exceptions
  octets := by
    refine ⟨maxStack, maxLocals, lines ++ locals_ ++ types ++ stored, tail, ?_, ?_, ?_⟩
    · simp only [List.flatten_append, List.length_append, split, same, List.append_assoc]
    · have := lined.one
      have := named.one
      have := typed.one
      have := readable.one
      simp only [List.length_append]
      omega
    · intro table member
      simp only [List.mem_append] at member
      rcases member with ((member | member) | member) | member
      · exact lined.stored table member
      · exact named.stored table member
      · exact typed.stored table member
      · exact readable.stored table member

/-- The octets of a stack map, of which a reader takes so many as their length says. -/
theorem stackMap_split {pool : ConstantPool} {slot : UInt16} (data : Bytes)
    (found : pool.utf8 slot = .ok "StackMapTable") :
    ∃ table tail, attributeBytes slot data = table ++ tail ∧ StoredTable pool table := by
  refine ⟨Word.encode slot ++ Bytes.u32 data.length ++ data.take (data.length % 4294967296),
    data.drop (data.length % 4294967296), ?_, slot, _, data.length, _, rfl, ?_, found, ?_⟩
  · rw [attributeBytes, List.append_assoc (Word.encode slot ++ _), List.take_append_drop]
  · rw [List.length_take]
    exact Nat.min_eq_left (Nat.mod_le _ _)
  · exact ⟨fun other => by simp at other, fun other => by simp at other⟩

/-- What a method without too many lines and variables is encoded to. -/
theorem encodeCode_provides {m : Method} (h : Hierarchy) (version : UInt16)
    (decoded : ∀ insn ∈ m.body.toList, insn.node.isPseudo = false → insn.node.Decoded)
    (lines : 4 * m.body.toList.countP (·.node.isLine) + 2 < 4294967296)
    (locals_ : 10 * m.localVariables.length + 2 < 4294967296) :
    ∀ b t, b.Shows t → ∀ r b', m.encodeCode h version b = (r, b') →
      b.Leads b' ∧ ∃ t', b'.Shows t' ∧ t.Extends t' ∧ ∀ bytes, r = .ok bytes → ∀ later,
        t'.Extends later → ∃ frames e code entries, inferFrames h b.owner m = .ok frames ∧
          m.Encodes frames later e code entries bytes := by
  refine Provides.of_get fun b => ?_
  refine (Provides.lift (Q := fun frames _ => inferFrames h b.owner m = .ok frames) _
    fun _ _ same => same).bind fun frames _ => ?_
  refine (Emission.ofBody_provides decoded).bind fun e covered => ?_
  obtain ⟨_, covers, -⟩ := covered
  refine (Provides.lift (Q := fun code _ => e.assemble m.signature = .ok code) _
    fun _ _ => ok_of_mapError).bind fun code _ => ?_
  dsimp only
  by_cases size : 65535 < code.length
  · rw [if_pos size]
    exact .fail_bind _
  rw [if_neg size]
  refine (Emission.exceptionEntries_provides m.exceptions).bind fun entries _ => ?_
  have fewLines : 4 * e.lineEntries.length + 2 < 4294967296 := by
    have := e.length_lineEntries_le
    rw [covers.lines] at this
    omega
  refine (codeTable_provides (P := fun _ => True) LineEntry.reads (fun _ => rfl) "LineNumberTable"
    e.lineEntries fewLines ?_).bind fun lineTable _ => ?_
  · exact fun t data found _ _ c ran => ⟨fun _ => ⟨found, c, ran⟩, fun other => by simp at other⟩
  refine (Emission.variableEntries_provides _ m.localVariables).bind fun variables_ known => ?_
  obtain ⟨_, fewer, -⟩ := known
  refine (codeTable_provides (P := fun t => ∀ v ∈ variables_, v.Named t.pool) VariableEntry.reads
    (fun _ => rfl) "LocalVariableTable" variables_
    (show 10 * variables_.length + 2 < 4294967296 by omega) ?_).bind fun variableTable _ => ?_
  · exact fun t data found named inside c ran =>
      ⟨fun other => by simp at other, fun _ => ⟨found, c, ran, fun v member => named v (inside member)⟩⟩
  refine (Emission.variableEntries_provides _ m.localVariables).bind fun types known => ?_
  obtain ⟨_, fewer', -⟩ := known
  refine (codeTable_provides (P := fun t => ∀ v ∈ types, v.Named t.pool) VariableEntry.reads
    (fun _ => rfl) "LocalVariableTypeTable" types
    (show 10 * types.length + 2 < 4294967296 by omega) ?_).bind fun typeTable _ => ?_
  · exact fun t data found named inside c ran =>
      ⟨fun other => by simp at other, fun _ => ⟨found, c, ran, fun v member => named v (inside member)⟩⟩
  suffices finish : Provides _ fun bytes t => ∃ last stored tail,
      bytes = Bytes.u16 frames.maxStack ++ Bytes.u16 frames.maxLocals ++ Bytes.u32 code.length ++ code ++
        Bytes.u16 entries.length ++ entries.flatMap ExceptionEntry.encode ++
        Bytes.u16 (lineTable ++ variableTable ++ typeTable ++ last).length ++
        (lineTable ++ variableTable ++ typeTable ++ last).flatten ∧
      last.length = stored.length ∧ last.flatten = stored.flatten ++ tail ∧
      OptionalTable t.pool stored by
    refine finish.mono fun bytes t parts typed types variabled variables_ lined exceptions assembled
      covered inferred => ?_
    obtain ⟨last, stored, tail, rfl, same, split, readable⟩ := parts
    exact ⟨frames, e, code, entries, inferred, .of_tables covered.1 covered.2 assembled size exceptions
      (lined trivial) (variabled variables_.2) (typed types.2) readable same split _ _⟩
  split
  · exact Provides.pure_bind (.pure fun t => ⟨[], [], [], rfl, rfl, rfl, .nil t.pool⟩)
  · refine (Emission.stackMap_provides frames m.exceptions).bind fun map _ => ?_
    cases map with
    | none =>
      exact Provides.pure_bind (.pure fun t _ => ⟨[], [], [], rfl, rfl, rfl, .nil t.pool⟩)
    | some data =>
      refine (utf8_provides "StackMapTable").bind fun slot _ => Provides.pure_bind ?_
      refine .pure fun t found _ => ?_
      obtain ⟨table, tail, split, stored⟩ := stackMap_split data found
      refine ⟨[attributeBytes slot data], [table], tail, rfl, rfl, ?_, .singleton stored⟩
      rw [split]
      simp

end Method

end Bytecode
