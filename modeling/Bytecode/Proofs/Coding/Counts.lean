import Bytecode.Proofs.Coding.Classes
import Bytecode.Proofs.Coding.Filing

/-!
# The counts of a class file

Every class that is written is written as a class file of which each count and each length holds as
many bits of the right number as there is room for (`Class.encode_filed`). The writer refuses code that
is too long, and with it everything that is bounded by the length of code; it refuses nothing else that
does not fit. So a class file is right about itself exactly if what the writer does not look at happens
to fit (`Class.encode_counts`).

A class that implements 65536 interfaces is written with a count of none
(`Class.encode_manyInterfaces`).
-/

namespace Bytecode

open Building

/-! ## Attributes -/

/-- The octets of an attribute with some contents. -/
def Attribute.Stores (bytes : Bytes) (a : Attribute) : Prop :=
  ∃ slot, bytes = attributeBytes slot a.data

theorem encodeAttributes_yields (attributes : List Attribute) :
    (encodeAttributes attributes).Yields fun bytes => ∃ chunks, bytes = chunks.flatten ∧
      List.Forall₂ Attribute.Stores chunks attributes := by
  induction attributes with
  | nil => exact .pure ⟨[], rfl, .nil⟩
  | cons a attributes ih =>
    refine (utf8_yields a.name).bind fun slot _ => ih.bind fun _ rest => .pure ?_
    obtain ⟨chunks, rfl, each⟩ := rest
    exact ⟨attributeBytes slot a.data :: chunks, rfl, .cons ⟨slot, rfl⟩ each⟩

theorem encodeCounted_yields (attributes : List Attribute) :
    (encodeCounted attributes).Yields fun bytes => ∃ chunks,
      bytes = Word.encode (UInt16.ofNat chunks.length) ++ chunks.flatten ∧
      List.Forall₂ Attribute.Stores chunks attributes := by
  refine (encodeAttributes_yields attributes).bind fun _ stored => .pure ?_
  obtain ⟨chunks, rfl, each⟩ := stored
  exact ⟨chunks, by rw [Word.encode_ofNat16, each.length_eq], each⟩

/-- The octets of attributes in front of others. -/
theorem Attribute.split_of_stores {chunks : List Bytes} {front behind : List Attribute}
    (each : List.Forall₂ Stores chunks (front ++ behind)) :
    ∃ first second, chunks = first ++ second ∧ List.Forall₂ Stores first front ∧
      List.Forall₂ Stores second behind :=
  ⟨_, _, (List.take_append_drop front.length chunks).symm,
    List.forall₂_take_append _ _ _ each, List.forall₂_drop_append _ _ _ each⟩

/-- A count of attributes is cut. -/
theorem cut_attributes (n : Nat) : Tally.Cut ⟨.attributes, 2, (UInt16.ofNat n).toNat, n⟩ :=
  ⟨UInt16.toNat_ofNat', fun guarded => by cases guarded⟩

/-- Attributes that are carried along are labelled contents. -/
theorem carried_of_stores {chunks : List Bytes} {attributes : List Attribute}
    (each : List.Forall₂ Attribute.Stores chunks attributes) :
    ∃ filed : List (Labelled Bytes), chunks = filed.map (Labelled.octets id) ∧
      filed.map Labelled.content = attributes.map Attribute.data ∧
      ∀ t ∈ filed.flatMap (Labelled.tallies id fun _ => []), t.Cut := by
  induction each with
  | nil => exact ⟨[], rfl, rfl, Tally.cut_nil⟩
  | @cons bytes a chunks attributes first _ ih =>
    obtain ⟨slot, rfl⟩ := first
    obtain ⟨filed, rfl, same, cut⟩ := ih
    refine ⟨.ofContent id slot a.data :: filed, ?_, congrArg (a.data :: ·) same, fun t member => ?_⟩
    · exact congrArg (· :: _) (Labelled.octets_ofContent id slot a.data).symm
    · rcases List.mem_append.mp member with here | later
      · exact Labelled.cut_ofContent Tally.cut_nil t here
      · exact cut t later

/-- An attribute that is written if there are contents for it is a labelled content. -/
theorem labelled_of_stores {α : Type} {stored : α → Bytes} {inner : α → List Tally} {name : String}
    {content : Option α} {chunks : List Bytes}
    (each : List.Forall₂ Attribute.Stores chunks
      (content.map fun a => Attribute.mk name (stored a)).toList)
    (cut : ∀ a ∈ content, ∀ t ∈ inner a, t.Cut) :
    ∃ filed : Option (Labelled α), chunks = (filed.map (Labelled.octets stored)).toList ∧
      filed.map Labelled.content = content ∧
      ∀ t ∈ filed.toList.flatMap (Labelled.tallies stored inner), t.Cut := by
  cases content with
  | none =>
    cases each
    exact ⟨none, rfl, rfl, Tally.cut_nil⟩
  | some a =>
    obtain _ | ⟨first, rest⟩ := each
    cases rest
    obtain ⟨slot, rfl⟩ := first
    refine ⟨some (.ofContent stored slot a), ?_, rfl, fun t member => ?_⟩
    · exact congrArg ([·]) (Labelled.octets_ofContent stored slot a).symm
    · obtain ⟨filed, listed, inside⟩ := List.mem_flatMap.mp member
      obtain rfl := List.mem_singleton.mp listed
      exact Labelled.cut_ofContent (cut a rfl) t inside

/-- The contents of an attribute, if there is one. -/
def Labelled.items {α : Type} (table : Option (Labelled (Counted α))) : List α :=
  table.elim [] fun a => a.content.items

/-- A table of code has the entries that are to be written. -/
theorem codeTable_yields {α : Type} (stored : α → Bytes) {q : Quantity} (free : q.isGuarded = false)
    (name : String) (entries : List α) :
    (codeTable name (entries.map stored)).Yields fun data =>
      ∃ filed : Option (Labelled (Counted α)),
        data = (filed.map (Labelled.octets (Counted.octets stored))).toList ∧
        Labelled.items filed = entries ∧
        ∀ t ∈ filed.toList.flatMap (Labelled.tallies (Counted.octets stored)
          (Counted.tallies q fun _ => [])), t.Cut := by
  rw [codeTable]
  cases entries with
  | nil => exact .pure ⟨none, rfl, rfl, Tally.cut_nil⟩
  | cons entry entries =>
    refine (utf8_yields name).bind fun slot _ => .pure ?_
    refine ⟨some (.ofContent (Counted.octets stored) slot (.ofItems (entry :: entries))), ?_, rfl,
      fun t member => ?_⟩
    · refine congrArg ([·]) ((Labelled.octets_ofContent _ slot _).trans ?_).symm
      rw [Counted.octets_ofItems, List.length_map, List.flatMap_def]
    · rw [Option.toList_some, List.flatMap_singleton] at member
      exact Labelled.cut_ofContent (Counted.cut_ofItems (.inl free) fun _ _ => Tally.cut_nil) t member

/-! ## Methods and fields -/

/-- Some code of a method has no more entries than the method has ranges, line markers and variables.
-/
structure FiledCode.Of (c : FiledCode) (m : Method) : Prop where
  exceptions : c.exceptions.items.length ≤ m.exceptions.length
  lines : (Labelled.items c.lines).length ≤ m.body.toList.countP (·.node.isLine)
  localVariables : (Labelled.items c.localVariables).length ≤ m.localVariables.length
  variableTypes : (Labelled.items c.variableTypes).length ≤ m.localVariables.length

/-- There are so few tables of code that they are always counted right. -/
theorem FiledCode.length_tables_le (c : FiledCode) : c.tables.length ≤ 4 := by
  have one {α : Type} (o : Option α) : o.toList.length ≤ 1 := Option.length_toList_le
  have := one (c.lines.map (Labelled.octets (Counted.octets LineEntry.encode)))
  have := one (c.localVariables.map (Labelled.octets (Counted.octets VariableEntry.encode)))
  have := one (c.variableTypes.map (Labelled.octets (Counted.octets VariableEntry.encode)))
  have := one (c.stackMap.map (Labelled.octets (Counted.octets FiledFrame.octets)))
  simp only [FiledCode.tables, List.length_append]
  omega

theorem Method.encodeCode_yields (m : Method) (h : Hierarchy) (version : UInt16) :
    (m.encodeCode h version).Yields fun data => ∃ c : FiledCode, data = c.octets ∧ c.Of m ∧
      ∀ t ∈ c.tallies, t.Cut := by
  refine Yields.get.bind fun b _ => ?_
  refine (Yields.lift (Q := fun frames => inferFrames h b.owner m = .ok frames) _
    fun _ same => same).bind fun frames inferred => ?_
  refine (Emission.ofBody_yields frames m.body).bind fun e measured => ?_
  refine (Yields.lift (Q := fun code => e.assemble m.signature = .ok code) _
    fun _ => ok_of_mapError).bind fun code assembled => ?_
  dsimp only
  by_cases long : 65535 < code.length
  · rw [if_pos long]
    exact .fail_bind _
  rw [if_neg long]
  have size := measured.length_of_assemble assembled
  refine (Emission.exceptionEntries_yields m.exceptions).bind fun entries fewer => ?_
  refine (codeTable_yields LineEntry.encode (q := .lines) rfl _ _).bind fun _ lines => ?_
  refine (Emission.variableEntries_yields _ m.localVariables).bind fun named fewer₁ => ?_
  refine (codeTable_yields VariableEntry.encode (q := .localVariables) rfl _ named).bind
    fun _ locals_ => ?_
  refine (Emission.variableEntries_yields _ m.localVariables).bind fun typed fewer₂ => ?_
  refine (codeTable_yields VariableEntry.encode (q := .variableTypes) rfl _ typed).bind
    fun _ types => ?_
  obtain ⟨lines, rfl, lined, cut₁⟩ := lines
  obtain ⟨locals_, rfl, rfl, cut₂⟩ := locals_
  obtain ⟨types, rfl, rfl, cut₃⟩ := types
  have finish (maps : Option (Labelled (Counted FiledFrame)))
      (cut₄ : ∀ t ∈ maps.toList.flatMap (Labelled.tallies (Counted.octets FiledFrame.octets)
        (Counted.tallies .frames FiledFrame.tallies)), t.Cut) (tables : List Bytes)
      (same : tables = (lines.map (Labelled.octets (Counted.octets LineEntry.encode))).toList ++
        (locals_.map (Labelled.octets (Counted.octets VariableEntry.encode))).toList ++
        (types.map (Labelled.octets (Counted.octets VariableEntry.encode))).toList ++
        (maps.map (Labelled.octets (Counted.octets FiledFrame.octets))).toList) :
      ∃ c : FiledCode, Bytes.u16 frames.maxStack ++ Bytes.u16 frames.maxLocals ++
        Bytes.u32 code.length ++ code ++ Bytes.u16 entries.length ++
        entries.flatMap ExceptionEntry.encode ++ Bytes.u16 tables.length ++ tables.flatten = c.octets ∧
        c.Of m ∧ ∀ t ∈ c.tallies, t.Cut := by
    let c : FiledCode := {
      maxStack := UInt16.ofNat frames.maxStack
      maxLocals := UInt16.ofNat frames.maxLocals
      length := UInt32.ofNat code.length
      code
      exceptions := .ofItems entries
      tableCount := UInt16.ofNat tables.length
      lines, localVariables := locals_, variableTypes := types, stackMap := maps }
    have few : tables.length ≤ 4 := same ▸ c.length_tables_le
    refine ⟨c, ?_, ⟨fewer, ?_, fewer₁, fewer₂⟩, ?_⟩
    · rw [FiledCode.octets, show c.tables = tables from same.symm]
      simp only [c, Word.encode_ofNat16, Word.encode_ofNat32, Counted.octets_ofItems, List.append_assoc]
    · rw [lined, ← measured.lines]
      exact e.length_lineEntries_le
    · have counted : Tally.Cut ⟨.codeTables, 2, c.tableCount.toNat, c.tables.length⟩ := by
        rw [show c.tables = tables from same.symm]
        exact ⟨UInt16.toNat_ofNat', fun _ => by show tables.length < 65536; omega⟩
      simp only [FiledCode.tallies, List.forall_mem_cons, List.forall_mem_append, List.cons_append]
      exact ⟨⟨UInt32.toNat_ofNat', fun _ => by show code.length < 4294967296; omega⟩,
        Counted.cut_ofItems (.inl rfl) fun _ _ => Tally.cut_nil, counted, ⟨⟨cut₁, cut₂⟩, cut₃⟩, cut₄⟩
  split
  · exact Yields.pure_bind (.pure (finish none Tally.cut_nil _ rfl))
  · refine (Emission.stackMap_yields (by omega) fun i f here => inferFrames_room inferred here).bind
      fun _ map => ?_
    obtain ⟨map, rfl, cut⟩ := map
    cases map with
    | none => exact Yields.pure_bind (.pure (finish none Tally.cut_nil _ rfl))
    | some frames =>
      refine (utf8_yields _).bind fun slot _ => Yields.pure_bind (.pure ?_)
      refine finish (some (.ofContent (Counted.octets FiledFrame.octets) slot frames)) ?_ _ ?_
      · rw [Option.toList_some, List.flatMap_singleton]
        exact Labelled.cut_ofContent (cut frames rfl)
      · rw [Option.map_some, Labelled.octets_ofContent]
        rfl

/-- A field as it is written: without code. -/
structure FiledMember.OfField (w : FiledMember) (f : Field) : Prop where
  code : w.code = none
  carried : w.carried.map Labelled.content = f.attributes.map Attribute.data

/-- A method as it is written: with code if it has a body. -/
structure FiledMember.OfMethod (w : FiledMember) (m : Method) : Prop where
  code : w.code.isSome = !m.body.isEmpty
  entries : ∀ a ∈ w.code, a.content.Of m
  carried : w.carried.map Labelled.content = m.attributes.map Attribute.data

theorem Field.encode_yields (f : Field) :
    f.encode.Yields fun bytes => ∃ w : FiledMember, w.octets = bytes ∧ w.OfField f ∧
      ∀ t ∈ w.tallies, t.Cut := by
  refine (utf8_yields _).bind fun name _ => (utf8_yields _).bind fun descriptor _ => ?_
  refine (encodeCounted_yields f.attributes).bind fun _ stored => .pure ?_
  obtain ⟨chunks, rfl, each⟩ := stored
  obtain ⟨filed, rfl, same, cut⟩ := carried_of_stores each
  let w : FiledMember := {
    access := f.access, name, descriptor
    attributeCount := UInt16.ofNat (filed.map (Labelled.octets id)).length
    code := none, carried := filed }
  refine ⟨w, ?_, ⟨rfl, same⟩, List.forall_mem_cons.mpr ⟨cut_attributes _, cut⟩⟩
  exact List.append_assoc ..

theorem Method.encode_yields (m : Method) (h : Hierarchy) (version : UInt16) :
    (m.encode h version).Yields fun bytes => ∃ w : FiledMember, w.octets = bytes ∧ w.OfMethod m ∧
      ∀ t ∈ w.tallies, t.Cut := by
  refine (utf8_yields _).bind fun name _ => (utf8_yields _).bind fun descriptor _ => ?_
  -- Code is an attribute in front of the others, if there is any.
  have finish (code : Option FiledCode) (some_ : code.isSome = !m.body.isEmpty)
      (fits : ∀ c ∈ code, c.Of m ∧ ∀ t ∈ c.tallies, t.Cut) :
      (do return Word.encode m.access ++ Word.encode name ++ Word.encode descriptor ++
        (← encodeCounted ((code.map fun c => Attribute.mk "Code" c.octets).toList ++ m.attributes)) :
          Building Bytes).Yields fun bytes => ∃ w : FiledMember,
        w.octets = bytes ∧ w.OfMethod m ∧ ∀ t ∈ w.tallies, t.Cut := by
    refine (encodeCounted_yields _).bind fun _ stored => .pure ?_
    obtain ⟨chunks, rfl, each⟩ := stored
    obtain ⟨front, behind, rfl, first, second⟩ := Attribute.split_of_stores each
    obtain ⟨labelled, rfl, rfl, cut₁⟩ := labelled_of_stores first fun c here => (fits c here).2
    obtain ⟨filed, rfl, same, cut₂⟩ := carried_of_stores second
    let w : FiledMember := {
      access := m.access, name, descriptor
      attributeCount := UInt16.ofNat ((labelled.map (Labelled.octets FiledCode.octets)).toList ++
        filed.map (Labelled.octets fun data => data)).length
      code := labelled, carried := filed }
    refine ⟨w, List.append_assoc .., ⟨?_, fun a here => ?_, same⟩, ?_⟩
    · rw [← some_, Option.isSome_map]
    · exact (fits a.content (Option.mem_map_of_mem _ here)).1
    · exact List.forall_mem_cons.mpr ⟨cut_attributes _, List.forall_mem_append.mpr ⟨cut₁, cut₂⟩⟩
  have none_fits (c : FiledCode) (here : c ∈ (none : Option FiledCode)) :
      c.Of m ∧ ∀ t ∈ c.tallies, t.Cut := absurd here (Option.not_mem_none c)
  cases empty : m.body.isEmpty with
  | true => exact Yields.pure_bind (finish none (by rw [empty]; rfl) none_fits)
  | false =>
    refine (Method.encodeCode_yields m h version).bind fun _ code => ?_
    obtain ⟨c, rfl, fits⟩ := code
    refine Yields.pure_bind (finish (some c) (by rw [empty]; rfl) fun c' here => ?_)
    cases here
    exact fits

/-! ## Classes -/

theorem annotationAttribute_yields (name : String) (annotations : List AnnotationUse) :
    (annotationAttribute name annotations).Yields fun attributes =>
      ∃ filed : Option (Counted Bytes),
        attributes = (filed.map fun a => Attribute.mk name (a.octets id)).toList ∧
        (filed.elim [] Counted.items).length = annotations.length ∧
        ∀ a ∈ filed, ∀ t ∈ a.tallies .annotations fun _ => [], t.Cut := by
  rw [annotationAttribute]
  cases annotations with
  | nil => exact .pure ⟨none, rfl, rfl, fun _ here => absurd here (Option.not_mem_none _)⟩
  | cons a annotations =>
    refine Yields.bind (Q := fun data => ∃ c : Counted Bytes, data = c.octets id ∧
      c.items.length = (a :: annotations).length ∧
      ∀ t ∈ c.tallies .annotations fun _ => [], t.Cut) ?_ fun data listed => .pure ?_
    · refine (Yields.mapM (Q := fun _ _ => True) fun a _ => ?_).bind fun chunks each => .pure ?_
      · exact (utf8_yields a.descriptor).bind fun _ _ => .pure trivial
      · refine ⟨.ofItems chunks, ?_, each.length_eq.symm, Counted.cut_ofItems (.inl rfl)
          fun _ _ => Tally.cut_nil⟩
        rw [Counted.octets_ofItems, each.length_eq, List.flatMap_id]
    · obtain ⟨c, rfl, same, cut⟩ := listed
      refine ⟨some c, rfl, same, fun c' here => ?_⟩
      cases here
      exact cut

/-- The parts of a class as they are written. -/
structure FiledMembers.Of (w : FiledMembers) (c : Class) : Prop where
  interfaces : w.interfaces.items.length = c.interfaces.length
  fields : List.Forall₂ FiledMember.OfField w.fields.items c.fields
  methods : List.Forall₂ FiledMember.OfMethod w.methods.items c.methods

/-- Parts that are written one by one. -/
private theorem exists_filed {α : Type} {R : FiledMember → α → Prop} {l : List α} {chunks : List Bytes}
    (each : List.Forall₂ (fun a bytes => ∃ w : FiledMember, w.octets = bytes ∧ R w a ∧
      ∀ t ∈ w.tallies, t.Cut) l chunks) : ∃ ws : List FiledMember,
      chunks = ws.map FiledMember.octets ∧ List.Forall₂ R ws l ∧
      ∀ w ∈ ws, ∀ t ∈ w.tallies, t.Cut := by
  induction each with
  | nil => exact ⟨[], rfl, .nil, fun _ member => absurd member List.not_mem_nil⟩
  | cons first _ ih =>
    obtain ⟨w, rfl, related, cut⟩ := first
    obtain ⟨ws, rfl, rest, cuts⟩ := ih
    exact ⟨w :: ws, rfl, .cons related rest, List.forall_mem_cons.mpr ⟨cut, cuts⟩⟩

namespace Class

theorem encodeMembers_yields (c : Class) (h : Hierarchy) :
    (c.encodeMembers h).Yields fun encoded => ∃ w : FiledMembers, encoded.1 = w.octets ∧ w.Of c ∧
      (∀ t ∈ w.tallies, t.Cut) ∧ ∃ visible invisible : Option (Counted Bytes),
        encoded.2 = (visible.map fun a => ⟨"RuntimeVisibleAnnotations", a.octets id⟩).toList ++
          (invisible.map fun a => ⟨"RuntimeInvisibleAnnotations", a.octets id⟩).toList ∧
        (visible.elim [] Counted.items).length = c.visibleAnnotations.length ∧
        (invisible.elim [] Counted.items).length = c.invisibleAnnotations.length ∧
        ∀ listed ∈ visible.toList ++ invisible.toList,
          ∀ t ∈ listed.tallies .annotations fun _ => [], t.Cut := by
  have superSlot_yields : (superSlot c.superName).Yields fun _ => True := by
    cases c.superName with
    | none => exact .pure trivial
    | some name => exact classRef_yields name
  refine (classRef_yields c.name).bind fun name _ => superSlot_yields.bind fun superName _ => ?_
  refine (Yields.mapM fun name _ => classRef_yields name).bind fun interfaces implemented =>
    (Yields.mapM fun f _ => Field.encode_yields f).bind fun fields declared => ?_
  refine (Yields.mapM fun m _ => Method.encode_yields m h c.majorVersion).bind
    fun methods defined => ?_
  refine (annotationAttribute_yields _ _).bind fun _ visible =>
    (annotationAttribute_yields _ _).bind fun _ invisible => .pure ?_
  obtain ⟨fields, rfl, declared, cut₁⟩ := exists_filed declared
  obtain ⟨methods, rfl, defined, cut₂⟩ := exists_filed defined
  obtain ⟨visible, rfl, seen, cut₃⟩ := visible
  obtain ⟨invisible, rfl, unseen, cut₄⟩ := invisible
  let w : FiledMembers := {
    access := c.access, name, superName
    interfaces := .ofItems interfaces, fields := .ofItems fields, methods := .ofItems methods }
  refine ⟨w, ?_, ⟨implemented.length_eq.symm, declared, defined⟩, ?_, visible, invisible, rfl, seen,
    unseen, ?_⟩
  · simp only [FiledMembers.octets, w, Counted.octets_ofItems, List.length_map, List.flatMap_def,
      List.append_assoc]
  · simp only [FiledMembers.tallies, List.forall_mem_append]
    exact ⟨⟨Counted.cut_ofItems (.inl rfl) fun _ _ => Tally.cut_nil, Counted.cut_ofItems (.inl rfl) cut₁⟩,
      Counted.cut_ofItems (.inl rfl) cut₂⟩
  · simp only [List.forall_mem_append, Option.mem_toList]
    exact ⟨cut₃, cut₄⟩

end Class

/-! ## The class file -/

/-- An entry that is new and fits is added. -/
theorem Building.entry_of_room {b : PoolBuilder} {e : PoolEntry} (absent : b.slots[e]? = none)
    (room : b.size + e.slots.length ≤ 65535) :
    entry e b = (.ok (UInt16.ofNat b.size), { b with
      added := b.added.push e
      size := b.size + e.slots.length
      slots := b.slots.insert e (UInt16.ofNat b.size) }) := by
  rcases ran : entry e b with ⟨r, b'⟩
  rcases entry_of_none absent ran with ⟨full, -, -⟩ | ⟨-, rfl, rfl⟩
  · omega
  · rfl

namespace PoolBuilder

/-- A bootstrap method as it is written. -/
def file (m : BootstrapMethod) : FiledBootstrap :=
  ⟨m.handle, .ofItems m.arguments⟩

theorem bootstrapTable_eq (b : PoolBuilder) : ∃ filed : Option (Counted FiledBootstrap),
    b.bootstrapTable = filed.map (Counted.octets FiledBootstrap.octets) ∧
      (filed.elim [] Counted.items).length = b.bootstraps.size ∧
      ∀ a ∈ filed, ∀ t ∈ a.tallies .bootstraps FiledBootstrap.tallies, t.Cut := by
  rw [bootstrapTable]
  by_cases none_ : b.bootstraps.isEmpty = true
  · rw [if_pos none_]
    exact ⟨none, rfl, (Array.isEmpty_iff_size_eq_zero.mp none_).symm,
      fun _ here => absurd here (Option.not_mem_none _)⟩
  · rw [if_neg none_]
    refine ⟨some (.ofItems (b.bootstraps.toList.map file)), ?_, ?_, fun a here => ?_⟩
    · rw [Option.map_some, Counted.octets_ofItems, List.length_map, Array.length_toList,
        List.flatMap_map]
      have each (m : BootstrapMethod) : (file m).octets = Word.encode m.handle ++
          Bytes.u16 m.arguments.length ++ m.arguments.flatMap Word.encode := by
        rw [FiledBootstrap.octets, file, Counted.octets_ofItems, List.append_assoc]
      rw [funext each]
    · exact List.length_map ..
    · cases here
      refine Counted.cut_ofItems (.inl rfl) fun m member => ?_
      obtain ⟨source, -, rfl⟩ := List.mem_map.mp member
      exact Counted.cut_ofItems (.inl rfl) fun _ _ => Tally.cut_nil

end PoolBuilder

/-- Nothing lies behind the pool of the file that a class was read from. -/
def ClassOrigin.Exact (origin : ClassOrigin) : Prop :=
  ∀ pool c, ConstantPool.read.run (Cursor.ofBytes origin.pool) = .ok (pool, c) → c.rest = []

/-- The slots of the pool of the file that a class was read from. A wide constant in the last slot
that can be counted takes one more. -/
def ClassOrigin.slotCount (origin : ClassOrigin) : Nat :=
  ((ConstantPool.read.run (Cursor.ofBytes origin.pool)).toOption.map fun p => p.1.size).getD 0

/-- A builder starts with a pool that it has counted. -/
theorem PoolBuilder.files_ofClass {c : Class} {b : PoolBuilder}
    (exact_ : ∀ origin, c.origin = some origin → origin.Exact) (begun : ofClass c = .ok b) :
    b.Files ∧ b.size ≤ max 1 (c.origin.elim 0 ClassOrigin.slotCount) ∧
      b.bootstraps.size ≤ 65536 := by
  rw [ofClass] at begun
  cases from_ : c.origin with
  | none =>
    rw [from_] at begun
    cases begun
    exact ⟨⟨[], .nil 1, rfl⟩, Nat.le_refl 1, Nat.zero_le _⟩
  | some origin =>
    rw [from_] at begun
    obtain ⟨⟨pool, rest⟩, read, begun⟩ := ok_of_bind begun
    cases begun
    obtain ⟨count, bytes, slots, octets, size, rfl, stored⟩ := ConstantPool.of_read read
    have source : origin.pool.drop 2 = bytes := by
      rw [show origin.pool = count ++ bytes ++ rest.rest from octets, exact_ _ from_ _ _ read,
        List.append_nil, ← size, List.drop_left]
    refine ⟨⟨slots, ?_, ConstantPool.size_ofSlots slots⟩, Nat.le_trans (Nat.le_of_eq ?_)
      (Nat.le_max_right _ _), ?_⟩
    · show ConstantPool.Stored 1 (origin.pool.drop 2 ++ []) slots
      rw [List.append_nil, source]
      exact stored
    · show _ = origin.slotCount
      rw [ClassOrigin.slotCount, read]
      rfl
    · show (origin.bootstraps.take 65536).toArray.size ≤ 65536
      rw [List.size_toArray, List.length_take]
      exact Nat.min_le_left _ _

/-- A class as it is written. There are too many slots in its pool only if they do not come from it,
and at most one bootstrap method too many. -/
structure FiledClass.Of (w : FiledClass) (c : Class) : Prop where
  members : w.members.Of c
  carried : w.carried.map Labelled.content =
    (c.attributes.filter (·.name != "BootstrapMethods")).map Attribute.data
  visible : (Labelled.items w.visible).length = c.visibleAnnotations.length
  invisible : (Labelled.items w.invisible).length = c.invisibleAnnotations.length
  slots : w.slots.length + 1 ≤ max 65535 (c.origin.elim 0 ClassOrigin.slotCount)
  bootstraps : (Labelled.items w.bootstraps).length ≤ 65536

theorem Labelled.items_eq {α : Type} {filed : Option (Labelled (Counted α))}
    {content : Option (Counted α)} (same : filed.map Labelled.content = content) :
    Labelled.items filed = content.elim [] Counted.items := by
  subst same
  cases filed <;> rfl

namespace Class

variable {c : Class} {known : String → Option ClassHeader} {bytes : Bytes}

/-- What is written for a class is a class file of the class, and its counts are cut. -/
theorem encode_filed (exact_ : ∀ origin, c.origin = some origin → origin.Exact)
    (encoded : c.encode known = .ok bytes) :
    ∃ w : FiledClass, w.octets = bytes ∧ w.Of c ∧ ∀ t ∈ w.tallies, t.Cut := by
  have finished : ∃ last, c.finished known = .ok last := by
    obtain ⟨first, begun, -⟩ := ok_of_bind encoded
    rw [Class.finished, begun]
    exact ⟨_, rfl⟩
  obtain ⟨last, finished⟩ := finished
  obtain ⟨first, body, begun, ran, rfl⟩ := encode_eq_ok.mp ⟨encoded, finished⟩
  obtain ⟨members, annotations, between, attributes, ran₁, ran₂, rfl⟩ := encodeBody_eq_ok.mp ran
  obtain ⟨files, start, few⟩ := PoolBuilder.files_ofClass exact_ begun
  obtain ⟨files, restrains₁, parts⟩ := encodeMembers_yields c _ first files _ _ ran₁
  obtain ⟨filed, written, of_, cut, visible, invisible, listed, seen, unseen, cutBoth⟩ := parts _ rfl
  obtain ⟨methods, table, counted, cutMethods⟩ := between.bootstrapTable_eq
  obtain ⟨files, restrains₂, stored⟩ := encodeCounted_yields _ between files _ _ ran₂
  obtain ⟨chunks, rfl, each⟩ := stored _ rfl
  -- The attributes of the class come in four groups.
  simp only at listed
  rw [listed, table, List.append_assoc, List.append_assoc, Option.map_map] at each
  obtain ⟨chunks₁, rest₁, rfl, each₁, each⟩ := Attribute.split_of_stores each
  obtain ⟨chunks₂, rest₂, rfl, each₂, each⟩ := Attribute.split_of_stores each
  obtain ⟨chunks₃, chunks₄, rfl, each₃, each₄⟩ := Attribute.split_of_stores each
  simp only [List.forall_mem_append, Option.mem_toList] at cutBoth
  obtain ⟨carried, rfl, same₁, cut₁⟩ := carried_of_stores each₁
  obtain ⟨visible', rfl, same₂, cut₂⟩ := labelled_of_stores each₂ cutBoth.1
  obtain ⟨invisible', rfl, same₃, cut₃⟩ := labelled_of_stores each₃ cutBoth.2
  obtain ⟨methods', rfl, same₄, cut₄⟩ := labelled_of_stores each₄ cutMethods
  obtain ⟨slots, pool, size⟩ := files
  have restrains := restrains₁.trans restrains₂
  let w : FiledClass := {
    minorVersion := c.minorVersion
    majorVersion := c.majorVersion
    poolCount := UInt16.ofNat last.size
    pool := _
    slots
    stored := pool
    members := filed
    attributeCount := UInt16.ofNat (carried.map (Labelled.octets id) ++
      ((visible'.map (Labelled.octets (Counted.octets id))).toList ++
        ((invisible'.map (Labelled.octets (Counted.octets id))).toList ++
          (methods'.map (Labelled.octets (Counted.octets FiledBootstrap.octets))).toList))).length
    carried
    visible := visible'
    invisible := invisible'
    bootstraps := methods' }
  refine ⟨w, ?_, ⟨of_, same₁, ?_, ?_, ?_, ?_⟩, ?_⟩
  · simp only at written
    rw [FiledClass.octets, PoolBuilder.finish, written, ← Word.encode_ofNat16,
      show w.pool = last.source ++ last.added.toList.flatMap PoolEntry.encode from rfl]
    simp only [List.append_assoc]
    rfl
  · rw [Labelled.items_eq same₂, seen]
  · rw [Labelled.items_eq same₃, unseen]
  · have := restrains.slots
    show slots.length + 1 ≤ _
    omega
  · have := restrains₁.bootstraps
    rw [Labelled.items_eq same₄, counted]
    omega
  · have pools : Tally.Cut ⟨.poolSlots, 2, (UInt16.ofNat last.size).toNat, slots.length + 1⟩ := by
      rw [← size]
      exact ⟨UInt16.toNat_ofNat', fun guarded => by cases guarded⟩
    simp only [FiledClass.tallies, List.forall_mem_cons, List.forall_mem_append, List.cons_append]
    exact ⟨pools, cut, cut_attributes _, ⟨⟨cut₁, cut₂⟩, cut₃⟩, cut₄⟩

/-- Every count and every length of what is written for a class holds as many bits of the right number
as there is room for. It is right exactly if it is one of those that the writer looks at, or if the
number happens to fit. -/
theorem encode_counts (exact_ : ∀ origin, c.origin = some origin → origin.Exact)
    (encoded : c.encode known = .ok bytes) :
    ∃ w : FiledClass, w.octets = bytes ∧ w.Of c ∧
      ∀ t ∈ w.tallies, t.stored = t.actual % t.room ∧
        (t.stored = t.actual ↔ t.quantity.isGuarded = true ∨ t.actual < t.room) := by
  obtain ⟨w, same, of_, cut⟩ := encode_filed exact_ encoded
  exact ⟨w, same, of_, fun t member => ⟨(cut t member).stored, (cut t member).right_iff⟩⟩

/-- A class named A that implements itself a number of times. -/
def implementing (n : Nat) : Class where
  name := "A"
  interfaces := List.replicate n "A"

/-- The only constants of the class are requested first. -/
theorem classRef_first : ∃ b slot text, classRef "A" { owner := "A" } = (.ok slot, b) ∧
    b.slots[PoolEntry.utf8 "A"]? = some text ∧ b.slots[PoolEntry.classRef text]? = some slot ∧
    b.bootstraps = #[] := by
  have short : (Text.encodeModified "A").length = 1 := by decide
  have text : utf8 "A" { owner := "A" } = (.ok 1, {
      owner := "A"
      added := #[.utf8 "A"]
      size := 2
      slots := Std.HashMap.insert ∅ (PoolEntry.utf8 "A") 1 }) := by
    rcases utf8_eq "A" { owner := "A" } with ⟨⟨-, long⟩, -⟩ | ⟨same, -⟩
    · omega
    · rw [same, entry_of_room Std.HashMap.getElem?_empty (by decide)]
      rfl
  rw [classRef, bind_eq, text]
  simp only
  rw [entry_of_room (by simp) (by decide)]
  exact ⟨_, _, 1, rfl, by rw [Std.HashMap.getElem?_insert]; simp, by simp, rfl⟩

/-- The class is written however many interfaces it implements. -/
theorem encode_implementing (n : Nat) : ∃ bytes,
    (implementing n).encode (fun _ => none) = .ok bytes := by
  obtain ⟨b, slot, text, first, text_, slot_, none_⟩ := classRef_first
  have again : classRef "A" b = (.ok slot, b) := by
    rw [classRef, bind_eq, utf8_of_some text_]
    exact entry_of_some slot_
  have interfaces : (List.replicate n "A").mapM classRef b = (.ok (List.replicate n slot), b) := by
    induction n with
    | zero => rfl
    | succ n ih =>
      rw [List.replicate_succ, List.mapM_cons, bind_eq, again]
      show ((List.replicate n "A").mapM classRef >>= _) b = _
      rw [bind_eq, ih]
      rfl
  have members : ∃ members, (implementing n).encodeMembers
      ((implementing n).hierarchy fun _ => none) { owner := "A" } = (.ok (members, []), b) := by
    rw [encodeMembers, bind_eq, show (implementing n).name = "A" from rfl, first]
    show ∃ members, ((List.replicate n "A").mapM classRef >>= _) b = _
    rw [bind_eq, interfaces]
    exact ⟨_, rfl⟩
  obtain ⟨members, ran⟩ := members
  have table : b.bootstrapTable = none := by
    rw [PoolBuilder.bootstrapTable, none_]
    rfl
  have body : (implementing n).encodeBody ((implementing n).hierarchy fun _ => none)
      { owner := "A" } = (.ok (members ++ Bytes.u16 0), b) :=
    encodeBody_eq_ok.mpr ⟨members, [], b, Bytes.u16 0, ran, by rw [table]; rfl, rfl⟩
  exact ⟨_, (encode_eq_ok.mpr ⟨_, _, rfl, body, rfl⟩).1⟩

/-- A class with a few interfaces, which are counted right. -/
theorem encode_counts_few : (∀ origin, (implementing 3).origin = some origin → origin.Exact) ∧
    ∃ bytes, (implementing 3).encode (fun _ => none) = .ok bytes ∧ ∃ w : FiledClass,
      w.octets = bytes ∧ w.Of (implementing 3) ∧
        ∀ t ∈ w.tallies, t.stored = t.actual % t.room ∧
          (t.stored = t.actual ↔ t.quantity.isGuarded = true ∨ t.actual < t.room) := by
  obtain ⟨bytes, encoded⟩ := encode_implementing 3
  have new (origin : ClassOrigin) (same : (implementing 3).origin = some origin) : origin.Exact :=
    nomatch (same : none = some origin)
  exact ⟨new, bytes, encoded, encode_counts new encoded⟩

/-- A class with 65536 interfaces is written with a count of none in front of them. -/
theorem encode_many : ∃ bytes, (implementing 65536).encode (fun _ => none) = .ok bytes ∧
    ∃ w : FiledClass, w.octets = bytes ∧ w.Of (implementing 65536) ∧
      ⟨.interfaces, 2, 0, 65536⟩ ∈ w.tallies := by
  obtain ⟨bytes, encoded⟩ := encode_implementing 65536
  have new (origin : ClassOrigin) (same : (implementing 65536).origin = some origin) :
      origin.Exact := nomatch (same : none = some origin)
  obtain ⟨w, same, of_, cut⟩ := encode_filed new encoded
  have number : w.members.interfaces.items.length = 65536 :=
    of_.members.interfaces.trans List.length_replicate
  have listed : ⟨.interfaces, 2, w.members.interfaces.count.toNat,
      w.members.interfaces.items.length⟩ ∈ w.tallies :=
    List.mem_append_left _ (List.mem_cons_of_mem _ (List.mem_append_left _ (List.mem_append_left _
      List.mem_cons_self)))
  have none_ : w.members.interfaces.count.toNat = 0 := by
    have stored := (cut _ listed).stored
    simp only [number, Tally.room] at stored
    exact stored
  rw [number, none_] at listed
  exact ⟨bytes, encoded, w, same, of_, listed⟩

end Class

end Bytecode
