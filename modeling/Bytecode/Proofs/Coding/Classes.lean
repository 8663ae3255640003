import Bytecode.Proofs.Coding.Bounds
import Bytecode.Proofs.Coding.Quiet

/-!
# Classes survive being written

A class that has been read from a class file and written again is read as a class with the same
parts (`Class.parse_encode`); its bodies are the business of their outlines. The pool of the file
only grows, and so do its bootstrap methods, so that what refers to them by number says the same.

The attributes that a class keeps in fields of its own are written behind those that are carried
along, and are taken up again one by one when the file is read.
-/

namespace Bytecode

open Reader Building

/-! ## The attributes of a class -/

/-- Attributes one behind the other are those in front and those behind. -/
theorem StoredAttributes.of_append {pool : ConstantPool} {front behind : List Attribute}
    {bytes : Bytes} (stored : StoredAttributes pool (front ++ behind) bytes) :
    ∃ first second, bytes = first ++ second ∧ StoredAttributes pool front first ∧
      StoredAttributes pool behind second := by
  induction front generalizing bytes with
  | nil => exact ⟨[], bytes, rfl, .nil, stored⟩
  | cons a front ih =>
    obtain _ | ⟨found, size, rest⟩ := stored
    obtain ⟨first, second, rfl, stored₁, stored₂⟩ := ih rest
    exact ⟨_, second, (List.append_assoc ..).symm, .cons found size stored₁, stored₂⟩

namespace StoredClass

variable {s s₁ s' : StoredClass} {count : Nat} {bytes rest : Bytes}

/-- Attributes that a class does not keep in fields of its own stand in front of those that follow.
-/
theorem reads_carried {attributes : List Attribute} (stored : StoredAttributes s.pool attributes bytes)
    (others : ∀ a ∈ attributes, a.name ∉ interpreted)
    (behind : ∀ position, Reads (s.readAttributes count) position rest s') (position : Nat) :
    Reads (s.readAttributes (attributes.length + count)) position (bytes ++ rest)
      { s' with attributes := attributes ++ s'.attributes } := by
  induction stored generalizing position with
  | nil =>
    rw [List.length_nil, Nat.zero_add]
    exact behind position
  | @cons a slot attributes bytes found size _ ih =>
    rw [List.length_cons, Nat.add_right_comm, List.append_assoc]
    refine (Attribute.reads found size position).bind ?_
    refine .lift_bind (accept?_eq_none.mpr (others a List.mem_cons_self)) ?_
    exact (ih (fun a' member => others a' (List.mem_cons_of_mem _ member)) _).map
      (f := fun s => { s with attributes := a :: s.attributes })

/-- An attribute that a class keeps in a field of its own, unless it is absent, is taken up. -/
theorem reads_regenerated {attributes : List Attribute}
    (stored : StoredAttributes s.pool attributes bytes)
    (taken : attributes = [] ∧ s₁ = s ∨ ∃ a, attributes = [a] ∧ s.accept? a = .ok (some s₁))
    (behind : ∀ position, Reads (s₁.readAttributes count) position rest s') (position : Nat) :
    Reads (s.readAttributes (attributes.length + count)) position (bytes ++ rest) s' := by
  rcases taken with ⟨rfl, rfl⟩ | ⟨a, rfl, accepted⟩
  · cases stored
    rw [List.length_nil, Nat.zero_add]
    exact behind position
  · obtain _ | ⟨found, size, _ | _⟩ := stored
    rw [List.length_singleton, Nat.add_comm, List.append_nil]
    refine (Attribute.reads found size position).bind ?_
    exact .lift_bind accepted (behind _)

theorem accepts_visible {annotations : List AnnotationUse} {attributes : List Attribute}
    (listed : AnnotationUse.ListedBy s.pool "RuntimeVisibleAnnotations" annotations attributes)
    (before : s.visibleAnnotations = []) :
    attributes = [] ∧ { s with visibleAnnotations := annotations } = s ∨
      ∃ a, attributes = [a] ∧
        s.accept? a = .ok (some { s with visibleAnnotations := annotations }) := by
  rcases listed with ⟨rfl, none_⟩ | ⟨-, data, one, read⟩
  · exact .inl ⟨none_, by rw [← before]⟩
  · refine .inr ⟨_, one, ?_⟩
    simp only [accept?, read]
    rfl

theorem accepts_invisible {annotations : List AnnotationUse} {attributes : List Attribute}
    (listed : AnnotationUse.ListedBy s.pool "RuntimeInvisibleAnnotations" annotations attributes)
    (before : s.invisibleAnnotations = []) :
    attributes = [] ∧ { s with invisibleAnnotations := annotations } = s ∨
      ∃ a, attributes = [a] ∧
        s.accept? a = .ok (some { s with invisibleAnnotations := annotations }) := by
  rcases listed with ⟨rfl, none_⟩ | ⟨-, data, one, read⟩
  · exact .inl ⟨none_, by rw [← before]⟩
  · refine .inr ⟨_, one, ?_⟩
    simp only [accept?, read]
    rfl

theorem accepts_bootstraps {b : PoolBuilder} {t : Tables} (shows : b.Shows t)
    (methods : b.bootstraps.size < 65536) (before : s.bootstraps = []) :
    (b.bootstrapTable.map fun table => Attribute.mk "BootstrapMethods" table).toList = [] ∧
        { s with bootstraps := t.bootstraps } = s ∨
      ∃ a, (b.bootstrapTable.map fun table => Attribute.mk "BootstrapMethods" table).toList = [a] ∧
        s.accept? a = .ok (some { s with bootstraps := t.bootstraps }) := by
  rcases shows.bootstrapTable methods with ⟨none_, empty⟩ | ⟨-, table, c, some_, read⟩
  · exact .inl ⟨by rw [none_]; rfl, by rw [empty, ← before]⟩
  · refine .inr ⟨_, by rw [some_]; rfl, ?_⟩
    simp only [accept?, read]
    rfl

/-- The name of a superclass is read from its slot. -/
theorem reads_superName {pool : ConstantPool} {slot : UInt16} {superName : Option String}
    (found : superName = none ∧ slot = 0 ∨
      ∃ name, superName = some name ∧ slot ≠ 0 ∧ pool.className slot = .ok name) (position : Nat) :
    Reads (readSuperName pool) position (Word.encode slot) superName := by
  refine (Reads.u16_word slot position).bind_nil ?_
  rcases found with ⟨rfl, rfl⟩ | ⟨name, rfl, some_, named⟩
  · exact .pure none _
  · split
    · contradiction
    · rw [named]
      exact .pure (some name) _

end StoredClass

/-! ## The parts of a class -/

namespace Class

/-- The slot of a superclass has its name. -/
theorem superSlot_provides (superName : Option String) :
    (superSlot superName).Provides fun slot t => superName = none ∧ slot = 0 ∨
      ∃ name, superName = some name ∧ slot ≠ 0 ∧ t.pool.className slot = .ok name := by
  cases superName with
  | none => exact .pure fun t => .inl ⟨rfl, rfl⟩
  | some name =>
    exact (classRef_provides name).mono fun slot t found =>
      .inr ⟨name, rfl, Emission.ne_zero_of_className found, found⟩

/-- Whether the parts of a class can be written so that they are read back. -/
structure Writable (c : Class) : Prop where
  interfaces : c.interfaces.length < 65536
  fields : c.fields.length < 65536 ∧ ∀ f ∈ c.fields, f.attributes.length < 65536
  methods : c.methods.length < 65536 ∧ ∀ m ∈ c.methods, m.Writable
  visible : c.visibleAnnotations.length < 65536 ∧ ∀ a ∈ c.visibleAnnotations, a.Sound
  invisible : c.invisibleAnnotations.length < 65536 ∧ ∀ a ∈ c.invisibleAnnotations, a.Sound
  others : ∀ a ∈ c.attributes, a.name ∉ StoredClass.interpreted

/-- A class as it is stored, with tables for what refers to them. -/
def stored (c : Class) (t : Tables) (poolBytes : Bytes) (methods : List StoredMethod) :
    StoredClass where
  majorVersion := c.majorVersion
  minorVersion := c.minorVersion
  pool := t.pool
  poolBytes := poolBytes
  access := c.access
  name := c.name
  superName := c.superName
  interfaces := c.interfaces
  fields := c.fields
  methods := methods
  visibleAnnotations := c.visibleAnnotations
  invisibleAnnotations := c.invisibleAnnotations
  bootstraps := t.bootstraps
  attributes := c.attributes

/-- A class as it is stored, before its attributes have been read. -/
def unattributed (c : Class) (t : Tables) (poolBytes : Bytes) (methods : List StoredMethod) :
    StoredClass :=
  { c.stored t poolBytes methods with
    visibleAnnotations := [], invisibleAnnotations := [], bootstraps := [], attributes := [] }

/-- Each of the chunks of some octets is small if these are. -/
private theorem forall₂_of_small {α : Type} {P : α → Bytes → Prop} {l : List α} {chunks : List Bytes}
    (each : List.Forall₂ (fun a bytes => bytes.length < 4294967296 → P a bytes) l chunks)
    (small : chunks.flatten.length < 4294967296) : List.Forall₂ P l chunks := by
  have inside : ∀ bytes ∈ chunks, bytes.length < 4294967296 := fun bytes member =>
    Nat.lt_of_le_of_lt (List.sublist_flatten_of_mem member).length_le small
  exact (((List.forall₂_and_left chunks l).mpr ⟨inside, each.flip⟩).imp
    fun _ _ both => both.2 both.1).flip

private theorem exists_forall₂ {α β γ : Type} {P : α → β → Prop} {R : β → γ → Prop} {l : List α}
    {n : List γ} (each : List.Forall₂ (fun a c => ∃ b, P a b ∧ R b c) l n) :
    ∃ m, List.Forall₂ P l m ∧ List.Forall₂ R m n := by
  induction each with
  | nil => exact ⟨[], .nil, .nil⟩
  | cons first _ ih =>
    obtain ⟨b, p, r⟩ := first
    obtain ⟨m, ps, rs⟩ := ih
    exact ⟨b :: m, .cons p ps, .cons r rs⟩

/-- The parts of a class are read as they were written, its methods so that their code can be
decoded. -/
theorem encodeMembers_provides {c : Class} (writable : c.Writable) (h : Hierarchy) :
    (c.encodeMembers h).Provides fun encoded t =>
      (encoded.1.length < 4294967296 → ∃ methods : List StoredMethod,
        List.Forall₂ (fun m s => StoredMethod.Restores s m t) c.methods methods ∧
        ∀ poolBytes position,
          Reads (StoredClass.readMembers c.majorVersion c.minorVersion t.pool poolBytes) position
            encoded.1 (c.unattributed t poolBytes methods)) ∧
      ∃ visible invisible, encoded.2 = visible ++ invisible ∧
        AnnotationUse.ListedBy t.pool "RuntimeVisibleAnnotations" c.visibleAnnotations visible ∧
        AnnotationUse.ListedBy t.pool "RuntimeInvisibleAnnotations" c.invisibleAnnotations
          invisible := by
  refine (classRef_provides c.name).bind fun name _ =>
    (superSlot_provides c.superName).bind fun superName _ => ?_
  refine (Provides.mapM fun name _ => classRef_provides name).bind fun interfaces _ =>
    (Provides.mapM fun f member => Field.encode_provides (writable.fields.2 f member)).bind
      fun fields _ => ?_
  refine (Provides.mapM fun m member => Method.encode_provides (writable.methods.2 m member) h
    c.majorVersion).bind fun methods _ => ?_
  refine (annotationAttribute_provides _ writable.visible.1 writable.visible.2).bind fun visible _ =>
    (annotationAttribute_provides _ writable.invisible.1 writable.invisible.2).bind
      fun invisible _ => ?_
  refine .pure fun t listed' listed encoded encoded' found extended named =>
    ⟨fun small => ?_, visible, invisible, rfl, listed, listed'⟩
  simp only [List.length_append] at small
  obtain ⟨stored, restored, reads⟩ := exists_forall₂ (forall₂_of_small encoded (by omega))
  refine ⟨stored, restored, fun poolBytes position => ?_⟩
  have superclasses (position : Nat) : Reads (Reader.counted t.pool.readClassName) position _ _ :=
    Reads.counted_of_chunks writable.interfaces (List.forall₂_map_right_iff.mpr
      (found.imp fun name slot named position => CodeContext.reads_pooled named)) position
  have declared := Reads.counted_of_chunks writable.fields.1
    (forall₂_of_small encoded' (by omega))
  have implemented := Reads.counted_of_chunks (restored.length_eq ▸ writable.methods.1) reads
  rw [found.length_eq] at superclasses
  rw [encoded'.length_eq] at declared
  rw [← restored.length_eq, encoded.length_eq] at implemented
  -- Every count goes with what it counts.
  suffices grouped : Reads
      (StoredClass.readMembers c.majorVersion c.minorVersion t.pool poolBytes) position
      (Word.encode c.access ++ (Word.encode name ++ (Word.encode superName ++
        ((Bytes.u16 interfaces.length ++ (interfaces.map Word.encode).flatten) ++
          ((Bytes.u16 fields.length ++ fields.flatten) ++
            (Bytes.u16 methods.length ++ methods.flatten)))))) _ by
    simpa only [List.append_assoc, List.flatMap_def] using grouped
  exact (Reads.u16_word c.access position).bind ((CodeContext.reads_pooled named).bind
    ((StoredClass.reads_superName extended _).bind ((superclasses _).bind ((declared _).bind
      (implemented _).map))))

/-- What is written behind the constant pool: the parts of the class, and then its attributes, with
the bootstrap methods that the parts have left. -/
theorem encodeBody_eq_ok {c : Class} {h : Hierarchy} {b last : PoolBuilder} {body : Bytes} :
    c.encodeBody h b = (.ok body, last) ↔ ∃ members annotations between attributes,
      c.encodeMembers h b = (.ok (members, annotations), between) ∧
      encodeCounted (c.attributes.filter (·.name != "BootstrapMethods") ++ annotations ++
        (between.bootstrapTable.map fun table => ⟨"BootstrapMethods", table⟩).toList) between =
          (.ok attributes, last) ∧
      body = members ++ attributes := by
  rw [encodeBody, bind_eq]
  rcases first : c.encodeMembers h b with ⟨_ | ⟨members, annotations⟩, between⟩
  · exact ⟨nofun, fun ⟨_, _, _, _, same, _⟩ => nomatch same⟩
  change (encodeCounted (c.attributes.filter (·.name != "BootstrapMethods") ++ annotations ++
    (between.bootstrapTable.map fun table => Attribute.mk "BootstrapMethods" table).toList) >>=
      fun attributes => Pure.pure (members ++ attributes)) between = _ ↔ _
  rw [bind_eq]
  constructor
  · intro ran
    rcases second : encodeCounted (c.attributes.filter (·.name != "BootstrapMethods") ++ annotations ++
      (between.bootstrapTable.map fun table => Attribute.mk "BootstrapMethods" table).toList) between
      with ⟨_ | attributes, after⟩
    · rw [second] at ran
      cases ran
    · rw [second] at ran
      cases ran
      exact ⟨members, annotations, between, attributes, rfl, second, rfl⟩
  · rintro ⟨members', annotations', between', attributes, same, second, rfl⟩
    cases same
    rw [second]
    rfl

/-- Whether the attributes of a class can be counted: there is room for the bootstrap methods, or
there are none and none are added. -/
def HasRoom (c : Class) (t : Tables) : Prop :=
  let annotated := (if c.visibleAnnotations.isEmpty then 0 else 1) +
    (if c.invisibleAnnotations.isEmpty then 0 else 1)
  c.attributes.length + annotated + 1 < 65536 ∨
    c.attributes.length + annotated < 65536 ∧ t.bootstraps = [] ∧
      ∀ m ∈ c.methods, ∀ insn ∈ m.body.toList, insn.node.isDynamic = false

/-- The attributes that are written can be counted. -/
theorem HasRoom.few {c : Class} {h : Hierarchy} {b between : PoolBuilder} {t : Tables} {pool : ConstantPool}
    (room : c.HasRoom t) (shows : b.Shows t) {members : Bytes} {visible invisible : List Attribute}
    (ran : c.encodeMembers h b = (.ok (members, visible ++ invisible), between))
    (listed : AnnotationUse.ListedBy pool "RuntimeVisibleAnnotations" c.visibleAnnotations visible)
    (listed' : AnnotationUse.ListedBy pool "RuntimeInvisibleAnnotations" c.invisibleAnnotations
      invisible) :
    c.attributes.length + (visible.length + (invisible.length +
      (between.bootstrapTable.map fun table => Attribute.mk "BootstrapMethods" table).toList.length)) <
        65536 := by
  rw [listed.length, listed'.length]
  rcases room with room | ⟨room, none_, static⟩
  · have := Option.length_toList_le
      (o := between.bootstrapTable.map fun table => Attribute.mk "BootstrapMethods" table)
    omega
  · have quiet := encodeMembers_quiet static h b _ between ran
    have empty : between.bootstrapTable = none := by
      rw [PoolBuilder.bootstrapTable, quiet, ← Array.isEmpty_toList, shows.bootstraps, none_]
      rfl
    rw [empty]
    simpa [Nat.add_assoc] using room

/-- What is written behind the constant pool is read as the class. -/
theorem reads_encodeBody {c : Class} {h : Hierarchy} {b last : PoolBuilder} {t : Tables}
    {body : Bytes} (writable : c.Writable) (shows : b.Shows t) (room : c.HasRoom t)
    (ran : c.encodeBody h b = (.ok body, last)) (bound : last.bootstraps.size < 65536)
    (small : body.length < 4294967296) :
    ∃ t' methods, last.Shows t' ∧ t.Extends t' ∧
      List.Forall₂ (fun m s => StoredMethod.Restores s m t') c.methods methods ∧
      ∀ poolBytes position, Reads (do
        let members ← StoredClass.readMembers c.majorVersion c.minorVersion t'.pool poolBytes
        members.readAttributes (← Reader.u16).toNat) position body
          (c.stored t' poolBytes methods) := by
  obtain ⟨members, annotations, between, attributes, first, second, rfl⟩ := encodeBody_eq_ok.mp ran
  rw [List.length_append] at small
  obtain ⟨-, t₁, shows₁, grown₁, right₁⟩ := encodeMembers_provides writable h b t shows _ _ first
  obtain ⟨-, t₂, shows₂, grown₂, right₂⟩ := encodeCounted_provides _ between t₁ shows₁ _ _ second
  have quiet := encodeCounted_quiet _ _ _ _ second
  have same : t₁.bootstraps = t₂.bootstraps := by
    rw [← shows₁.bootstraps, ← shows₂.bootstraps, quiet]
  obtain ⟨parts, visible, invisible, rfl, listed, listed'⟩ := right₁ _ rfl t₂ grown₂
  obtain ⟨methods, restored, read⟩ := parts (Nat.lt_of_le_of_lt (Nat.le_add_right ..) small)
  obtain ⟨stored, rfl, counted⟩ := right₂ _ rfl t₂ (.refl t₂)
    (Nat.lt_of_le_of_lt (Nat.le_add_left ..) small)
  refine ⟨t₂, methods, shows₂, grown₁.trans grown₂, restored, fun poolBytes position => ?_⟩
  have carried : c.attributes.filter (·.name != "BootstrapMethods") = c.attributes :=
    List.filter_eq_self.mpr fun a member => bne_iff_ne.mpr fun same =>
      writable.others a member (same ▸ List.mem_cons_self)
  rw [carried] at counted ⊢
  have few := room.few shows first listed listed'
  rw [List.append_assoc, List.append_assoc] at counted ⊢
  obtain ⟨_, _, rfl, stored₁, counted⟩ := counted.of_append
  obtain ⟨_, _, rfl, stored₂, counted⟩ := counted.of_append
  obtain ⟨_, _, rfl, stored₃, stored₄⟩ := counted.of_append
  have taken := StoredClass.accepts_bootstraps (s := { c.stored t₂ poolBytes methods with
    bootstraps := [], attributes := [] }) shows₁ (quiet ▸ bound) rfl
  rw [same] at taken
  have nothing (position : Nat) :
      Reads (({ c.stored t₂ poolBytes methods with attributes := [] }).readAttributes 0) position [] _ :=
    .pure _ position
  have all := StoredClass.reads_carried (s := c.unattributed t₂ poolBytes methods) stored₁
    writable.others <|
      StoredClass.reads_regenerated stored₂ (StoredClass.accepts_visible listed rfl) <|
      StoredClass.reads_regenerated stored₃ (StoredClass.accepts_invisible listed' rfl) <|
      StoredClass.reads_regenerated stored₄ taken nothing
  simp only [List.append_nil, Nat.add_zero] at all
  refine (read poolBytes position).bind ((Reads.u16 _ _).bind ?_)
  rw [UInt16.toNat_ofNat_of_lt' (by simpa using few)]
  simp only [List.length_append]
  exact all _

end Class

/-! ## From class to class -/

/-- What a method declares, apart from its body. -/
def Method.declaration (m : Method) : Access × String × String × List Attribute :=
  (m.access, m.name, m.descriptor, m.attributes)

/-- What a stored method declares, apart from its code. -/
def StoredMethod.declaration (m : StoredMethod) : Access × String × String × List Attribute :=
  (m.access, m.name, m.descriptor, m.attributes)

theorem StoredMethod.Restores.declaration {s : StoredMethod} {m : Method} {t : Tables}
    (restores : s.Restores m t) : m.declaration = s.declaration := by
  rw [Method.declaration, StoredMethod.declaration, restores.access, restores.name,
    restores.descriptor, restores.attributes]

private theorem map_eq_of_forall₂ {α β γ : Type} {f : α → γ} {g : β → γ} {l : List α} {n : List β}
    (all : List.Forall₂ (fun a b => f a = g b) l n) : l.map f = n.map g := by
  rwa [← List.forall₂_eq_eq_eq, List.forall₂_map_left_iff, List.forall₂_map_right_iff]

/-- Two classes have the same parts, but for the bodies of their methods. -/
structure Class.SameParts (c c' : Class) : Prop where
  majorVersion : c'.majorVersion = c.majorVersion
  minorVersion : c'.minorVersion = c.minorVersion
  access : c'.access = c.access
  name : c'.name = c.name
  superName : c'.superName = c.superName
  interfaces : c'.interfaces = c.interfaces
  fields : c'.fields = c.fields
  methods : c'.methods.map Method.declaration = c.methods.map Method.declaration
  visibleAnnotations : c'.visibleAnnotations = c.visibleAnnotations
  invisibleAnnotations : c'.invisibleAnnotations = c.invisibleAnnotations
  attributes : c'.attributes = c.attributes

namespace StoredClass

variable {s : StoredClass} {c : Class} {supply supply' : Supply}

/-- A class that has been decoded has the parts that were stored, and the methods that the stored
ones were decoded to. -/
theorem of_decode (ran : s.decode.run supply = .ok (c, supply')) : ∃ methods,
    c = s.withMethods methods ∧ List.Forall₂ (fun m result => ∃ before after,
      (m.decode s.pool s.bootstraps.toArray).run before = .ok (result, after)) s.methods methods := by
  obtain ⟨⟨methods, between⟩, decoded, ran⟩ := ok_of_bind ran
  cases ran
  exact ⟨methods, rfl, TryFresh.of_mapM decoded⟩

/-- A class that has been read and decoded can be written so that it is read back. -/
theorem writable_of_decode (sound : s.Sound) (bounded : s.Bounded 65535)
    (ran : s.decode.run supply = .ok (c, supply')) : c.Writable := by
  obtain ⟨methods, rfl, decoded⟩ := of_decode ran
  refine ⟨bounded.interfaces, bounded.fields, ⟨decoded.length_eq ▸ bounded.methods.1, ?_⟩,
    bounded.visible, bounded.invisible, bounded.others⟩
  intro result member
  obtain ⟨m, source, before, after, ran⟩ := exists_of_mem_results decoded member
  exact (bounded.methods.2 m source).writable (sound.code m source) sound.bootstraps ran

/-- The attributes of a class that has been read and decoded can be counted. -/
theorem hasRoom_of_decode (bounded : s.Bounded 65535)
    (ran : s.decode.run supply = .ok (c, supply')) {t : Tables} (same : t.bootstraps = s.bootstraps) :
    c.HasRoom t := by
  obtain ⟨methods, rfl, decoded⟩ := of_decode ran
  have few := bounded.few
  rw [regenerated, ← Nat.add_assoc] at few
  by_cases none_ : s.bootstraps = []
  · rw [none_] at few decoded
    refine .inr ⟨Nat.lt_succ_of_le few, same.trans none_, fun result member => ?_⟩
    obtain ⟨m, -, before, after, ran⟩ := exists_of_mem_results decoded member
    exact StoredMethod.static_of_decode ran
  · rw [if_neg (c := s.bootstraps.isEmpty = true) (by simpa using none_)] at few
    exact .inl (Nat.lt_succ_of_le few)

/-- What has been read again of a class is decoded to a class with the same parts. -/
theorem decode_stored {t : Tables} {poolBytes : Bytes} {methods : List StoredMethod}
    (restored : List.Forall₂ (fun m s => StoredMethod.Restores s m t) c.methods methods)
    (supply : Supply) : ∃ c' supply',
      (c.stored t poolBytes methods).decode.run supply = .ok (c', supply') ∧ c.SameParts c' := by
  have each : ∀ m ∈ methods, ∀ supply, ∃ result supply',
      (m.decode t.pool t.bootstraps.toArray).run supply = .ok (result, supply') ∧
        m.declaration = result.declaration := by
    intro m member supply
    obtain ⟨m', -, restores⟩ := exists_of_mem_results restored member
    obtain ⟨result, supply', ran, access, name, descriptor, attributes⟩ := restores.decode supply
    refine ⟨result, supply', ran, restores.declaration.symm.trans ?_⟩
    rw [Method.declaration, Method.declaration, access, name, descriptor, attributes]
  obtain ⟨results, supply', decoded, declared⟩ := TryFresh.exists_mapM each supply
  refine ⟨(c.stored t poolBytes methods).withMethods results, supply', ?_, rfl, rfl, rfl, rfl, rfl, rfl,
    rfl, ?_, rfl, rfl, rfl⟩
  · show ((methods.mapM fun m : StoredMethod => m.decode t.pool t.bootstraps.toArray).run supply >>=
      _) = _
    rw [decoded]
    rfl
  · have kept := map_eq_of_forall₂ (restored.imp fun m s restores => restores.declaration)
    exact (kept.trans (map_eq_of_forall₂ declared)).symm

end StoredClass

namespace Class

/-- Parsing a class file reads it and decodes what has been read. -/
theorem parse_run {file : Bytes} (some_ : file.isEmpty = false) (supply : Supply) :
    (parse file).run supply =
      StoredClass.read.run (Cursor.ofBytes file) >>= fun p => p.1.decode.run supply := by
  rw [parse, some_]
  show ((liftM (StoredClass.read.run (Cursor.ofBytes file)) : TryFresh _) >>= _).run supply = _
  cases StoredClass.read.run (Cursor.ofBytes file) <;> rfl

theorem parse_eq_ok {file : Bytes} {c : Class} {supply supply' : Supply}
    (parsed : (parse file).run supply = .ok (c, supply')) : ∃ source rest,
      StoredClass.read.run (Cursor.ofBytes file) = .ok (source, rest) ∧
        source.decode.run supply = .ok (c, supply') := by
  cases some_ : file.isEmpty with
  | true =>
    rw [parse, some_] at parsed
    cases parsed
  | false =>
    rw [parse_run some_] at parsed
    obtain ⟨⟨source, rest⟩, read, decoded⟩ := ok_of_bind parsed
    exact ⟨source, rest, read, decoded⟩

/-- The builder with which a class is written, as it is in the end. -/
def finished (c : Class) (known : String → Option ClassHeader) : Except Failure PoolBuilder := do
  let builder ← PoolBuilder.ofClass c
  return ((c.encodeBody (c.hierarchy known)).run.run builder).2

/-- What is written for a class: the pool of the builder, and what follows it. -/
theorem encode_eq_ok {c : Class} {known : String → Option ClassHeader} {bytes : Bytes}
    {last : PoolBuilder} : c.encode known = .ok bytes ∧ c.finished known = .ok last ↔
      ∃ first body, PoolBuilder.ofClass c = .ok first ∧
        c.encodeBody (c.hierarchy known) first = (.ok body, last) ∧
        bytes = Word.encode classFileMagic ++ (Word.encode c.minorVersion ++
          (Word.encode c.majorVersion ++ (last.finish ++ body))) := by
  constructor
  · rintro ⟨encoded, finished⟩
    obtain ⟨first, begun, ran⟩ := ok_of_bind encoded
    rw [Class.finished, begun] at finished
    change Except.ok ((c.encodeBody (c.hierarchy known)).run.run first).2 = _ at finished
    rcases written : (c.encodeBody (c.hierarchy known)).run.run first with ⟨_ | body, b⟩
    · rw [written] at ran
      cases ran
    · rw [written] at ran finished
      cases ran
      cases finished
      exact ⟨first, body, begun, written, by simp only [List.append_assoc]⟩
  · rintro ⟨first, body, begun, ran, rfl⟩
    change (c.encodeBody (c.hierarchy known)).run.run first = _ at ran
    rw [encode, Class.finished, begun]
    simp only [bind, Except.bind, ran, List.append_assoc]
    exact ⟨rfl, rfl⟩

/-- A class file is read from its pool and what follows it. -/
theorem reads_file {minorVersion majorVersion : UInt16} {pool : ConstantPool} {poolBytes body : Bytes}
    {s : StoredClass} (finish : ∀ position, Reads ConstantPool.read position poolBytes pool)
    (behind : ∀ position, Reads (do
      let members ← StoredClass.readMembers majorVersion minorVersion pool poolBytes
      members.readAttributes (← Reader.u16).toNat) position body s) (position : Nat) :
    Reads StoredClass.read position (Word.encode classFileMagic ++ (Word.encode minorVersion ++
      (Word.encode majorVersion ++ (poolBytes ++ body)))) s := by
  refine (Reads.u32_word classFileMagic position).bind (.guard (by simp) ?_)
  refine (Reads.u16_word minorVersion _).bind ((Reads.u16_word majorVersion _).bind ?_)
  exact (finish _).consumed.bind (behind _)

/-- A class that has been parsed and written is parsed again as a class with the same parts, and the
constants and the bootstrap methods of the file stay where they were. -/
theorem parse_encode {file bytes : Bytes} {c : Class} {supply supply' : Supply}
    (parsed : (parse file).run supply = .ok (c, supply')) {known : String → Option ClassHeader}
    (encoded : c.encode known = .ok bytes) (size : bytes.length < 4294967296) {last : PoolBuilder}
    (finished : c.finished known = .ok last) (slots : last.size < 65536)
    (methods : last.bootstraps.size < 65536) :
    ∃ source rest stored rest',
      StoredClass.read.run (Cursor.ofBytes file) = .ok (source, rest) ∧
      StoredClass.read.run (Cursor.ofBytes bytes) = .ok (stored, rest') ∧
      source.pool.entries.toList <+: stored.pool.entries.toList ∧
      source.bootstraps <+: stored.bootstraps ∧
      ∀ supply, ∃ c' supply', (parse bytes).run supply = .ok (c', supply') ∧ c.SameParts c' := by
  obtain ⟨source, rest, read, decoded⟩ := parse_eq_ok parsed
  have sound := StoredClass.sound_of_read read
  have bounded := StoredClass.bounded_of_read read
  obtain ⟨first, body, begun, ran, rfl⟩ := encode_eq_ok.mp ⟨encoded, finished⟩
  have writable := StoredClass.writable_of_decode sound bounded decoded
  obtain ⟨results, rfl, -⟩ := StoredClass.of_decode decoded
  obtain ⟨first', t, begun', shows, kept⟩ := PoolBuilder.ofClass_of_genuine
    (c := source.withMethods results) fun origin same => by
      cases same
      exact ⟨⟨source.pool, sound.pool⟩, sound.bootstraps⟩
  rw [begun] at begun'
  cases begun'
  -- The builder starts from what the file has.
  obtain ⟨bootstraps, rest₁, pool⟩ := kept _ rfl
  rw [List.take_of_length_le (Nat.le_of_lt bounded.bootstraps)] at bootstraps
  obtain ⟨rest₂, pool', -⟩ := (sound.pool 0).run []
  rw [List.append_nil, pool] at pool'
  obtain ⟨same, -⟩ := Prod.mk.inj (Except.ok.inj pool')
  have room := StoredClass.hasRoom_of_decode bounded decoded bootstraps
  simp only [List.length_append] at size
  obtain ⟨t', stored, shows', grown, restored, behind⟩ :=
    reads_encodeBody writable shows room ran methods (by omega)
  obtain ⟨rest', reread, -⟩ := (reads_file (shows'.finish slots) (behind last.finish) 0).run []
  rw [List.append_nil] at reread
  refine ⟨source, rest, _, rest', read, reread, ?_, bootstraps ▸ grown.bootstraps, fun supply => ?_⟩
  · rw [← same]
    exact (List.prefix_cons_inj _).mpr grown.slots
  · obtain ⟨c', supply', decoded', parts⟩ := StoredClass.decode_stored restored supply
    refine ⟨c', supply', ?_, parts⟩
    rw [parse_run rfl, reread]
    exact decoded'

/-- A class with a bootstrap method, and with an attribute that refers to the constant pool. -/
def carrying : Bytes :=
  [0xca, 0xfe, 0xba, 0xbe, 0, 0, 0, 49, 0, 5, 1, 0, 1, 65, 7, 0, 1, 1, 0, 1, 88, 1, 0, 16, 66,
    111, 111, 116, 115, 116, 114, 97, 112, 77, 101, 116, 104, 111, 100, 115, 0, 33, 0, 2, 0, 0,
    0, 0, 0, 0, 0, 0, 0, 2, 0, 4, 0, 0, 0, 6, 0, 1, 0, 9, 0, 0, 0, 3, 0, 0, 0, 2, 0, 2]

/-- The slots of the constant pool of the class. -/
def carryingSlots : List PoolEntry :=
  [.utf8 "A", .classRef 1, .utf8 "X", .utf8 "BootstrapMethods"]

/-- The class, with the octets of its constant pool. -/
def carried (poolBytes : Bytes) : Class where
  majorVersion := 49
  name := "A"
  attributes := [⟨"X", [0, 2]⟩]
  origin := some ⟨poolBytes, [⟨9, []⟩]⟩

theorem read_carrying : ∃ source rest,
    StoredClass.read.run (Cursor.ofBytes carrying) = .ok (source, rest) ∧
      source.pool = .ofSlots carryingSlots ∧ source.poolBytes.length = 32 ∧
      source.withMethods [] = carried source.poolBytes ∧ source.methods = [] := by
  have found : ((StoredClass.read.run (Cursor.ofBytes carrying)).toOption.any fun p =>
      p.1.pool.entries == (.unusable :: carryingSlots).toArray && p.1.poolBytes.length == 32 &&
      p.1.majorVersion == 49 && p.1.minorVersion == 0 && p.1.access == 0x21 &&
      p.1.name == "A" && p.1.superName == none && p.1.interfaces == [] &&
      p.1.fields.isEmpty && p.1.methods.isEmpty && p.1.visibleAnnotations == [] &&
      p.1.invisibleAnnotations == [] && p.1.bootstraps == [⟨9, []⟩] &&
      p.1.attributes.map (fun a => (a.name, a.data)) == [("X", [0, 2])]) = true := by
    decide +kernel
  cases ran : StoredClass.read.run (Cursor.ofBytes carrying) with
  | error cause => rw [ran] at found; cases found
  | ok p =>
    obtain ⟨⟨major, minor, ⟨entries⟩, poolBytes, access, name, superName, interfaces, fields, methods,
      visible, invisible, bootstraps, attributes⟩, rest⟩ := p
    rw [ran] at found
    simp only [Except.toOption, Option.any_some, Bool.and_eq_true, beq_iff_eq, List.isEmpty_iff]
      at found
    obtain ⟨⟨⟨⟨⟨⟨⟨⟨⟨⟨⟨⟨⟨rfl, size⟩, rfl⟩, rfl⟩, rfl⟩, rfl⟩, rfl⟩, rfl⟩, rfl⟩, rfl⟩, rfl⟩, rfl⟩, rfl⟩, same⟩ :=
      found
    refine ⟨_, rest, rfl, rfl, size, ?_, rfl⟩
    obtain ⟨⟨a, data⟩, rfl⟩ : ∃ x, attributes = [x] := by
      rcases attributes with _ | ⟨x, _ | _⟩ <;> simp at same ⊢
    simp only [List.map_cons, List.map_nil, List.cons.injEq, Prod.mk.injEq, and_true] at same
    obtain ⟨rfl, rfl⟩ := same
    rfl


/-- The constants that the class needs are there already. -/
theorem encode_carried {poolBytes : Bytes} (size : poolBytes.length = 32)
    (reads : ∀ position, Reads ConstantPool.read position poolBytes (.ofSlots carryingSlots)) :
    ∃ bytes last, ((carried poolBytes).encode (fun _ => none) = .ok bytes ∧
      (carried poolBytes).finished (fun _ => none) = .ok last) ∧ bytes.length < 4294967296 ∧
        last.size < 65536 ∧ last.bootstraps.size < 65536 := by
  obtain ⟨rest, read, -⟩ := (reads 0).run []
  rw [List.append_nil] at read
  let b : PoolBuilder := {
    owner := "A"
    source := poolBytes.drop 2
    size := 5
    slots := PoolBuilder.indexEntries (.ofSlots carryingSlots)
    bootstraps := #[⟨9, []⟩]
    bootstrapIndex := Std.HashMap.insertIfNew ∅ ⟨9, []⟩ 0 }
  have begun : PoolBuilder.ofClass (carried poolBytes) = .ok b := by
    show PoolBuilder.ofOrigin "A" ⟨poolBytes, [⟨9, []⟩]⟩ = _
    rw [PoolBuilder.ofOrigin, read]
    rfl
  have known (slot : UInt16) (e : PoolEntry)
      (found : (ConstantPool.ofSlots carryingSlots).entry slot = .ok e) :
      ∃ first, b.slots[e]? = some first := PoolBuilder.indexEntries_of_entry found
  obtain ⟨text, text_⟩ := known 1 (.utf8 "A") rfl
  obtain ⟨name, name_⟩ := known 2 (.classRef 1) rfl
  obtain ⟨other, other_⟩ := known 3 (.utf8 "X") rfl
  obtain ⟨table, table_⟩ := known 4 (.utf8 "BootstrapMethods") rfl
  obtain rfl : text = 1 := by
    have here := PoolBuilder.entry_of_indexEntries (t := ⟨carryingSlots, []⟩) text_
    rw [Tables.entry_eq_ok] at here
    apply UInt16.toNat_inj.mp
    generalize text.toNat = i at here
    rcases i with _ | _ | _ | _ | _ | i <;> simp [carryingSlots] at here ⊢
  have named : classRef "A" b = (.ok name, b) := by
    rw [classRef, bind_eq, utf8_of_some text_]
    exact entry_of_some name_
  have members : (carried poolBytes).encodeMembers ((carried poolBytes).hierarchy fun _ => none) b =
      (.ok (Word.encode (0x21 : UInt16) ++ Word.encode name ++ Word.encode (0 : UInt16) ++
        Bytes.u16 0 ++ [] ++ Bytes.u16 0 ++ [] ++ Bytes.u16 0 ++ [], []), b) := by
    rw [encodeMembers, bind_eq, show (carried poolBytes).name = "A" from rfl, named]
    rfl
  have attributes (data : Bytes) : encodeCounted [⟨"X", [0, 2]⟩, ⟨"BootstrapMethods", data⟩] b =
      (.ok (Bytes.u16 2 ++ (attributeBytes other [0, 2] ++ (attributeBytes table data ++ []))), b) := by
    simp only [encodeCounted, encodeAttributes, bind_eq, utf8_of_some other_, utf8_of_some table_]
    rfl
  refine ⟨_, b, encode_eq_ok.mpr ⟨b, _, begun, encodeBody_eq_ok.mpr ⟨_, _, b, _, members,
    attributes _, rfl⟩, rfl⟩, ?_, by show 5 < 65536; decide, by show 1 < 65536; decide⟩
  simp [attributeBytes, PoolBuilder.finish, b, size, Word.width]

theorem parse_encode_carrying : ∃ c supply' bytes last,
    (parse carrying).run {} = .ok (c, supply') ∧ c.encode (fun _ => none) = .ok bytes ∧
      bytes.length < 4294967296 ∧ c.finished (fun _ => none) = .ok last ∧ last.size < 65536 ∧
      last.bootstraps.size < 65536 ∧
      ∃ source rest stored rest',
        StoredClass.read.run (Cursor.ofBytes carrying) = .ok (source, rest) ∧
        StoredClass.read.run (Cursor.ofBytes bytes) = .ok (stored, rest') ∧
        source.pool.entries.toList <+: stored.pool.entries.toList ∧
        source.bootstraps <+: stored.bootstraps ∧
        ∀ supply, ∃ c' supply', (parse bytes).run supply = .ok (c', supply') ∧ c.SameParts c' := by
  obtain ⟨source, rest, read, pool, size, class_, methods⟩ := read_carrying
  have parsed : (parse carrying).run {} = .ok (carried source.poolBytes, {}) := by
    rw [parse_run rfl, read, ← class_]
    show source.decode.run {} = _
    rw [StoredClass.decode, methods]
    rfl
  obtain ⟨bytes, last, ⟨encoded, done⟩, small, slots, few⟩ :=
    encode_carried size (pool ▸ (StoredClass.sound_of_read read).pool)
  exact ⟨_, _, bytes, last, parsed, encoded, small, done, slots, few,
    parse_encode parsed encoded small done slots few⟩

end Class

end Bytecode
