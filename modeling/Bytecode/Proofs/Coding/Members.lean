import Bytecode.Proofs.Coding.ElementValues
import Bytecode.Proofs.Coding.RoundTrip

/-!
# Members survive encoding

What is written for a field, a method or a list of annotations is read as the same again, against all
tables that grow from those at hand. Of a body only so much is said here that it can be decoded; what
it is decoded to is said by its outline.

Lengths of attributes are stored in four octets without a check, so that everything is said of
octets that are fewer than these can count.
-/

namespace Bytecode

open Reader

/-! ## Items one behind the other -/

namespace Reader.Reads

variable {α : Type} {item : Reader α} {values : List α} {chunks : List Bytes}

/-- Items of which each has its octets. -/
theorem replicate_of_chunks
    (each : List.Forall₂ (fun v bytes => ∀ position, Reads item position bytes v) values chunks)
    (position : Nat) : Reads (Reader.replicate item values.length) position chunks.flatten values := by
  induction each generalizing position with
  | nil => exact Reads.pure [] position
  | cons first _ ih =>
    exact (first position).bind (ih _).map

theorem counted_of_chunks (few : values.length < 65536)
    (each : List.Forall₂ (fun v bytes => ∀ position, Reads item position bytes v) values chunks)
    (position : Nat) :
    Reads (Reader.counted item) position (Bytes.u16 values.length ++ chunks.flatten) values := by
  have count : (UInt16.ofNat values.length).toNat = values.length := UInt16.toNat_ofNat_of_lt' few
  refine (u16 values.length position).bind ?_
  rw [count]
  exact replicate_of_chunks each _

end Reader.Reads

/-! ## Attributes -/

/-- Some octets are attributes, one behind the other. -/
inductive StoredAttributes (pool : ConstantPool) : List Attribute → Bytes → Prop where
  | nil : StoredAttributes pool [] []
  | cons {a : Attribute} {slot : UInt16} {attributes : List Attribute} {bytes : Bytes}
      (found : pool.utf8 slot = .ok a.name) (size : a.data.length < 4294967296)
      (rest : StoredAttributes pool attributes bytes) :
      StoredAttributes pool (a :: attributes) (attributeBytes slot a.data ++ bytes)

/-- An attribute is read from its stored form. -/
theorem Attribute.reads {pool : ConstantPool} {a : Attribute} {slot : UInt16}
    (found : pool.utf8 slot = .ok a.name) (size : a.data.length < 4294967296) (position : Nat) :
    Reads (Attribute.read pool) position (attributeBytes slot a.data) a := by
  have length : (UInt32.ofNat a.data.length).toNat = a.data.length :=
    UInt32.toNat_ofNat_of_lt' size
  rw [attributeBytes, List.append_assoc]
  refine (Reads.u16_word slot position).bind ((Reads.u32 a.data.length _).bind ?_)
  rw [length]
  refine (Reads.bytes_self a.data _).bind_nil ?_
  exact .lift_bind (by rw [found]; rfl) (.pure a _)

theorem StoredAttributes.reads {pool : ConstantPool} {attributes : List Attribute} {bytes : Bytes}
    (stored : StoredAttributes pool attributes bytes) (position : Nat) :
    Reads (Reader.replicate (Attribute.read pool) attributes.length) position bytes attributes := by
  induction stored generalizing position with
  | nil => exact Reads.pure [] position
  | cons found size _ ih => exact (Attribute.reads found size position).bind (ih _).map

open Building

/-- Attributes are written one behind the other. -/
theorem encodeAttributes_provides (attributes : List Attribute) :
    (encodeAttributes attributes).Provides fun bytes t =>
      bytes.length < 4294967296 → StoredAttributes t.pool attributes bytes := by
  induction attributes with
  | nil => exact .pure fun t _ => .nil
  | cons a attributes ih =>
    refine (utf8_provides a.name).bind fun slot _ => ih.bind fun bytes _ => ?_
    refine .pure fun t rest found small => ?_
    rw [List.length_append, attributeBytes, List.length_append] at small
    exact .cons found (by omega) (rest (by omega))

/-- Counted attributes are written behind their count. -/
theorem encodeCounted_provides (attributes : List Attribute) :
    (encodeCounted attributes).Provides fun bytes t => bytes.length < 4294967296 →
      ∃ stored, bytes = Bytes.u16 attributes.length ++ stored ∧
        StoredAttributes t.pool attributes stored := by
  refine (encodeAttributes_provides attributes).bind fun bytes _ => .pure fun t stored small => ?_
  rw [List.length_append] at small
  exact ⟨bytes, rfl, stored (by omega)⟩

/-- A field is read as it was written. -/
theorem Field.encode_provides {f : Field} (few : f.attributes.length < 65536) :
    f.encode.Provides fun bytes t => bytes.length < 4294967296 →
      ∀ position, Reads (Field.read t.pool) position bytes f := by
  refine (utf8_provides f.name).bind fun name _ => (utf8_provides f.descriptor).bind fun slot _ =>
    (encodeCounted_provides f.attributes).bind fun bytes _ => ?_
  refine .pure fun t counted described named small position => ?_
  rw [List.length_append] at small
  obtain ⟨stored, rfl, attributes⟩ := counted (by omega)
  have count : (UInt16.ofNat f.attributes.length).toNat = f.attributes.length :=
    UInt16.toNat_ofNat_of_lt' few
  simp only [List.append_assoc]
  refine (Reads.u16_word f.access position).bind ((CodeContext.reads_pooled named).bind
    ((CodeContext.reads_pooled described).bind ?_))
  refine Reads.map (f := fun attributes => Field.mk f.access f.name f.descriptor attributes) ?_
  refine (Reads.u16 f.attributes.length _).bind ?_
  rw [count]
  exact attributes.reads _

/-! ## Methods -/

/-- Code can be decoded for every method, against the tables of a class file. -/
def CodeAttribute.Decodes (a : CodeAttribute) (t : Tables) : Prop :=
  ∀ signature, ∃ code, a.decode t.pool t.bootstraps.toArray signature = .ok code

/-- A method that has been read says the same as a method that was written, whose code can be
decoded. -/
structure StoredMethod.Restores (s : StoredMethod) (m : Method) (t : Tables) : Prop where
  access : s.access = m.access
  name : s.name = m.name
  descriptor : s.descriptor = m.descriptor
  attributes : s.attributes = m.attributes
  code : ∀ a, s.code = some a → a.Decodes t

namespace StoredMethod

variable {pool : ConstantPool} {signature : String} {code : Option CodeAttribute}

/-- Attributes other than code are kept. -/
theorem reads_attributes {attributes : List Attribute} {bytes : Bytes}
    (stored : StoredAttributes pool attributes bytes) (others : ∀ a ∈ attributes, a.name ≠ "Code")
    (position : Nat) :
    Reads (readAttributes pool signature code attributes.length) position bytes
      (attributes, code) := by
  induction stored generalizing position with
  | nil => exact Reads.pure ([], code) position
  | @cons a slot attributes bytes found size rest ih =>
    have more := ih fun a' member => others a' (List.mem_cons_of_mem _ member)
    refine (Attribute.reads found size position).bind ?_
    rw [if_neg (others a List.mem_cons_self)]
    exact (more _).bind_nil (.pure (a :: attributes, code) _)

/-- The code stands in front. -/
theorem reads_code {slot : UInt16} {data bytes : Bytes} {count : Nat} {a : CodeAttribute} {c : Cursor}
    {attributes : List Attribute} (found : pool.utf8 slot = .ok "Code")
    (size : data.length < 4294967296)
    (body : (CodeAttribute.read pool).run (Cursor.ofBytes data) = .ok (a, c)) (position : Nat)
    (rest : ∀ position, Reads (readAttributes pool signature (some a) count) position bytes
      (attributes, some a)) :
    Reads (readAttributes pool signature none (count + 1)) position (attributeBytes slot data ++ bytes)
      (attributes, some a) := by
  refine (Attribute.reads (a := ⟨"Code", data⟩) found size position).bind ?_
  rw [if_pos rfl]
  exact .guard (by simp) (.lift_bind body (rest _))

/-- A method is read from its header and its attributes. -/
theorem reads_parts {m : Method} {name slot : UInt16} (named : pool.utf8 name = .ok m.name)
    (described : pool.utf8 slot = .ok m.descriptor) {count : Nat} (few : count < 65536)
    {bytes : Bytes}
    (attributes : ∀ position, Reads (readAttributes pool (m.name ++ m.descriptor) none count)
      position bytes (m.attributes, code)) (position : Nat) :
    Reads (read pool) position (Word.encode m.access ++ (Word.encode name ++ (Word.encode slot ++
      (Bytes.u16 count ++ bytes)))) ⟨m.access, m.name, m.descriptor, m.attributes, code⟩ := by
  have same : (UInt16.ofNat count).toNat = count := UInt16.toNat_ofNat_of_lt' few
  refine (Reads.u16_word m.access position).bind ((CodeContext.reads_pooled named).bind
    ((CodeContext.reads_pooled described).bind ((Reads.u16 count _).bind ?_)))
  rw [same]
  exact (attributes _).bind_nil (.pure _ _)

end StoredMethod

namespace Method

/-- What is written for a body can be decoded. -/
theorem encodeCode_decodes {m : Method} (encodable : m.Encodable) (h : Hierarchy)
    (version : UInt16) :
    (m.encodeCode h version).Provides fun bytes t => ∃ a c,
      (CodeAttribute.read t.pool).run (Cursor.ofBytes bytes) = .ok (a, c) ∧ a.Decodes t := by
  intro b t shows r b' ran
  obtain ⟨leads, t', shows', grown, right⟩ := encodeCode_provides h version encodable.decoded
    encodable.lines encodable.locals_ b t shows r b' ran
  refine ⟨leads, t', shows', grown, fun bytes returned later extends_ => ?_⟩
  obtain ⟨frames, e, code, entries, inferred, encodes⟩ := right bytes returned later extends_
  have closed := inferFrames_closed encodable.some_ inferred
  obtain ⟨a, c, read, same, ranges, named⟩ := encodes.read closed encodable.exceptions
  refine ⟨a, c, read, fun signature => ?_⟩
  obtain ⟨marked, lines, localVariables, decoded, -⟩ := encodes.decode closed same ranges named signature
  exact ⟨_, decoded⟩

/-- Whether the parts of a method can be written so that they are read back. -/
structure Writable (m : Method) : Prop where
  few : m.attributes.length + (if m.body.isEmpty then 0 else 1) < 65536
  others : ∀ a ∈ m.attributes, a.name ≠ "Code"
  body : m.body.isEmpty = false → m.Encodable

/-- A method is read as it was written. -/
theorem encode_provides {m : Method} (writable : m.Writable) (h : Hierarchy) (version : UInt16) :
    (m.encode h version).Provides fun bytes t => bytes.length < 4294967296 →
      ∃ s : StoredMethod, s.Restores m t ∧
        ∀ position, Reads (StoredMethod.read t.pool) position bytes s := by
  refine (utf8_provides m.name).bind fun name _ => (utf8_provides m.descriptor).bind fun slot _ => ?_
  have few := writable.few
  cases empty : m.body.isEmpty with
  | true =>
    rw [empty] at few
    refine Provides.pure_bind ((encodeCounted_provides m.attributes).bind fun bytes _ => ?_)
    refine .pure fun t counted described named small => ?_
    rw [List.length_append] at small
    obtain ⟨stored, rfl, attributes⟩ := counted (by omega)
    refine ⟨⟨m.access, m.name, m.descriptor, m.attributes, none⟩, ⟨rfl, rfl, rfl, rfl, nofun⟩, ?_⟩
    simp only [List.append_assoc]
    exact StoredMethod.reads_parts named described few
      (StoredMethod.reads_attributes attributes writable.others)
  | false =>
    rw [empty] at few
    refine (encodeCode_decodes (writable.body empty) h version).bind fun data _ => Provides.pure_bind ?_
    refine (encodeCounted_provides (⟨"Code", data⟩ :: m.attributes)).bind fun bytes _ => ?_
    refine .pure fun t counted decodes described named small => ?_
    rw [List.length_append] at small
    obtain ⟨stored, rfl, attributes⟩ := counted (by omega)
    obtain ⟨a, c, read, decodes⟩ := decodes
    obtain _ | ⟨found, size, rest⟩ := attributes
    refine ⟨⟨m.access, m.name, m.descriptor, m.attributes, some a⟩, ⟨rfl, rfl, rfl, rfl, ?_⟩, ?_⟩
    · intro a' same
      cases same
      exact decodes
    · simp only [List.append_assoc]
      exact StoredMethod.reads_parts named described few fun position =>
        StoredMethod.reads_code found size read position
          (StoredMethod.reads_attributes rest writable.others)

end Method

/-! ## Annotations -/

/-- Annotations are read as they were written. -/
theorem encodeAnnotations_provides {annotations : List AnnotationUse}
    (few : annotations.length < 65536) (sound : ∀ a ∈ annotations, a.Sound) :
    (encodeAnnotations annotations).Provides fun data t =>
      AnnotationUse.readAll t.pool data = .ok annotations := by
  refine (Provides.mapM (Q := fun a bytes t => ∃ slot, bytes = Word.encode slot ++ a.body ∧
    t.pool.utf8 slot = .ok a.descriptor) fun a _ => ?_).bind fun chunks _ => .pure fun t listed => ?_
  · exact (utf8_provides a.descriptor).bind fun slot _ => .pure fun t found => ⟨slot, rfl, found⟩
  -- A level for every octet of the list is enough for each of its annotations.
  have inside : ∀ bytes ∈ chunks, bytes.length ≤ chunks.flatten.length := fun bytes member =>
    (List.sublist_flatten_of_mem member).length_le
  have fitting := ((List.forall₂_and_left chunks annotations).mpr ⟨inside, listed.flip⟩).flip
  have each := (List.forall₂_and_left annotations chunks).mpr ⟨sound, fitting⟩
  have reads : Reads (Reader.counted (AnnotationUse.readNested t.pool
      ((Bytes.u16 annotations.length ++ chunks.flatten).length + 1))) 0 _ _ :=
    Reads.counted_of_chunks few (each.imp fun a bytes ⟨sound, fits, slot, same, found⟩ position => by
      subst same
      rw [List.length_append] at fits
      refine sound.reads found ?_ position
      rw [List.length_append]
      omega) 0
  obtain ⟨c, ran, -⟩ := reads.run []
  rw [List.append_nil] at ran
  rw [AnnotationUse.readAll, ran]
  rfl

/-- Some attributes list annotations under a name: there is one if there are any annotations, and
none otherwise. -/
def AnnotationUse.ListedBy (pool : ConstantPool) (name : String) (annotations : List AnnotationUse)
    (attributes : List Attribute) : Prop :=
  annotations = [] ∧ attributes = [] ∨ annotations ≠ [] ∧ ∃ data, attributes = [⟨name, data⟩] ∧
    AnnotationUse.readAll pool data = .ok annotations

theorem AnnotationUse.ListedBy.length {pool : ConstantPool} {name : String}
    {annotations : List AnnotationUse} {attributes : List Attribute}
    (listed : AnnotationUse.ListedBy pool name annotations attributes) :
    attributes.length = if annotations.isEmpty then 0 else 1 := by
  rcases listed with ⟨rfl, rfl⟩ | ⟨some_, data, rfl, -⟩
  · rfl
  · rw [if_neg (by simpa using some_)]
    rfl

/-- The attribute of some annotations lists them. -/
theorem annotationAttribute_provides (name : String) {annotations : List AnnotationUse}
    (few : annotations.length < 65536) (sound : ∀ a ∈ annotations, a.Sound) :
    (annotationAttribute name annotations).Provides fun attributes t =>
      AnnotationUse.ListedBy t.pool name annotations attributes := by
  rw [annotationAttribute]
  cases annotations with
  | nil => exact .pure fun t => .inl ⟨rfl, rfl⟩
  | cons a annotations =>
    exact (encodeAnnotations_provides few sound).bind fun data _ => .pure fun t listed =>
      .inr ⟨List.cons_ne_nil _ _, data, rfl, listed⟩

end Bytecode
