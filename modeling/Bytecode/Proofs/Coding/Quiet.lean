import Bytecode.Proofs.Coding.Encoded

/-!
# Requests that add no bootstrap method

Only dynamic constants and dynamic call sites add bootstrap methods. So writing a method leaves the
bootstrap methods of a builder alone if no node of its body is dynamic (`Method.encode_quiet`).
-/

namespace Bytecode

namespace Building

variable {α β : Type}

/-- A request that adds no bootstrap method. -/
def Quiet (x : Building α) : Prop :=
  ∀ b r b', x b = (r, b') → b'.bootstraps = b.bootstraps

namespace Quiet

theorem pure (a : α) : Quiet (Pure.pure a) := by
  intro b r b' ran
  cases ran
  rfl

theorem throw (cause : Failure) : Quiet (MonadExcept.throw cause : Building α) := by
  intro b r b' ran
  cases ran
  rfl

theorem lift (x : Except Failure α) : Quiet (liftM x : Building α) := by
  cases x with
  | error cause => exact throw cause
  | ok a => exact pure a

theorem fail (cause : WriteError) : Quiet (Building.fail cause : Building α) := by
  intro b r b' ran
  cases ran
  rfl

theorem get : Quiet (MonadState.get : Building PoolBuilder) := by
  intro b r b' ran
  cases ran
  rfl

theorem bind {x : Building α} {next : α → Building β} (first : Quiet x)
    (second : ∀ a, Quiet (next a)) : Quiet (x >>= next) := by
  intro b r b' ran
  rw [bind_eq] at ran
  have same := first b (x b).1 (x b).2 rfl
  rcases here : x b with ⟨_ | a, c⟩
  · rw [here] at ran same
    cases ran
    exact same
  · rw [here] at ran same
    exact (second a c r b' ran).trans same

/-- A request behind one that fails. -/
theorem fail_bind (cause : WriteError) {next : α → Building β} :
    Quiet (Building.fail cause >>= next) := by
  intro b r b' ran
  rw [bind_eq] at ran
  cases ran
  rfl

theorem mapM {f : α → Building β} {l : List α} (each : ∀ a ∈ l, Quiet (f a)) :
    Quiet (l.mapM f) := by
  induction l with
  | nil => exact pure []
  | cons a l ih =>
    rw [List.mapM_cons]
    exact (each a List.mem_cons_self).bind fun _ =>
      (ih fun a member => each a (List.mem_cons_of_mem _ member)).bind fun _ => pure _

end Quiet

theorem entry_quiet (e : PoolEntry) : Quiet (entry e) := by
  intro b r b' ran
  cases found : b.slots[e]? with
  | some slot =>
    rw [entry_of_some found] at ran
    cases ran
    rfl
  | none =>
    rcases entry_of_none found ran with ⟨-, -, rfl⟩ | ⟨-, -, rfl⟩
    · rfl
    · rfl

theorem utf8_quiet (text : String) : Quiet (utf8 text) := by
  intro b r b' ran
  rcases utf8_eq text b with ⟨-, long⟩ | ⟨asked, -⟩
  · rw [long] at ran
    cases ran
    rfl
  · exact entry_quiet _ b r b' (asked ▸ ran)

theorem classRef_quiet (name : String) : Quiet (classRef name) :=
  (utf8_quiet name).bind fun _ => entry_quiet _

theorem nameAndType_quiet (name descriptor : String) : Quiet (nameAndType name descriptor) :=
  (utf8_quiet name).bind fun _ => (utf8_quiet descriptor).bind fun _ => entry_quiet _

theorem field_quiet (owner name descriptor : String) : Quiet (field owner name descriptor) :=
  (classRef_quiet owner).bind fun _ => (nameAndType_quiet name descriptor).bind fun _ =>
    entry_quiet _

theorem method_quiet (owner name descriptor : String) (isInterface : Bool) :
    Quiet (method owner name descriptor isInterface) :=
  (classRef_quiet owner).bind fun _ => (nameAndType_quiet name descriptor).bind fun _ =>
    entry_quiet _

theorem handle_quiet (h : Handle) : Quiet (handle h) := by
  rw [handle]
  dsimp only
  split
  · exact (field_quiet _ _ _).bind fun _ => entry_quiet _
  · exact (method_quiet _ _ _ _).bind fun _ => entry_quiet _

theorem loadable_quiet {c : Constant} (static : (Node.constant c).isDynamic = false) :
    Quiet (loadable c) := by
  cases c with
  | dynamic => cases static
  | string text | methodType text =>
    rw [loadable]
    exact (utf8_quiet text).bind fun _ => entry_quiet _
  | classRef name =>
    rw [loadable]
    exact classRef_quiet name
  | handle h =>
    rw [loadable]
    exact handle_quiet h
  | _ =>
    rw [loadable]
    exact entry_quiet _

end Building

open Building

theorem Node.pieces_quiet {n : Node} (static : n.isDynamic = false) (offset : Nat) :
    Quiet (n.pieces offset) := by
  cases n with
  | dynamicCall => cases static
  | type op name =>
    rw [pieces]
    exact (classRef_quiet name).bind fun _ => .pure _
  | field op owner name descriptor =>
    rw [pieces]
    exact (field_quiet owner name descriptor).bind fun _ => .pure _
  | call op owner name descriptor isInterface =>
    rw [pieces]
    refine (method_quiet owner name descriptor isInterface).bind fun _ => ?_
    split_ifs
    · exact (Quiet.lift _).bind fun _ => .pure _
    · exact .pure _
  | constant value =>
    rw [pieces]
    exact (loadable_quiet static).bind fun _ => .pure _
  | newArrays descriptor dimensions =>
    rw [pieces]
    exact (classRef_quiet descriptor).bind fun _ => .pure _
  | _ =>
    rw [pieces]
    exact .pure _

namespace Emission

theorem emit_quiet (e : Emission) (frames : MethodFrames) (i : Nat) {n : Node}
    (static : n.isDynamic = false) : Quiet (e.emit frames i n) := by
  cases real : n.isPseudo with
  | true =>
    cases n <;> first
      | exact .pure _
      | cases real
  | false =>
    rw [emit_of_real real]
    split
    · exact (Node.pieces_quiet static _).bind fun _ => .pure _
    · exact .pure _

theorem emitFrom_quiet (frames : MethodFrames) {insns : List Insn}
    (static : ∀ insn ∈ insns, insn.node.isDynamic = false) (e : Emission) (i : Nat) :
    Quiet (emitFrom frames e i insns) := by
  induction insns generalizing e i with
  | nil => exact .pure _
  | cons insn insns ih =>
    exact (emit_quiet e frames i (static insn List.mem_cons_self)).bind fun _ =>
      ih (fun other member => static other (List.mem_cons_of_mem _ member)) _ _

variable (e : Emission) (signature : String)

theorem exceptionEntries_quiet (rs : List ExceptionRange) :
    Quiet (e.exceptionEntries signature rs) := by
  induction rs with
  | nil => exact .pure _
  | cons r rs ih =>
    rw [exceptionEntries]
    dsimp only
    refine Quiet.bind ?start fun _ => Quiet.bind ?stop fun _ => Quiet.bind ?handler fun _ => ?_
    case start | stop | handler =>
      split
      · exact .pure _
      · exact .fail _
    split
    · split
      · exact (classRef_quiet _).bind fun _ => ih.bind fun _ => .pure _
      · exact (Quiet.pure _).bind fun _ => ih.bind fun _ => .pure _
    · exact ih

theorem variableEntries_quiet (descriptor : LocalVariable → Option String)
    (vs : List LocalVariable) : Quiet (e.variableEntries descriptor vs) := by
  induction vs with
  | nil => exact .pure _
  | cons v vs ih =>
    rw [variableEntries]
    split
    · split
      · exact ih
      · exact (utf8_quiet _).bind fun _ => (utf8_quiet _).bind fun _ => ih.bind fun _ => .pure _
    · exact ih

theorem encodeTypes_quiet (offsets : Std.HashMap Nat Nat) (types : List VerificationType) :
    Quiet (encodeTypes offsets signature types) := by
  refine (Quiet.mapM fun type _ => ?_).bind fun _ => .pure _
  cases type with
  | object name => exact (classRef_quiet name).bind fun _ => .pure _
  | uninitialized creation =>
    rw [encodeType]
    split
    · exact .pure _
    · exact .fail _
  | _ => exact .pure _

theorem encodeFrames_quiet (frameAt : Nat → Option TypeFrame) (offsets : Std.HashMap Nat Nat)
    (base : Nat) (l : List Nat) : Quiet (encodeFrames frameAt offsets signature base l) := by
  induction l generalizing base with
  | nil => exact .pure _
  | cons offset l ih =>
    rw [encodeFrames]
    split
    · exact .fail _
    · exact ((encodeTypes_quiet signature offsets _).bind fun _ =>
        (encodeTypes_quiet signature offsets _).bind fun _ => .pure _).bind fun _ =>
          (ih _).bind fun _ => .pure _

theorem stackMap_quiet (frames : MethodFrames) (exceptions : List ExceptionRange) :
    Quiet (e.stackMap frames signature exceptions) := by
  rw [stackMap]
  split
  · exact .fail _
  · exact .pure _
  · exact (encodeFrames_quiet _ _ _ _ _).bind fun _ => .pure _

end Emission

theorem codeTable_quiet (name : String) (entries : List Bytes) : Quiet (codeTable name entries) := by
  rw [codeTable]
  split
  · exact .pure _
  · exact (utf8_quiet name).bind fun _ => .pure _

theorem encodeAttributes_quiet (attributes : List Attribute) : Quiet (encodeAttributes attributes) := by
  induction attributes with
  | nil => exact .pure _
  | cons a attributes ih => exact (utf8_quiet a.name).bind fun _ => ih.bind fun _ => .pure _

theorem encodeCounted_quiet (attributes : List Attribute) : Quiet (encodeCounted attributes) :=
  (encodeAttributes_quiet attributes).bind fun _ => .pure _

theorem Field.encode_quiet (f : Field) : Quiet f.encode :=
  (utf8_quiet _).bind fun _ => (utf8_quiet _).bind fun _ => (encodeCounted_quiet _).bind fun _ =>
    .pure _

theorem annotationAttribute_quiet (name : String) (annotations : List AnnotationUse) :
    Quiet (annotationAttribute name annotations) := by
  have one (a : AnnotationUse) : Quiet (do
      return Word.encode (← Building.utf8 a.descriptor) ++ a.body : Building Bytes) :=
    (utf8_quiet a.descriptor).bind fun _ => .pure _
  rw [annotationAttribute]
  split
  · exact .pure _
  · exact ((Quiet.mapM fun a _ => one a).bind fun _ => .pure _).bind fun _ => .pure _

namespace Method

theorem encodeCode_quiet {m : Method} (static : ∀ insn ∈ m.body.toList, insn.node.isDynamic = false)
    (h : Hierarchy) (version : UInt16) : Quiet (m.encodeCode h version) := by
  refine Quiet.get.bind fun b => (Quiet.lift _).bind fun frames => ?_
  refine (Emission.emitFrom_quiet frames static _ _).bind fun e => (Quiet.lift _).bind fun code => ?_
  dsimp only
  split
  · exact .fail_bind _
  refine (Emission.exceptionEntries_quiet e _ _).bind fun _ => (codeTable_quiet _ _).bind fun _ => ?_
  refine (Emission.variableEntries_quiet e _ _).bind fun _ => (codeTable_quiet _ _).bind fun _ => ?_
  refine (Emission.variableEntries_quiet e _ _).bind fun _ => (codeTable_quiet _ _).bind fun _ => ?_
  split
  · exact (Quiet.pure _).bind fun _ => .pure _
  · refine (Emission.stackMap_quiet e _ _ _).bind fun map => ?_
    cases map with
    | none => exact (Quiet.pure _).bind fun _ => .pure _
    | some data => exact (utf8_quiet _).bind fun _ => (Quiet.pure _).bind fun _ => .pure _

/-- Writing a method whose body has no dynamic node adds no bootstrap method. -/
theorem encode_quiet {m : Method} (static : ∀ insn ∈ m.body.toList, insn.node.isDynamic = false)
    (h : Hierarchy) (version : UInt16) : Quiet (m.encode h version) := by
  refine (utf8_quiet m.name).bind fun _ => (utf8_quiet m.descriptor).bind fun _ => ?_
  cases m.body.isEmpty with
  | true => exact (Quiet.pure _).bind fun _ => (encodeCounted_quiet _).bind fun _ => .pure _
  | false =>
    exact (encodeCode_quiet static h version).bind fun _ => (Quiet.pure _).bind fun _ =>
      (encodeCounted_quiet _).bind fun _ => .pure _

end Method

namespace Class

theorem superSlot_quiet (superName : Option String) : Quiet (superSlot superName) := by
  cases superName with
  | none => exact .pure _
  | some name => exact classRef_quiet name

/-- Writing the parts of a class adds no bootstrap method if no body refers to one. -/
theorem encodeMembers_quiet {c : Class}
    (static : ∀ m ∈ c.methods, ∀ insn ∈ m.body.toList, insn.node.isDynamic = false) (h : Hierarchy) :
    Quiet (c.encodeMembers h) := by
  refine (classRef_quiet c.name).bind fun _ => (superSlot_quiet c.superName).bind fun _ => ?_
  refine (Quiet.mapM fun name _ => classRef_quiet name).bind fun _ =>
    (Quiet.mapM fun f _ => f.encode_quiet).bind fun _ => ?_
  refine (Quiet.mapM fun m member => Method.encode_quiet (static m member) h _).bind fun _ => ?_
  exact (annotationAttribute_quiet _ _).bind fun _ => (annotationAttribute_quiet _ _).bind fun _ =>
    .pure _

end Class

end Bytecode
