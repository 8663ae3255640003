import Bytecode.Proofs.Coding.StackMaps

/-!
# The tables beside the code

Every table that is written beside the code of a method refers to offsets of this code
(`Method.encodeCode_aligned`). Exception ranges, handlers and lines stand at instructions. A local variable
starts at an instruction too, unless its range lies behind the last instruction that control can reach:
ranges that cover nothing are dropped from the exception table, and lines behind the code from the line
numbers, but such a variable is written with the length of the code as its start and a range of no octets
(`Method.encodeCode_behind`).
-/

namespace Bytecode

open Building

/-- The octets of a table with some entries behind their count, if there are any. -/
def IsTable {α : Type} (stored : α → Bytes) (entries : List α) (tables : List Bytes) : Prop :=
  entries = [] ∧ tables = [] ∨ entries ≠ [] ∧
    ∃ slot, tables = [attributeBytes slot (Bytes.u16 entries.length ++ entries.flatMap stored)]

theorem codeTable_returns {α : Type} (stored : α → Bytes) (name : String) (entries : List α) :
    (codeTable name (entries.map stored)).Returns (IsTable stored entries) := by
  rw [codeTable]
  cases entries with
  | nil => exact .pure (.inl ⟨rfl, rfl⟩)
  | cons entry entries =>
    refine (Returns.any _).bind fun slot _ => .pure (.inr ⟨List.cons_ne_nil _ _, slot, ?_⟩)
    rw [List.length_map, List.flatMap_def]

/-- Some octets are those of a code attribute. Behind its tables for debuggers, others may follow. -/
def CodeAttribute.StoredAs (a : CodeAttribute) (bytes : Bytes) : Prop :=
  ∃ lines named types others,
    bytes = Word.encode a.maxStack ++ Word.encode a.maxLocals ++ Bytes.u32 a.code.length ++ a.code ++
      Bytes.u16 a.exceptions.length ++ a.exceptions.flatMap ExceptionEntry.encode ++
      Bytes.u16 (lines ++ named ++ types ++ others).length ++
      (lines ++ named ++ types ++ others).flatten ∧
    IsTable LineEntry.encode a.lines lines ∧
    IsTable VariableEntry.encode a.localVariables named ∧
    IsTable VariableEntry.encode a.variableTypes types

namespace Emission

/-- An instruction has been laid out at an offset. -/
def Starts (e : Emission) (o : Nat) : Prop :=
  ∃ p ∈ e.placed.toList, p.offset = o

/-- A position stands behind everything that has been laid out. -/
def Trails (e : Emission) (position : Nat) : Prop :=
  ∀ p ∈ e.placed.toList, p.index < position

end Emission

/-- An exception range goes from an instruction to a later one or to the end of the code, and its handler is
an instruction. -/
structure ExceptionEntry.Aligned (e : Emission) (x : ExceptionEntry) : Prop where
  start : e.Starts x.start.toNat
  covers : x.start < x.stop
  stop : e.Starts x.stop.toNat ∨ x.stop.toNat = e.length
  handler : e.Starts x.handler.toNat

/-- A variable is named from an instruction on, up to another one or to the end of the code. Only if the
variable of the method from which the entry comes starts behind everything that has been laid out, the
entry has no octets and stands at the end of the code. -/
structure VariableEntry.Aligned (m : Method) (e : Emission) (v : VariableEntry) : Prop where
  start : e.Starts v.start.toNat ∨ v.start.toNat = e.length ∧ v.length = 0 ∧
    ∃ w ∈ m.localVariables, ∃ position, m.body.lastLabels w.start = some position ∧ e.Trails position
  stop : e.Starts v.stop ∨ v.stop = e.length

/-- The tables of a code attribute fit a method whose body has been laid out. -/
structure CodeAttribute.Aligned (m : Method) (e : Emission) (a : CodeAttribute) : Prop where
  exceptions : ∀ x ∈ a.exceptions, x.Aligned e
  lines : ∀ l ∈ a.lines, e.Starts l.start.toNat
  localVariables : ∀ v ∈ a.localVariables, v.Aligned m e
  variableTypes : ∀ v ∈ a.variableTypes, v.Aligned m e

namespace Emission

variable {e : Emission} {frames : MethodFrames} {m : Method}

/-- A label has the offset of an instruction, or it stands at the end of the code because nothing has been
laid out behind it. -/
theorem Covers.starts_or_trails (h : e.Covers frames m.body.toList) {l : LabelId} {o : Nat}
    (found : e.labels[l]? = some o) :
    e.Starts o ∨ o = e.length ∧ ∃ position, m.body.lastLabels l = some position ∧ e.Trails position := by
  obtain ⟨position, stands, rfl⟩ := h.label_eq found
  rcases h.boundary position with ⟨end_, all⟩ | ⟨front, p, rest, split, here, -, -⟩
  · exact .inr ⟨end_, position, stands, all⟩
  · exact .inl ⟨p, by rw [split]; simp, here.symm⟩

/-- Offsets of code that can be stored fit into two octets. -/
theorem toNat_offset {o : Nat} (inside : o ≤ e.length) (short : e.length ≤ 65535) :
    (UInt16.ofNat o).toNat = o :=
  UInt16.toNat_ofNat_of_lt' (Nat.lt_succ_of_le (Nat.le_trans inside short))

theorem lineEntries_aligned (h : e.Covers frames m.body.toList) (short : e.length ≤ 65535) :
    ∀ l ∈ e.lineEntries, e.Starts l.start.toNat := by
  intro l member
  obtain ⟨marker, -, selected⟩ := List.mem_filterMap.mp member
  obtain ⟨o, found, selected⟩ := Option.bind_eq_some_iff.mp selected
  by_cases inside : o < e.length
  · rw [if_pos inside] at selected
    cases selected
    rw [toNat_offset (Nat.le_of_lt inside) short]
    exact h.placed_of_label found inside
  · rw [if_neg inside] at selected
    cases selected

theorem variableEntries_aligned (h : e.Covers frames m.body.toList) (short : e.length ≤ 65535)
    (descriptor : LocalVariable → Option String) {vs : List LocalVariable} (listed : vs ⊆ m.localVariables) :
    (e.variableEntries descriptor vs).Returns fun entries => ∀ v ∈ entries, v.Aligned m e := by
  induction vs with
  | nil => exact .pure (List.forall_mem_nil _)
  | cons w vs ih =>
    obtain ⟨here, listed⟩ := List.cons_subset.mp listed
    rw [variableEntries]
    split
    · next text start stop _ starts stops =>
      split
      · exact ih listed
      · next ordered =>
        have first := h.labels_le starts
        have last := h.labels_le stops
        have start_ := toNat_offset first short
        have length_ := toNat_offset (Nat.le_trans (Nat.sub_le stop start) last) short
        have aligned (name text : UInt16) : VariableEntry.Aligned m e
            ⟨UInt16.ofNat start, UInt16.ofNat (stop - start), name, text, w.index⟩ := by
          constructor
          · rw [start_]
            refine (h.starts_or_trails starts).imp_right ?_
            rintro ⟨end_, position, stands, all⟩
            have nothing : stop - start = 0 := by omega
            exact ⟨end_, by rw [nothing]; rfl, w, here, position, stands, all⟩
          · rw [VariableEntry.stop, start_, length_, Nat.add_sub_cancel' (Nat.le_of_not_lt ordered)]
            exact (h.starts_or_trails stops).imp_right And.left
        exact (Returns.any _).bind fun _ _ => (Returns.any _).bind fun _ _ =>
          (ih listed).bind fun entries rest => .pure (List.forall_mem_cons.mpr ⟨aligned _ _, rest⟩)
    · exact ih listed

theorem exceptionEntries_aligned (h : e.Covers frames m.body.toList) (short : e.length ≤ 65535)
    (closed : m.body.isEmpty = false → frames.Closed m) {signature : String} {rs : List ExceptionRange}
    (listed : rs ⊆ m.exceptions) :
    (e.exceptionEntries signature rs).Returns fun entries => ∀ x ∈ entries, x.Aligned e := by
  induction rs with
  | nil => exact .pure (List.forall_mem_nil _)
  | cons r rs ih =>
    obtain ⟨here, listed⟩ := List.cons_subset.mp listed
    rw [exceptionEntries]
    refine Returns.bind (Q := fun start => e.labels[r.start]? = some start) ?start fun start starts =>
      Returns.bind (Q := fun stop => e.labels[r.stop]? = some stop) ?stop fun stop stops =>
        Returns.bind (Q := fun handler => e.labels[r.handler]? = some handler) ?handler fun handler handles => ?_
    case start | stop | handler =>
      dsimp only
      split
      · next o there => exact .pure (offsetOf_eq_ok.mp there)
      · intro b o b' ran
        cases ran
    split
    · next covers =>
      have first := h.labels_le starts
      have last := h.labels_le stops
      obtain ⟨-, -, -, -, p, placed, -⟩ := h.between starts stops covers
      have lands := h.handler_lands (closed (h.some_of_placed placed)) here starts stops covers handles
      have bound := h.labels_le handles
      have aligned (slot : UInt16) : ExceptionEntry.Aligned e
          ⟨UInt16.ofNat start, UInt16.ofNat stop, UInt16.ofNat handler, slot⟩ := by
        have start_ := toNat_offset first short
        have stop_ := toNat_offset last short
        constructor
        · rw [start_]
          exact (h.starts_or_trails starts).resolve_right (by rintro ⟨end_, -⟩; omega)
        · rw [UInt16.lt_iff_toNat_lt, start_, stop_]
          exact covers
        · rw [stop_]
          exact (h.starts_or_trails stops).imp_right And.left
        · rw [toNat_offset bound short]
          exact lands
      have rest (slot : UInt16) := (ih listed).bind fun entries all =>
        show Returns (Pure.pure ((⟨UInt16.ofNat start, UInt16.ofNat stop, UInt16.ofNat handler, slot⟩ :
          ExceptionEntry) :: entries)) fun xs => ∀ x ∈ xs, x.Aligned e from
          .pure (List.forall_mem_cons.mpr ⟨aligned slot, all⟩)
      split
      · exact (Returns.any _).bind fun slot _ => rest slot
      · exact (Returns.any _).bind fun slot _ => rest slot
    · exact ih listed

end Emission

namespace Method

/-- **The tables beside the code are valid for it.** What is written for a method is a code attribute whose
code is that of the instructions that have been laid out. Its exception ranges, handlers and lines stand at
instructions, and so do its variables, apart from those that lie behind all reachable instructions. -/
theorem encodeCode_aligned {m : Method} {h : Hierarchy} {version : UInt16} {b b' : PoolBuilder}
    {bytes : Bytes} (ran : m.encodeCode h version b = (.ok bytes, b')) :
    ∃ (frames : MethodFrames) (e : Emission) (a : CodeAttribute), a.StoredAs bytes ∧
      inferFrames h b.owner m = .ok frames ∧ e.Covers frames m.body.toList ∧
      e.assemble m.signature = .ok a.code ∧ e.length = a.code.length ∧ a.code.length ≤ 65535 ∧
      (∀ o, e.Starts o → o < a.code.length) ∧ a.Aligned m e := by
  obtain ⟨_, _, got, ran⟩ := ok_of_bind_run ran
  cases got
  obtain ⟨frames, _, inferred, ran⟩ := ok_of_bind_run ran
  obtain ⟨e, _, laid, ran⟩ := ok_of_bind_run ran
  obtain ⟨code, _, assembled, ran⟩ := ok_of_bind_run ran
  by_cases long : 65535 < code.length
  · rw [if_pos long] at ran
    obtain ⟨_, _, failed, -⟩ := ok_of_bind_run ran
    cases failed
  rw [if_neg long] at ran
  have short : code.length ≤ 65535 := Nat.le_of_not_lt long
  obtain ⟨exceptions, _, ranges, ran⟩ := ok_of_bind_run ran
  obtain ⟨lines, _, lined, ran⟩ := ok_of_bind_run ran
  obtain ⟨variables_, _, found, ran⟩ := ok_of_bind_run ran
  obtain ⟨named, _, tabled, ran⟩ := ok_of_bind_run ran
  obtain ⟨types_, _, found', ran⟩ := ok_of_bind_run ran
  obtain ⟨types, _, tabled', ran⟩ := ok_of_bind_run ran
  obtain ⟨others, stored⟩ : ∃ others, bytes = Bytes.u16 frames.maxStack ++ Bytes.u16 frames.maxLocals ++
      Bytes.u32 code.length ++ code ++ Bytes.u16 exceptions.length ++
      exceptions.flatMap ExceptionEntry.encode ++ Bytes.u16 (lines ++ named ++ types ++ others).length ++
      (lines ++ named ++ types ++ others).flatten := by
    dsimp only at ran
    split at ran
    · cases ran
      exact ⟨[], rfl⟩
    · obtain ⟨map, _, -, ran⟩ := ok_of_bind_run ran
      cases map with
      | none =>
        cases ran
        exact ⟨[], rfl⟩
      | some data =>
        obtain ⟨slot, _, -, ran⟩ := ok_of_bind_run ran
        cases ran
        exact ⟨[attributeBytes slot data], rfl⟩
  have inferred := ok_of_lift_run inferred
  have assembled := ok_of_mapError (ok_of_lift_run assembled)
  obtain ⟨covers, ordered⟩ := Emission.ofBody_returns frames m.body _ e _ laid
  have size : e.length = code.length := by
    obtain ⟨chunks, rfl, each⟩ := Emission.chunks_of_assemble assembled
    exact covers.length_eq.trans (Emission.length_of_assembled each).symm
  have closed (some_ : m.body.isEmpty = false) : frames.Closed m := inferFrames_closed some_ inferred
  let a : CodeAttribute := {
    maxStack := UInt16.ofNat frames.maxStack
    maxLocals := UInt16.ofNat frames.maxLocals
    code, exceptions
    lines := e.lineEntries
    localVariables := variables_
    variableTypes := types_ }
  refine ⟨frames, e, a, ⟨lines, named, types, others, ?_, ?_, ?_, ?_⟩, inferred, covers, assembled, size,
    short, ?_, ?_⟩
  · rw [stored]
    simp only [a, Word.encode_ofNat16]
  · exact codeTable_returns LineEntry.encode _ e.lineEntries _ _ _ lined
  · exact codeTable_returns VariableEntry.encode _ variables_ _ _ _ tabled
  · exact codeTable_returns VariableEntry.encode _ types_ _ _ _ tabled'
  · rintro o ⟨p, placed, rfl⟩
    exact size ▸ ordered.inside p placed
  · rw [← size] at short
    have all := List.Subset.refl m.localVariables
    exact ⟨Emission.exceptionEntries_aligned covers short closed (List.Subset.refl _) _ _ _ ranges,
      Emission.lineEntries_aligned covers short,
      Emission.variableEntries_aligned covers short _ all _ _ _ found,
      Emission.variableEntries_aligned covers short _ all _ _ _ found'⟩

/-- A method whose last instruction cannot be reached, with a variable that is named there. -/
def trailing : Method where
  id := ⟨0⟩
  access := 8
  name := "A"
  descriptor := "()V"
  body := #[⟨⟨0⟩, .simple 0xb1⟩, ⟨⟨1⟩, .label ⟨0⟩⟩, ⟨⟨2⟩, .simple 0xb1⟩, ⟨⟨3⟩, .label ⟨1⟩⟩]
  localVariables := [⟨"I", "I", none, ⟨0⟩, ⟨1⟩, 0⟩]

end Method

/-- What is laid out of the method is its first instruction. -/
def Emission.trailing : Emission where
  placed := #[⟨0, 0, .simple 0xb1, [.octets [0xb1]]⟩]
  labels := (Std.HashMap.insert ∅ ⟨0⟩ 1).insert ⟨1⟩ 1
  length := 1

/-- A builder that has the texts for the variable already. -/
def PoolBuilder.trailing : PoolBuilder where
  owner := "A"
  added := #[.utf8 "I", .utf8 "LocalVariableTable"]
  size := 3
  slots := (Std.HashMap.insert ∅ (.utf8 "I") 1).insert (.utf8 "LocalVariableTable") 2

namespace Method

/-- The code attribute of the method. -/
def trailingBytes : Bytes :=
  [0, 0, 0, 0, 0, 0, 0, 1, 0xb1, 0, 0, 0, 1] ++
    attributeBytes 2 (Bytes.u16 1 ++ VariableEntry.encode ⟨1, 0, 1, 1, 0⟩)

theorem labels_trailing (l : LabelId) (marked : l = ⟨0⟩ ∨ l = ⟨1⟩) :
    Emission.trailing.labels[l]? = some 1 := by
  rw [Emission.trailing, Std.HashMap.getElem?_insert]
  rcases marked with rfl | rfl
  · rw [if_neg (by decide), Std.HashMap.getElem?_insert_self]
  · rw [if_pos (by decide)]

theorem variableEntries_trailing {b : PoolBuilder} (known : b.slots[PoolEntry.utf8 "I"]? = some 1) :
    Emission.trailing.variableEntries (some ·.descriptor) trailing.localVariables b =
      (.ok [⟨1, 0, 1, 1, 0⟩], b) := by
  have text := utf8_of_some known
  rw [trailing, Emission.variableEntries, labels_trailing _ (.inl rfl), labels_trailing _ (.inr rfl)]
  simp only [Nat.lt_irrefl, if_false, bind_eq, text]
  rfl

theorem variableTypes_trailing (b : PoolBuilder) :
    Emission.trailing.variableEntries LocalVariable.signature trailing.localVariables b = (.ok [], b) := by
  rw [trailing, Emission.variableEntries, labels_trailing _ (.inl rfl), labels_trailing _ (.inr rfl)]
  rfl

/-- The code is one octet long, and the variable is written with a start of one. -/
theorem encodeCode_trailing :
    trailing.encodeCode (fun _ => none) 49 PoolBuilder.trailing = (.ok trailingBytes, PoolBuilder.trailing) := by
  have known : PoolBuilder.trailing.slots[PoolEntry.utf8 "I"]? = some 1 := by
    rw [PoolBuilder.trailing, Std.HashMap.getElem?_insert, if_neg (by decide),
      Std.HashMap.getElem?_insert_self]
  have name : PoolBuilder.trailing.slots[PoolEntry.utf8 "LocalVariableTable"]? = some 2 := by
    rw [PoolBuilder.trailing, Std.HashMap.getElem?_insert_self]
  have found : ((inferFrames (fun _ => none) "A" trailing).toOption.any fun frames =>
      frames.frames == #[some ⟨[], []⟩, none, none, none] && frames.maxStack == 0 &&
        frames.maxLocals == 0) = true := by
    rw [inferFrames, Body.ofTable_labelTable]
    decide +kernel
  cases ran : inferFrames (fun _ => none) "A" trailing with
  | error cause => rw [ran] at found; cases found
  | ok frames =>
    rw [ran] at found
    obtain ⟨frames, maxStack, maxLocals⟩ := frames
    simp only [Except.toOption, Option.any_some, Bool.and_eq_true, beq_iff_eq] at found
    obtain ⟨⟨rfl, rfl⟩, rfl⟩ := found
    have laid : Emission.ofBody ⟨#[some ⟨[], []⟩, none, none, none], 0, 0⟩ trailing.body
        PoolBuilder.trailing = (.ok Emission.trailing, PoolBuilder.trailing) := rfl
    have table : codeTable "LocalVariableTable" [VariableEntry.encode ⟨1, 0, 1, 1, 0⟩]
        PoolBuilder.trailing = (.ok [attributeBytes 2 (Bytes.u16 1 ++
          VariableEntry.encode ⟨1, 0, 1, 1, 0⟩)], PoolBuilder.trailing) := by
      rw [codeTable]
      simp only [List.isEmpty_cons, Bool.false_eq_true, if_false, bind_eq, utf8_of_some name]
      rfl
    have lined : codeTable "LineNumberTable" (Emission.trailing.lineEntries.map LineEntry.encode)
        PoolBuilder.trailing = (.ok [], PoolBuilder.trailing) := rfl
    rw [encodeCode]
    refine (bind_of_ok (get_eq _)).trans ?_
    refine (bind_of_ok (a := ⟨#[some ⟨[], []⟩, none, none, none], 0, 0⟩) (lift_of_ok ran _)).trans ?_
    refine (bind_of_ok laid).trans ?_
    refine (bind_of_ok (a := [0xb1]) (lift_of_ok rfl _)).trans ?_
    refine (bind_of_ok (a := []) rfl).trans ?_
    refine (bind_of_ok lined).trans ?_
    refine (bind_of_ok (variableEntries_trailing known)).trans ?_
    refine (bind_of_ok table).trans ?_
    refine (bind_of_ok (variableTypes_trailing _)).trans ?_
    rfl

theorem encodeCode_aligned_trailing :
    ∃ (frames : MethodFrames) (e : Emission) (a : CodeAttribute), a.StoredAs trailingBytes ∧
      inferFrames (fun _ => none) PoolBuilder.trailing.owner trailing = .ok frames ∧
      e.Covers frames trailing.body.toList ∧ e.assemble trailing.signature = .ok a.code ∧
      e.length = a.code.length ∧ a.code.length ≤ 65535 ∧ (∀ o, e.Starts o → o < a.code.length) ∧
      a.Aligned trailing e :=
  encodeCode_aligned encodeCode_trailing

/-- A variable of the attribute starts behind its code. -/
theorem encodeCode_behind :
    ∃ (bytes : Bytes) (b : PoolBuilder) (a : CodeAttribute),
      trailing.encodeCode (fun _ => none) 49 PoolBuilder.trailing = (.ok bytes, b) ∧ a.StoredAs bytes ∧
      ∃ v ∈ a.localVariables, ¬ v.start.toNat < a.code.length := by
  let v : VariableEntry := ⟨1, 0, 1, 1, 0⟩
  refine ⟨_, _, ⟨0, 0, [0xb1], [], [], [v], []⟩, encodeCode_trailing, ?_, v, List.mem_singleton_self v,
    by decide⟩
  exact ⟨[], [attributeBytes 2 (Bytes.u16 1 ++ v.encode)], [], [], by decide, .inl ⟨rfl, rfl⟩,
    .inr ⟨nofun, 2, rfl⟩, .inl ⟨rfl, rfl⟩⟩

end Method

end Bytecode
