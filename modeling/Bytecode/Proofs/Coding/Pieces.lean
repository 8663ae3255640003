import Bytecode.ClassFile.Code.Encoding
import Bytecode.Proofs.Coding.Nodes
import Bytecode.Proofs.Labels

/-!
# Instructions survive their stored form

The pieces of an instruction, once assembled, are read back as the instruction, with labels that say
at which offsets the assembly has put its targets. `Assembles` takes the octets of pieces apart;
`pieces_provides` then goes through the forms of instructions.
-/

namespace Bytecode

namespace Emission

open Reader

variable {e : Emission} {signature : String} {start : Nat} {ps : List Piece} {bytes : Bytes}

/-- The label that marks where a label stands in the code. -/
def mark (e : Emission) (l : LabelId) : LabelId :=
  labelAt (e.labels.getD l 0)

/-- Some octets are those of the pieces of the instruction at an offset. -/
def Assembles (e : Emission) (signature : String) (start : Nat) (ps : List Piece)
    (bytes : Bytes) : Prop :=
  ∃ chunks, ps.mapM (e.assemblePiece signature start) = .ok chunks ∧ chunks.flatten = bytes

namespace Assembles

theorem nil (h : e.Assembles signature start [] bytes) : bytes = [] := by
  obtain ⟨chunks, ran, rfl⟩ := h
  cases ran
  rfl

theorem cons {p : Piece} (h : e.Assembles signature start (p :: ps) bytes) :
    ∃ chunk more, e.assemblePiece signature start p = .ok chunk ∧
      e.Assembles signature start ps more ∧ bytes = chunk ++ more := by
  obtain ⟨chunks, ran, rfl⟩ := h
  rw [List.mapM_cons] at ran
  obtain ⟨chunk, first, ran⟩ := ok_of_bind ran
  obtain ⟨others, rest, ran⟩ := ok_of_bind ran
  cases ran
  exact ⟨chunk, others.flatten, first, ⟨others, rest, rfl⟩, rfl⟩

theorem octets {known : Bytes} (h : e.Assembles signature start (.octets known :: ps) bytes) :
    ∃ more, e.Assembles signature start ps more ∧ bytes = known ++ more := by
  obtain ⟨chunk, more, first, rest, rfl⟩ := h.cons
  cases first
  exact ⟨more, rest, rfl⟩

/-- A piece with the octets of an instruction that has no other. -/
theorem octets_only {known : Bytes} (h : e.Assembles signature start [.octets known] bytes) :
    bytes = known := by
  obtain ⟨more, rest, rfl⟩ := h.octets
  rw [rest.nil, List.append_nil]

theorem of_offsetOf {l : LabelId} {o : Nat} (h : e.offsetOf signature l = .ok o) :
    e.labels[l]? = some o := by
  rw [offsetOf] at h
  cases found : e.labels[l]? with
  | none => rw [found] at h; cases h
  | some o' =>
    rw [found] at h
    cases h
    rfl

theorem branch {target : LabelId} (h : e.Assembles signature start (.branch target :: ps) bytes) :
    ∃ (o : Nat) (distance : Int16) (more : Bytes), e.labels[target]? = some o ∧
      start + distance.toInt = o ∧ e.Assembles signature start ps more ∧
      bytes = Word.encode distance ++ more := by
  obtain ⟨chunk, more, first, rest, rfl⟩ := h.cons
  obtain ⟨o, found, first⟩ := ok_of_bind first
  by_cases near : -32768 ≤ (o : Int) - start ∧ (o : Int) - start ≤ 32767
  · rw [if_pos near] at first
    cases first
    refine ⟨o, Int16.ofInt (o - start), more, of_offsetOf found, ?_, rest, rfl⟩
    rw [Int16.toInt_ofInt_of_le near.1 (Int.lt_add_one_of_le near.2)]
    omega
  · rw [if_neg near] at first
    cases first

theorem wideBranch {target : LabelId}
    (h : e.Assembles signature start (.wideBranch target :: ps) bytes) :
    ∃ (o : Nat) (distance : Int32) (more : Bytes), e.labels[target]? = some o ∧
      start + distance.toInt = o ∧ e.Assembles signature start ps more ∧
      bytes = Word.encode distance ++ more := by
  obtain ⟨chunk, more, first, rest, rfl⟩ := h.cons
  obtain ⟨o, found, first⟩ := ok_of_bind first
  by_cases near : -2147483648 ≤ (o : Int) - start ∧ (o : Int) - start ≤ 2147483647
  · rw [if_pos near] at first
    cases first
    refine ⟨o, Int32.ofInt (o - start), more, of_offsetOf found, ?_, rest, rfl⟩
    rw [Int32.toInt_ofInt_of_le near.1 (Int.lt_add_one_of_le near.2)]
    omega
  · rw [if_neg near] at first
    cases first

/-- Pieces take as many octets as they say. -/
theorem length_eq (h : e.Assembles signature start ps bytes) :
    bytes.length = Piece.totalSize ps := by
  induction ps generalizing bytes with
  | nil =>
    rw [h.nil]
    rfl
  | cons p ps ih =>
    show _ = p.size + Piece.totalSize ps
    cases p with
    | octets known =>
      obtain ⟨more, rest, rfl⟩ := h.octets
      rw [List.length_append, ih rest]
      rfl
    | branch target =>
      obtain ⟨_, _, more, -, -, rest, rfl⟩ := h.branch
      rw [List.length_append, ih rest, Word.length_encode]
      rfl
    | wideBranch target =>
      obtain ⟨_, _, more, -, -, rest, rfl⟩ := h.wideBranch
      rw [List.length_append, ih rest, Word.length_encode]
      rfl

end Assembles

theorem mark_of_labels {l : LabelId} {o : Nat} (h : e.labels[l]? = some o) : e.mark l = labelAt o := by
  rw [mark, Std.HashMap.getD_eq_getD_getElem?, h]
  rfl

end Emission

namespace CodeContext

open Reader

variable {ctx : CodeContext} {start position o : Nat}

theorem target_of_inside {distance : Int} (reaches : start + distance = o)
    (inside : o < ctx.length) : ctx.target start distance = .ok (labelAt o) := by
  rw [target, reaches, if_pos ⟨Int.natCast_nonneg o, Int.ofNat_lt.mpr inside⟩]
  rfl

theorem reads_branch {distance : Int16} (reaches : start + distance.toInt = o)
    (inside : o < ctx.length) :
    Reads (ctx.branch start) position (Word.encode distance) (labelAt o) := by
  refine (Reads.word distance position).bind_nil ?_
  rw [target_of_inside reaches inside]
  exact Reads.lift _ _

theorem reads_wideBranch {distance : Int32} (reaches : start + distance.toInt = o)
    (inside : o < ctx.length) :
    Reads (ctx.wideBranch start) position (Word.encode distance) (labelAt o) := by
  refine (Reads.word distance position).bind_nil ?_
  rw [target_of_inside reaches inside]
  exact Reads.lift _ _

theorem reads_resolve {α : Type} {lookup : Except FormatError α} {value : α}
    (found : lookup = .ok value) : Reads (resolve lookup) position [] value := by
  subst found
  exact Reads.lift value position

theorem reads_pooled {α : Type} {lookup : UInt16 → Except FormatError α} {slot : UInt16}
    {value : α} (found : lookup slot = .ok value) :
    Reads (pooled lookup) position (Word.encode slot) value :=
  (Reads.u16_word slot position).bind_nil (reads_resolve found)

/-- Reads an instruction at an offset. -/
def instruction (ctx : CodeContext) (start : Nat) : Reader Node := do
  ctx.node start (← Reader.u8)

section Forms

variable {op : Opcode} {bytes : Bytes} {n : Node} {slot : UInt16}

theorem reads_instruction (h : Reads (ctx.node start op) (start + 1) bytes n) :
    Reads (ctx.instruction start) start (op :: bytes) n :=
  Reads.u8_bind h

theorem reads_simple (layout : OperandLayout.ofOpcode op = .none) :
    Reads (ctx.instruction start) start [op] (.simple op) := by
  refine reads_instruction ?_
  rw [node, layout]
  exact Reads.pure _ _

/-! ### Operands that are numbers -/

/-- The stored form of a small number is the one that it is widened from. -/
private theorem octet_of_int8 (b : Int8) :
    [UInt8.ofNat (Int32.ofInt b.toInt).toUInt32.toNat] = Word.encode b := by
  show _ = [UInt8.ofNat b.toUInt8.toNat]
  congr 1
  apply UInt8.toBitVec_inj.mp
  apply BitVec.eq_of_toNat_eq
  rw [show (Int32.ofInt b.toInt).toUInt32.toNat = (BitVec.ofInt 32 b.toBitVec.toInt).toNat from rfl,
    show b.toUInt8.toNat = b.toBitVec.toNat from rfl]
  simp only [UInt8.toBitVec_ofNat', BitVec.toNat_ofNat, BitVec.toNat_ofInt]
  have := b.toBitVec.isLt
  rw [BitVec.toInt_eq_toNat_cond]
  split <;> omega

private theorem octet_of_uint8 (b : UInt8) :
    UInt8.ofNat (Int32.ofNat b.toNat).toUInt32.toNat = b := by
  apply UInt8.toNat_inj.mp
  rw [show (Int32.ofNat b.toNat).toUInt32.toNat = (BitVec.ofNat 32 b.toNat).toNat from rfl]
  have := b.toNat_lt
  simp only [UInt8.toNat_ofNat', BitVec.toNat_ofNat]
  omega

private theorem int16_of_octets (s : Int16) :
    Word.ofBits ((Int32.ofInt s.toInt).toUInt32.toNat % Nat.pow 256 (Word.width Int16)) = s := by
  show Int16.ofNat ((Int32.ofInt s.toInt).toUInt32.toNat % 65536) = s
  apply Int16.toBitVec_inj.mp
  apply BitVec.eq_of_toNat_eq
  rw [show (Int32.ofInt s.toInt).toUInt32.toNat = (BitVec.ofInt 32 s.toBitVec.toInt).toNat from rfl]
  show (BitVec.ofNat 16 _).toNat = _
  simp only [BitVec.toNat_ofNat, BitVec.toNat_ofInt]
  have := s.toBitVec.isLt
  rw [BitVec.toInt_eq_toNat_cond]
  split <;> omega

private theorem widened_toInt8 {amount : Int16} (near : -128 ≤ amount ∧ amount ≤ 127) :
    Int16.ofInt amount.toInt8.toInt = amount := by
  have low : -128 ≤ amount.toInt := Int16.le_iff_toInt_le.mp near.1
  have high : amount.toInt ≤ 127 := Int16.le_iff_toInt_le.mp near.2
  apply Int16.toInt_inj.mp
  rw [Int16.toInt_toInt8, Int.bmod_eq_of_le (by omega) (by omega),
    Int16.toInt_ofInt_of_le (by omega) (by omega)]

private theorem widened_toUInt8 (small : slot ≤ 255) : slot.toUInt8.toUInt16 = slot := by
  have := UInt16.le_iff_toNat_le.mp small
  apply UInt16.toNat_inj.mp
  simp at this ⊢
  omega

private theorem eq_sipush :
    ∀ code : Fin 256, OperandLayout.ofOpcode (UInt8.ofNat code) = .short →
      UInt8.ofNat code = Opcode.sipush := by
  decide +kernel

/-- The operand of an instruction that pushes a number or creates an array. -/
theorem reads_int {operand : Int32} (decoded : (Node.int op operand).Decoded) :
    Reads (ctx.instruction start) start
      (op :: if op = Opcode.sipush then Bytes.u16 operand.toUInt32.toNat
        else [UInt8.ofNat operand.toUInt32.toNat]) (.int op operand) := by
  refine reads_instruction ?_
  rcases decoded with ⟨layout, b, rfl⟩ | ⟨layout, s, rfl⟩ | ⟨layout, b, rfl⟩
  · have other : op ≠ Opcode.sipush := by
      rintro rfl
      cases layout
    rw [if_neg other, octet_of_int8, node, layout]
    exact (Reads.word b _).map
  · have same : op = Opcode.sipush := by
      have := eq_sipush ⟨op.toNat, op.toNat_lt⟩
      rw [UInt8.ofNat_toNat] at this
      exact this layout
    rw [if_pos same, node, layout]
    have value := Reads.word_ofNat Int16 (Int32.ofInt s.toInt).toUInt32.toNat (start + 1)
    rw [int16_of_octets] at value
    exact value.map
  · have other : op ≠ Opcode.sipush := by
      rintro rfl
      cases layout
    rw [if_neg other, octet_of_uint8, node, layout]
    exact (Reads.u8 b _).map

/-! ### Local variables -/

private theorem impliedSlot_of_load :
    ∀ k : Fin 5, ∀ j : Fin 4, OperandLayout.ofOpcode
      (Opcode.iload0 + (UInt8.ofNat (0x15 + k) - Opcode.iload) * 4 + UInt8.ofNat j) =
        .impliedSlot (UInt8.ofNat (0x15 + k)) (UInt16.ofNat j) := by
  decide

private theorem impliedSlot_of_store :
    ∀ k : Fin 5, ∀ j : Fin 4, OperandLayout.ofOpcode
      (Opcode.istore0 + (UInt8.ofNat (0x36 + k) - Opcode.istore) * 4 + UInt8.ofNat j) =
        .impliedSlot (UInt8.ofNat (0x36 + k)) (UInt16.ofNat j) := by
  decide

/-- The pieces of an access to a local variable are octets, and these are read back. -/
theorem reads_var (layout : OperandLayout.ofOpcode op = .slot) (slot : UInt16) :
    ∃ known, Node.varPieces op slot = [.octets known] ∧
      Reads (ctx.instruction start) start known (.var op slot) := by
  have implied {short : Opcode} (layout : OperandLayout.ofOpcode short = .impliedSlot op slot) :
      Reads (ctx.instruction start) start [short] (.var op slot) := by
    refine reads_instruction ?_
    rw [node, layout]
    exact Reads.pure _ _
  rw [Node.varPieces]
  split_ifs with load store small
  · refine ⟨_, rfl, implied ?_⟩
    have first : 0x15 ≤ op.toNat := UInt8.le_iff_toNat_le.mp load.2.1
    have last : op.toNat ≤ 0x19 := UInt8.le_iff_toNat_le.mp load.2.2
    have low : slot.toNat ≤ 3 := UInt16.le_iff_toNat_le.mp load.1
    have code := impliedSlot_of_load ⟨op.toNat - 0x15, by omega⟩ ⟨slot.toNat, by omega⟩
    rw [show 0x15 + (op.toNat - 0x15) = op.toNat by omega, UInt8.ofNat_toNat,
      UInt16.ofNat_toNat] at code
    exact code
  · refine ⟨_, rfl, implied ?_⟩
    have first : 0x36 ≤ op.toNat := UInt8.le_iff_toNat_le.mp store.2.1
    have last : op.toNat ≤ 0x3a := UInt8.le_iff_toNat_le.mp store.2.2
    have low : slot.toNat ≤ 3 := UInt16.le_iff_toNat_le.mp store.1
    have code := impliedSlot_of_store ⟨op.toNat - 0x36, by omega⟩ ⟨slot.toNat, by omega⟩
    rw [show 0x36 + (op.toNat - 0x36) = op.toNat by omega, UInt8.ofNat_toNat,
      UInt16.ofNat_toNat] at code
    exact code
  · refine ⟨_, rfl, reads_instruction ?_⟩
    rw [node, layout]
    have read : Reads Reader.u8 (start + 1) [slot.toUInt8] slot.toUInt8 := Reads.u8 _ _
    have := Reads.map (f := fun b : UInt8 => Node.var op b.toUInt16) read
    rwa [widened_toUInt8 small] at this
  · refine ⟨_, rfl, reads_instruction ?_⟩
    show Reads (wideOperands start) _ _ _
    refine Reads.u8_bind ((Reads.u16_word slot _).bind_nil ?_)
    rw [layout]
    exact Reads.pure _ _

/-- The pieces of an increment are octets, and these are read back. -/
theorem reads_increment (slot : UInt16) (amount : Int16) :
    ∃ known, Node.incrementPieces slot amount = [.octets known] ∧
      Reads (ctx.instruction start) start known (.increment slot amount) := by
  rw [Node.incrementPieces]
  split_ifs with small
  · refine ⟨_, rfl, reads_instruction ?_⟩
    show Reads (Reader.u8 >>= _) _ _ _
    refine Reads.u8_bind ?_
    rw [widened_toUInt8 small.1]
    have := Reads.map (f := fun b : Int8 => Node.increment slot (Int16.ofInt b.toInt))
      (Reads.word amount.toInt8 (start + 1 + 1))
    rwa [widened_toInt8 small.2] at this
  · refine ⟨_, rfl, reads_instruction ?_⟩
    show Reads (wideOperands start) _ _ _
    exact Reads.u8_bind ((Reads.u16_word slot _).bind (Reads.word amount _).map)

/-! ### Operands in the constant pool -/

theorem eq_invokeinterface :
    ∀ code : Fin 256, OperandLayout.ofOpcode (UInt8.ofNat code) = .interfaceCall →
      UInt8.ofNat code = Opcode.invokeinterface := by
  decide +kernel

theorem reads_type {name : String} (layout : OperandLayout.ofOpcode op = .type)
    (found : ctx.pool.className slot = .ok name) :
    Reads (ctx.instruction start) start (op :: Word.encode slot) (.type op name) := by
  refine reads_instruction ?_
  rw [node, layout]
  exact (reads_pooled found).map

theorem reads_field {m : ConstantPool.Member} (layout : OperandLayout.ofOpcode op = .field)
    (found : ctx.pool.member slot = .ok m) :
    Reads (ctx.instruction start) start (op :: Word.encode slot)
      (.field op m.owner m.name m.descriptor) := by
  refine reads_instruction ?_
  rw [node, layout]
  exact (reads_pooled found).map

theorem reads_call {m : ConstantPool.Member} (layout : OperandLayout.ofOpcode op = .call)
    (found : ctx.pool.member slot = .ok m) :
    Reads (ctx.instruction start) start (op :: Word.encode slot)
      (.call op m.owner m.name m.descriptor m.isInterface) := by
  refine reads_instruction ?_
  rw [node, layout]
  exact (reads_pooled found).map

/-- A call of an interface method has two more octets, which are not looked at. -/
theorem reads_interfaceCall {m : ConstantPool.Member} {more : Bytes}
    (layout : OperandLayout.ofOpcode op = .interfaceCall) (two : more.length = 2)
    (found : ctx.pool.member slot = .ok m) :
    Reads (ctx.instruction start) start (op :: (Word.encode slot ++ more))
      (.call op m.owner m.name m.descriptor m.isInterface) := by
  refine reads_instruction ?_
  rw [node, layout]
  exact (reads_pooled found).bind ((Reads.advance two _).map)

/-- A dynamic call site has two more octets, which are not looked at. -/
theorem reads_dynamicCall {i : UInt16} {name descriptor : String} {h : Handle}
    {arguments : List Constant} {more : Bytes} (two : more.length = 2)
    (found : ctx.pool.invokeDynamic slot = .ok (i, name, descriptor))
    (method : ctx.pool.bootstrap ctx.bootstraps i = .ok (h, arguments)) :
    Reads (ctx.instruction start) start (Opcode.invokedynamic :: (Word.encode slot ++ more))
      (.dynamicCall name descriptor h arguments) := by
  refine reads_instruction ?_
  show Reads (pooled ctx.pool.invokeDynamic >>= _) _ _ _
  refine (reads_pooled found).bind ((Reads.advance two _).bind_nil ?_)
  exact (reads_resolve method).map

theorem reads_newArrays {descriptor : String} (dimensions : UInt8)
    (found : ctx.pool.className slot = .ok descriptor) :
    Reads (ctx.instruction start) start
      (Opcode.multianewarray :: (Word.encode slot ++ [dimensions]))
      (.newArrays descriptor dimensions) := by
  refine reads_instruction ?_
  show Reads (pooled ctx.pool.className >>= _) _ _ _
  exact (reads_pooled found).bind ((Reads.u8 dimensions _).map)

/-- The pieces of a load of a constant are octets, and these are read back. -/
theorem reads_constant (value : Constant) {c : Constant}
    (found : ctx.pool.loadable ctx.bootstraps slot = .ok c) :
    ∃ known, Node.constantPieces value slot = [.octets known] ∧
      Reads (ctx.instruction start) start known (.constant c) := by
  have wide {code : Opcode} (layout : OperandLayout.ofOpcode code = .wideConstant) :
      Reads (ctx.instruction start) start (code :: Word.encode slot) (.constant c) := by
    refine reads_instruction ?_
    rw [node, layout]
    exact (reads_pooled found).map
  rw [Node.constantPieces]
  split_ifs with two small
  · exact ⟨_, rfl, wide (by decide)⟩
  · refine ⟨_, rfl, reads_instruction ?_⟩
    show Reads (Reader.u8 >>= _) _ _ _
    refine Reads.u8_bind ?_
    rw [widened_toUInt8 small]
    exact (reads_resolve found).map
  · exact ⟨_, rfl, wide (by decide)⟩

end Forms

/-! ### Jumps and switches -/

variable {e : Emission} {signature : String} {bytes : Bytes}

theorem reads_wideBranches {targets : List LabelId}
    (assembled : e.Assembles signature start (targets.map .wideBranch) bytes)
    (inside : ∀ l ∈ targets, ∀ o, e.labels[l]? = some o → o < ctx.length) :
    Reads (Reader.replicate (ctx.wideBranch start) targets.length) position bytes
      (targets.map e.mark) := by
  induction targets generalizing position bytes with
  | nil =>
    rw [assembled.nil]
    exact Reads.pure [] position
  | cons target targets ih =>
    obtain ⟨o, distance, more, found, reaches, rest, rfl⟩ := assembled.wideBranch
    rw [List.map_cons, Emission.mark_of_labels found]
    refine (reads_wideBranch reaches (inside target List.mem_cons_self o found)).bind ?_
    exact (ih rest fun l member => inside l (List.mem_cons_of_mem _ member)).map

variable (ctx position) in
theorem reads_switchCases {choices : List (Int32 × LabelId)}
    (assembled : e.Assembles signature start
      (choices.flatMap fun c => [.octets (Word.encode c.1), .wideBranch c.2]) bytes)
    (inside : ∀ c ∈ choices, ∀ o, e.labels[c.2]? = some o → o < ctx.length) :
    Reads (Reader.replicate (ctx.switchCase start) choices.length) position bytes
      (choices.map fun c => (c.1, e.mark c.2)) := by
  induction choices generalizing position bytes with
  | nil =>
    rw [assembled.nil]
    exact Reads.pure [] position
  | cons choice choices ih =>
    obtain ⟨_, keyless, rfl⟩ := assembled.octets
    obtain ⟨o, distance, more, found, reaches, rest, rfl⟩ := keyless.wideBranch
    rw [List.map_cons, Emission.mark_of_labels found, ← List.append_assoc]
    have first : Reads (ctx.switchCase start) position
        (Word.encode choice.1 ++ Word.encode distance) (choice.1, labelAt o) :=
      (Reads.word choice.1 position).bind
        (reads_wideBranch reaches (inside choice List.mem_cons_self o found)).map
    refine first.bind ?_
    exact (ih _ rest fun c member => inside c (List.mem_cons_of_mem _ member)).map

end CodeContext

/-- Some pieces of a node at an offset are read back as the node is stored, with the labels where an
assembly has put its targets. -/
def Node.ReadBack (n : Node) (offset : Nat) (ps : List Piece) (t : Tables) : Prop :=
  ∀ (e : Emission) (signature : String) (length : Nat) (bytes : Bytes),
    e.Assembles signature offset ps bytes →
    (∀ l ∈ n.targets, ∀ o, e.labels[l]? = some o → o < length) →
    bytes.length ≤ length → length < 2147483648 →
    Reader.Reads (CodeContext.instruction ⟨t.pool, t.bootstraps.toArray, length⟩ offset) offset bytes
      (n.stored.mapLabels e.mark)

namespace Node

open Building

variable {n : Node}

/-- A node without targets whose only piece are octets. -/
private theorem readBack_of_octets {offset : Nat} {ps : List Piece} {t : Tables}
    (fixed : ∀ f, n.stored.mapLabels f = n.stored)
    (reads : ∀ length, ∃ known, ps = [.octets known] ∧ Reader.Reads
      (CodeContext.instruction ⟨t.pool, t.bootstraps.toArray, length⟩ offset) offset known n.stored) :
    n.ReadBack offset ps t := by
  intro e signature length bytes assembled _ _ _
  obtain ⟨known, rfl, read⟩ := reads length
  rw [assembled.octets_only, fixed]
  exact read

/-- A node without targets whose pieces are octets in two parts. -/
private theorem readBack_of_two {offset : Nat} {known more : Bytes} {t : Tables}
    (fixed : ∀ f, n.stored.mapLabels f = n.stored)
    (reads : ∀ length, Reader.Reads
      (CodeContext.instruction ⟨t.pool, t.bootstraps.toArray, length⟩ offset) offset
        (known ++ more) n.stored) :
    n.ReadBack offset [.octets known, .octets more] t := by
  intro e signature length bytes assembled _ _ _
  obtain ⟨last, rest, rfl⟩ := assembled.octets
  rw [rest.octets_only, fixed]
  exact reads length

private theorem readBack_jump {op : Opcode} (target : LabelId) {offset : Nat} {t : Tables}
    (decoded : (jump op target).Decoded) :
    (jump op target).ReadBack offset [.octets [op], .branch target] t := by
  intro e signature length bytes assembled inside _ _
  obtain ⟨_, operand, rfl⟩ := assembled.octets
  obtain ⟨o, distance, _, found, reaches, nothing, rfl⟩ := operand.branch
  rw [nothing.nil, List.append_nil]
  show Reader.Reads _ _ _ (jump op (e.mark target))
  rw [Emission.mark_of_labels found]
  refine CodeContext.reads_instruction ?_
  rw [CodeContext.node, show OperandLayout.ofOpcode op = .branch from decoded]
  exact (CodeContext.reads_branch reaches (inside target List.mem_cons_self o found)).map

/-- The octets between the opcode of a switch and its operands lead to a multiple of four. -/
private theorem reads_switchPadding (offset : Nat) :
    Reader.Reads (Reader.align 4) (offset + 1) (switchPadding offset) () :=
  Reader.Reads.align List.length_replicate

private theorem totalSize_wideBranches (targets : List LabelId) :
    Piece.totalSize (targets.map .wideBranch) = 4 * targets.length := by
  induction targets with
  | nil => rfl
  | cons target targets ih =>
    show 4 + Piece.totalSize (targets.map .wideBranch) = _
    rw [ih, List.length_cons, Nat.mul_succ, Nat.add_comm]

private theorem totalSize_choices (choices : List (Int32 × LabelId)) :
    Piece.totalSize (choices.flatMap fun c => [.octets (Word.encode c.1), .wideBranch c.2]) =
      8 * choices.length := by
  induction choices with
  | nil => rfl
  | cons choice choices ih =>
    show 4 + (4 + Piece.totalSize (choices.flatMap fun c => _)) = _
    rw [ih, List.length_cons, Nat.mul_succ]
    omega

private theorem readBack_tableSwitch {low high : Int32} {default : LabelId}
    {targets : List LabelId} {offset : Nat} {t : Tables}
    (decoded : (tableSwitch low high default targets).Decoded) :
    (tableSwitch low high default targets).ReadBack offset
      (.octets (Opcode.tableswitch :: switchPadding offset) :: .wideBranch default ::
        .octets (Word.encode low ++ Word.encode high) :: targets.map .wideBranch) t := by
  intro e signature length bytes assembled inside fits _
  obtain ⟨ordered, count⟩ := decoded
  -- Every target takes four octets, so that their number is no more than that of the octets.
  have few : targets.length ≤ length := by
    rw [assembled.length_eq] at fits
    simp only [Piece.totalSize, total_cons] at fits
    have := totalSize_wideBranches targets
    rw [Piece.totalSize] at this
    omega
  obtain ⟨_, operands, rfl⟩ := assembled.octets
  obtain ⟨o, distance, _, found, reaches, keys, rfl⟩ := operands.wideBranch
  obtain ⟨more, rest, rfl⟩ := keys.octets
  rw [stored_of_storable fun _ => False.elim, mapLabels_tableSwitch, Emission.mark_of_labels found]
  refine CodeContext.reads_instruction ?_
  show Reader.Reads (CodeContext.tableSwitch _ offset) _ _ _
  refine (reads_switchPadding offset).bind ?_
  refine (CodeContext.reads_wideBranch reaches (inside default List.mem_cons_self o found)).bind ?_
  rw [List.append_assoc]
  refine (Reader.Reads.word low _).bind ((Reader.Reads.word high _).bind ?_)
  refine .guard (Int32.not_lt.mpr ordered) ?_
  rw [← count]
  exact .guard (Nat.not_lt.mpr few) (CodeContext.reads_wideBranches rest fun l member =>
    inside l (List.mem_cons_of_mem _ member)).map

private theorem readBack_lookupSwitch {default : LabelId} {keys : List Int32}
    {targets : List LabelId} {offset : Nat} {t : Tables}
    (decoded : (lookupSwitch default keys targets).Decoded) :
    (lookupSwitch default keys targets).ReadBack offset
      (.octets (Opcode.lookupswitch :: switchPadding offset) :: .wideBranch default ::
        .octets (Bytes.u32 keys.length) ::
        (keys.zip targets).flatMap fun c => [.octets (Word.encode c.1), .wideBranch c.2]) t := by
  intro e signature length bytes assembled inside fits small
  have paired : (keys.zip targets).length = keys.length := by
    rw [List.length_zip, show keys.length = targets.length from decoded, Nat.min_self]
  -- Every case takes eight octets, so that their number is no more than that of the octets.
  have few : keys.length ≤ length := by
    rw [assembled.length_eq] at fits
    simp only [Piece.totalSize, total_cons] at fits
    have := totalSize_choices (keys.zip targets)
    rw [Piece.totalSize, paired] at this
    omega
  have count : (Int32.ofNat keys.length).toInt = keys.length :=
    Int32.toInt_ofNat_of_lt (by omega)
  obtain ⟨_, operands, rfl⟩ := assembled.octets
  obtain ⟨o, distance, _, found, reaches, counted, rfl⟩ := operands.wideBranch
  obtain ⟨more, rest, rfl⟩ := counted.octets
  rw [stored_of_storable fun _ => False.elim, mapLabels_lookupSwitch, Emission.mark_of_labels found]
  refine CodeContext.reads_instruction ?_
  show Reader.Reads (CodeContext.lookupSwitch _ offset) _ _ _
  refine (reads_switchPadding offset).bind ?_
  refine (CodeContext.reads_wideBranch reaches (inside default List.mem_cons_self o found)).bind ?_
  refine (Reader.Reads.int32_count (by omega) _).bind ?_
  have nonneg : ¬ Int32.ofNat keys.length < 0 := by
    rw [Int32.lt_iff_toInt_lt, count]
    exact Int.not_lt.mpr (Int.natCast_nonneg _)
  have number : (Int32.ofNat keys.length).toInt.toNat = (keys.zip targets).length := by
    rw [count, Int.toNat_natCast, paired]
  refine .guard nonneg (.guard ?_ ?_)
  · rw [number, paired]
    exact Nat.not_lt.mpr few
  · rw [number]
    have choices := (CodeContext.reads_switchCases ⟨t.pool, t.bootstraps.toArray, length⟩
      (offset + 1 + (switchPadding offset).length + (Word.encode distance).length +
        (Bytes.u32 keys.length).length) rest fun c member =>
          inside c.2 (List.mem_cons_of_mem _ (List.of_mem_zip member).2)).map
      (f := fun l => lookupSwitch (labelAt o) (l.map Prod.fst) (l.map Prod.snd))
    have keys_ : ((keys.zip targets).map fun c => (c.1, e.mark c.2)).map Prod.fst = keys := by
      rw [List.map_map]
      exact List.map_fst_zip (Nat.le_of_eq decoded)
    have targets_ : ((keys.zip targets).map fun c => (c.1, e.mark c.2)).map Prod.snd =
        targets.map e.mark := by
      rw [List.map_map, show Prod.snd ∘ (fun c : Int32 × LabelId => (c.1, e.mark c.2)) =
        e.mark ∘ Prod.snd from rfl, ← List.map_map,
        List.map_snd_zip (Nat.le_of_eq (Eq.symm decoded))]
    rwa [keys_, targets_] at choices

/-- The pieces of an instruction are read back. -/
theorem pieces_provides (decoded : n.Decoded) (offset : Nat) :
    (n.pieces offset).Provides (n.ReadBack offset) := by
  cases n with
  | simple op =>
    rw [pieces]
    exact .pure fun t => readBack_of_octets (fun _ => rfl) fun _ =>
      ⟨_, rfl, CodeContext.reads_simple decoded⟩
  | int op operand =>
    rw [pieces]
    exact .pure fun t => readBack_of_octets (fun _ => rfl) fun _ =>
      ⟨_, rfl, CodeContext.reads_int decoded⟩
  | var op slot =>
    rw [pieces]
    exact .pure fun t => readBack_of_octets (fun _ => rfl) fun _ =>
      CodeContext.reads_var decoded slot
  | type op name =>
    rw [pieces]
    exact (classRef_provides name).bind fun slot _ => .pure fun t found =>
      readBack_of_octets (fun _ => rfl) fun _ => ⟨_, rfl, CodeContext.reads_type decoded found⟩
  | field op owner name descriptor =>
    rw [pieces]
    exact (field_provides owner name descriptor).bind fun slot _ => .pure fun t found =>
      readBack_of_octets (fun _ => rfl) fun _ =>
        ⟨_, rfl, CodeContext.reads_field (m := ⟨owner, name, descriptor, false⟩) decoded found⟩
  | call op owner name descriptor isInterface =>
    rw [pieces]
    refine (method_provides owner name descriptor isInterface).bind fun slot _ => ?_
    split_ifs with interface_
    · have layout : OperandLayout.ofOpcode op = .interfaceCall := by
        rw [interface_]
        decide
      refine (Provides.lift _ fun _ _ _ => trivial).bind fun parsed _ => .pure fun t _ found => ?_
      exact readBack_of_two (fun _ => rfl) fun _ =>
        CodeContext.reads_interfaceCall (m := ⟨owner, name, descriptor, isInterface⟩) layout rfl found
    · have layout : OperandLayout.ofOpcode op = .call :=
        decoded.resolve_right fun interfaceCall => by
          have code := CodeContext.eq_invokeinterface ⟨op.toNat, op.toNat_lt⟩
          rw [UInt8.ofNat_toNat] at code
          exact interface_ (code interfaceCall)
      exact .pure fun t found => readBack_of_octets (fun _ => rfl) fun _ =>
        ⟨_, rfl, CodeContext.reads_call (m := ⟨owner, name, descriptor, isInterface⟩) layout found⟩
  | dynamicCall name descriptor h arguments =>
    rw [pieces]
    have site := dynamicCall_provides name descriptor (h := h) decoded.1 decoded.2
    refine site.bind fun slot _ => .pure fun t found => ?_
    obtain ⟨i, called, method⟩ := found
    exact readBack_of_two (fun _ => rfl) fun _ =>
      CodeContext.reads_dynamicCall (i := i) rfl called method
  | jump op target =>
    rw [pieces]
    exact .pure fun t => readBack_jump target decoded
  | label l => exact decoded.elim
  | constant value =>
    rw [pieces]
    exact (loadable_provides decoded).bind fun slot _ => .pure fun t found =>
      readBack_of_octets (fun _ => rfl) fun _ => CodeContext.reads_constant value found
  | increment slot amount =>
    rw [pieces]
    exact .pure fun t => readBack_of_octets (fun _ => rfl) fun _ =>
      CodeContext.reads_increment slot amount
  | tableSwitch low high default targets =>
    rw [pieces]
    exact .pure fun t => readBack_tableSwitch decoded
  | lookupSwitch default keys targets =>
    rw [pieces]
    exact .pure fun t => readBack_lookupSwitch decoded
  | newArrays descriptor dimensions =>
    rw [pieces]
    exact (classRef_provides descriptor).bind fun slot _ => .pure fun t found =>
      readBack_of_two (fun _ => rfl) fun _ => CodeContext.reads_newArrays dimensions found
  | line number l => exact decoded.elim

end Node

end Bytecode
