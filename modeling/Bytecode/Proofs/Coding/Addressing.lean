import Bytecode.Proofs.Coding.Bounds
import Bytecode.Proofs.Coding.RoundTrip
import Mathlib.Data.List.Nodup

/-!
# Decoded bodies are closed

While code is decoded, offsets turn into labels at several places: the targets of instructions,
exception ranges, lines and variables, each with a rule of its own for where it may point.
`Method.Addresses` says what all of them come to. The instructions tile the octets of the code. In
front of each stand its label, if anything refers to it, and the lines that start there, and a label
for the end of the code comes last. So whatever refers to an offset finds exactly one label node,
right in front of what was decoded there, and `addresses_of_decode` proves this of every method that
is decoded.

Every label comes from an offset that is a boundary (`mem_boundary_of_mem_marks`), and boundaries do
not repeat. The count of the nodes of a label is therefore one if it is marked at all
(`countP_marks_layOut`).
-/

namespace Bytecode

/-! ## What refers to labels -/

/-- The labels that a node refers to. A label node marks a label and refers to none. -/
def Node.references : Node → List LabelId
  | .label _ => []
  | node => node.labels

theorem Node.references_of_real {n : Node} (real : n.isPseudo = false) :
    n.references = n.targets := by
  cases n <;> first
    | rfl
    | cases real

theorem Node.references_mapLabels (f : LabelId → LabelId) (n : Node) :
    (n.mapLabels f).references = n.references.map f := by
  cases pseudo : n.isPseudo with
  | false =>
    rw [references_of_real pseudo, references_of_real (by simpa using pseudo), targets_mapLabels]
  | true =>
    cases n with
    | label l => rfl
    | line number start => rfl
    | _ => cases pseudo

/-- The labels that decoded code refers to. -/
def DecodedCode.references (code : DecodedCode) : List LabelId :=
  code.nodes.flatMap Node.references ++ code.exceptions.flatMap (·.labels) ++
    code.localVariables.flatMap (·.labels)

/-- The labels that the jumps, switches, line markers and tables of a method refer to. -/
def Method.references (m : Method) : List LabelId :=
  m.body.toList.flatMap (·.node.references) ++ m.exceptions.flatMap (·.labels) ++
    m.localVariables.flatMap (·.labels)

theorem Method.Holds.references {m : Method} {code : DecodedCode} {f : LabelId → LabelId}
    (holds : m.Holds code f) : m.references = code.references.map f := by
  have body : m.body.toList.flatMap (·.node.references) =
      (m.body.toList.map Insn.node).flatMap Node.references := by
    rw [List.flatMap_map]
  rw [Method.references, DecodedCode.references, body, holds.nodes, holds.exceptions,
    holds.localVariables, List.flatMap_map, List.flatMap_map, List.flatMap_map, List.map_append,
    List.map_append, List.map_flatMap, List.map_flatMap, List.map_flatMap]
  simp only [Node.references_mapLabels]
  rfl

/-! ## Lines and variables -/

/-- The lines that start at an offset, in the order of the table. -/
def CodeAttribute.linesAt (a : CodeAttribute) (offset : Nat) : List UInt16 :=
  (a.lines.filter fun e => e.start.toNat == offset).map (·.line)

/-- Whether an instruction of some starts at an offset. -/
def Starts (insns : List StoredInsn) (offset : Nat) : Prop :=
  ∃ i ∈ insns, i.start = offset

instance (insns : List StoredInsn) (offset : Nat) : Decidable (Starts insns offset) :=
  inferInstanceAs (Decidable (∃ i ∈ insns, i.start = offset))

/-- Whether an instruction of some, or the code, ends at an offset. -/
def Stops (insns : List StoredInsn) (length offset : Nat) : Prop :=
  offset = length ∨ Starts insns offset

instance (insns : List StoredInsn) (length offset : Nat) : Decidable (Stops insns length offset) :=
  inferInstanceAs (Decidable (_ ∨ _))

/-! ## Decoded methods -/

namespace Method

/-- What marks an offset: its label, if anything refers to it. -/
def markOf (m : Method) (f : LabelId → LabelId) (offset : Nat) : List Node :=
  if f (labelAt offset) ∈ m.references then [.label (f (labelAt offset))] else []

/-- The markers of the lines that start at an offset. -/
def linesOf (a : CodeAttribute) (f : LabelId → LabelId) (offset : Nat) : List Node :=
  (a.linesAt offset).map fun number => .line number (f (labelAt offset))

/-- An instruction behind its label and the lines that start there. -/
def blockOf (m : Method) (a : CodeAttribute) (f : LabelId → LabelId) (i : StoredInsn) : List Node :=
  m.markOf f i.start ++ linesOf a f i.start ++ [i.node.mapLabels f]

/-- A method holds the instructions that tile the octets of its code, and what refers to an offset of
the code refers to the label there. -/
structure Addresses (m : Method) (a : CodeAttribute) (ctx : CodeContext) (insns : List StoredInsn)
    (f : LabelId → LabelId) : Prop where
  /-- Different offsets have different labels. -/
  apart : Function.Injective f
  /-- The instructions take the octets of the code one behind the other. -/
  tiles : ctx.Tiles 0 a.code insns
  /-- They are the instructions of the body, in order. -/
  instructions : (m.body.toList.map Insn.node).filter (fun n => !n.isPseudo) =
    insns.map fun i => i.node.mapLabels f
  /-- In front of each stand its label and its lines; the label of the end of the code is last. -/
  nodes : m.body.toList.map Insn.node =
    insns.flatMap (m.blockOf a f) ++ m.markOf f a.code.length
  /-- A distance from an instruction leads to the label of the instruction that starts there. -/
  targets : ∀ i ∈ insns, List.Forall₂ (fun l d => ∃ j ∈ insns, (j.start : Int) = i.start + d ∧
    l = f (labelAt j.start)) (i.node.mapLabels f).targets i.distances
  /-- Whatever is referred to is marked once. -/
  closed : ∀ l ∈ m.references, m.body.toList.countP (·.node.marks l) = 1
  /-- Every exception range is that of an entry, and covers an instruction. -/
  exceptions : List.Forall₂ (fun e r => Starts insns e.start.toNat ∧
    Stops insns a.code.length e.stop.toNat ∧ Starts insns e.handler.toNat ∧
    r.start = f (labelAt e.start.toNat) ∧ r.stop = f (labelAt e.stop.toNat) ∧
    r.handler = f (labelAt e.handler.toNat) ∧
    ∃ front covered rest, m.body.toList.map Insn.node =
      front ++ .label r.start :: covered ++ .label r.stop :: rest ∧
      ∃ n ∈ covered, n.isPseudo = false) a.exceptions m.exceptions
  /-- The variables are those of the entries with a range between boundaries, and no others. -/
  localVariables : List.Forall₂ (fun e v => v.start = f (labelAt e.start.toNat) ∧
      v.stop = f (labelAt e.stop) ∧ v.index = e.index ∧ ctx.pool.utf8 e.name = .ok v.name ∧
      ctx.pool.utf8 e.descriptor = .ok v.descriptor)
    (a.localVariables.filter fun e =>
      Starts insns e.start.toNat ∧ Stops insns a.code.length e.stop) m.localVariables

end Method

/-! ## Which offsets have labels -/

namespace CodeAttribute

variable {decoded : List (Nat × Node)} {length offset : Nat} {exceptions : List ExceptionRange}
  {lines : List LineEntry} {localVariables : List LocalVariable} {marked : Std.HashSet Nat}

theorem mem_map_val {l : List LabelId} : offset ∈ l.map LabelId.val ↔ labelAt offset ∈ l := by
  rw [List.mem_map]
  exact ⟨fun ⟨_, member, same⟩ => same ▸ member, fun member => ⟨_, member, rfl⟩⟩

theorem mem_marks : offset ∈ marks decoded exceptions lines localVariables ↔
    (∃ p ∈ decoded, labelAt offset ∈ p.2.targets) ∨
      labelAt offset ∈ exceptions.flatMap (·.labels) ∨ (∃ e ∈ lines, e.start.toNat = offset) ∨
      labelAt offset ∈ localVariables.flatMap (·.labels) := by
  rw [marks, List.mem_append, List.mem_append, List.mem_append, mem_map_val, mem_map_val,
    List.mem_flatMap, List.mem_map, or_assoc, or_assoc]
  simp only [mem_map_val]

theorem mem_layOut {table : Std.HashMap Nat (List UInt16)} {n : Node} :
    n ∈ layOut decoded length marked table ↔
      (∃ p ∈ decoded, n ∈ markers marked table p.1 ∨ n = p.2) ∨
        marked.contains length = true ∧ n = .label (labelAt length) := by
  rw [layOut_eq, List.mem_append, laidOut, List.mem_flatMap]
  simp only [List.mem_append, List.mem_singleton]
  refine or_congr Iff.rfl ?_
  by_cases mark : marked.contains length = true <;> simp [mark]

/-- The label of an offset is referred to exactly if the offset gets a label. -/
theorem mem_references_iff {code : DecodedCode} (real : ∀ p ∈ decoded, p.2.isPseudo = false)
    (starting : ∀ e ∈ lines, e.start.toNat ∈ decoded.map Prod.fst)
    (laid : code.nodes = layOut decoded length
      (.ofList (marks decoded code.exceptions lines code.localVariables)) (linesByStart lines)) :
    labelAt offset ∈ code.references ↔
      offset ∈ marks decoded code.exceptions lines code.localVariables := by
  have body : labelAt offset ∈ code.nodes.flatMap Node.references ↔
      (∃ p ∈ decoded, labelAt offset ∈ p.2.targets) ∨ ∃ e ∈ lines, e.start.toNat = offset := by
    rw [List.mem_flatMap, laid]
    constructor
    · rintro ⟨n, member, refers⟩
      rcases mem_layOut.mp member with ⟨p, known, pseudo | rfl⟩ | ⟨-, rfl⟩
      · -- Only a line refers to the offset in front of which it stands.
        rw [markers] at pseudo
        split at pseudo
        · rcases List.mem_cons.mp pseudo with rfl | line
          · cases refers
          · obtain ⟨number, here, rfl⟩ := List.mem_map.mp line
            rw [getD_linesByStart] at here
            obtain ⟨e, there, -⟩ := List.mem_map.mp here
            obtain ⟨entry, starts⟩ := List.mem_filter.mp there
            have same : offset = p.1 := LabelId.mk.inj (List.mem_singleton.mp refers)
            exact .inr ⟨e, entry, (beq_iff_eq.mp starts).trans same.symm⟩
        · cases pseudo
      · rw [Node.references_of_real (real p known)] at refers
        exact .inl ⟨p, known, refers⟩
      · cases refers
    · rintro (⟨p, known, target⟩ | ⟨e, entry, starts⟩)
      · refine ⟨p.2, mem_layOut.mpr (.inl ⟨p, known, .inr rfl⟩), ?_⟩
        rwa [Node.references_of_real (real p known)]
      · obtain ⟨p, known, here⟩ := List.mem_map.mp (starting e entry)
        have marked : offset ∈ marks decoded code.exceptions lines code.localVariables :=
          mem_marks.mpr (.inr (.inr (.inl ⟨e, entry, starts⟩)))
        have mark := contains_ofList marked
        refine ⟨.line e.line (labelAt offset), mem_layOut.mpr (.inl ⟨p, known, .inl ?_⟩),
          List.mem_singleton_self _⟩
        rw [markers, here, starts, if_pos mark, getD_linesByStart]
        refine List.mem_cons_of_mem _ (List.mem_map_of_mem (List.mem_map.mpr ⟨e, ?_, rfl⟩))
        exact List.mem_filter.mpr ⟨entry, beq_iff_eq.mpr starts⟩
  rw [DecodedCode.references, List.mem_append, List.mem_append, body, mem_marks]
  exact (or_assoc.trans or_assoc).trans (or_congr_right or_left_comm)

/-- How many nodes mark an offset: one for each time that it is a boundary, if it gets a label. -/
theorem countP_marks_layOut (real : ∀ p ∈ decoded, p.2.isPseudo = false)
    (table : Std.HashMap Nat (List UInt16)) :
    (layOut decoded length marked table).countP (·.marks (labelAt offset)) =
      if marked.contains offset then (decoded.map Prod.fst ++ [length]).count offset else 0 := by
  have label (other : Nat) : Node.marks (labelAt offset) (.label (labelAt other)) =
      (other == offset) := by
    rw [Node.marks, Bool.eq_iff_iff, beq_iff_eq, beq_iff_eq]
    exact ⟨LabelId.mk.inj, congrArg labelAt⟩
  have here (other : Nat) : (markers marked table other).countP (·.marks (labelAt offset)) =
      if marked.contains offset ∧ other = offset then 1 else 0 := by
    rw [markers]
    by_cases same : other = offset
    · subst same
      by_cases mark : marked.contains other = true
      · have : ((table.getD other []).map fun number => Node.line number (labelAt other)).countP
            (·.marks (labelAt other)) = 0 := by
          rw [List.countP_eq_zero]
          intro n member
          obtain ⟨number, -, rfl⟩ := List.mem_map.mp member
          exact Bool.false_ne_true
        rw [if_pos mark, if_pos ⟨mark, rfl⟩, List.countP_cons, this, label]
        simp
      · simp [mark]
    · have absent : ¬(marked.contains offset = true ∧ other = offset) := fun both => same both.2
      rw [if_neg absent, List.countP_eq_zero]
      intro n member
      split at member
      · rcases List.mem_cons.mp member with rfl | line
        · rw [label]
          simpa using same
        · obtain ⟨number, -, rfl⟩ := List.mem_map.mp line
          exact Bool.false_ne_true
      · cases member
  induction decoded with
  | nil =>
    rw [layOut_eq]
    by_cases mark : marked.contains length = true
    · by_cases same : length = offset
      · subst same
        simp [laidOut, mark, label]
      · simp [laidOut, mark, label, same]
    · by_cases same : length = offset
      · subst same
        simp [laidOut, mark]
      · simp [laidOut, mark, same]
  | cons p decoded ih =>
    have rest := ih fun q member => real q (List.mem_cons_of_mem _ member)
    rw [layOut_eq, laidOut, List.flatMap_cons, List.append_assoc, ← laidOut, ← layOut_eq,
      List.countP_append, List.countP_append, here, rest, List.countP_singleton,
      Node.marks_of_real (real p List.mem_cons_self), List.map_cons, List.cons_append,
      List.count_cons]
    by_cases mark : marked.contains offset = true
    · by_cases same : p.1 = offset
      · simp [mark, same, Nat.add_comm]
      · simp [mark, same]
    · simp [mark]

/-! ## What entries are decoded to -/

variable {a : CodeAttribute} {pool : ConstantPool} {insns : List StoredInsn}

theorem isStart_boundaries :
    (boundaries (insns.map fun i => (i.start, i.node)) length).isStart offset = true ↔
      Starts insns offset := by
  rw [Boundaries.isStart, boundaries, Std.HashSet.contains_ofList, List.contains_iff_mem,
    List.map_map, List.mem_map]
  rfl

theorem isStop_boundaries :
    (boundaries (insns.map fun i => (i.start, i.node)) length).isStop offset = true ↔
      Stops insns length offset := by
  rw [Boundaries.isStop, Bool.or_eq_true, isStart_boundaries, beq_iff_eq]
  rfl

theorem decodeException_eq_ok {b : Boundaries} {signature : String} {e : ExceptionEntry}
    {r : ExceptionRange} (ran : decodeException pool b signature e = .ok r) :
    (b.isStart e.start.toNat = true ∧ b.isStop e.stop.toNat = true ∧
      e.start.toNat < e.stop.toNat ∧ b.isStart e.handler.toNat = true) ∧
    r.start = labelAt e.start.toNat ∧ r.stop = labelAt e.stop.toNat ∧
      r.handler = labelAt e.handler.toNat := by
  rw [decodeException] at ran
  dsimp only at ran
  split at ran
  · cases ran
  · rename_i fits
    have labels : r.start = labelAt e.start.toNat ∧ r.stop = labelAt e.stop.toNat ∧
        r.handler = labelAt e.handler.toNat := by
      split at ran
      all_goals
        obtain ⟨catchType, -, ran⟩ := ok_of_bind ran
        cases ran
        exact ⟨rfl, rfl, rfl⟩
    simp only [Bool.not_eq_true', Bool.not_eq_false, Bool.and_eq_true, decide_eq_true_eq] at fits
    obtain ⟨⟨⟨start, stop⟩, ordered⟩, handler⟩ := fits
    exact ⟨⟨start, stop, ordered, handler⟩, labels⟩

theorem decodeVariable_eq_ok {e : VariableEntry} {v : LocalVariable}
    (ran : a.decodeVariable pool e = .ok v) :
    v.start = labelAt e.start.toNat ∧ v.stop = labelAt e.stop ∧ v.index = e.index ∧
      pool.utf8 e.name = .ok v.name ∧ pool.utf8 e.descriptor = .ok v.descriptor := by
  obtain ⟨signature, -, ran⟩ := ok_of_bind ran
  obtain ⟨name, named, ran⟩ := ok_of_bind ran
  obtain ⟨descriptor, described, ran⟩ := ok_of_bind ran
  cases ran
  exact ⟨rfl, rfl, rfl, named, described⟩

/-- Decoding, in terms of the instructions that tile the octets. -/
structure Decoding (a : CodeAttribute) (ctx : CodeContext) (insns : List StoredInsn)
    (code : DecodedCode) : Prop where
  tiles : ctx.Tiles 0 a.code insns
  real : ∀ i ∈ insns, i.node.isPseudo = false
  targets : ∀ i ∈ insns, List.Forall₂ (fun l d => ∃ j ∈ insns, (j.start : Int) = i.start + d ∧
    l = labelAt j.start) i.node.targets i.distances
  exceptions : List.Forall₂ (fun e r => (Starts insns e.start.toNat ∧
      Stops insns a.code.length e.stop.toNat ∧ e.start.toNat < e.stop.toNat ∧
      Starts insns e.handler.toNat) ∧
    r.start = labelAt e.start.toNat ∧ r.stop = labelAt e.stop.toNat ∧
      r.handler = labelAt e.handler.toNat) a.exceptions code.exceptions
  localVariables : List.Forall₂ (fun e v => v.start = labelAt e.start.toNat ∧
      v.stop = labelAt e.stop ∧ v.index = e.index ∧ ctx.pool.utf8 e.name = .ok v.name ∧
      ctx.pool.utf8 e.descriptor = .ok v.descriptor)
    (a.localVariables.filter fun e =>
      Starts insns e.start.toNat ∧ Stops insns a.code.length e.stop) code.localVariables
  nodes : ∃ lines, lines = a.lines.filter (fun e => Starts insns e.start.toNat) ∧
    code.nodes = layOut (insns.map fun i => (i.start, i.node)) a.code.length
      (.ofList (marks (insns.map fun i => (i.start, i.node)) code.exceptions lines
        code.localVariables)) (linesByStart lines)

theorem exists_decoding {bootstraps : Array BootstrapMethod} {signature : String}
    {code : DecodedCode} (ran : a.decode pool bootstraps signature = .ok code) :
    ∃ insns, a.Decoding ⟨pool, bootstraps, a.code.length⟩ insns code := by
  obtain ⟨decoded, read, aligned, ranges, variables_, lines, filtered, laid⟩ := decode_eq_ok ran
  obtain ⟨insns, tiles, rfl, each⟩ := tiles_of_decodeNodes read
  refine ⟨insns, tiles, fun i member => (each i member).1, ?targets, ?exceptions, ?localVariables,
    lines, ?lines, laid⟩
  case targets =>
    intro i member
    have leads := (List.forall₂_and_left _ _).mpr ⟨aligned _ (List.mem_map_of_mem member), (each i member).2⟩
    refine leads.imp fun l d step => ?_
    obtain ⟨start, found⟩ := step
    obtain ⟨offset, rfl, reached, -⟩ := CodeContext.target_eq_ok found
    obtain ⟨j, known, rfl⟩ := isStart_boundaries.mp start
    exact ⟨j, known, reached, rfl⟩
  case exceptions =>
    refine (mapM_eq_ok.mp ranges).imp fun e r found => ?_
    obtain ⟨⟨start, stop, ordered, handler⟩, labels⟩ := decodeException_eq_ok found
    rw [isStart_boundaries] at start handler
    rw [isStop_boundaries] at stop
    exact ⟨⟨start, stop, ordered, handler⟩, labels⟩
  case localVariables =>
    have same : (a.localVariables.filter fun v =>
        (boundaries (insns.map fun i => (i.start, i.node)) a.code.length).isStart v.start.toNat &&
          (boundaries (insns.map fun i => (i.start, i.node)) a.code.length).isStop v.stop) =
        a.localVariables.filter fun e =>
          Starts insns e.start.toNat ∧ Stops insns a.code.length e.stop :=
      List.filter_congr fun e _ => by
        rw [Bool.eq_iff_iff, decide_eq_true_eq, Bool.and_eq_true, isStart_boundaries,
          isStop_boundaries]
    rw [← same]
    exact (mapM_eq_ok.mp variables_).imp fun e v => decodeVariable_eq_ok
  case lines =>
    rw [filtered]
    refine List.filter_congr fun e _ => ?_
    rw [Bool.eq_iff_iff, isStart_boundaries, decide_eq_true_eq]

namespace Decoding

variable {ctx : CodeContext} {code : DecodedCode}

theorem real_entries (h : a.Decoding ctx insns code) :
    ∀ p ∈ insns.map (fun i => (i.start, i.node)), p.2.isPseudo = false := by
  intro p member
  obtain ⟨i, known, rfl⟩ := List.mem_map.mp member
  exact h.real i known

theorem inside (h : a.Decoding ctx insns code) : ∀ i ∈ insns, i.start < a.code.length := by
  intro i member
  have := (h.tiles.ascending.2 i member).2
  omega

/-- How the nodes are laid out, and that the offsets that get a label are those whose label is
referred to. -/
theorem layout (h : a.Decoding ctx insns code) :
    ∃ lines, lines = a.lines.filter (fun e => Starts insns e.start.toNat) ∧
      code.nodes = layOut (insns.map fun i => (i.start, i.node)) a.code.length
        (.ofList (marks (insns.map fun i => (i.start, i.node)) code.exceptions lines
          code.localVariables)) (linesByStart lines) ∧
      ∀ {offset}, labelAt offset ∈ code.references ↔ offset ∈
        marks (insns.map fun i => (i.start, i.node)) code.exceptions lines code.localVariables := by
  obtain ⟨lines, filtered, laid⟩ := h.nodes
  refine ⟨lines, filtered, laid, mem_references_iff h.real_entries (fun e member => ?_) laid⟩
  rw [filtered] at member
  obtain ⟨i, known, here⟩ := of_decide_eq_true (List.mem_filter.mp member).2
  exact List.mem_map.mpr ⟨_, List.mem_map_of_mem known, here⟩

/-- What is referred to is the label of the start of an instruction, or of the end of the code. -/
theorem stops (h : a.Decoding ctx insns code) (referred : labelAt offset ∈ code.references) :
    Stops insns a.code.length offset := by
  obtain ⟨lines, filtered, -, refers⟩ := h.layout
  rw [refers, mem_marks] at referred
  rcases referred with ⟨p, known, target⟩ | range | ⟨e, known, rfl⟩ | variable_
  · obtain ⟨i, member, rfl⟩ := List.mem_map.mp known
    obtain ⟨d, -, j, there, -, same⟩ := exists_of_mem_elements (h.targets i member) target
    exact .inr ⟨j, there, (LabelId.mk.inj same).symm⟩
  · obtain ⟨r, known, label⟩ := List.mem_flatMap.mp range
    obtain ⟨e, -, ⟨start, stop, -, handler⟩, labels⟩ := exists_of_mem_results h.exceptions known
    simp only [ExceptionRange.labels, labels, List.mem_cons, List.not_mem_nil, or_false] at label
    rcases label with same | same | same
    · exact LabelId.mk.inj same ▸ .inr start
    · exact LabelId.mk.inj same ▸ stop
    · exact LabelId.mk.inj same ▸ .inr handler
  · rw [filtered] at known
    exact .inr (of_decide_eq_true (List.mem_filter.mp known).2)
  · obtain ⟨v, known, label⟩ := List.mem_flatMap.mp variable_
    obtain ⟨e, entry, start, stop, -⟩ := exists_of_mem_results h.localVariables known
    have fits := of_decide_eq_true (List.mem_filter.mp entry).2
    simp only [LocalVariable.labels, start, stop, List.mem_cons, List.not_mem_nil, or_false] at label
    rcases label with same | same
    · exact LabelId.mk.inj same ▸ .inr fits.1
    · exact LabelId.mk.inj same ▸ fits.2

end Decoding

end CodeAttribute

namespace Method

variable {m : Method} {a : CodeAttribute} {insns : List StoredInsn} {f : LabelId → LabelId}

/-- Between the labels of two boundaries stands the instruction at the first of them. -/
theorem covered_of_nodes
    (ascending : insns.Pairwise fun i j => i.start < j.start)
    (inside : ∀ i ∈ insns, i.start < a.code.length ∧ i.node.isPseudo = false)
    (nodes : m.body.toList.map Insn.node =
      insns.flatMap (m.blockOf a f) ++ m.markOf f a.code.length)
    {start stop : Nat} (starts : Starts insns start) (stops : Stops insns a.code.length stop)
    (ordered : start < stop) (marked : f (labelAt start) ∈ m.references)
    (marked' : f (labelAt stop) ∈ m.references) :
    ∃ front covered rest, m.body.toList.map Insn.node =
      front ++ .label (f (labelAt start)) :: covered ++ .label (f (labelAt stop)) :: rest ∧
      ∃ n ∈ covered, n.isPseudo = false := by
  obtain ⟨i, member, rfl⟩ := starts
  obtain ⟨front, behind, rfl⟩ := List.append_of_mem member
  have real : (i.node.mapLabels f).isPseudo = false := by
    simpa using (inside i member).2
  have block (j : StoredInsn) (here : f (labelAt j.start) ∈ m.references) :
      m.blockOf a f j =
        .label (f (labelAt j.start)) :: (linesOf a f j.start ++ [j.node.mapLabels f]) := by
    rw [blockOf, markOf, if_pos here]
    rfl
  rw [List.flatMap_append, List.flatMap_cons, block i marked] at nodes
  rcases stops with rfl | ⟨j, later, rfl⟩
  · rw [markOf, if_pos marked'] at nodes
    refine ⟨front.flatMap (m.blockOf a f),
      linesOf a f i.start ++ i.node.mapLabels f :: behind.flatMap (m.blockOf a f), [], ?_,
      i.node.mapLabels f, List.mem_append_right _ List.mem_cons_self, real⟩
    rw [nodes]
    simp
  · -- The instruction at the end stands behind the one at the start, as its offset is greater.
    have apart : j ∈ behind := by
      obtain ⟨-, following, ahead⟩ := List.pairwise_append.mp ascending
      rcases List.mem_append.mp later with before | same | after
      · have := ahead j before i List.mem_cons_self
        omega
      · omega
      · assumption
    obtain ⟨between, rest, rfl⟩ := List.append_of_mem apart
    rw [List.flatMap_append, List.flatMap_cons, block j marked'] at nodes
    refine ⟨front.flatMap (m.blockOf a f),
      linesOf a f i.start ++ i.node.mapLabels f :: between.flatMap (m.blockOf a f),
      linesOf a f j.start ++ j.node.mapLabels f ::
        (rest.flatMap (m.blockOf a f) ++ m.markOf f a.code.length), ?_,
      i.node.mapLabels f, List.mem_append_right _ List.mem_cons_self, real⟩
    rw [nodes]
    simp

/-- What marks an offset and the lines behind it are what has been put there. -/
theorem map_markers {marked : Std.HashSet Nat} {table : Std.HashMap Nat (List UInt16)} {offset : Nat}
    (refers : f (labelAt offset) ∈ m.references ↔ marked.contains offset = true)
    (here : table.getD offset [] = a.linesAt offset)
    (quiet : marked.contains offset ≠ true → a.linesAt offset = []) :
    (CodeAttribute.markers marked table offset).map (·.mapLabels f) =
      m.markOf f offset ++ linesOf a f offset := by
  rw [CodeAttribute.markers, markOf, linesOf, here]
  by_cases mark : marked.contains offset = true
  · rw [if_pos mark, if_pos (refers.mpr mark), List.map_cons, List.map_map]
    rfl
  · rw [if_neg mark, if_neg (mt refers.mp mark), quiet mark]
    rfl

/-- Nothing in front of instructions is one. -/
theorem filter_blocks (real : ∀ i ∈ insns, i.node.isPseudo = false) (end_ : Nat) :
    (insns.flatMap (m.blockOf a f) ++ m.markOf f end_).filter (fun n => !n.isPseudo) =
      insns.map fun i => i.node.mapLabels f := by
  have mark (offset : Nat) : (m.markOf f offset).filter (fun n => !n.isPseudo) = [] := by
    rw [markOf]
    split <;> rfl
  have lines (offset : Nat) : (linesOf a f offset).filter (fun n => !n.isPseudo) = [] := by
    rw [linesOf, List.filter_eq_nil_iff]
    intro n member
    obtain ⟨number, -, rfl⟩ := List.mem_map.mp member
    exact Bool.false_ne_true
  rw [List.filter_append, mark, List.append_nil]
  induction insns with
  | nil => rfl
  | cons i insns ih =>
    have here : (i.node.mapLabels f).isPseudo = false := by
      simpa using real i List.mem_cons_self
    rw [List.flatMap_cons, List.filter_append, ih fun j member => real j (List.mem_cons_of_mem _ member),
      blockOf, List.filter_append, List.filter_append, mark, lines, List.filter_singleton, here]
    rfl

variable {code : DecodedCode} {ctx : CodeContext}

/-- The body: every instruction behind its label and its lines, and the label of the end. -/
theorem Holds.nodes_eq (holds : m.Holds code f) (h : a.Decoding ctx insns code) :
    m.body.toList.map Insn.node = insns.flatMap (m.blockOf a f) ++ m.markOf f a.code.length := by
  obtain ⟨lines, filtered, laid, refers⟩ := h.layout
  have entry {i : StoredInsn} (member : i ∈ insns) {e : LineEntry} (known : e ∈ a.lines)
      (here : e.start.toNat = i.start) : e ∈ lines := by
    rw [filtered]
    exact List.mem_filter.mpr ⟨known, decide_eq_true ⟨i, member, here.symm⟩⟩
  have mark (offset : Nat) : f (labelAt offset) ∈ m.references ↔ (Std.HashSet.ofList
      (CodeAttribute.marks (insns.map fun i => (i.start, i.node)) code.exceptions lines
        code.localVariables)).contains offset = true := by
    rw [holds.references, List.mem_map_of_injective holds.apart, refers,
      Std.HashSet.contains_ofList, List.contains_iff_mem]
  rw [holds.nodes, laid, CodeAttribute.layOut_eq, List.map_append, CodeAttribute.laidOut,
    List.flatMap_map, List.map_flatMap]
  congr 1
  · refine List.flatMap_congr fun i member => ?_
    rw [List.map_append, map_markers (mark i.start) ?here ?quiet]
    · rfl
    case here =>
      rw [CodeAttribute.getD_linesByStart, CodeAttribute.linesAt, filtered, List.filter_filter]
      congr 1
      refine List.filter_congr fun e _ => ?_
      by_cases here : e.start.toNat = i.start
      · have starts : Starts insns e.start.toNat := ⟨i, member, here.symm⟩
        rw [decide_eq_true starts, Bool.and_true]
      · rw [beq_eq_false_iff_ne.mpr here, Bool.false_and]
    case quiet =>
      intro unmarked
      rw [CodeAttribute.linesAt, List.map_eq_nil_iff, List.filter_eq_nil_iff]
      intro e known here
      have here := beq_iff_eq.mp here
      refine unmarked ?_
      rw [Std.HashSet.contains_ofList, List.contains_iff_mem]
      exact CodeAttribute.mem_marks.mpr (.inr (.inr (.inl ⟨e, entry member known here, here⟩)))
  · rw [markOf]
    by_cases end_ : f (labelAt a.code.length) ∈ m.references
    · rw [if_pos end_, if_pos ((mark _).mp end_)]
      rfl
    · rw [if_neg end_, if_neg (mt (mark _).mpr end_)]
      rfl

/-- Whatever is referred to is marked by one node. -/
theorem Holds.closed (holds : m.Holds code f) (h : a.Decoding ctx insns code) {l : LabelId}
    (referred : l ∈ m.references) : m.body.toList.countP (·.node.marks l) = 1 := by
  rw [holds.references] at referred
  obtain ⟨l, known, rfl⟩ := List.mem_map.mp referred
  have same : m.body.toList.countP (·.node.marks (f l)) = code.nodes.countP (·.marks l) := by
    have counts := congrArg (List.countP (·.marks (f l))) holds.nodes
    rw [List.countP_map, List.countP_map] at counts
    refine counts.trans (List.countP_congr fun n _ => ?_)
    rw [Function.comp, Node.marks_mapLabels holds.apart]
  have nodup : (insns.map StoredInsn.start ++ [a.code.length]).Nodup := by
    rw [← List.concat_eq_append, List.nodup_concat]
    refine ⟨fun end_ => ?_, ?_⟩
    · obtain ⟨i, member, same⟩ := List.mem_map.mp end_
      have := h.inside i member
      omega
    · exact List.pairwise_map.mpr (h.tiles.ascending.1.imp Nat.ne_of_lt)
  obtain ⟨lines, -, laid, refers⟩ := h.layout
  rw [same, laid, show l = labelAt l.val from rfl,
    CodeAttribute.countP_marks_layOut h.real_entries,
    if_pos (CodeAttribute.contains_ofList (refers.mp known)), List.map_map]
  refine List.count_eq_one_of_mem nodup ?_
  rcases h.stops known with end_ | ⟨i, member, here⟩
  · exact List.mem_append_right _ (List.mem_singleton.mpr end_)
  · exact List.mem_append_left _ (here ▸ List.mem_map_of_mem member)

/-- A method that holds decoded code has the instructions that tile the octets, labels that nothing
misses and nothing finds twice, and the lines and variables that fit. -/
theorem Holds.addresses (holds : m.Holds code f) (h : a.Decoding ctx insns code) :
    m.Addresses a ctx insns f := by
  have nodes := holds.nodes_eq h
  refine ⟨holds.apart, h.tiles, ?instructions, nodes, ?targets, fun l => holds.closed h, ?exceptions,
    ?localVariables⟩
  case instructions =>
    rw [nodes]
    exact filter_blocks h.real _
  case targets =>
    intro i member
    rw [Node.targets_mapLabels, List.forall₂_map_left_iff]
    refine (h.targets i member).imp fun l d leads => ?_
    obtain ⟨j, known, reached, rfl⟩ := leads
    exact ⟨j, known, reached, rfl⟩
  case exceptions =>
    rw [holds.exceptions, List.forall₂_map_right_iff]
    have ranges := ((List.forall₂_and_left _ _).mpr
      ⟨fun r (member : r ∈ code.exceptions) => member, h.exceptions.flip⟩).flip
    refine ranges.imp fun e r known => ?_
    obtain ⟨member, ⟨start, stop, ordered, handler⟩, first, last, target⟩ := known
    have referred {l : LabelId} (label : l ∈ r.labels) : f l ∈ m.references := by
      rw [holds.references]
      refine List.mem_map_of_mem (List.mem_append_left _ (List.mem_append_right _ ?_))
      exact List.mem_flatMap.mpr ⟨r, member, label⟩
    have marked : f (labelAt e.start.toNat) ∈ m.references :=
      first ▸ referred List.mem_cons_self
    have marked' : f (labelAt e.stop.toNat) ∈ m.references :=
      last ▸ referred (List.mem_cons_of_mem _ List.mem_cons_self)
    refine ⟨start, stop, handler, congrArg f first, congrArg f last, congrArg f target, ?_⟩
    have covered := covered_of_nodes h.tiles.ascending.1
      (fun i member => ⟨h.inside i member, h.real i member⟩) nodes start stop ordered marked marked'
    rwa [← first, ← last] at covered
  case localVariables =>
    rw [holds.localVariables, List.forall₂_map_right_iff]
    refine h.localVariables.imp fun e v named => ?_
    obtain ⟨start, stop, rest⟩ := named
    exact ⟨congrArg f start, congrArg f stop, rest⟩

end Method

namespace StoredMethod

/-- A method that is decoded from code has labels for all that refers to the code. -/
theorem addresses_of_decode {stored : StoredMethod} {pool : ConstantPool}
    {bootstraps : Array BootstrapMethod} {a : CodeAttribute} (present : stored.code = some a)
    {supply supply' : Supply} {m : Method}
    (ran : (stored.decode pool bootstraps).run supply = .ok (m, supply')) :
    ∃ insns f, m.Addresses a ⟨pool, bootstraps, a.code.length⟩ insns f := by
  obtain ⟨-, -, coded⟩ := of_decode ran
  obtain ⟨header, code, supply₁, decoded, rfl⟩ := coded a present
  obtain ⟨f, holds⟩ := Method.holds_withCode header a code supply₁
  obtain ⟨insns, decoding⟩ := CodeAttribute.exists_decoding decoded
  exact ⟨insns, f, holds.addresses decoding⟩

/-- Code that jumps over an instruction, with a handler at its end, a line that starts at no
instruction beside one that does, and a variable up to the end of the code. -/
def skippingCode : CodeAttribute :=
  ⟨0, 1, [0xa7, 0, 4, 0, 0xb1], [⟨0, 5, 4, 0⟩], [⟨1, 6⟩, ⟨4, 7⟩], [⟨3, 2, 1, 2, 0⟩, ⟨2, 3, 1, 2, 0⟩],
    []⟩

/-- The texts that the code refers to. -/
def skippingPool : ConstantPool :=
  ⟨#[.unusable, .utf8 "i", .utf8 "I"]⟩

/-- A method with this code. -/
def skipping : StoredMethod :=
  ⟨8, "A", "(I)V", [], some skippingCode⟩

theorem decode_skippingCode (signature : String) :
    ∃ code, skippingCode.decode skippingPool #[] signature = .ok code := by
  have nodes : decodeNodes ⟨skippingPool, #[], 5⟩ skippingCode.code =
      .ok [(0, .jump 0xa7 ⟨4⟩), (3, .simple 0), (4, .simple 0xb1)] := rfl
  have ranges : skippingCode.exceptions.mapM (CodeAttribute.decodeException skippingPool
      ⟨.ofList [0, 3, 4], 5⟩ signature) = .ok [⟨⟨0⟩, ⟨5⟩, ⟨4⟩, none⟩] := by
    simp [skippingCode, CodeAttribute.decodeException, Boundaries.isStop, Boundaries.isStart,
      labelAt, pure, Except.pure]
    rfl
  have aligned : ∀ p ∈ [(0, Node.jump 0xa7 ⟨4⟩), (3, .simple 0), (4, .simple 0xb1)], ∀ l ∈ p.2.targets,
      l.val ∈ [(0, Node.jump 0xa7 ⟨4⟩), (3, .simple 0), (4, .simple 0xb1)].map Prod.fst := by
    decide
  have named : ∀ v ∈ skippingCode.localVariables, v.Named skippingPool := by
    intro v member
    have texts : v.name = 1 ∧ v.descriptor = 2 := by
      rcases List.mem_cons.mp member with rfl | member
      · exact ⟨rfl, rfl⟩
      · rw [List.mem_singleton.mp member]
        exact ⟨rfl, rfl⟩
    rw [VariableEntry.Named, texts.1, texts.2]
    exact ⟨⟨"i", rfl⟩, "I", rfl⟩
  obtain ⟨marked, lines, variables_, decoded, -⟩ :=
    CodeAttribute.decode_of_parts (a := skippingCode) nodes aligned ranges named
      fun v member => absurd member List.not_mem_nil
  exact ⟨_, decoded⟩

theorem addresses_of_decode_skipping : skipping.code = some skippingCode ∧ ∃ m supply,
    (skipping.decode skippingPool #[]).run {} = .ok (m, supply) ∧
      ∃ insns f, m.Addresses skippingCode ⟨skippingPool, #[], 5⟩ insns f := by
  obtain ⟨m, supply, ran⟩ := exists_decode (m := skipping)
    (fun a present => Option.some.inj present ▸ decode_skippingCode _) {}
  exact ⟨rfl, m, supply, ran, addresses_of_decode rfl ran⟩

end StoredMethod

end Bytecode
