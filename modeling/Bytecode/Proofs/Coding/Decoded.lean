import Bytecode.ClassFile.Code.Decoding
import Bytecode.Proofs.Coding.Outline

/-!
# Outlines of decoded bodies

Decoding puts the label of an offset in front of the instruction there. The number of the label is
therefore that of the instructions before the offset (`number_of_decoded`), whatever line markers and
other labels stand between them. So the outline of a decoded body can be read off its instructions
with their offsets.
-/

namespace Bytecode

/-! ## Labels in lists of nodes -/

/-- The position of a label in a list of nodes. -/
def labelPosition (l : LabelId) (nodes : List Node) : Option Nat :=
  lastLabel l (nodes.map (Insn.mk ⟨0⟩))

/-- The identities of instructions do not matter to where labels stand. -/
theorem lastLabel_eq_labelPosition (l : LabelId) (insns : List Insn) :
    lastLabel l insns = labelPosition l (insns.map Insn.node) := by
  induction insns with
  | nil => rfl
  | cons insn insns ih =>
    rw [labelPosition, List.map_cons, List.map_cons, lastLabel, lastLabel, ih]
    rfl

/-- A label with one node stands where the nodes in front of it end. -/
theorem labelPosition_of_split {l : LabelId} {front rest : List Node}
    (last : ∀ n ∈ rest, n.marks l = false) :
    labelPosition l (front ++ .label l :: rest) = some front.length := by
  have nothing : lastLabel l (rest.map (Insn.mk ⟨0⟩)) = none := by
    rw [lastLabel_eq_none]
    intro insn member
    obtain ⟨n, known, rfl⟩ := List.mem_map.mp member
    exact last n known
  rw [labelPosition, List.map_append, lastLabel_append, List.length_map, List.map_cons, lastLabel,
    nothing]
  simp [Node.marks]

/-- Labels that are renamed apart are marked by the nodes that marked them. -/
theorem Node.marks_mapLabels {f : LabelId → LabelId} (apart : Function.Injective f) (l : LabelId)
    (n : Node) : (n.mapLabels f).marks (f l) = n.marks l := by
  cases pseudo : n.isPseudo with
  | false => rw [Node.marks_of_real pseudo, Node.marks_of_real (by simpa using pseudo)]
  | true =>
    cases n with
    | label m => exact beq_eq_beq.mpr apart.eq_iff
    | line number start => rfl
    | _ => cases pseudo

/-- Labels that are renamed apart stand where they stood. -/
theorem labelPosition_mapLabels {f : LabelId → LabelId} (apart : Function.Injective f) (l : LabelId)
    (nodes : List Node) :
    labelPosition (f l) (nodes.map (·.mapLabels f)) = labelPosition l nodes := by
  induction nodes with
  | nil => rfl
  | cons n nodes ih =>
    rw [labelPosition, labelPosition] at ih ⊢
    rw [List.map_cons, List.map_cons, List.map_cons, lastLabel, lastLabel, ih,
      Node.marks_mapLabels apart]

theorem keptFrom_mapLabels (keep : Nat → Bool) (f : LabelId → LabelId) (i : Nat)
    (nodes : List Node) : keptFrom keep i (nodes.map (·.mapLabels f)) =
      (keptFrom keep i nodes).map fun p => (p.1, p.2.mapLabels f) := by
  induction nodes generalizing i with
  | nil => rfl
  | cons n nodes ih =>
    rw [List.map_cons, keptFrom, keptFrom, Node.isPseudo_mapLabels, ih]
    split <;> rfl

/-- In front of the end of some nodes stand the instructions among them. -/
theorem countP_keptFrom (keep : Nat → Bool) (front rest : List Node) :
    ((keptFrom keep 0 (front ++ rest)).map Prod.fst).countP (· < front.length) =
      (keptFrom keep 0 front).length := by
  have before : ((keptFrom keep 0 front).map Prod.fst).countP (· < front.length) =
      ((keptFrom keep 0 front).map Prod.fst).length := by
    rw [List.countP_eq_length]
    intro i member
    obtain ⟨p, known, rfl⟩ := List.mem_map.mp member
    have := (List.getElem?_eq_some_iff.mp (mem_keptFrom.mp known).2.1).1
    exact decide_eq_true (by omega)
  have behind : ((keptFrom keep (0 + front.length) rest).map Prod.fst).countP (· < front.length) = 0 := by
    rw [List.countP_eq_zero]
    intro i member
    obtain ⟨p, known, rfl⟩ := List.mem_map.mp member
    have := (mem_keptFrom.mp known).1
    simp only [decide_eq_true_eq]
    omega
  rw [keptFrom_append, List.map_append, List.countP_append, before, behind, List.length_map,
    Nat.add_zero]

/-! ## How decoded instructions are laid out -/

namespace CodeAttribute

/-- The label and the line markers in front of the instruction at an offset. -/
def markers (marked : Std.HashSet Nat) (lines : Std.HashMap Nat (List UInt16)) (offset : Nat) :
    List Node :=
  if marked.contains offset then
    .label (labelAt offset) ::
      (lines.getD offset []).map fun number => .line number (labelAt offset)
  else []

/-- Instructions with what stands in front of them. -/
def laidOut (marked : Std.HashSet Nat) (lines : Std.HashMap Nat (List UInt16))
    (decoded : List (Nat × Node)) : List Node :=
  decoded.flatMap fun p => markers marked lines p.1 ++ [p.2]

variable {decoded : List (Nat × Node)} {length : Nat} {marked : Std.HashSet Nat}
  {lines : Std.HashMap Nat (List UInt16)}

theorem layOut_eq : layOut decoded length marked lines =
    laidOut marked lines decoded ++
      if marked.contains length then [.label (labelAt length)] else [] :=
  rfl

/-- What stands in front of instructions is no instruction. -/
theorem isPseudo_of_mem_markers {offset : Nat} {n : Node}
    (member : n ∈ markers marked lines offset) : n.isPseudo = true := by
  rw [markers] at member
  split at member
  · rcases List.mem_cons.mp member with rfl | line
    · rfl
    · obtain ⟨_, -, rfl⟩ := List.mem_map.mp line
      rfl
  · cases member

theorem keptFrom_of_pseudo {nodes : List Node} (pseudo : ∀ n ∈ nodes, n.isPseudo = true)
    (keep : Nat → Bool) (i : Nat) : keptFrom keep i nodes = [] := by
  rw [List.eq_nil_iff_forall_not_mem]
  intro p member
  obtain ⟨-, there, -, real⟩ := mem_keptFrom.mp member
  rw [pseudo _ (List.mem_of_getElem? there)] at real
  cases real

variable (marked lines) in
/-- The instructions among the nodes of laid out instructions are these. -/
theorem keptFrom_laidOut (real : ∀ p ∈ decoded, p.2.isPseudo = false) (i : Nat) :
    (keptFrom (fun _ => true) i (laidOut marked lines decoded)).map Prod.snd =
      decoded.map Prod.snd := by
  induction decoded generalizing i with
  | nil => rfl
  | cons p decoded ih =>
    rw [laidOut, List.flatMap_cons, List.append_assoc, keptFrom_append,
      keptFrom_of_pseudo fun n => isPseudo_of_mem_markers, List.nil_append, List.singleton_append,
      keptFrom, real p List.mem_cons_self]
    have rest := ih (fun q member => real q (List.mem_cons_of_mem _ member))
      (i + (markers marked lines p.1).length + 1)
    exact congrArg (p.2 :: ·) rest

theorem keptFrom_layOut (real : ∀ p ∈ decoded, p.2.isPseudo = false) :
    (keptFrom (fun _ => true) 0 (layOut decoded length marked lines)).map Prod.snd =
      decoded.map Prod.snd := by
  rw [layOut_eq, keptFrom_append, List.map_append, keptFrom_laidOut marked lines real, keptFrom_of_pseudo,
    List.map_nil, List.append_nil]
  intro n member
  split at member
  · rw [List.mem_singleton.mp member]
    rfl
  · cases member

theorem marks_of_laidOut (real : ∀ p ∈ decoded, p.2.isPseudo = false) {offset : Nat}
    (elsewhere : ∀ p ∈ decoded, p.1 ≠ offset) :
    ∀ n ∈ laidOut marked lines decoded, n.marks (labelAt offset) = false := by
  intro n member
  obtain ⟨p, known, there⟩ := List.mem_flatMap.mp member
  rcases List.mem_append.mp there with pseudo | same
  · rw [markers] at pseudo
    split at pseudo
    · rcases List.mem_cons.mp pseudo with rfl | line
      · exact beq_eq_false_iff_ne.mpr fun same => elsewhere p known (LabelId.mk.inj same)
      · obtain ⟨_, -, rfl⟩ := List.mem_map.mp line
        rfl
    · cases pseudo
  · rw [List.mem_singleton.mp same]
    exact Node.marks_of_real (real p known)

variable (lines) in
/-- The label of an offset stands behind the instructions before the offset, and what follows marks
it no more. -/
theorem layOut_split (h : DecodedNodes decoded length) {offset : Nat}
    (boundary : offset = length ∨ offset ∈ decoded.map Prod.fst)
    (mark : marked.contains offset = true) :
    ∃ front rest, front <+: decoded ∧ front.length = decoded.countP (·.1 < offset) ∧
      layOut decoded length marked lines =
        laidOut marked lines front ++ .label (labelAt offset) :: rest ∧
      ∀ n ∈ rest, n.marks (labelAt offset) = false := by
  rcases boundary with rfl | inside
  · refine ⟨decoded, [], List.prefix_refl _, ?_, ?_, fun n member => by cases member⟩
    · exact (List.countP_eq_length.mpr fun p member => decide_eq_true (h.inside p member)).symm
    · rw [layOut_eq, if_pos mark]
  · obtain ⟨p, member, rfl⟩ := List.mem_map.mp inside
    obtain ⟨front, rest, rfl⟩ := List.append_of_mem member
    obtain ⟨-, behind, ahead⟩ := List.pairwise_append.mp h.ascending
    have later := (List.pairwise_cons.mp behind).1
    refine ⟨front, (lines.getD p.1 []).map (fun number => .line number (labelAt p.1)) ++
      p.2 :: (laidOut marked lines rest ++
        if marked.contains length then [.label (labelAt length)] else []),
      List.prefix_append .., ?_, ?_, ?_⟩
    · rw [List.countP_append, List.countP_cons_of_neg (by simp), List.countP_eq_length.mpr,
        List.countP_eq_zero.mpr, Nat.add_zero]
      · intro q known
        have := later q known
        simp only [decide_eq_true_eq]
        omega
      · exact fun q known => decide_eq_true (ahead q known p List.mem_cons_self)
    · rw [layOut_eq, laidOut, List.flatMap_append, List.flatMap_cons, markers, if_pos mark]
      simp [laidOut]
    · intro n known
      rcases List.mem_append.mp known with line | known
      · obtain ⟨_, -, rfl⟩ := List.mem_map.mp line
        rfl
      · rcases List.mem_cons.mp known with rfl | known
        · exact Node.marks_of_real (h.real member)
        · rcases List.mem_append.mp known with known | end_
          · refine marks_of_laidOut (fun q other => h.real ?_) (fun q other => ?_) n known
            · exact List.mem_append_right _ (List.mem_cons_of_mem _ other)
            · exact Nat.ne_of_gt (later q other)
          · split at end_
            · rw [List.mem_singleton.mp end_]
              have : p.1 < length := h.inside p member
              exact beq_eq_false_iff_ne.mpr fun same =>
                Nat.ne_of_gt this (LabelId.mk.inj same)
            · cases end_

/-- The lines of an offset are those that start there. -/
theorem getD_linesByStart (lines : List LineEntry) (offset : Nat) :
    (linesByStart lines).getD offset [] =
      (lines.filter fun e => e.start.toNat == offset).map LineEntry.line := by
  induction lines with
  | nil => simp [linesByStart]
  | cons e lines ih =>
    show ((linesByStart lines).insert e.start.toNat
      (e.line :: (linesByStart lines).getD e.start.toNat [])).getD offset [] = _
    rw [Std.HashMap.getD_insert, List.filter_cons]
    by_cases here : e.start.toNat = offset
    · rw [if_pos (beq_iff_eq.mpr here), if_pos (beq_iff_eq.mpr here), here, ih]
      rfl
    · rw [if_neg (by simpa using here), if_neg (by simpa using here), ih]

/-- No line is laid out twice. -/
theorem countP_laidOut_le (ascending : decoded.Pairwise fun p q => p.1 < q.1)
    (real : ∀ p ∈ decoded, p.2.isPseudo = false) (entries : List LineEntry) :
    (laidOut marked (linesByStart entries) decoded).countP Node.isLine ≤
      entries.countP fun e => decoded.any (·.1 == e.start.toNat) := by
  induction decoded with
  | nil => exact Nat.zero_le _
  | cons p decoded ih =>
    obtain ⟨first, rest⟩ := List.pairwise_cons.mp ascending
    have others := ih rest fun q member => real q (List.mem_cons_of_mem _ member)
    have here : (markers marked (linesByStart entries) p.1).countP Node.isLine ≤
        entries.countP fun e => e.start.toNat == p.1 := by
      rw [markers, getD_linesByStart]
      split
      · rw [List.countP_cons_of_neg Bool.false_ne_true]
        refine Nat.le_trans List.countP_le_length (Nat.le_of_eq ?_)
        rw [List.length_map, List.length_map, List.countP_eq_length_filter]
      · exact Nat.zero_le _
    rw [laidOut, List.flatMap_cons, List.countP_append, List.countP_append,
      List.countP_singleton, Node.isLine_of_real (real p List.mem_cons_self)]
    refine Nat.le_trans (Nat.add_le_add (by simpa using here) others) ?_
    -- An entry does not start both here and at a later instruction.
    clear here others ih
    induction entries with
    | nil => exact Nat.zero_le _
    | cons e entries ih =>
      rw [List.countP_cons, List.countP_cons, List.countP_cons, List.any_cons]
      by_cases starts : p.1 = e.start.toNat
      · have elsewhere : (decoded.any fun q => q.1 == e.start.toNat) = false := by
          rw [List.any_eq_false]
          intro q member same
          exact Nat.ne_of_gt (first q member) ((beq_iff_eq.mp same).trans starts.symm)
        simp only [starts, elsewhere, beq_self_eq_true, Bool.or_false, if_true, Bool.false_eq_true,
          if_false] at ih ⊢
        omega
      · rw [if_neg (by simpa using Ne.symm starts), beq_eq_false_iff_ne.mpr starts, Bool.false_or]
        omega

variable (marked) in
/-- A body has no more line markers than its code has lines. -/
theorem countP_layOut_le (h : DecodedNodes decoded length) (entries : List LineEntry) :
    (layOut decoded length marked (linesByStart entries)).countP Node.isLine ≤ entries.length := by
  have end_ : (if marked.contains length then [Node.label (labelAt length)] else []).countP
      Node.isLine = 0 := by
    split <;> rfl
  rw [layOut_eq, List.countP_append, end_, Nat.add_zero]
  exact Nat.le_trans (countP_laidOut_le h.ascending (fun p => h.real) entries) List.countP_le_length

end CodeAttribute

/-! ## Decoding as a whole -/

/-- Whether the name and the descriptor of a variable can be looked up. -/
def VariableEntry.Named (v : VariableEntry) (pool : ConstantPool) : Prop :=
  (∃ name, pool.utf8 v.name = .ok name) ∧ ∃ descriptor, pool.utf8 v.descriptor = .ok descriptor

namespace CodeAttribute

variable {decoded : List (Nat × Node)} {a : CodeAttribute} {pool : ConstantPool}
  {bootstraps : Array BootstrapMethod} {signature : String}

/-- The boundaries of decoded instructions. -/
def boundaries (decoded : List (Nat × Node)) (length : Nat) : Boundaries :=
  ⟨Std.HashSet.ofList (decoded.map Prod.fst), length⟩

/-- The offsets that get a label: those that instructions, exception ranges, lines and variables
refer to. -/
def marks (decoded : List (Nat × Node)) (exceptions : List ExceptionRange) (lines : List LineEntry)
    (localVariables : List LocalVariable) : List Nat :=
  decoded.flatMap (fun p => p.2.targets.map LabelId.val) ++
    (exceptions.flatMap (·.labels)).map LabelId.val ++ lines.map (·.start.toNat) ++
    (localVariables.flatMap (·.labels)).map LabelId.val

/-- How decoded code has come about. -/
theorem decode_eq_ok {code : DecodedCode} (ran : a.decode pool bootstraps signature = .ok code) :
    ∃ decoded, decodeNodes ⟨pool, bootstraps, a.code.length⟩ a.code = .ok decoded ∧
      (∀ p ∈ decoded, ∀ l ∈ p.2.targets, (boundaries decoded a.code.length).isStart l.val = true) ∧
      a.exceptions.mapM (decodeException pool (boundaries decoded a.code.length) signature) =
        .ok code.exceptions ∧
      (a.localVariables.filter fun v => (boundaries decoded a.code.length).isStart v.start.toNat &&
        (boundaries decoded a.code.length).isStop v.stop).mapM (a.decodeVariable pool) =
          .ok code.localVariables ∧
      ∃ lines, lines = a.lines.filter (fun e =>
          (boundaries decoded a.code.length).isStart e.start.toNat) ∧
        code.nodes = layOut decoded a.code.length
          (.ofList (marks decoded code.exceptions lines code.localVariables)) (linesByStart lines) := by
  rw [decode] at ran
  obtain ⟨decoded, nodes, ran⟩ := ok_of_bind ran
  dsimp only at ran
  split at ran
  · cases ran
  · rename_i aligned
    obtain ⟨exceptions, ranges, ran⟩ := ok_of_bind ran
    obtain ⟨localVariables, locals_, ran⟩ := ok_of_bind ran
    cases ran
    refine ⟨decoded, nodes, fun p member l target => ?_, ranges, ok_of_mapError locals_, _, rfl, rfl⟩
    by_contra unaligned
    -- The least of the offsets that are no start would have been refused.
    have refused : l.val ∈ (decoded.flatMap fun p => p.2.targets.map LabelId.val).filter fun t =>
        !(boundaries decoded a.code.length).isStart t :=
      List.mem_filter.mpr ⟨List.mem_flatMap.mpr ⟨p, member, List.mem_map_of_mem target⟩,
        by simpa using unaligned⟩
    exact aligned _ (List.min?_eq_some_min (List.ne_nil_of_mem refused))

/-- What decoded code comes from. -/
theorem of_decode {code : DecodedCode} (ran : a.decode pool bootstraps signature = .ok code) :
    ∃ decoded marked lines, decodeNodes ⟨pool, bootstraps, a.code.length⟩ a.code = .ok decoded ∧
      code.nodes = layOut decoded a.code.length marked (linesByStart lines) ∧
      lines.length ≤ a.lines.length ∧ code.exceptions.length = a.exceptions.length ∧
      code.localVariables.length ≤ a.localVariables.length := by
  obtain ⟨decoded, nodes, -, ranges, locals_, lines, rfl, laid⟩ := decode_eq_ok ran
  refine ⟨decoded, _, _, nodes, laid, List.length_filter_le .., (mapM_eq_ok.mp ranges).length_eq.symm,
    ?_⟩
  rw [← (mapM_eq_ok.mp locals_).length_eq]
  exact List.length_filter_le ..

/-- A variable whose texts can be looked up is decoded. -/
theorem decodeVariable_of_named {v : VariableEntry} (named : v.Named pool)
    (types : ∀ t ∈ a.variableTypes, t.Named pool) : ∃ w, a.decodeVariable pool v = .ok w := by
  obtain ⟨⟨name, named⟩, descriptor, described⟩ := named
  rw [decodeVariable, named, described]
  cases found : a.variableTypes.find? fun t =>
      t.start == v.start && t.length == v.length && t.index == v.index with
  | none => exact ⟨_, rfl⟩
  | some t =>
    obtain ⟨-, signature, typed⟩ := types t (List.mem_of_find?_eq_some found)
    simp only [Option.mapM_some, typed]
    exact ⟨_, rfl⟩

theorem contains_ofList {l : List Nat} {n : Nat} (member : n ∈ l) :
    (Std.HashSet.ofList l).contains n = true := by
  rw [Std.HashSet.contains_ofList, List.contains_iff_mem]
  exact member

/-- Code is decoded if its instructions are, the targets are instructions, and what its tables refer
to is there. -/
theorem decode_of_parts {exceptions : List ExceptionRange}
    (nodes : decodeNodes ⟨pool, bootstraps, a.code.length⟩ a.code = .ok decoded)
    (aligned : ∀ p ∈ decoded, ∀ l ∈ p.2.targets, l.val ∈ decoded.map Prod.fst)
    (ranges : a.exceptions.mapM (decodeException pool
      ⟨Std.HashSet.ofList (decoded.map Prod.fst), a.code.length⟩ signature) = .ok exceptions)
    (locals_ : ∀ v ∈ a.localVariables, v.Named pool)
    (types : ∀ v ∈ a.variableTypes, v.Named pool) :
    ∃ marked lines localVariables, a.decode pool bootstraps signature =
        .ok ⟨layOut decoded a.code.length marked lines, exceptions, localVariables⟩ ∧
      (∀ p ∈ decoded, ∀ l ∈ p.2.targets, marked.contains l.val = true) ∧
      ∀ r ∈ exceptions, ∀ l ∈ r.labels, marked.contains l.val = true := by
  have unaligned : ((decoded.flatMap fun p => p.2.targets.map LabelId.val).filter fun t =>
      !Boundaries.isStart ⟨Std.HashSet.ofList (decoded.map Prod.fst), a.code.length⟩ t) = [] := by
    rw [List.filter_eq_nil_iff]
    intro offset member
    obtain ⟨p, known, target⟩ := List.mem_flatMap.mp member
    obtain ⟨l, mentioned, rfl⟩ := List.mem_map.mp target
    rw [Boundaries.isStart, contains_ofList (aligned p known l mentioned)]
    exact Bool.false_ne_true
  have fitting := exists_mapM_ok (f := a.decodeVariable pool) (a.localVariables.filter fun v =>
      Boundaries.isStart ⟨Std.HashSet.ofList (decoded.map Prod.fst), a.code.length⟩ v.start.toNat &&
        Boundaries.isStop ⟨Std.HashSet.ofList (decoded.map Prod.fst), a.code.length⟩ v.stop)
    fun v member => decodeVariable_of_named (locals_ v (List.mem_filter.mp member).1) types
  obtain ⟨localVariables, resolved⟩ := fitting
  refine ⟨?marked, ?lines, localVariables, ?decodes, ?targets, ?labels⟩
  case decodes =>
    rw [decode, nodes]
    dsimp only [Bind.bind, Except.bind]
    rw [unaligned]
    dsimp only [List.min?]
    rw [ranges]
    dsimp only
    rw [resolved]
    rfl
  case targets =>
    intro p member l target
    have : l.val ∈ decoded.flatMap fun p => p.2.targets.map LabelId.val :=
      List.mem_flatMap.mpr ⟨p, member, List.mem_map_of_mem target⟩
    refine contains_ofList ?_
    simp only [List.mem_append, this, true_or]
  case labels =>
    intro r member l mentioned
    have : l.val ∈ (exceptions.flatMap ExceptionRange.labels).map LabelId.val :=
      List.mem_map_of_mem (List.mem_flatMap.mpr ⟨r, member, mentioned⟩)
    refine contains_ofList ?_
    simp only [List.mem_append, this, true_or, or_true]

end CodeAttribute

namespace Method

/-- A method that holds decoded code, whose labels have been renamed apart. -/
structure Holds (m : Method) (code : DecodedCode) (f : LabelId → LabelId) : Prop where
  apart : Function.Injective f
  nodes : m.body.toList.map Insn.node = code.nodes.map (·.mapLabels f)
  exceptions : m.exceptions = code.exceptions.map (·.mapLabels f)
  localVariables : m.localVariables = code.localVariables.map (·.mapLabels f)

/-- A method that is given decoded code holds it. -/
theorem holds_withCode (header : Method) (a : CodeAttribute) (code : DecodedCode)
    (supply : Supply) : ∃ f, ((header.withCode a code).run supply).1.Holds code f := by
  refine ⟨fun l => ⟨supply.next + l.val⟩, ?_, ?_, rfl, rfl⟩
  · intro l l' same
    have := LabelId.mk.inj same
    exact congrArg LabelId.mk (Nat.add_left_cancel this)
  · show (((code.nodes.mapIdx fun i node =>
      Insn.mk ⟨supply.next + (a.code.length + 1) + i⟩ node).toArray.map fun insn =>
        Insn.mk insn.id (insn.node.mapLabels fun l => ⟨supply.next + l.val⟩)).toList.map
          Insn.node) = _
    rw [Array.toList_map, List.map_map]
    refine List.ext_getElem? fun i => ?_
    rw [List.getElem?_map, List.getElem?_mapIdx, List.getElem?_map, Option.map_map]
    rfl

variable {m : Method} {code : DecodedCode} {f : LabelId → LabelId} {decoded : List (Nat × Node)}
  {length : Nat} {marked : Std.HashSet Nat} {lines : Std.HashMap Nat (List UInt16)}

/-- The instructions of decoded code are those that have been read. -/
theorem Holds.kept (holds : m.Holds code f) (h : DecodedNodes decoded length)
    (nodes : code.nodes = CodeAttribute.layOut decoded length marked lines) :
    (m.kept fun _ => true).map Prod.snd = (decoded.map Prod.snd).map (·.mapLabels f) := by
  rw [Method.kept, holds.nodes, nodes, keptFrom_mapLabels, List.map_map,
    ← CodeAttribute.keptFrom_layOut fun p => h.real, List.map_map]
  rfl

/-- The number of the label of an offset is how many instructions stand before the offset. -/
theorem Holds.number (holds : m.Holds code f) (h : DecodedNodes decoded length)
    (nodes : code.nodes = CodeAttribute.layOut decoded length marked lines) {offset : Nat}
    (boundary : offset = length ∨ offset ∈ decoded.map Prod.fst)
    (mark : marked.contains offset = true) :
    m.number (fun _ => true) (f (labelAt offset)) = some (decoded.countP (·.1 < offset)) := by
  obtain ⟨front, rest, inside, count, split, last⟩ :=
    CodeAttribute.layOut_split lines h boundary mark
  have real : ∀ p ∈ front, p.2.isPseudo = false := fun p member => h.real (inside.subset member)
  have kept : (keptFrom (fun _ => true) 0 (CodeAttribute.laidOut marked lines front)).length =
      front.length := by
    simpa using congrArg List.length (CodeAttribute.keptFrom_laidOut marked lines real 0)
  rw [Method.number, Body.lastLabels, lastLabel_eq_labelPosition, holds.nodes,
    labelPosition_mapLabels holds.apart, nodes, split, labelPosition_of_split last, Option.map_some,
    ← count, ← kept, Method.kept, holds.nodes, nodes, split, keptFrom_mapLabels, List.map_map]
  exact congrArg some (countP_keptFrom _ _ _)

end Method

end Bytecode
