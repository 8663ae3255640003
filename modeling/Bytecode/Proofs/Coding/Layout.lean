import Bytecode.Proofs.Coding.Outline
import Bytecode.Proofs.Coding.Pieces

/-!
# How a body is laid out

`Emission.Covers` says of an emission that it has laid out the reachable instructions of some nodes:
which these are, that each stands behind those before it, and that a label has the offset at which
the instructions before it end. The offsets are given by `Emission.before`, the octets of the
instructions before a position, so that what is laid out later does not change them.
-/

namespace Bytecode

/-- Whether a position has a frame. -/
def MethodFrames.isLive (frames : MethodFrames) (i : Nat) : Bool :=
  (frames.frames[i]?.join).isSome

namespace Emission

/-- The octets of the instructions in front of a position. -/
def before (e : Emission) (i : Nat) : Nat :=
  total (fun p => Piece.totalSize p.pieces) (e.placed.toList.filter (·.index < i))

/-- The emission has laid out the reachable instructions of some nodes. -/
structure Covers (e : Emission) (frames : MethodFrames) (insns : List Insn) : Prop where
  placed : e.placed.toList.map (fun p => (p.index, p.node)) =
    keptFrom frames.isLive 0 (insns.map Insn.node)
  offsets : ∀ p ∈ e.placed.toList, p.offset = e.before p.index
  length : e.length = e.before insns.length
  labels : ∀ l, e.labels[l]? = (lastLabel l insns).map e.before
  lines : e.lines.size = insns.countP (·.node.isLine)

/-- What has been laid out of a body can be read back. -/
def ReadBack (e : Emission) (t : Tables) : Prop :=
  ∀ p ∈ e.placed.toList, p.node.ReadBack p.offset p.pieces t

theorem lastLabel_concat (l : LabelId) (insns : List Insn) (insn : Insn) :
    lastLabel l (insns ++ [insn]) =
      if insn.node.marks l then some insns.length else lastLabel l insns := by
  rw [lastLabel_append]
  cases marks : insn.node.marks l <;> simp [lastLabel, marks]

section Step

variable {e : Emission} {frames : MethodFrames} {insns : List Insn}

/-- Everything that has been laid out stands in front of what comes next. -/
theorem Covers.index_lt (h : e.Covers frames insns) {p : PlacedInsn}
    (member : p ∈ e.placed.toList) : p.index < insns.length := by
  have inside : (p.index, p.node) ∈ keptFrom frames.isLive 0 (insns.map Insn.node) := by
    rw [← h.placed]
    exact List.mem_map.mpr ⟨p, member, rfl⟩
  have := (List.getElem?_eq_some_iff.mp (mem_keptFrom.mp inside).2.1).1
  rwa [Nat.sub_zero, List.length_map] at this

/-- What has been laid out is a node of the body. -/
theorem Covers.of_placed (h : e.Covers frames insns) {p : PlacedInsn} (member : p ∈ e.placed.toList) :
    ∃ insn ∈ insns, insn.node = p.node := by
  have inside : (p.index, p.node) ∈ keptFrom frames.isLive 0 (insns.map Insn.node) := by
    rw [← h.placed]
    exact List.mem_map.mpr ⟨p, member, rfl⟩
  exact List.mem_map.mp (List.mem_of_getElem? (mem_keptFrom.mp inside).2.1)

/-- Behind all positions that have been covered stands all that has been laid out. -/
theorem Covers.before_of_le (h : e.Covers frames insns) {i : Nat} (behind : insns.length ≤ i) :
    e.before i = e.length := by
  rw [h.length, before, before]
  congr 1
  refine List.filter_congr fun p member => ?_
  have := h.index_lt member
  rw [decide_eq_true this, decide_eq_true (Nat.lt_of_lt_of_le this behind)]

/-- A node that takes no octets and marks no label. -/
theorem Covers.skip (h : e.Covers frames insns) {insn : Insn} {e' : Emission}
    (dropped : keptFrom frames.isLive insns.length [insn.node] = [])
    (placed : e'.placed = e.placed) (length : e'.length = e.length)
    (labels : ∀ l, e'.labels[l]? = if insn.node.marks l then some e.length else e.labels[l]?)
    (lines : e'.lines.size = e.lines.size + if insn.node.isLine then 1 else 0) :
    e'.Covers frames (insns ++ [insn]) := by
  have before_ : e'.before = e.before := by
    funext i
    rw [before, before, placed]
  constructor
  · rw [placed, h.placed, List.map_append, keptFrom_append, List.length_map, Nat.zero_add]
    show _ = _ ++ keptFrom frames.isLive insns.length [insn.node]
    rw [dropped, List.append_nil]
  · rw [placed, before_]
    exact h.offsets
  · rw [length, before_, h.before_of_le (by simp)]
  · intro l
    rw [labels, lastLabel_concat, before_]
    split
    · rw [Option.map_some, h.before_of_le (Nat.le_refl _)]
    · exact h.labels l
  · rw [lines, h.lines, List.countP_append, List.countP_singleton]

theorem before_push (q : PlacedInsn) (i : Nat) {e' : Emission}
    (placed : e'.placed = e.placed.push q) :
    e'.before i = e.before i + if q.index < i then Piece.totalSize q.pieces else 0 := by
  rw [before, before, placed, Array.toList_push, List.filter_append, total_append]
  by_cases inside : q.index < i <;> simp [inside]

/-- A reachable instruction is put behind all others. -/
theorem Covers.place (h : e.Covers frames insns) {insn : Insn} (pieces : List Piece)
    (kept : frames.isLive insns.length = true) (real : insn.node.isPseudo = false) :
    Covers { e with
      placed := e.placed.push ⟨insns.length, e.length, insn.node, pieces⟩
      length := e.length + Piece.totalSize pieces } frames (insns ++ [insn]) := by
  have early {i : Nat} (inside : i ≤ insns.length) : before { e with
      placed := e.placed.push ⟨insns.length, e.length, insn.node, pieces⟩
      length := e.length + Piece.totalSize pieces } i = e.before i := by
    rw [before_push _ _ rfl, if_neg (Nat.not_lt.mpr inside), Nat.add_zero]
  constructor
  · rw [Array.toList_push, List.map_append, h.placed, List.map_append, keptFrom_append,
      List.length_map, Nat.zero_add]
    simp [keptFrom, kept, real]
  · intro p member
    rw [Array.toList_push] at member
    rcases List.mem_append.mp member with old | new
    · rw [early (Nat.le_of_lt (h.index_lt old))]
      exact h.offsets p old
    · rw [List.mem_singleton.mp new, early (Nat.le_refl _)]
      exact h.length
  · rw [before_push _ _ rfl, h.before_of_le (by simp), if_pos (by simp)]
  · intro l
    rw [lastLabel_concat, Node.marks_of_real real]
    show e.labels[l]? = (lastLabel l insns).map _
    rw [h.labels]
    cases found : lastLabel l insns with
    | none => rfl
    | some i =>
      obtain ⟨_, there, -⟩ := getElem?_of_lastLabel found
      rw [Option.map_some, Option.map_some,
        early (Nat.le_of_lt (List.getElem?_eq_some_iff.mp there).1)]
  · show e.lines.size = _
    rw [h.lines, List.countP_append, List.countP_singleton, Node.isLine_of_real real]
    rfl

/-- How a real instruction is laid out. -/
theorem emit_of_real {i : Nat} {node : Node} (real : node.isPseudo = false) :
    e.emit frames i node = if frames.isLive i then do
      let pieces ← node.pieces e.length
      return { e with
        placed := e.placed.push ⟨i, e.length, node, pieces⟩
        length := e.length + Piece.totalSize pieces }
    else return e := by
  have dead : (frames.frames[i]?.join).isNone = !frames.isLive i := by
    rw [MethodFrames.isLive]
    cases frames.frames[i]?.join <;> rfl
  cases node <;> cases real
  all_goals
    show (if (frames.frames[i]?.join).isNone = true then _ else _) = _
    rw [dead]
    cases frames.isLive i <;> rfl

/-- A label or a line marker is noted, and nothing is laid out. -/
theorem Covers.emit_of_pseudo (h : e.Covers frames insns) {insn : Insn}
    (pseudo : insn.node.isPseudo = true) :
    ∃ e', e.emit frames insns.length insn.node = pure e' ∧ e'.Covers frames (insns ++ [insn]) ∧
      e'.placed = e.placed := by
  have dropped : keptFrom frames.isLive insns.length [insn.node] = [] := by
    rw [keptFrom, pseudo, Bool.not_true, Bool.and_false]
    rfl
  cases node : insn.node with
  | label l =>
    refine ⟨_, rfl, h.skip dropped rfl rfl (fun l' => ?_) ?_, rfl⟩
    · rw [node]
      exact Std.HashMap.getElem?_insert
    · rw [node]
      rfl
  | line number start =>
    refine ⟨_, rfl, h.skip dropped rfl rfl (fun l' => ?_) ?_, rfl⟩
    · rw [node]
      rfl
    · rw [node]
      exact Array.size_push _
  | _ => rw [node] at pseudo; cases pseudo

/-- An instruction that is not reachable is left out. -/
theorem Covers.leaveOut (h : e.Covers frames insns) {insn : Insn}
    (dead : frames.isLive insns.length = false) (real : insn.node.isPseudo = false) :
    e.Covers frames (insns ++ [insn]) := by
  refine h.skip ?_ rfl rfl (fun l => ?_) ?_
  · rw [keptFrom, dead]
    rfl
  · rw [Node.marks_of_real real]
    rfl
  · rw [Node.isLine_of_real real]
    rfl

/-- Laying out a node. -/
theorem emit_provides (h : e.Covers frames insns) {insn : Insn}
    (decoded : insn.node.isPseudo = false → insn.node.Decoded) :
    (e.emit frames insns.length insn.node).Provides fun e' t =>
      e'.Covers frames (insns ++ [insn]) ∧ (e.ReadBack t → e'.ReadBack t) := by
  cases real : insn.node.isPseudo with
  | true =>
    obtain ⟨e', same, covers, placed⟩ := h.emit_of_pseudo real
    rw [same]
    refine .pure fun t => ⟨covers, fun back p member => back p ?_⟩
    rwa [placed] at member
  | false =>
    rw [emit_of_real real]
    cases live : frames.isLive insns.length with
    | false => exact .pure fun t => ⟨h.leaveOut live real, id⟩
    | true =>
      refine (Node.pieces_provides (decoded real) e.length).bind fun pieces _ => ?_
      refine .pure fun t back => ⟨h.place pieces live real, fun old p member => ?_⟩
      rw [Array.toList_push] at member
      rcases List.mem_append.mp member with before | new
      · exact old p before
      · rw [List.mem_singleton.mp new]
        exact back

end Step

/-- Laying out nodes behind those that have been covered. -/
theorem emitFrom_provides {frames : MethodFrames} {insns : List Insn}
    (decoded : ∀ insn ∈ insns, insn.node.isPseudo = false → insn.node.Decoded)
    {e : Emission} {done : List Insn} (h : e.Covers frames done) :
    (emitFrom frames e done.length insns).Provides fun e' t =>
      e'.Covers frames (done ++ insns) ∧ (e.ReadBack t → e'.ReadBack t) := by
  induction insns generalizing e done with
  | nil =>
    rw [List.append_nil]
    exact .pure fun t => ⟨h, id⟩
  | cons insn insns ih =>
    rw [emitFrom]
    refine (emit_provides h (decoded insn List.mem_cons_self)).bind fun e₁ covered => ?_
    obtain ⟨_, covered, -⟩ := covered
    have rest := ih (fun other member => decoded other (List.mem_cons_of_mem _ member)) covered
    rw [List.length_append, List.length_singleton, List.append_assoc] at rest
    exact rest.mono fun e₂ t later first => ⟨later.1, fun old => later.2 (first.2 old)⟩

/-- At the start nothing has been laid out. -/
theorem covers_nothing (frames : MethodFrames) : Covers {} frames [] where
  placed := rfl
  offsets := nofun
  length := rfl
  labels := fun l => by simp [lastLabel]
  lines := rfl

/-- Laying out a body: what has been laid out is read back. -/
theorem ofBody_provides {frames : MethodFrames} {body : Body}
    (decoded : ∀ insn ∈ body.toList, insn.node.isPseudo = false → insn.node.Decoded) :
    (ofBody frames body).Provides fun e t => e.Covers frames body.toList ∧ e.ReadBack t := by
  refine (emitFrom_provides decoded (covers_nothing frames)).mono fun e t covered => ?_
  exact ⟨covered.1, covered.2 fun p member => by cases member⟩

end Emission

end Bytecode
