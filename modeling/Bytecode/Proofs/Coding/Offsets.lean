import Bytecode.Proofs.Coding.Assembly
import Bytecode.Proofs.Coding.Outline
import Bytecode.Proofs.Coding.Reachable

/-!
# Numbers are kept by offsets

A label gets the offset of the first reachable instruction that does not stand before it, or that of
the end of the code (`Covers.boundary`). So the number of the label is how many instructions have a
smaller offset (`Covers.number`): what decoding makes of the offset. A label to which control can
come denotes a reachable instruction, because reachable positions are closed under control flow.
-/

namespace Bytecode

namespace MethodFrames

variable {frames : MethodFrames} {m : Method}

/-- From a reachable position control comes to a reachable instruction, and to no other in between. -/
theorem Closed.lands (closed : frames.Closed m) {i : Nat} (live : frames.isLive i = true) :
    ∃ p ∈ m.kept frames.isLive, i ≤ p.1 ∧ ∀ q ∈ m.kept fun _ => true, i ≤ q.1 → p.1 ≤ q.1 := by
  -- The induction is on how many nodes are left; beyond the last one control does not go.
  induction left : m.body.size - i generalizing i with
  | zero =>
    obtain ⟨insn, -, at_, -⟩ := closed.next i live
    have := (Array.getElem?_eq_some_iff.mp at_).1
    omega
  | succ left ih =>
    obtain ⟨insn, targets, at_, goes, each⟩ := closed.next i live
    cases pseudo : insn.node.isPseudo with
    | false =>
      refine ⟨(i, insn.node), Method.mem_kept.mpr ⟨?_, live, pseudo⟩, Nat.le_refl i, fun q _ => id⟩
      rw [at_]
      rfl
    | true =>
      have falls : insn.node.fallsThrough (· == .always) = true := by
        cases node : insn.node <;> first
          | rfl
          | (rw [node] at pseudo; cases pseudo)
      obtain ⟨-, -, -, next, -⟩ := Body.of_successors goes
      obtain ⟨p, member, behind, first⟩ := ih (each (i + 1) (next falls)) (by omega)
      refine ⟨p, member, by omega, fun q known behind => first q known ?_⟩
      have other : q.1 ≠ i := by
        rintro rfl
        obtain ⟨there, -, real⟩ := Method.mem_kept.mp known
        rw [at_] at there
        rw [← Option.some.inj there, pseudo] at real
        cases real
      omega

/-- A label to which control can come denotes the instruction with its number. -/
theorem Closed.denoted (closed : frames.Closed m) {l : LabelId} {position : Nat}
    (stands : m.body.lastLabels l = some position) (live : frames.isLive position = true) :
    m.denoted frames.isLive l = m.number frames.isLive l := by
  obtain ⟨p, member, behind, next⟩ := closed.lands live
  rw [Method.denoted_eq stands member behind next, Method.number, stands]
  rfl

end MethodFrames

namespace Emission

variable {e : Emission} {frames : MethodFrames} {insns : List Insn}

/-- In front of a position end the instructions that have been laid out before the first one behind
it. -/
theorem Covers.boundary (h : e.Covers frames insns) (position : Nat) :
    (e.before position = e.length ∧ ∀ p ∈ e.placed.toList, p.index < position) ∨
      ∃ front p rest, e.placed.toList = front ++ p :: rest ∧ e.before position = p.offset ∧
        (∀ q ∈ front, q.index < position) ∧ position ≤ p.index := by
  cases search : e.placed.toList.find? (position ≤ ·.index) with
  | none =>
    have all : ∀ p ∈ e.placed.toList, p.index < position := fun p member => by
      simpa using List.find?_eq_none.mp search p member
    refine .inl ⟨?_, all⟩
    rw [h.length_eq, before, List.filter_eq_self.mpr]
    exact fun p member => decide_eq_true (all p member)
  | some p =>
    obtain ⟨reached, front, rest, split, skipped⟩ := List.find?_eq_some_iff_append.mp search
    have early : ∀ q ∈ front, q.index < position := fun q member => by
      simpa using skipped q member
    have late : position ≤ p.index := of_decide_eq_true reached
    have ascending := h.ascending
    rw [split, List.pairwise_append, List.pairwise_cons] at ascending
    refine .inr ⟨front, p, rest, split, ?_, early, late⟩
    rw [h.offset_eq split, before, split, List.filter_append,
      List.filter_eq_self.mpr fun q member => decide_eq_true (early q member),
      List.filter_eq_nil_iff.mpr, List.append_nil]
    intro q member
    have : p.index ≤ q.index := by
      rcases List.mem_cons.mp member with rfl | later
      · exact Nat.le_refl _
      · exact Nat.le_of_lt (ascending.2.1.1 q later)
    simp only [decide_eq_true_eq]
    omega

/-- The number of a label, as its offset gives it. -/
def number (e : Emission) (l : LabelId) : Nat :=
  e.placed.toList.countP (·.offset < (e.mark l).val)

variable {m : Method}

theorem Covers.kept (h : e.Covers frames m.body.toList) :
    m.kept frames.isLive = e.placed.toList.map fun p => (p.index, p.node) :=
  h.placed.symm

theorem Covers.mark (h : e.Covers frames m.body.toList) {l : LabelId} {position : Nat}
    (stands : m.body.lastLabels l = some position) : e.mark l = labelAt (e.before position) := by
  refine mark_of_labels ?_
  rw [h.labels]
  show (m.body.lastLabels l).map _ = _
  rw [stands]
  rfl

/-- The number of a label is that which its offset gives. -/
theorem Covers.number (h : e.Covers frames m.body.toList) (ordered : e.Ordered) {l : LabelId}
    {position : Nat} (stands : m.body.lastLabels l = some position) :
    m.number frames.isLive l = some (e.number l) := by
  have counts : e.placed.toList.countP (·.index < position) =
      e.placed.toList.countP (·.offset < e.before position) := by
    rcases h.boundary position with ⟨end_, all⟩ | ⟨front, p, rest, split, here, early, late⟩
    · rw [end_, List.countP_eq_length.mpr fun p member => decide_eq_true (all p member),
        List.countP_eq_length.mpr fun p member => decide_eq_true (ordered.inside p member)]
    · have indices := h.ascending
      have offsets := ordered.ascending
      rw [split, List.pairwise_append, List.pairwise_cons] at indices offsets
      rw [here, split, List.countP_append, List.countP_append,
        List.countP_eq_length.mpr fun q member => decide_eq_true (early q member),
        List.countP_eq_length.mpr fun q member =>
          decide_eq_true (offsets.2.2 q member p List.mem_cons_self)]
      refine congrArg (front.length + ·) ?_
      rw [List.countP_eq_zero.mpr, List.countP_eq_zero.mpr]
      · intro q member
        rcases List.mem_cons.mp member with rfl | later
        · simp
        · have := offsets.2.1.1 q later
          simp only [decide_eq_true_eq]
          omega
      · intro q member
        rcases List.mem_cons.mp member with rfl | later
        · simpa using late
        · have := indices.2.1.1 q later
          simp only [decide_eq_true_eq]
          omega
  rw [Method.number, stands, Option.map_some, h.kept, List.map_map, List.countP_map, Emission.number,
    h.mark stands]
  exact congrArg some counts

/-- A label has the offset of an instruction or that of the end of the code. -/
theorem Covers.mark_mem (h : e.Covers frames m.body.toList) {l : LabelId} {position : Nat}
    (stands : m.body.lastLabels l = some position) :
    (e.mark l).val = e.length ∨ (e.mark l).val ∈ e.placed.toList.map PlacedInsn.offset := by
  rw [h.mark stands]
  rcases h.boundary position with ⟨end_, -⟩ | ⟨front, p, rest, split, here, -, -⟩
  · exact .inl end_
  · refine .inr (List.mem_map.mpr ⟨p, ?_, here.symm⟩)
    rw [split]
    simp

/-- A label with the number of an instruction has its offset. -/
theorem Ordered.mark_mem (ordered : e.Ordered) {l : LabelId}
    (boundary : (e.mark l).val = e.length ∨ (e.mark l).val ∈ e.placed.toList.map PlacedInsn.offset)
    (inside : e.number l < e.placed.toList.length) :
    (e.mark l).val ∈ e.placed.toList.map PlacedInsn.offset := by
  refine boundary.resolve_left fun end_ => ?_
  rw [number, end_, List.countP_eq_length.mpr fun p member =>
    decide_eq_true (ordered.inside p member)] at inside
  exact Nat.lt_irrefl _ inside

/-- Labels stand in the order of their numbers. -/
theorem number_lt_iff {l l' : LabelId}
    (boundary : (e.mark l).val = e.length ∨ (e.mark l).val ∈ e.placed.toList.map PlacedInsn.offset)
    (bound : (e.mark l').val ≤ e.length) :
    e.number l < e.number l' ↔ (e.mark l).val < (e.mark l').val := by
  constructor
  · intro less
    by_contra above
    refine Nat.not_le_of_lt less (List.countP_mono_left fun p member behind => ?_)
    simp only [decide_eq_true_eq] at behind ⊢
    omega
  · intro less
    obtain ⟨p, member, here⟩ := List.mem_map.mp (boundary.resolve_left (by omega))
    obtain ⟨front, rest, split⟩ := List.append_of_mem member
    rw [number, number, split, List.countP_append, List.countP_append,
      List.countP_cons_of_neg (by simp [here]), List.countP_cons_of_pos (by simpa [here] using less)]
    have before : front.countP (·.offset < (e.mark l).val) ≤
        front.countP (·.offset < (e.mark l').val) :=
      List.countP_mono_left fun q _ behind => by
        simp only [decide_eq_true_eq] at behind ⊢
        omega
    have behind : rest.countP (·.offset < (e.mark l).val) ≤
        rest.countP (·.offset < (e.mark l').val) :=
      List.countP_mono_left fun q _ behind => by
        simp only [decide_eq_true_eq] at behind ⊢
        omega
    omega

/-- A label to which control can come has the number of an instruction. -/
theorem Covers.number_lt (h : e.Covers frames m.body.toList) (closed : frames.Closed m) {l : LabelId} {position : Nat}
    (stands : m.body.lastLabels l = some position) (live : frames.isLive position = true) :
    e.number l < e.placed.toList.length := by
  obtain ⟨p, member, behind, -⟩ := closed.lands live
  rw [h.kept] at member
  obtain ⟨q, known, rfl⟩ := List.mem_map.mp member
  rcases h.boundary position with ⟨-, all⟩ | ⟨front, p, rest, split, here, -, -⟩
  · exact absurd (all q known) (Nat.not_lt.mpr behind)
  · refine Nat.lt_of_le_of_ne List.countP_le_length fun all => ?_
    have := List.countP_eq_length.mp all p (by rw [split]; simp)
    rw [h.mark stands, here] at this
    exact Nat.lt_irrefl _ (of_decide_eq_true this)

end Emission

end Bytecode
