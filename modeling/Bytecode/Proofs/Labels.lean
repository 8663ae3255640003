import Bytecode.ControlFlow
import Mathlib.Data.Option.Basic

/-!
# Where labels stand

`Body.labelTable` is filled from the front, so that a label with several nodes denotes the last of
them. `lastLabel` says the same by recursion on the list of nodes, and `ofTable_labelTable` proves
the two equal: whatever follows a jump can be computed without the table.

The laws of `Node.mapLabels`, which replaces labels, stand in front.
-/

namespace Bytecode

/-! ## Labels that are replaced -/

namespace Node

theorem mapLabels_tableSwitch (f : LabelId → LabelId) (low high : Int32) (default : LabelId)
    (targets : List LabelId) : (tableSwitch low high default targets).mapLabels f =
      tableSwitch low high (f default) (targets.map f) := by
  simp [mapLabels, mapLabelsM]
  exact ⟨rfl, fun _ _ => rfl⟩

theorem mapLabels_lookupSwitch (f : LabelId → LabelId) (default : LabelId) (keys : List Int32)
    (targets : List LabelId) : (lookupSwitch default keys targets).mapLabels f =
      lookupSwitch (f default) keys (targets.map f) := by
  simp [mapLabels, mapLabelsM]
  exact ⟨rfl, fun _ _ => rfl⟩

theorem mapLabels_id (n : Node) : n.mapLabels id = n := by
  cases n with
  | tableSwitch low high default targets => rw [mapLabels_tableSwitch, List.map_id, id]
  | lookupSwitch default keys targets => rw [mapLabels_lookupSwitch, List.map_id, id]
  | _ => rfl

theorem mapLabels_mapLabels (f g : LabelId → LabelId) (n : Node) :
    (n.mapLabels f).mapLabels g = n.mapLabels (g ∘ f) := by
  cases n with
  | tableSwitch low high default targets =>
    rw [mapLabels_tableSwitch, mapLabels_tableSwitch, mapLabels_tableSwitch, List.map_map]
    rfl
  | lookupSwitch default keys targets =>
    rw [mapLabels_lookupSwitch, mapLabels_lookupSwitch, mapLabels_lookupSwitch, List.map_map]
    rfl
  | _ => rfl

@[simp]
theorem isPseudo_mapLabels (f : LabelId → LabelId) (n : Node) :
    (n.mapLabels f).isPseudo = n.isPseudo := by
  cases n with
  | tableSwitch low high default targets => rw [mapLabels_tableSwitch]; rfl
  | lookupSwitch default keys targets => rw [mapLabels_lookupSwitch]; rfl
  | _ => rfl

theorem targets_mapLabels (f : LabelId → LabelId) (n : Node) :
    (n.mapLabels f).targets = n.targets.map f := by
  cases n with
  | tableSwitch low high default targets => rw [mapLabels_tableSwitch]; rfl
  | lookupSwitch default keys targets => rw [mapLabels_lookupSwitch]; rfl
  | _ => rfl

end Node

theorem ExceptionRange.mapLabels_mapLabels (f g : LabelId → LabelId) (r : ExceptionRange) :
    (r.mapLabels f).mapLabels g = r.mapLabels (g ∘ f) :=
  rfl

theorem ExceptionRange.mapLabels_id (r : ExceptionRange) : r.mapLabels id = r :=
  rfl

/-! ## Labels that are marked -/

/-- Whether a node marks the position of a label. -/
def Node.marks (l : LabelId) : Node → Bool
  | .label m => m == l
  | _ => false

/-- A real instruction marks no label. -/
theorem Node.marks_of_real {node : Node} (real : node.isPseudo = false) {l : LabelId} :
    node.marks l = false := by
  cases node <;> first
    | rfl
    | cases real

/-- The position of the last node that marks a label. -/
def lastLabel (l : LabelId) : List Insn → Option Nat
  | [] => none
  | insn :: rest =>
    match lastLabel l rest with
    | some i => some (i + 1)
    | none => if insn.node.marks l then some 0 else none

/-- The positions of the labels of a body. -/
def Body.lastLabels (body : Body) : LabelPositions :=
  fun l => lastLabel l body.toList

/-- A label in the second of two pieces hides its nodes in the first. -/
theorem lastLabel_append (l : LabelId) (xs ys : List Insn) :
    lastLabel l (xs ++ ys) = ((lastLabel l ys).map (· + xs.length)).or (lastLabel l xs) := by
  induction xs with
  | nil => cases h : lastLabel l ys <;> simp [lastLabel, h]
  | cons x xs ih =>
    cases h : lastLabel l ys with
    | none => simp [lastLabel, ih, h]
    | some i =>
      simp only [List.cons_append, lastLabel, ih, h, Option.map_some, List.length_cons]
      show some (i + xs.length + 1) = some (i + (xs.length + 1))
      rw [Nat.add_assoc]

/-- Nothing behind its last node marks a label. -/
theorem lastLabel_eq_none {l : LabelId} {xs : List Insn} :
    lastLabel l xs = none ↔ ∀ insn ∈ xs, insn.node.marks l = false := by
  induction xs with
  | nil => simp [lastLabel]
  | cons x xs ih =>
    cases h : lastLabel l xs with
    | none =>
      rw [h] at ih
      have free := ih.mp rfl
      cases hx : x.node.marks l
      · simpa [lastLabel, h, hx] using free
      · simp [lastLabel, h, hx]
    | some i =>
      simp only [lastLabel, h, reduceCtorEq, false_iff]
      intro free
      rw [h] at ih
      exact absurd (ih.mpr fun insn member => free insn (List.mem_cons_of_mem _ member)) (by simp)

/-- The position of a label is one of the body, and its node marks the label. -/
theorem getElem?_of_lastLabel {l : LabelId} {xs : List Insn} {i : Nat}
    (h : lastLabel l xs = some i) : ∃ insn, xs[i]? = some insn ∧ insn.node.marks l = true := by
  induction xs generalizing i with
  | nil => simp [lastLabel] at h
  | cons x xs ih =>
    cases hr : lastLabel l xs with
    | none =>
      cases hx : x.node.marks l with
      | false => simp [lastLabel, hr, hx] at h
      | true =>
        simp only [lastLabel, hr, hx, if_true, Option.some.injEq] at h
        exact ⟨x, by simp [← h], hx⟩
    | some j =>
      simp only [lastLabel, hr, Option.some.injEq] at h
      obtain ⟨insn, found, marks⟩ := ih hr
      exact ⟨insn, by rw [← h]; simpa using found, marks⟩

/-- The position of a label lies inside the body. -/
theorem Body.lastLabels_lt {body : Body} {l : LabelId} {i : Nat} (h : body.lastLabels l = some i) :
    i < body.size := by
  obtain ⟨insn, found, -⟩ := getElem?_of_lastLabel h
  exact (List.getElem?_eq_some_iff.mp found).1

/-- One step of filling the table of labels. -/
private def enter (entry : Std.HashMap LabelId Nat × Nat) (insn : Insn) :
    Std.HashMap LabelId Nat × Nat :=
  match insn.node with
  | .label l => (entry.1.insert l entry.2, entry.2 + 1)
  | _ => (entry.1, entry.2 + 1)

/-- Entering a node changes the position of the label that it marks, and of no other. -/
private theorem enter_getElem? (entry : Std.HashMap LabelId Nat × Nat) (insn : Insn) (l : LabelId) :
    (enter entry insn).1[l]? = if insn.node.marks l then some entry.2 else entry.1[l]? := by
  unfold enter
  cases node : insn.node <;> simp only [Node.marks, Bool.false_eq_true, if_false]
  exact Std.HashMap.getElem?_insert

private theorem enter_snd (entry : Std.HashMap LabelId Nat × Nat) (insn : Insn) :
    (enter entry insn).2 = entry.2 + 1 := by
  unfold enter
  cases insn.node <;> rfl

/-- What the table holds after some nodes: their last labels, and below these what it held. -/
private theorem foldl_enter (xs : List Insn) (entry : Std.HashMap LabelId Nat × Nat)
    (l : LabelId) :
    (xs.foldl enter entry).1[l]? = ((lastLabel l xs).map (· + entry.2)).or entry.1[l]? := by
  induction xs generalizing entry with
  | nil => simp [lastLabel]
  | cons x xs ih =>
    rw [List.foldl_cons, ih, enter_getElem?, enter_snd]
    cases h : lastLabel l xs with
    | none => cases hx : x.node.marks l <;> simp [lastLabel, h, hx]
    | some i =>
      simp only [lastLabel, h, Option.map_some]
      show some (i + (entry.2 + 1)) = some (i + 1 + entry.2)
      rw [Nat.add_comm entry.2 1, Nat.add_assoc]

/-- The table of labels holds the position of the last node of every label. -/
theorem Body.ofTable_labelTable (body : Body) :
    LabelPositions.ofTable body.labelTable = body.lastLabels := by
  funext l
  have filled : body.labelTable = (body.toList.foldl enter (∅, 0)).1 := by
    rw [Array.foldl_toList]
    rfl
  show body.labelTable[l]? = lastLabel l body.toList
  rw [filled, foldl_enter]
  simp

end Bytecode
