import Bytecode.Method
import Bytecode.Proofs.Renaming.Identities
import Mathlib.Data.List.Nodup

/-!
# Copies of methods that are the same up to identities

A copy takes its identities from the supply in the order of the body and of the first mentions of
labels. So the copies of two methods that are the same up to identities differ by a distance: where one
supply starts and where the other one does (`copy_rename`).
-/

namespace Bytecode

variable {r : Nat → Nat} {D : Set Nat}

/-- The renaming of what two supplies give alike, the one from `n` on and the other from `n'` on. -/
def shift (n n' : Nat) (x : Nat) : Nat :=
  x - n + n'

/-! ## Numbers of labels -/

/-- One step of numbering. -/
private def number (table : Std.HashMap LabelId Nat) (l : LabelId) : Std.HashMap LabelId Nat :=
  if table.contains l then table else table.insert l table.size

private theorem number_size (table : Std.HashMap LabelId Nat) (l : LabelId) :
    (number table l).size = if table.contains l then table.size else table.size + 1 := by
  unfold number
  split
  · rfl
  · next new => rw [Std.HashMap.size_insert, if_neg (by simpa using new)]

private theorem number_getElem? (table : Std.HashMap LabelId Nat) (l m : LabelId) :
    (number table l)[m]? = if l = m ∧ table.contains l = false then some table.size else table[m]? := by
  unfold number
  cases known : table.contains l with
  | true => simp
  | false => simp [Std.HashMap.getElem?_insert]

/-- Numbers are handed out one after the other. -/
private theorem foldl_number_lt (labels : List LabelId) (table : Std.HashMap LabelId Nat)
    (before : ∀ (l : LabelId) k, table[l]? = some k → k < table.size) :
    ∀ (l : LabelId) k, (labels.foldl number table)[l]? = some k → k < (labels.foldl number table).size := by
  induction labels generalizing table with
  | nil => exact before
  | cons l labels ih =>
    refine ih _ fun m k found => ?_
    rw [number_getElem?] at found
    rw [number_size]
    split at found
    · next new =>
      cases found
      rw [if_neg (by rw [new.2]; exact Bool.false_ne_true)]
      exact Nat.lt_succ_self _
    · have below := before m k found
      split <;> omega

/-- Different labels get different numbers. -/
private theorem foldl_number_injective (labels : List LabelId) (table : Std.HashMap LabelId Nat)
    (before : ∀ (l : LabelId) k, table[l]? = some k → k < table.size)
    (apart : ∀ (l m : LabelId) k, table[l]? = some k → table[m]? = some k → l = m) :
    ∀ (l m : LabelId) k, (labels.foldl number table)[l]? = some k →
      (labels.foldl number table)[m]? = some k → l = m := by
  induction labels generalizing table with
  | nil => exact apart
  | cons l labels ih =>
    refine ih _ (foldl_number_lt [l] table before) fun i j k found found' => ?_
    rw [number_getElem?] at found found'
    split at found <;> split at found'
    · next new new' => exact new.1.symm.trans new'.1
    · cases found
      exact absurd (before j _ found') (Nat.lt_irrefl _)
    · cases found'
      exact absurd (before i _ found) (Nat.lt_irrefl _)
    · exact apart i j k found found'

/-- Every label has a number. -/
private theorem foldl_number_isSome (labels : List LabelId) (table : Std.HashMap LabelId Nat)
    {l : LabelId} (known : table[l]?.isSome = true ∨ l ∈ labels) :
    (labels.foldl number table)[l]?.isSome = true := by
  induction labels generalizing table with
  | nil => exact known.resolve_right List.not_mem_nil
  | cons m labels ih =>
    refine ih _ ?_
    rw [number_getElem?]
    rcases known with before | here
    · refine .inl ?_
      split
      · rfl
      · exact before
    · rcases List.mem_cons.mp here with rfl | later
      · refine .inl ?_
        split
        · rfl
        · next old =>
          rw [← Std.HashMap.contains_eq_isSome_getElem?]
          by_contra new
          exact old ⟨rfl, eq_false_of_ne_true new⟩
      · exact .inr later

/-- Labels that are renamed apart get the numbers that they got. -/
private theorem foldl_number_rename (rising : StrictMonoOn r D) (labels : List LabelId)
    (inside : ∀ l ∈ labels, l.val ∈ D) (table table' : Std.HashMap LabelId Nat)
    (size : table'.size = table.size) (same : ∀ l : LabelId, l.val ∈ D → table'[l.rename r]? = table[l]?) :
    ((labels.map (LabelId.rename r)).foldl number table').size = (labels.foldl number table).size ∧
      ∀ l : LabelId, l.val ∈ D →
        ((labels.map (LabelId.rename r)).foldl number table')[l.rename r]? =
          (labels.foldl number table)[l]? := by
  induction labels generalizing table table' with
  | nil => exact ⟨size, same⟩
  | cons m labels ih =>
    obtain ⟨first, rest⟩ := List.forall_mem_cons.mp inside
    have known : table'.contains (m.rename r) = table.contains m := by
      rw [Std.HashMap.contains_eq_isSome_getElem?, Std.HashMap.contains_eq_isSome_getElem?, same m first]
    refine ih rest _ _ ?_ fun l here => ?_
    · rw [number_size, number_size, known, size]
    · have apart : m.rename r = l.rename r ↔ m = l :=
        ⟨fun equal => congrArg LabelId.mk (rising.injOn first here (congrArg LabelId.val equal)),
          congrArg (LabelId.rename r)⟩
      rw [number_getElem?, number_getElem?, known, size, same l here]
      simp only [apart]

/-! ## Copies -/

namespace Method

variable {m : Method}

/-- How many identities a copy takes. -/
def copyCount (m : Method) : Nat :=
  m.body.size + (numberLabels m.labels).size + 1

/-- The copy whose identities start at `n`. -/
def copyAt (m : Method) (n : Nat) : Method :=
  let relabelled := m.mapLabels (renamed (numberLabels m.labels) (n + m.body.size))
  { relabelled with
    id := ⟨n + m.body.size + (numberLabels m.labels).size⟩
    revision := 0
    body := relabelled.body.renumber n }

theorem copy_run (m : Method) (n : Nat) : m.copy.run ⟨n⟩ = (m.copyAt n, ⟨n + m.copyCount⟩) := by
  show (m.copyAt n, Supply.mk (n + m.body.size + (numberLabels m.labels).size + 1)) = _
  rw [copyCount, Nat.add_assoc, Nat.add_assoc, Nat.add_assoc]

/-- The new label of a label in a copy. -/
abbrev copied (m : Method) (n : Nat) : LabelId → LabelId :=
  renamed (numberLabels m.labels) (n + m.body.size)

theorem toList_copyAt (m : Method) (n : Nat) : (m.copyAt n).body.toList =
    m.body.toList.mapIdx fun i insn => ⟨⟨n + i⟩, insn.node.mapLabels (m.copied n)⟩ := by
  apply List.ext_getElem <;> simp [copyAt, Body.renumber, mapLabels]

theorem labels_copyAt (m : Method) (n : Nat) :
    (m.copyAt n).labels = m.labels.map (m.copied n) := by
  have nodes : (m.copyAt n).body.toList.flatMap (·.node.labels) =
      (m.body.toList.flatMap (·.node.labels)).map (m.copied n) := by
    have each : (m.copyAt n).body.toList.map (·.node.labels) =
        (m.body.toList.map (·.node.labels)).map (List.map (m.copied n)) := by
      rw [toList_copyAt]
      apply List.ext_getElem <;> simp [Node.labels_mapLabels]
    rw [List.flatMap_def, List.flatMap_def, each, List.map_flatten]
  rw [labels, labels, nodes, List.map_append, List.map_append]
  simp only [copyAt, mapLabels, List.flatMap_map, List.map_flatMap]
  rfl

/-- Every label of a method has a number, below the number of labels. -/
theorem exists_number {l : LabelId} (member : l ∈ m.labels) :
    ∃ k, (numberLabels m.labels)[l]? = some k ∧ k < (numberLabels m.labels).size := by
  obtain ⟨k, found⟩ := Option.isSome_iff_exists.mp
    (foldl_number_isSome m.labels ∅ (.inr member))
  have lt := foldl_number_lt m.labels ∅ (fun l k found => by simp at found) l k found
  exact ⟨k, found, lt⟩

/-- A copy keeps labels apart. -/
theorem injOn_copied (m : Method) (n : Nat) : Set.InjOn (m.copied n) {l | l ∈ m.labels} := by
  intro l known l' known' same
  obtain ⟨k, found, -⟩ := exists_number known
  obtain ⟨k', found', -⟩ := exists_number known'
  rw [copied, renamed, renamed, found, found'] at same
  have same : n + m.body.size + k = n + m.body.size + k' := congrArg LabelId.val same
  obtain rfl : k = k' := by omega
  exact foldl_number_injective m.labels ∅ (fun l k found => by simp at found)
    (fun l l' k found => by simp at found) l l' k found found'

/-- The identities of a copy are those that it takes. -/
theorem identities_copyAt (m : Method) (n : Nat) :
    ∀ x ∈ (m.copyAt n).identities, n ≤ x ∧ x < n + m.copyCount := by
  intro x mentioned
  rw [copyCount]
  rcases mem_identities.mp mentioned with ⟨insn, member, rfl⟩ | ⟨l, member, rfl⟩
  · rw [toList_copyAt] at member
    obtain ⟨i, inside, rfl⟩ := List.mem_mapIdx.mp member
    rw [Array.length_toList] at inside
    dsimp only
    omega
  · rw [labels_copyAt] at member
    obtain ⟨original, known, rfl⟩ := List.mem_map.mp member
    obtain ⟨k, found, lt⟩ := exists_number known
    rw [copied, renamed, found]
    dsimp only
    omega

/-- A copy is a method of its own: its identity is one that it takes. -/
theorem id_copy (m : Method) (supply : Supply) : supply.next ≤ (m.copy.run supply).1.id.val ∧
    (m.copy.run supply).1.id.val < (m.copy.run supply).2.next := by
  rw [copy_run m supply.next]
  show supply.next ≤ supply.next + m.body.size + (numberLabels m.labels).size ∧
    supply.next + m.body.size + (numberLabels m.labels).size < supply.next + m.copyCount
  rw [copyCount]
  omega

/-- The nodes of a copy are numbered one after the other. -/
theorem ids_copyAt (m : Method) (n : Nat) :
    (m.copyAt n).body.toList.map Insn.id = (List.range m.body.size).map fun i => ⟨n + i⟩ := by
  rw [toList_copyAt]
  apply List.ext_getElem <;> simp

theorem nodup_copyAt (m : Method) (n : Nat) : ((m.copyAt n).body.toList.map Insn.id).Nodup := by
  rw [ids_copyAt]
  refine List.Nodup.map_on (fun i _ j _ same => ?_) List.nodup_range
  have same : n + i = n + j := congrArg InsnId.val same
  omega

/-- **Copies differ by a distance.** Methods that are the same up to identities have copies that are
the same up to where their identities start. -/
theorem copyAt_rename (rising : StrictMonoOn r D) (known : ∀ x ∈ m.identities, x ∈ D) (n n' : Nat) :
    (m.rename r).copyCount = m.copyCount ∧
      { (m.rename r).copyAt n' with id := (m.copyAt n).id } = (m.copyAt n).rename (shift n n') := by
  have inside : ∀ l ∈ m.labels, l.val ∈ D := fun l member =>
    known _ (mem_identities.mpr (.inr ⟨l, member, rfl⟩))
  obtain ⟨size, numbers⟩ := foldl_number_rename rising m.labels inside ∅ ∅ rfl fun _ _ => by simp
  rw [← labels_rename] at size numbers
  have bodySize : (m.rename r).body.size = m.body.size := Array.size_map
  have same : ∀ l ∈ m.labels,
      (m.rename r).copied n' (l.rename r) = (m.copied n l).rename (shift n n') := by
    intro l member
    obtain ⟨k, found, lt⟩ := exists_number member
    have found' : (numberLabels (m.rename r).labels)[l.rename r]? = some k :=
      (numbers l (inside l member)).trans found
    rw [copied, copied, renamed, renamed, found, found', bodySize]
    refine congrArg LabelId.mk ?_
    dsimp only [shift]
    omega
  refine ⟨?_, ?_⟩
  · rw [copyCount, copyCount, bodySize]
    exact congrArg (m.body.size + · + 1) size
  · have nodes (insn : Insn) (member : insn ∈ m.body.toList) :
        (insn.rename r).node.mapLabels ((m.rename r).copied n') =
          (insn.node.mapLabels (m.copied n)).mapLabels (LabelId.rename (shift n n')) := by
      rw [Insn.rename, Node.mapLabels_mapLabels, Node.mapLabels_mapLabels]
      refine Node.mapLabels_congr fun l mentioned => same l ?_
      exact List.mem_append_left _ (List.mem_append_left _ (List.mem_flatMap.mpr ⟨insn, member, mentioned⟩))
    have body : ((m.rename r).copyAt n').body = (m.copyAt n).body.map (Insn.rename (shift n n')) := by
      rw [← Array.toList_inj, Array.toList_map, toList_copyAt, toList_copyAt]
      apply List.ext_getElem
      · simp [rename]
      · intro i h h'
        have inside : i < m.body.toList.length := by simpa using h'
        have number : n' + i = shift n n' (n + i) := by
          rw [shift]
          omega
        have renamed : i < (m.rename r).body.toList.length := by simpa [rename] using inside
        have insn : (m.rename r).body.toList[i] = (m.body.toList[i]).rename r := by
          simp [rename]
        rw [List.getElem_mapIdx, List.getElem_map, List.getElem_mapIdx, insn,
          nodes _ (List.getElem_mem inside), number]
        rfl
    have exceptions : ((m.rename r).copyAt n').exceptions =
        (m.copyAt n).exceptions.map (·.mapLabels (LabelId.rename (shift n n'))) := by
      simp only [copyAt, mapLabels, rename, List.map_map]
      refine List.map_congr_left fun range member => ?_
      exact ExceptionRange.mapLabels_congr (f := (m.rename r).copied n' ∘ LabelId.rename r)
        (g := LabelId.rename (shift n n') ∘ m.copied n) fun l mentioned => same l (List.mem_append_left _
          (List.mem_append_right _ (List.mem_flatMap.mpr ⟨range, member, mentioned⟩)))
    have named : ((m.rename r).copyAt n').localVariables =
        (m.copyAt n).localVariables.map (·.mapLabels (LabelId.rename (shift n n'))) := by
      simp only [copyAt, mapLabels, rename, List.map_map]
      refine List.map_congr_left fun v member => ?_
      exact LocalVariable.mapLabels_congr (f := (m.rename r).copied n' ∘ LabelId.rename r)
        (g := LabelId.rename (shift n n') ∘ m.copied n) fun l mentioned =>
          same l (List.mem_append_right _ (List.mem_flatMap.mpr ⟨v, member, mentioned⟩))
    exact eq_rename rfl body exceptions named

end Method

end Bytecode
