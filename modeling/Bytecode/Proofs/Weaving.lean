import Bytecode.Edit
import Bytecode.Proofs.Labels
import Mathlib.Data.List.Nodup
import Mathlib.Data.List.Perm.Basic

/-!
# Blocks in front of nodes

A batch of insertions makes of a body one in which a block stands in front of each of some nodes. What
was at a position is then at `nodeAt`, and its block begins at `blockAt`; every position of the new body
is one of the two, or inside a block (`exists_spot`, `spot_unique`).

Blocks of `Straight` nodes, which neither jump nor mark labels, leave control flow as it was: labels and
ranges move along (`lastLabels_woven`, `coveredRanges_woven`), and control goes on to where the old
successors are now, or to the block in front of the next node (`successors_nodeAt`).
-/

namespace Bytecode

/-- A node that marks no label, and from which control can only go on to the next one. -/
structure Node.Straight (node : Node) : Prop where
  targets : node.targets = []
  fallsThrough : ∀ always, node.fallsThrough always = true
  marks : ∀ l, node.marks l = false

/-- The nodes with a block in front of each of them. -/
def woven (block : Insn → List Insn) (insns : List Insn) : List Insn :=
  insns.flatMap fun insn => block insn ++ [insn]

/-- Where the block in front of a node begins. -/
def blockAt (block : Insn → List Insn) (insns : List Insn) (j : Nat) : Nat :=
  (woven block (insns.take j)).length

/-- Where a node is behind its block. -/
def nodeAt (block : Insn → List Insn) (insns : List Insn) (j : Nat) : Nat :=
  blockAt block insns (j + 1) - 1

section

variable (block : Insn → List Insn) {insns : List Insn} {insn insn' : Insn} {j j' k k' : Nat}

theorem woven_append (xs ys : List Insn) : woven block (xs ++ ys) = woven block xs ++ woven block ys :=
  List.flatMap_append

@[simp]
theorem blockAt_zero : blockAt block insns 0 = 0 :=
  rfl

theorem blockAt_succ (h : insns[j]? = some insn) :
    blockAt block insns (j + 1) = blockAt block insns j + (block insn).length + 1 := by
  rw [blockAt, List.take_add_one, h, woven_append]
  simp [woven, blockAt, Nat.add_assoc]

theorem nodeAt_eq (h : insns[j]? = some insn) :
    nodeAt block insns j = blockAt block insns j + (block insn).length := by
  rw [nodeAt, blockAt_succ block h, Nat.add_sub_cancel]

theorem blockAt_le (h : j ≤ j') : blockAt block insns j ≤ blockAt block insns j' := by
  obtain ⟨rest, split⟩ := List.take_prefix_take_left (l := insns) h
  rw [blockAt, blockAt, ← split, woven_append, List.length_append]
  exact Nat.le_add_right _ _

/-- A node stands in front of the blocks of the later ones. -/
theorem nodeAt_lt_blockAt (h : insns[j]? = some insn) (later : j < j') :
    nodeAt block insns j < blockAt block insns j' := by
  have behind : blockAt block insns (j + 1) ≤ blockAt block insns j' := blockAt_le block later
  have := blockAt_succ block h
  rw [nodeAt_eq block h]
  omega

theorem blockAt_le_nodeAt (h : insns[j]? = some insn) : blockAt block insns j ≤ nodeAt block insns j := by
  rw [nodeAt_eq block h]
  exact Nat.le_add_right _ _

/-- Nodes keep their order. -/
theorem nodeAt_le_nodeAt (h : insns[j]? = some insn) (h' : insns[j']? = some insn') :
    nodeAt block insns j ≤ nodeAt block insns j' ↔ j ≤ j' := by
  have back (later : j' < j) := nodeAt_lt_blockAt block h' later
  have onward (later : j < j') := nodeAt_lt_blockAt block h later
  have := blockAt_le_nodeAt block h
  have := blockAt_le_nodeAt block h'
  rcases Nat.lt_trichotomy j j' with less | rfl | less
  · have := onward less
    omega
  · omega
  · have := back less
    omega

/-- A block begins behind another node exactly if its node comes later. -/
theorem nodeAt_lt_blockAt_iff (h : insns[j]? = some insn) (h' : insns[j']? = some insn') :
    nodeAt block insns j < blockAt block insns j' ↔ j < j' := by
  refine ⟨fun less => ?_, nodeAt_lt_blockAt block h⟩
  by_contra later
  have := (nodeAt_le_nodeAt block h' h).mpr (Nat.le_of_not_lt later)
  have := blockAt_le_nodeAt block h'
  omega

/-- The nodes up to one, its block, and the rest. -/
theorem woven_split (h : insns[j]? = some insn) : woven block insns =
    woven block (insns.take j) ++ (block insn ++ [insn] ++ woven block (insns.drop (j + 1))) := by
  obtain ⟨lt, rfl⟩ := List.getElem?_eq_some_iff.mp h
  calc woven block insns
      = woven block (insns.take j ++ ([insns[j]] ++ insns.drop (j + 1))) := by
        rw [List.singleton_append, List.getElem_cons_drop, List.take_append_drop]
    _ = _ := by
        rw [woven_append, woven_append]
        simp [woven]

/-- What is at a position of a block, or behind it. -/
theorem getElem?_woven (h : insns[j]? = some insn) (inside : k ≤ (block insn).length) :
    (woven block insns)[blockAt block insns j + k]? = (block insn ++ [insn])[k]? := by
  rw [woven_split block h, blockAt, List.getElem?_append_right (Nat.le_add_right _ _), Nat.add_sub_cancel_left,
    List.getElem?_append_left (by simpa using Nat.lt_succ_of_le inside)]

theorem getElem?_nodeAt (h : insns[j]? = some insn) :
    (woven block insns)[nodeAt block insns j]? = some insn := by
  rw [nodeAt_eq block h, getElem?_woven block h (Nat.le_refl _)]
  simp

theorem blockAt_cons (j : Nat) :
    blockAt block (insn :: insns) (j + 1) = blockAt block insns j + ((block insn).length + 1) := by
  rw [blockAt, List.take_succ_cons, ← List.singleton_append, woven_append, List.length_append]
  simp [woven, blockAt, Nat.add_comm]

/-- Every position is one of a node or of its block. -/
theorem exists_spot {p : Nat} (h : p < (woven block insns).length) :
    ∃ j insn k, insns[j]? = some insn ∧ k ≤ (block insn).length ∧ p = blockAt block insns j + k := by
  induction insns generalizing p with
  | nil => simp [woven] at h
  | cons insn insns ih =>
    by_cases first : p ≤ (block insn).length
    · exact ⟨0, insn, p, rfl, first, by simp⟩
    · have rest : p - ((block insn).length + 1) < (woven block insns).length := by
        rw [← List.singleton_append, woven_append, List.length_append] at h
        simp only [woven, List.flatMap_singleton, List.length_append, List.length_singleton] at h ⊢
        omega
      obtain ⟨j, insn', k, there, inside, same⟩ := ih rest
      exact ⟨j + 1, insn', k, there, inside, by rw [blockAt_cons]; omega⟩

/-- A position is one of only one node and its block. -/
theorem spot_unique (h : insns[j]? = some insn) (h' : insns[j']? = some insn')
    (inside : k ≤ (block insn).length) (inside' : k' ≤ (block insn').length)
    (same : blockAt block insns j + k = blockAt block insns j' + k') : j = j' ∧ k = k' := by
  have before {i i' : Nat} {x : Insn} {l l' : Nat} (hx : insns[i]? = some x) (less : i < i')
      (inside : l ≤ (block x).length) : blockAt block insns i + l < blockAt block insns i' + l' := by
    have := nodeAt_lt_blockAt block hx less
    rw [nodeAt_eq block hx] at this
    omega
  rcases Nat.lt_trichotomy j j' with less | rfl | less
  · exact absurd same (Nat.ne_of_lt (before h less inside))
  · exact ⟨rfl, Nat.add_left_cancel same⟩
  · exact absurd same.symm (Nat.ne_of_lt (before h' less inside'))

/-- Labels move along with their nodes. -/
theorem lastLabel_woven {l : LabelId} (straight : ∀ insn ∈ insns, ∀ x ∈ block insn, x.node.marks l = false) :
    lastLabel l (woven block insns) = (lastLabel l insns).map (nodeAt block insns) := by
  induction insns with
  | nil => rfl
  | cons insn insns ih =>
    have split : woven block (insn :: insns) = block insn ++ insn :: woven block insns := by
      simp [woven]
    have unmarked : lastLabel l (block insn) = none :=
      lastLabel_eq_none.mpr fun x member => straight insn (by simp) x member
    rw [split, lastLabel_append, unmarked, Option.or_none, lastLabel, lastLabel,
      ih fun x member => straight x (by simp [member])]
    cases found : lastLabel l insns with
    | some i =>
      obtain ⟨x, there, -⟩ := getElem?_of_lastLabel found
      have here : nodeAt block (insn :: insns) (i + 1) = blockAt block (insn :: insns) (i + 1) +
          (block x).length := nodeAt_eq block there
      rw [Option.map_some, Option.map_some, Option.map_some, nodeAt_eq block there, here, blockAt_cons]
      congr 1
      omega
    | none =>
      have here : nodeAt block (insn :: insns) 0 = 0 + (block insn).length := nodeAt_eq block rfl
      rw [Option.map_none]
      cases insn.node.marks l <;> simp [here]

end

/-- Identities are not repeated if those of the blocks are new and not repeated. -/
theorem nodup_woven {block : Insn → List Insn} {insns : List Insn} (distinct : (insns.map Insn.id).Nodup)
    (blocks : ((insns.flatMap block).map Insn.id).Nodup)
    (apart : ∀ x ∈ insns.flatMap block, x.id ∉ insns.map Insn.id) :
    ((woven block insns).map Insn.id).Nodup := by
  have same : (insns.flatMap block ++ insns.flatMap fun insn => [insn]).Perm (woven block insns) :=
    List.flatMap_append_perm insns block fun insn => [insn]
  rw [← (same.map Insn.id).nodup_iff, List.flatMap_singleton', List.map_append, List.nodup_append']
  refine ⟨blocks, distinct, fun id member member' => ?_⟩
  obtain ⟨x, inside, rfl⟩ := List.mem_map.mp member
  exact apart x inside member'

/-! ## Control flow -/

/-- A body with a block in front of each node. -/
def Body.woven (block : Insn → List Insn) (body : Body) : Body :=
  (Bytecode.woven block body.toList).toArray

/-- A range whose positions have moved. -/
def CoveredRange.moved (place : Nat → Nat) (r : CoveredRange) : CoveredRange :=
  ⟨place r.start, place r.stop, place r.handler, r.catchType⟩

section

variable {block : Insn → List Insn} {body : Body} {insn : Insn} {j k : Nat}

/-- Blocks that control only passes through. -/
def Through (block : Insn → List Insn) (body : Body) : Prop :=
  ∀ insn ∈ body, ∀ x ∈ block insn, x.node.Straight

theorem getElem?_toList (h : body[j]? = some insn) : body.toList[j]? = some insn := by
  rwa [Array.getElem?_toList]

theorem Body.size_woven : (body.woven block).size = blockAt block body.toList body.size := by
  rw [blockAt, List.take_of_length_le (by simp), Body.woven, List.size_toArray]

/-- A node behind its block. -/
theorem Body.getElem?_nodeAt (h : body[j]? = some insn) :
    (body.woven block)[nodeAt block body.toList j]? = some insn := by
  rw [Body.woven, List.getElem?_toArray, Bytecode.getElem?_nodeAt block (getElem?_toList h)]

/-- A node of a block. -/
theorem Body.getElem?_blockAt (h : body[j]? = some insn) (inside : k < (block insn).length) :
    (body.woven block)[blockAt block body.toList j + k]? = (block insn)[k]? := by
  rw [Body.woven, List.getElem?_toArray, getElem?_woven block (getElem?_toList h) (Nat.le_of_lt inside),
    List.getElem?_append_left inside]

/-- Labels are where their nodes are now. -/
theorem lastLabels_woven (through : Through block body) (l : LabelId) :
    (body.woven block).lastLabels l = (body.lastLabels l).map (nodeAt block body.toList) :=
  lastLabel_woven block fun insn member x inside =>
    (through insn (Array.mem_toList_iff.mp member) x inside).marks l

theorem mapM_map {α β γ : Type} {f : α → Option β} {g : α → Option γ} {h : β → γ} {xs : List α}
    (same : ∀ x ∈ xs, g x = (f x).map h) : xs.mapM g = (xs.mapM f).map (List.map h) := by
  induction xs with
  | nil => rfl
  | cons x xs ih =>
    rw [List.mapM_cons, List.mapM_cons, same x (by simp), ih fun y member => same y (by simp [member])]
    cases f x with
    | none => rfl
    | some b => cases xs.mapM f <;> rfl

/-- Ranges move along with their labels. -/
theorem coveredRanges_woven {m m' : Method} {ranges : List CoveredRange} (through : Through block m.body)
    (exceptions : m'.exceptions = m.exceptions) (covered : m.coveredRanges m.body.lastLabels = some ranges) :
    m'.coveredRanges (m.body.woven block).lastLabels =
      some (ranges.map (CoveredRange.moved (nodeAt block m.body.toList))) := by
  rw [Method.coveredRanges, exceptions, mapM_map (f := CoveredRange.of m.body.lastLabels)]
  · rw [← Method.coveredRanges, covered]
    rfl
  · intro r _
    simp only [CoveredRange.of, lastLabels_woven through]
    cases m.body.lastLabels r.start <;> cases m.body.lastLabels r.stop <;>
      cases m.body.lastLabels r.handler <;> rfl

/-- A range whose positions are positions of a body. -/
def CoveredRange.Inside (r : CoveredRange) (body : Body) : Prop :=
  r.start < body.size ∧ r.stop < body.size ∧ r.handler < body.size

/-- A moved range covers a node exactly if it did before. -/
theorem covers_nodeAt {r : CoveredRange} (inside : r.Inside body) (h : body[j]? = some insn) :
    (r.moved (nodeAt block body.toList)).covers (nodeAt block body.toList j) = r.covers j := by
  have at_start := getElem?_toList (Array.getElem?_eq_getElem inside.1)
  have at_stop := getElem?_toList (Array.getElem?_eq_getElem inside.2.1)
  have start := nodeAt_le_nodeAt block at_start (getElem?_toList h)
  have stop := nodeAt_le_nodeAt block at_stop (getElem?_toList h)
  simp only [CoveredRange.covers, CoveredRange.moved, start, ← Nat.not_le, stop]

/-- A moved range covers the block in front of a node exactly if it covers the node before. -/
theorem covers_blockAt {r : CoveredRange} (inside : r.Inside body) (h : body[j]? = some insn)
    (within : k < (block insn).length) :
    (r.moved (nodeAt block body.toList)).covers (blockAt block body.toList j + k) =
      (decide (r.start < j) && decide (j ≤ r.stop)) := by
  have behind := nodeAt_eq block (getElem?_toList h)
  have at_start := getElem?_toList (Array.getElem?_eq_getElem inside.1)
  have at_stop := getElem?_toList (Array.getElem?_eq_getElem inside.2.1)
  have start := nodeAt_lt_blockAt_iff block at_start (getElem?_toList h)
  have start' := nodeAt_le_nodeAt block (getElem?_toList h) at_start
  have stop := nodeAt_lt_blockAt_iff block at_stop (getElem?_toList h)
  have stop' := nodeAt_le_nodeAt block (getElem?_toList h) at_stop
  have first : nodeAt block body.toList r.start ≤ blockAt block body.toList j + k ↔ r.start < j := by
    omega
  have last : blockAt block body.toList j + k < nodeAt block body.toList r.stop ↔ j ≤ r.stop := by
    omega
  simp only [CoveredRange.covers, CoveredRange.moved, first, last]

/-- From a node of a block control goes on to the next position. -/
theorem successors_blockAt (through : Through block body) (h : body[j]? = some insn) {x : Insn}
    (inside : (block insn)[k]? = some x) (positions : LabelPositions) (always : JumpForm → Bool) :
    (body.woven block).successors positions always (blockAt block body.toList j + k) x.node =
      .ok [blockAt block body.toList j + (k + 1)] := by
  have straight := through insn (Array.mem_of_getElem? h) x (List.mem_of_getElem? inside)
  have within := (List.getElem?_eq_some_iff.mp inside).1
  have next := nodeAt_lt_blockAt block (getElem?_toList h) (Array.getElem?_eq_some_iff.mp h).1
  rw [nodeAt_eq block (getElem?_toList h), ← Body.size_woven] at next
  rw [Body.successors, straight.targets, straight.fallsThrough always]
  have room : blockAt block body.toList j + k + 1 < (body.woven block).size := by omega
  exact if_pos room

/-- From a node control goes on to where its targets are now, and to the block in front of the next
node. -/
theorem successors_nodeAt (through : Through block body) (h : body[j]? = some insn)
    {always : JumpForm → Bool} {targets : List Nat}
    (goes : body.successors body.lastLabels always j insn.node = .ok targets) :
    ∃ jumps, insn.node.targets.mapM body.lastLabels = some jumps ∧
      targets = jumps ++ (if insn.node.fallsThrough always then [j + 1] else []) ∧
      (body.woven block).successors (body.woven block).lastLabels always (nodeAt block body.toList j) insn.node =
        .ok (jumps.map (nodeAt block body.toList) ++
          if insn.node.fallsThrough always then [blockAt block body.toList (j + 1)] else []) := by
  have moved : insn.node.targets.mapM (body.woven block).lastLabels =
      (insn.node.targets.mapM body.lastLabels).map (List.map (nodeAt block body.toList)) :=
    mapM_map fun l _ => lastLabels_woven through l
  unfold Body.successors at goes ⊢
  rw [moved]
  cases found : insn.node.targets.mapM body.lastLabels with
  | none =>
    rw [found] at goes
    cases goes
  | some jumps =>
    rw [found] at goes
    refine ⟨jumps, rfl, ?_⟩
    dsimp only [Option.map_some] at goes ⊢
    split at goes
    · next falls =>
      split at goes
      · next inside =>
        have next : nodeAt block body.toList j + 1 = blockAt block body.toList (j + 1) := by
          rw [nodeAt_eq block (getElem?_toList h), blockAt_succ block (getElem?_toList h)]
        have room : blockAt block body.toList (j + 1) < (body.woven block).size := by
          have := nodeAt_lt_blockAt block (getElem?_toList (Array.getElem?_eq_getElem inside)) inside
          have := blockAt_le_nodeAt block (getElem?_toList (Array.getElem?_eq_getElem inside))
          rw [Body.size_woven]
          omega
        cases goes
        rw [if_pos falls, if_pos falls, if_pos falls, next, if_pos room]
        exact ⟨rfl, rfl⟩
      · cases goes
    · next stays =>
      cases goes
      rw [if_neg stays, if_neg stays, if_neg stays, List.append_nil, List.append_nil]
      exact ⟨rfl, rfl⟩

end

/-! ## Batches of insertions -/

namespace EditBatch

variable {batch : EditBatch} {body : Body}

theorem isEmpty_iff : batch.isEmpty = true ↔
    batch.inserts.isEmpty = true ∧ batch.replacements.isEmpty = true := by
  rw [isEmpty, size, Std.HashMap.isEmpty_eq_size_eq_zero, Std.HashMap.isEmpty_eq_size_eq_zero, beq_iff_eq,
    beq_iff_eq, beq_iff_eq]
  exact Nat.add_eq_zero_iff

/-- A target is missing if it is not the identity of a node. -/
theorem missingTarget?_eq (batch : EditBatch) (body : Body) : batch.missingTarget? body =
    (batch.inserts.keys ++ batch.replacements.keys).find? fun id => decide (id ∉ body.toList.map Insn.id) := by
  have entered (xs : List Insn) (table : Std.HashMap InsnId Unit) (id : InsnId) :
      id ∈ xs.foldl (fun t insn => t.insert insn.id ()) table ↔ id ∈ table ∨ id ∈ xs.map Insn.id := by
    induction xs generalizing table with
    | nil => simp
    | cons x xs ih =>
      rw [List.foldl_cons, ih, Std.HashMap.mem_insert, List.map_cons, List.mem_cons, beq_iff_eq, eq_comm]
      tauto
  rw [missingTarget?, ← Array.foldl_toList]
  congr 1
  funext id
  rw [Bool.eq_iff_iff, Bool.not_eq_true', decide_eq_true_iff, ← Bool.not_eq_true, Std.HashMap.contains_iff_mem,
    entered]
  simp

/-- No target is missing if all requests are for nodes of the body. -/
theorem missingTarget?_of_inside (inserted : ∀ id ∈ batch.inserts, id ∈ body.toList.map Insn.id)
    (replaced : ∀ id ∈ batch.replacements, id ∈ body.toList.map Insn.id) :
    batch.missingTarget? body = none := by
  rw [missingTarget?_eq, List.find?_eq_none]
  intro id member missing
  refine of_decide_eq_true missing ?_
  rcases List.mem_append.mp member with inserts | replaces
  · exact inserted id (Std.HashMap.mem_keys.mp inserts)
  · exact replaced id (Std.HashMap.mem_keys.mp replaces)

/-- The requests to insert blocks before some instructions. -/
def inserting (blocks : List (InsnId × List Insn)) : Except Failure EditBatch :=
  blocks.foldlM (fun b (target, block) => b.insertBefore target block) {}

/-- The block that is requested before a node. -/
def blockOf (blocks : List (InsnId × List Insn)) (insn : Insn) : List Insn :=
  (blocks.lookup insn.id).getD []

/-- Requests for different instructions are not in each other's way. -/
theorem inserting_eq_ok {blocks : List (InsnId × List Insn)} (distinct : (blocks.map Prod.fst).Nodup) :
    ∃ batch, inserting blocks = .ok batch ∧ batch.replacements = ∅ ∧
      ∀ id, batch.inserts[id]? = blocks.lookup id := by
  have all (batch : EditBatch) (new : ∀ x ∈ blocks, x.1 ∉ batch.inserts) :
      ∃ batch', blocks.foldlM (fun b (target, block) => b.insertBefore target block) batch = .ok batch' ∧
        batch'.replacements = batch.replacements ∧
        ∀ id, batch'.inserts[id]? = (blocks.lookup id).or batch.inserts[id]? := by
    induction blocks generalizing batch with
    | nil => exact ⟨batch, rfl, rfl, fun id => rfl⟩
    | cons x blocks ih =>
      obtain ⟨target, block⟩ := x
      obtain ⟨apart, distinct⟩ := List.nodup_cons.mp distinct
      have free : batch.inserts.contains target = false := by
        simpa using new (target, block) (by simp)
      have requested : batch.insertBefore target block =
          .ok { batch with inserts := batch.inserts.insert target block } := by
        rw [insertBefore, request, free]
        rfl
      obtain ⟨batch', filled, replacements, inserts⟩ :=
        ih distinct { batch with inserts := batch.inserts.insert target block } fun y member known => by
          rcases Std.HashMap.mem_insert.mp known with same | before
          · exact apart (List.mem_map.mpr ⟨y, member, (beq_iff_eq.mp same).symm⟩)
          · exact new y (by simp [member]) before
      refine ⟨batch', ?_, replacements, fun id => ?_⟩
      · rw [List.foldlM_cons]
        dsimp only
        rw [requested]
        exact filled
      rw [inserts, Std.HashMap.getElem?_insert, List.lookup_cons]
      by_cases same : id = target
      · subst same
        have rest : blocks.lookup id = none := by
          rw [List.lookup_eq_none_iff]
          exact fun y member => by
            simpa using fun h => apart (List.mem_map.mpr ⟨y, member, h.symm⟩)
        simp [rest]
      · rw [beq_eq_false_iff_ne.mpr same, beq_eq_false_iff_ne.mpr (Ne.symm same)]
        rfl
  obtain ⟨batch, filled, replacements, inserts⟩ := all {} (by simp)
  exact ⟨batch, filled, replacements, fun id => by simpa using inserts id⟩

/-- Requests for nodes of a body put the blocks in front of them. -/
theorem inserting_apply {blocks : List (InsnId × List Insn)} (distinct : (blocks.map Prod.fst).Nodup)
    (some_ : blocks ≠ []) (inside : ∀ x ∈ blocks, x.1 ∈ body.toList.map Insn.id) :
    (inserting blocks >>= fun batch => batch.apply body) = .ok (true, body.woven (blockOf blocks)) := by
  obtain ⟨batch, filled, replacements, inserts⟩ := inserting_eq_ok distinct
  have inserted : ∀ id ∈ batch.inserts, id ∈ body.toList.map Insn.id := by
    intro id member
    obtain ⟨block, found⟩ := Option.isSome_iff_exists.mp (Std.HashMap.isSome_getElem?_iff_mem.mpr member)
    rw [inserts] at found
    obtain ⟨before, rest, rfl, -⟩ := List.lookup_eq_some_iff.mp found
    exact inside _ (List.mem_append_right _ (List.mem_cons_self))
  have nonempty : batch.isEmpty = false := by
    obtain ⟨⟨target, block⟩, rest, rfl⟩ := List.exists_cons_of_ne_nil some_
    have member : target ∈ batch.inserts := by
      rw [← Std.HashMap.isSome_getElem?_iff_mem, inserts, List.lookup_cons_self]
      rfl
    have some_ : batch.inserts.isEmpty = false := Std.HashMap.isEmpty_eq_false_iff_exists_mem.mpr ⟨_, member⟩
    rw [← Bool.not_eq_true] at some_ ⊢
    exact fun empty => some_ (isEmpty_iff.mp empty).1
  have edits : batch.edited = fun insn => blockOf blocks insn ++ [insn] := by
    funext insn
    rw [edited, inserts, replacements]
    simp [blockOf]
  rw [filled]
  show batch.apply body = _
  rw [apply, nonempty, missingTarget?_of_inside inserted (by simp [replacements]), edits]
  rfl

end EditBatch

/-- A method with a block in front of each node, announced as modified. -/
def Method.woven (m : Method) (block : Insn → List Insn) : Method :=
  ({ m with body := m.body.woven block } : Method).markModified

/-- Inserts blocks before some instructions of a method and announces it as modified. -/
def Method.inserting (m : Method) (blocks : List (InsnId × List Insn)) : Except Failure Method := do
  let (_, body) ← EditBatch.inserting blocks >>= fun batch => batch.apply m.body
  return ({ m with body } : Method).markModified

/-- Blocks can be inserted before different instructions of a method. -/
theorem Method.inserting_eq {m : Method} {blocks : List (InsnId × List Insn)}
    (distinct : (blocks.map Prod.fst).Nodup) (some_ : blocks ≠ [])
    (inside : ∀ x ∈ blocks, x.1 ∈ m.body.toList.map Insn.id) :
    m.inserting blocks = .ok (m.woven (EditBatch.blockOf blocks)) := by
  rw [Method.inserting, EditBatch.inserting_apply distinct some_ inside]
  rfl

end Bytecode
