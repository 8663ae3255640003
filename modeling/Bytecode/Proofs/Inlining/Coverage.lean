import Bytecode.Proofs.Renaming.Copies

/-!
# Nodes with the ranges around them

A range covers the nodes from the position of its start to before the position of its stop.
`Method.guarded` puts beside each node of a body the exception ranges that cover it, in the order of the
table. Whether a range covers a node only depends on which labels are marked up to the node and which
behind it (`covers_iff_spans`), so that the list can be made from the front (`guards`): what stands in
front of some nodes and behind them matters through its labels alone (`guards_eq`).

A copy of a method has the same list with its labels replaced (`Method.guarded_copyAt`).
-/

namespace Bytecode

/-! ## The ranges around a node -/

/-- A node of a body with exception ranges. -/
structure Guarded where
  node : Node
  ranges : List ExceptionRange

namespace Method

/-- The exception ranges that cover the node at a position, in the order of the table. -/
def rangesAt (m : Method) (i : Nat) : List ExceptionRange :=
  m.exceptions.filter fun r => (CoveredRange.of m.body.lastLabels r).any (·.covers i)

/-- The nodes of the body, each with the ranges that cover it. -/
def guarded (m : Method) : List Guarded :=
  m.body.toList.mapIdx fun i insn => ⟨insn.node, m.rangesAt i⟩

end Method

namespace Guarded

/-- The node lies inside further ranges, which come behind its own. -/
def within (outer : List ExceptionRange) (g : Guarded) : Guarded :=
  { g with ranges := g.ranges ++ outer }

/-- Replaces the labels of the node and the ranges. -/
def mapLabels (f : LabelId → LabelId) (g : Guarded) : Guarded :=
  ⟨g.node.mapLabels f, g.ranges.map (·.mapLabels f)⟩

/-- A node that no range covers. -/
def bare (node : Node) : Guarded :=
  ⟨node, []⟩

/-- The labels that the node and the ranges mention. -/
def labels (g : Guarded) : List LabelId :=
  g.node.labels ++ g.ranges.flatMap ExceptionRange.labels

end Guarded

/-! ## Labels that are marked among nodes -/

/-- Whether some node marks a label. -/
def marked (l : LabelId) (nodes : List Node) : Bool :=
  nodes.any (·.marks l)

@[simp]
theorem marked_nil (l : LabelId) : marked l [] = false :=
  rfl

@[simp]
theorem marked_append (l : LabelId) (xs ys : List Node) : marked l (xs ++ ys) = (marked l xs || marked l ys) :=
  List.any_append

@[simp]
theorem marked_cons (l : LabelId) (x : Node) (xs : List Node) : marked l (x :: xs) = (x.marks l || marked l xs) :=
  rfl

/-- A node that does not mention a label does not mark it. -/
theorem Node.marks_of_not_mem {node : Node} {l : LabelId} (free : l ∉ node.labels) : node.marks l = false := by
  cases node with
  | label m => exact beq_false_of_ne fun same => free (same ▸ List.mem_singleton_self m)
  | _ => rfl

theorem marked_eq_false {l : LabelId} {nodes : List Node} (free : ∀ node ∈ nodes, l ∉ node.labels) :
    marked l nodes = false :=
  List.any_eq_false.mpr fun node member => by rw [Node.marks_of_not_mem (free node member)]; exact nofun

/-- A label has a position if it is marked. -/
theorem isSome_lastLabel (l : LabelId) (xs : List Insn) :
    (lastLabel l xs).isSome = marked l (xs.map Insn.node) := by
  cases found : lastLabel l xs with
  | none =>
    rw [lastLabel_eq_none] at found
    symm
    rw [Option.isSome_none, marked, List.any_map, List.any_eq_false]
    exact fun insn member => by rw [Function.comp_apply, found insn member]; exact nofun
  | some i =>
    obtain ⟨insn, there, marks⟩ := getElem?_of_lastLabel found
    symm
    rw [Option.isSome_some, marked, List.any_map, List.any_eq_true]
    exact ⟨insn, List.mem_of_getElem? there, marks⟩

/-- A range that starts among some nodes and stops behind them: its start is marked up to there and not
again, its stop is marked later. The handler may stand anywhere. -/
def ExceptionRange.spans (r : ExceptionRange) (upto beyond : List Node) : Bool :=
  marked r.start upto && !marked r.start beyond && marked r.stop beyond &&
    (marked r.handler upto || marked r.handler beyond)

/-- Only the labels of the range matter. -/
theorem ExceptionRange.spans_congr {r : ExceptionRange} {upto upto' beyond beyond' : List Node}
    (front : ∀ l ∈ r.labels, marked l upto = marked l upto')
    (back : ∀ l ∈ r.labels, marked l beyond = marked l beyond') : r.spans upto beyond = r.spans upto' beyond' := by
  simp only [labels, List.forall_mem_cons] at front back
  rw [spans, spans, front.1, back.1, back.2.1, front.2.2.1, back.2.2.1]

/-- A range whose start has not been marked spans nothing. -/
theorem ExceptionRange.spans_of_start {r : ExceptionRange} {upto : List Node} (none : marked r.start upto = false)
    (beyond : List Node) : r.spans upto beyond = false := by
  rw [spans, none]
  rfl

/-- A range whose stop is not marked any more spans nothing. -/
theorem ExceptionRange.spans_of_stop {r : ExceptionRange} {beyond : List Node} (none : marked r.stop beyond = false)
    (upto : List Node) : r.spans upto beyond = false := by
  rw [spans, none, Bool.and_false, Bool.false_and]

theorem filter_of_start {rs : List ExceptionRange} {upto : List Node}
    (none : ∀ r ∈ rs, marked r.start upto = false) (beyond : List Node) : rs.filter (·.spans upto beyond) = [] :=
  List.filter_eq_nil_iff.mpr fun r member => by
    rw [r.spans_of_start (none r member)]
    exact Bool.false_ne_true

theorem filter_of_stop {rs : List ExceptionRange} {beyond : List Node}
    (none : ∀ r ∈ rs, marked r.stop beyond = false) (upto : List Node) : rs.filter (·.spans upto beyond) = [] :=
  List.filter_eq_nil_iff.mpr fun r member => by
    rw [r.spans_of_stop (none r member)]
    exact Bool.false_ne_true

/-- What is not marked among some nodes is not marked in front of one of them or behind it. -/
theorem marked_split {l : LabelId} {nodes front back : List Node} {node : Node} (none : marked l nodes = false)
    (split : nodes = front ++ node :: back) : marked l (front ++ [node]) = false ∧ marked l back = false := by
  rw [split, marked_append, marked_cons, Bool.or_eq_false_iff, Bool.or_eq_false_iff] at none
  rw [marked_append, none.1, marked_cons, none.2.1]
  exact ⟨rfl, none.2.2⟩

/-- A range in terms of positions covers a node by each of its labels. -/
private theorem any_covers (positions : LabelPositions) (r : ExceptionRange) (i : Nat) :
    (CoveredRange.of positions r).any (·.covers i) = ((positions r.start).any (· < i + 1) &&
      (positions r.stop).any (i + 1 ≤ ·) && (positions r.handler).isSome) := by
  unfold CoveredRange.of
  cases positions r.start <;> cases positions r.stop <;> cases positions r.handler <;>
    simp [CoveredRange.covers, Nat.lt_succ_iff, Nat.succ_le_iff]

/-- A label stands in the first of two pieces if it is marked there and not in the second. -/
private theorem any_lastLabel_lt (l : LabelId) (xs ys : List Insn) :
    (lastLabel l (xs ++ ys)).any (· < xs.length) =
      (marked l (xs.map Insn.node) && !marked l (ys.map Insn.node)) := by
  rw [lastLabel_append, ← isSome_lastLabel, ← isSome_lastLabel]
  cases behind : lastLabel l ys with
  | some i => simp
  | none =>
    cases here : lastLabel l xs with
    | none => rfl
    | some i =>
      obtain ⟨_, there, -⟩ := getElem?_of_lastLabel here
      simpa using (List.getElem?_eq_some_iff.mp there).1

/-- A label stands in the second of two pieces if it is marked there. -/
private theorem any_le_lastLabel (l : LabelId) (xs ys : List Insn) :
    (lastLabel l (xs ++ ys)).any (xs.length ≤ ·) = marked l (ys.map Insn.node) := by
  rw [lastLabel_append, ← isSome_lastLabel]
  cases behind : lastLabel l ys with
  | some i => simp
  | none =>
    cases here : lastLabel l xs with
    | none => rfl
    | some i =>
      obtain ⟨_, there, -⟩ := getElem?_of_lastLabel here
      simpa using (List.getElem?_eq_some_iff.mp there).1

/-- A range covers a node if it starts up to the node and stops behind it. -/
theorem covers_iff_spans (r : ExceptionRange) (front : List Insn) (insn : Insn) (back : List Insn) :
    (CoveredRange.of (fun l => lastLabel l (front ++ insn :: back)) r).any (·.covers front.length) =
      r.spans ((front ++ [insn]).map Insn.node) (back.map Insn.node) := by
  have split : front ++ insn :: back = (front ++ [insn]) ++ back := by simp
  have length : front.length + 1 = (front ++ [insn]).length := by simp
  rw [any_covers, ExceptionRange.spans]
  simp only [split, length, any_lastLabel_lt, any_le_lastLabel, isSome_lastLabel, List.map_append, marked_append]

/-! ## From the front -/

/-- Some nodes with the ranges that cover them, between other nodes. -/
def guards (rs : List ExceptionRange) (before after : List Node) : List Node → List Guarded
  | [] => []
  | node :: rest =>
    ⟨node, rs.filter (·.spans (before ++ [node]) (rest ++ after))⟩ :: guards rs (before ++ [node]) after rest

variable {rs rs' outer : List ExceptionRange} {before before' after after' : List Node}

theorem guards_append (xs ys : List Node) : guards rs before after (xs ++ ys) =
    guards rs before (ys ++ after) xs ++ guards rs (before ++ xs) after ys := by
  induction xs generalizing before with
  | nil => simp [guards]
  | cons x xs ih => simp [guards, ih]

@[simp]
theorem isEmpty_guards (nodes : List Node) : (guards rs before after nodes).isEmpty = nodes.isEmpty := by
  cases nodes <;> rfl

/-- The nodes of a body have the ranges that cover them. -/
theorem Method.guarded_eq (m : Method) : m.guarded = guards m.exceptions [] [] (m.body.toList.map Insn.node) := by
  have each (front xs : List Insn) : (xs.mapIdx fun i insn => Guarded.mk insn.node (m.exceptions.filter fun r =>
        (CoveredRange.of (fun l => lastLabel l (front ++ xs)) r).any (·.covers (front.length + i)))) =
      guards m.exceptions (front.map Insn.node) [] (xs.map Insn.node) := by
    induction xs generalizing front with
    | nil => rfl
    | cons x xs ih =>
      have rest := ih (front ++ [x])
      simp only [List.append_assoc, List.singleton_append, List.length_append, List.length_singleton,
        List.map_append, List.map_cons, List.map_nil] at rest
      simp only [List.mapIdx_cons, List.map_cons, guards, Nat.add_zero, covers_iff_spans, List.append_nil,
        List.map_append, List.map_nil, ← rest, Nat.add_assoc, Nat.add_comm 1]
  have all := each [] m.body.toList
  simp only [List.nil_append, List.length_nil, Nat.zero_add, List.map_nil] at all
  exact all

/-- If the same ranges cover each of some nodes in two places, but for ranges that cover all of them in
the one place, then the nodes have the same ranges but for these. -/
theorem guards_eq {nodes : List Node} (same : ∀ front node back, nodes = front ++ node :: back →
      rs.filter (·.spans (before ++ front ++ [node]) (back ++ after)) =
        rs'.filter (·.spans (before' ++ front ++ [node]) (back ++ after')) ++ outer) :
    guards rs before after nodes = (guards rs' before' after' nodes).map (Guarded.within outer) := by
  induction nodes generalizing before before' with
  | nil => rfl
  | cons x xs ih =>
    have first := same [] x xs rfl
    rw [List.append_nil, List.append_nil] at first
    have rest : guards rs (before ++ [x]) after xs =
        (guards rs' (before' ++ [x]) after' xs).map (Guarded.within outer) := ih fun front node back split => by
      have there := same (x :: front) node back (by rw [split]; rfl)
      simpa using there
    rw [guards, guards, List.map_cons, rest, first]
    rfl

/-- If the same ranges cover each of some nodes, these are their ranges. -/
theorem guards_const {nodes : List Node} (same : ∀ front node back, nodes = front ++ node :: back →
      rs.filter (·.spans (before ++ front ++ [node]) (back ++ after)) = outer) :
    guards rs before after nodes = nodes.map fun node => ⟨node, outer⟩ := by
  induction nodes generalizing before with
  | nil => rfl
  | cons x xs ih =>
    have first := same [] x xs rfl
    rw [List.append_nil] at first
    rw [guards, List.map_cons, first, ih fun front node back split => by
      have there := same (x :: front) node back (by rw [split]; rfl)
      simpa using there]

/-- Nodes are bare where no range has started. -/
theorem guards_of_start {nodes : List Node} (none : ∀ r ∈ rs, marked r.start (before ++ nodes) = false) :
    guards rs before after nodes = nodes.map Guarded.bare :=
  guards_const fun front node back split => filter_of_start (fun r member => by
    have free := none r member
    rw [marked_append, Bool.or_eq_false_iff] at free
    rw [List.append_assoc, marked_append, free.1, (marked_split free.2 split).1]
    rfl) _

/-- Nodes are bare where all ranges have stopped. -/
theorem guards_of_stop {nodes : List Node} (none : ∀ r ∈ rs, marked r.stop (nodes ++ after) = false) :
    guards rs before after nodes = nodes.map Guarded.bare :=
  guards_const fun front node back split => filter_of_stop (fun r member => by
    have free := none r member
    rw [marked_append, Bool.or_eq_false_iff] at free
    rw [marked_append, (marked_split free.1 split).2, free.2]
    rfl) _

/-! ## Labels that are replaced -/

section

variable {f : LabelId → LabelId} {D : Set LabelId}

/-- Labels that are kept apart are marked by the nodes that marked them. -/
theorem marked_mapLabels (apart : Set.InjOn f D) {l : LabelId} (known : l ∈ D) {nodes : List Node}
    (inside : ∀ node ∈ nodes, ∀ m ∈ node.labels, m ∈ D) :
    marked (f l) (nodes.map (Node.mapLabels f)) = marked l nodes := by
  have each (node : Node) (inside : ∀ m ∈ node.labels, m ∈ D) : (node.mapLabels f).marks (f l) = node.marks l := by
    cases node with
    | label m =>
      have m_ : m ∈ D := inside m (List.mem_singleton_self m)
      exact Bool.eq_iff_iff.mpr (by
        show (f m == f l) = true ↔ (m == l) = true
        rw [beq_iff_eq, beq_iff_eq]
        exact ⟨apart m_ known, congrArg f⟩)
    | _ => rfl
  induction nodes with
  | nil => rfl
  | cons node nodes ih =>
    obtain ⟨first, rest⟩ := List.forall_mem_cons.mp inside
    rw [List.map_cons, marked_cons, marked_cons, each node first, ih rest]

/-- Nodes and ranges whose labels are replaced lie in each other as before. -/
theorem guards_mapLabels (apart : Set.InjOn f D) (ranges : ∀ r ∈ rs, ∀ l ∈ r.labels, l ∈ D)
    {before after nodes : List Node} (inBefore : ∀ node ∈ before, ∀ l ∈ node.labels, l ∈ D)
    (inAfter : ∀ node ∈ after, ∀ l ∈ node.labels, l ∈ D) (inside : ∀ node ∈ nodes, ∀ l ∈ node.labels, l ∈ D) :
    guards (rs.map (·.mapLabels f)) (before.map (Node.mapLabels f)) (after.map (Node.mapLabels f))
        (nodes.map (Node.mapLabels f)) =
      (guards rs before after nodes).map (Guarded.mapLabels f) := by
  induction nodes generalizing before with
  | nil => rfl
  | cons x xs ih =>
    obtain ⟨first, rest⟩ := List.forall_mem_cons.mp inside
    have upto : ∀ node ∈ before ++ [x], ∀ l ∈ node.labels, l ∈ D :=
      List.forall_mem_append.mpr ⟨inBefore, by simpa using first⟩
    have beyond : ∀ node ∈ xs ++ after, ∀ l ∈ node.labels, l ∈ D := List.forall_mem_append.mpr ⟨rest, inAfter⟩
    have spans : ∀ r ∈ rs, (r.mapLabels f).spans ((before ++ [x]).map (Node.mapLabels f))
        ((xs ++ after).map (Node.mapLabels f)) = r.spans (before ++ [x]) (xs ++ after) := by
      intro r member
      have known := ranges r member
      simp only [ExceptionRange.labels, List.forall_mem_cons] at known
      simp only [ExceptionRange.spans, ExceptionRange.mapLabels, marked_mapLabels apart known.1 upto,
        marked_mapLabels apart known.1 beyond, marked_mapLabels apart known.2.1 beyond,
        marked_mapLabels apart known.2.2.1 upto, marked_mapLabels apart known.2.2.1 beyond]
    have covering : (rs.map (·.mapLabels f)).filter (·.spans ((before ++ [x]).map (Node.mapLabels f))
        ((xs ++ after).map (Node.mapLabels f))) =
        (rs.filter (·.spans (before ++ [x]) (xs ++ after))).map (·.mapLabels f) := by
      rw [List.filter_map]
      exact congrArg (List.map _) (List.filter_congr spans)
    have others := ih upto rest
    simp only [List.map_append, List.map_cons, List.map_nil] at covering others ⊢
    rw [guards, guards, List.map_cons, others, covering]
    rfl

end

namespace Method

/-- **Copies are covered alike.** The nodes of a copy have the ranges of the original ones, with their
labels replaced. -/
theorem guarded_copyAt (m : Method) (n : Nat) :
    (m.copyAt n).guarded = m.guarded.map (Guarded.mapLabels (m.copied n)) := by
  have nodes : (m.copyAt n).body.toList.map Insn.node =
      (m.body.toList.map Insn.node).map (Node.mapLabels (m.copied n)) := by
    rw [toList_copyAt]
    apply List.ext_getElem <;> simp
  have inTable : ∀ r ∈ m.exceptions, ∀ l ∈ r.labels, l ∈ {l | l ∈ m.labels} := fun r member l mentioned =>
    List.mem_append_left _ (List.mem_append_right _ (List.mem_flatMap.mpr ⟨r, member, mentioned⟩))
  have inBody : ∀ node ∈ m.body.toList.map Insn.node, ∀ l ∈ node.labels, l ∈ {l | l ∈ m.labels} := by
    intro node member l mentioned
    obtain ⟨insn, there, rfl⟩ := List.mem_map.mp member
    exact List.mem_append_left _ (List.mem_append_left _ (List.mem_flatMap.mpr ⟨insn, there, mentioned⟩))
  rw [guarded_eq, guarded_eq, nodes]
  exact guards_mapLabels (m.injOn_copied n) inTable (List.forall_mem_nil _) (List.forall_mem_nil _) inBody

theorem nodes_guarded (m : Method) : m.guarded.map Guarded.node = m.body.toList.map Insn.node := by
  apply List.ext_getElem <;> simp [guarded]

/-- What is guarded mentions labels of the method. -/
theorem labels_guarded {m : Method} {g : Guarded} (member : g ∈ m.guarded) : ∀ l ∈ g.labels, l ∈ m.labels := by
  intro l mentioned
  obtain ⟨i, inside, rfl⟩ := List.mem_mapIdx.mp member
  rcases List.mem_append.mp mentioned with inNode | inRanges
  · exact List.mem_append_left _ (List.mem_append_left _ (List.mem_flatMap.mpr ⟨_, List.getElem_mem inside, inNode⟩))
  · obtain ⟨r, known, inRange⟩ := List.mem_flatMap.mp inRanges
    exact List.mem_append_left _ (List.mem_append_right _
      (List.mem_flatMap.mpr ⟨r, (List.mem_filter.mp known).1, inRange⟩))

end Method

end Bytecode
