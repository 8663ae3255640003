import Bytecode.Proofs.Inlining.Coverage
import Bytecode.Proofs.Inlining.Replacements

/-!
# How handlers nest

Where a call is replaced by the body of a method, the nodes of this body keep the exception ranges that they
have in the method, in their order, and the ranges of the caller that covered the call come behind them. All
other nodes of the caller keep the ranges that they have (`Nests`). Bodies of methods in which calls were
replaced before are no exception, so that ranges nest as deep as calls do.

A round makes one table out of those of many splices. The labels of a splice are its own, so that the ranges
of earlier splices have stopped in front of a block and those of later ones start behind it
(`Inserted.guards_eq`); the induction over the nodes of a caller (`Replaced.guards_eq`) goes along with the
labels that have been taken up to there. Inside a block nodes that take the place of a return see the labels
that the return saw (`Layout.guards_parts`).
-/

namespace Bytecode.Inlining

/-! ## What it means to nest -/

/-- What becomes of the nodes of a callee, each with the ranges that covered it. -/
inductive Moved (l : Layout) : List Guarded → List Guarded → Prop
  | nil : Moved l [] []
  | cons {g : Guarded} {rest moved : List Guarded} {parts : List Part} (id : InsnId)
      (becomes : l.part rest.isEmpty ⟨id, g.node⟩ = .ok parts) (others : Moved l rest moved) :
      Moved l (g :: rest) (parts.map (fun part => ⟨part.node, g.ranges⟩) ++ moved)

/-- A call may be replaced by the body of a target: the class path finds the target for a call, and this
call leads to a target with the same key. -/
def LeadsTo (policy : TrustPolicy) (p : ClassPath) (site : CallSite) (t : Target) : Prop :=
  ∃ t' site', search policy p site (p.breadth + 1) site.owner = some (.ok t') ∧ t.key = t'.key ∧
    search policy p site' (p.breadth + 1) site'.owner = some (.ok t)

/-- The labels that some guarded nodes mention. -/
def mentioned (gs : List Guarded) : Set LabelId :=
  {l | ∃ g ∈ gs, l ∈ g.labels}

/-- Calls in a body are replaced by bodies of methods, in which calls may have been replaced before. The
nodes of a callee keep their own ranges, and the ranges of the call come behind them; all other nodes of
the caller keep the ranges that they have. Labels of callees are replaced by labels of their own. -/
inductive Nests (policy : TrustPolicy) (p : ClassPath) : List Guarded → List Guarded → Prop
  | refl (gs : List Guarded) : Nests policy p gs gs
  | trans {gs hs ks : List Guarded} : Nests policy p gs hs → Nests policy p hs ks → Nests policy p gs ks
  | call (front back : List Guarded) (early : Bool) {own moved : List Guarded} {call : Guarded}
      {site : CallSite} {t : Target} {d : MethodDescriptor} {l : Layout} {f f' : LabelId → LabelId}
      (calls : CallSite.ofNode? call.node = some site) (leads : LeadsTo policy p site t)
      (apart : Set.InjOn f (mentioned t.method.guarded))
      (inlined : Nests policy p (t.method.guarded.map (Guarded.mapLabels f)) own)
      (apart' : Set.InjOn f' (mentioned own))
      (described : MethodDescriptor.parse site.descriptor = .ok d)
      (body : Moved l (own.map (Guarded.mapLabels f')) moved) :
      Nests policy p (front ++ call :: back) (front ++
        (((l.entry site.hasReceiver d.arguments).map fun part => Guarded.bare part.node) ++ moved ++
          (((if early then [Part.new (.label l.exit)] else []) ++ l.loadResult).map fun part =>
            Guarded.bare part.node)).map (Guarded.within call.ranges) ++ back)

variable {policy : TrustPolicy} {p : ClassPath}

/-- Nodes around a body do not matter. -/
theorem Nests.congr {gs hs : List Guarded} (h : Nests policy p gs hs) (front back : List Guarded) :
    Nests policy p (front ++ gs ++ back) (front ++ hs ++ back) := by
  induction h generalizing front back with
  | refl => exact .refl _
  | trans _ _ ih ih' => exact .trans (ih front back) (ih' front back)
  | call front' back' early calls leads apart inlined apart' described body _ =>
    have nested := Nests.call (front ++ front') (back' ++ back) early calls leads apart inlined apart' described body
    simpa only [List.append_assoc, List.cons_append] using nested

/-! ## The block of a splice -/

namespace Layout

variable {l : Layout}

/-- What becomes of a node marks a label if the node does, and then it is the node. -/
theorem marks_part {isLast : Bool} {insn : Insn} {parts : List Part} (h : l.part isLast insn = .ok parts) :
    parts.map Part.node = [insn.node] ∨
      ∀ z, insn.node.marks z = false ∧ marked z (parts.map Part.node) = false := by
  obtain ⟨id, node⟩ := insn
  cases node with
  | label m =>
    cases h
    exact .inl rfl
  | simple op =>
    refine .inr fun z => ⟨rfl, ?_⟩
    by_cases returns : op.isReturn
    · simp only [part, if_pos returns] at h
      cases h
      rw [List.map_append, marked_append, storeResult]
      split <;> cases isLast <;> rfl
    · simp only [part, returns] at h
      cases h
      rfl
  | var op slot =>
    obtain ⟨moved, -, equal⟩ := ok_of_bind h
    cases equal
    exact .inr fun z => ⟨rfl, rfl⟩
  | increment slot amount =>
    obtain ⟨moved, -, equal⟩ := ok_of_bind h
    cases equal
    exact .inr fun z => ⟨rfl, rfl⟩
  | _ =>
    cases h
    exact .inr fun z => ⟨rfl, rfl⟩

/-- The moved body of the callee marks the labels that the callee marks. -/
theorem marked_parts {insns : List Insn} {parts : List Part} (h : l.parts insns = .ok parts) (z : LabelId) :
    marked z (parts.map Part.node) = marked z (insns.map Insn.node) := by
  induction insns generalizing parts with
  | nil =>
    cases h
    rfl
  | cons insn rest ih =>
    obtain ⟨first, moved, h₁⟩ := ok_of_bind h
    obtain ⟨others, behind, h₂⟩ := ok_of_bind h₁
    cases h₂
    rw [List.map_append, marked_append, List.map_cons, marked_cons, ih behind]
    rcases marks_part moved with same | none
    · rw [same, marked_cons, marked_nil, Bool.or_false]
    · rw [(none z).1, (none z).2]

/-- What stands in the place of a node marks its labels at once. -/
theorem marks_split {isLast : Bool} {insn : Insn} {parts : List Part} (h : l.part isLast insn = .ok parts)
    {front back : List Node} {node : Node} (split : parts.map Part.node = front ++ node :: back) (z : LabelId) :
    marked z (front ++ [node]) = insn.node.marks z ∧ marked z back = false := by
  rcases marks_part h with same | none
  · rw [same] at split
    cases front with
    | nil =>
      obtain ⟨rfl, rfl⟩ := List.cons.inj split
      exact ⟨Bool.or_false _, rfl⟩
    | cons x xs => simp at split
  · rw [(none z).1]
    exact marked_split (none z).2 split

/-- The nodes of the callee keep their ranges where they are moved, between nodes that mark no label of
a range. -/
theorem guards_parts {rs : List ExceptionRange} {insns : List Insn} {parts : List Part}
    (h : l.parts insns = .ok parts) {before before' after : List Node}
    (same : ∀ r ∈ rs, ∀ z ∈ r.labels, marked z before' = marked z before)
    (none : ∀ r ∈ rs, ∀ z ∈ r.labels, marked z after = false) :
    Moved l (guards rs before [] (insns.map Insn.node)) (guards rs before' after (parts.map Part.node)) := by
  induction insns generalizing parts before before' with
  | nil =>
    cases h
    exact .nil
  | cons insn rest ih =>
    obtain ⟨first, moved, h₁⟩ := ok_of_bind h
    obtain ⟨others, behind, h₂⟩ := ok_of_bind h₁
    cases h₂
    -- all nodes in the place of a node see the labels that the node sees
    have here : guards rs before' (others.map Part.node ++ after) (first.map Part.node) =
        (first.map Part.node).map fun node => ⟨node, rs.filter
          (·.spans (before ++ [insn.node]) (rest.map Insn.node ++ []))⟩ := by
      refine guards_const fun front node back split => List.filter_congr fun r member =>
        ExceptionRange.spans_congr (fun z label => ?_) fun z label => ?_
      · rw [List.append_assoc, marked_append, same r member z label, (marks_split moved split z).1,
          marked_append, marked_cons, marked_nil, Bool.or_false]
      · rw [marked_append, (marks_split moved split z).2, marked_append, none r member z label,
          marked_parts behind, marked_append, marked_nil, Bool.false_or]
    have next : ∀ r ∈ rs, ∀ z ∈ r.labels,
        marked z (before' ++ first.map Part.node) = marked z (before ++ [insn.node]) := by
      intro r member z label
      rw [marked_append, marked_append, same r member z label, marked_cons, marked_nil, Bool.or_false]
      rcases marks_part moved with equal | none
      · rw [equal, marked_cons, marked_nil, Bool.or_false]
      · rw [(none z).2, (none z).1]
    rw [List.map_append, guards_append, here, List.map_cons, guards, List.map_map]
    exact .cons insn.id (by rw [isEmpty_guards, List.isEmpty_map]; exact moved) (ih behind next)

/-- The nodes that store arguments mark no label. -/
theorem marked_entry (hasReceiver : Bool) (arguments : List Descriptor) (z : LabelId) :
    marked z ((l.entry hasReceiver arguments).map Part.node) = false := by
  have stores (slot : UInt16) : marked z (argumentStores slot arguments) = false := by
    induction arguments generalizing slot with
    | nil => rfl
    | cons argument rest ih => exact ih _
  have reversed (slot : UInt16) : marked z (argumentStores slot arguments).reverse = false := by
    rw [marked, List.any_reverse]
    exact stores slot
  rw [entry, Part.map_node_new, marked_append, reversed]
  cases hasReceiver <;> rfl

end Layout

/-- **The block of a splice.** The nodes of the callee keep the ranges that they have there, and no range
of the callee covers the nodes around them. -/
theorem guards_splice {site : CallSite} {returnSlot : UInt16} {callee : Method} {k : Nat} {s : Splice}
    {supply : Supply} (run : (splice site returnSlot callee).run ⟨k⟩ = .ok (s, supply))
    (below : ∀ x ∈ callee.identities, x < k) :
    ∃ (d : MethodDescriptor) (l : Layout) (early : Bool) (moved : List Guarded),
      MethodDescriptor.parse site.descriptor = .ok d ∧ Moved l callee.guarded moved ∧
      guards s.exceptions [] [] (s.block.map Insn.node) =
        ((l.entry site.hasReceiver d.arguments).map fun part => Guarded.bare part.node) ++ moved ++
          (((if early then [Part.new (.label l.exit)] else []) ++ l.loadResult).map fun part =>
            Guarded.bare part.node) := by
  obtain ⟨d, body, described, moved, nodes, exceptions, -⟩ := splice_eq_ok run
  let l : Layout := ⟨d.returnType, returnSlot, ⟨k⟩⟩
  have moved : l.parts callee.body.toList = .ok body := moved
  have known : ∀ r ∈ callee.exceptions, ∀ z ∈ r.labels, z.val < k := fun r member z label =>
    below _ (Method.mem_identities.mpr (.inr ⟨z, List.mem_append_left _ (List.mem_append_right _
      (List.mem_flatMap.mpr ⟨r, member, label⟩)), rfl⟩))
  let front := (l.entry site.hasReceiver d.arguments).map Part.node
  let back := ((if returnsEarly callee.body then [Part.new (.label l.exit)] else []) ++ l.loadResult).map Part.node
  have nodes : s.block.map Insn.node = front ++ (body.map Part.node ++ back) := by
    rw [nodes]
    simp only [front, back, List.map_append, List.append_assoc]
    rfl
  have free (z : LabelId) : marked z front = false := Layout.marked_entry _ _ z
  -- the only label behind the callee is the exit, which no range of the callee mentions
  have apart : ∀ r ∈ callee.exceptions, ∀ z ∈ r.labels, marked z back = false := by
    intro r member z label
    have load : marked z (l.loadResult.map Part.node) = false := by
      unfold Layout.loadResult
      split <;> rfl
    have other : (l.exit == z) = false := beq_false_of_ne fun same => by
      have := known r member z label
      rw [← same] at this
      exact Nat.lt_irrefl k this
    simp only [back, List.map_append, marked_append, load, Bool.or_false]
    split
    · exact (Bool.or_false _).trans other
    · rfl
  have start (r : ExceptionRange) : r.start ∈ r.labels := List.mem_cons_self
  have stop (r : ExceptionRange) : r.stop ∈ r.labels := List.mem_cons_of_mem _ List.mem_cons_self
  have first : guards callee.exceptions [] (body.map Part.node ++ back ++ []) front = front.map Guarded.bare :=
    guards_of_start fun r member => free r.start
  have last : guards callee.exceptions ([] ++ front ++ body.map Part.node) [] back = back.map Guarded.bare :=
    guards_of_stop fun r member => by rw [List.append_nil, apart r member _ (stop r)]
  have middle : Moved l callee.guarded
      (guards callee.exceptions ([] ++ front) (back ++ []) (body.map Part.node)) := by
    rw [callee.guarded_eq, List.nil_append, List.append_nil]
    exact Layout.guards_parts moved (fun r member z label => free z) apart
  refine ⟨d, l, returnsEarly callee.body, _, described, middle, ?_⟩
  rw [exceptions, nodes, guards_append, guards_append, first, last]
  simp only [front, back, List.map_map, List.append_assoc]
  rfl

/-! ## The caller -/

/-- Guarded nodes of a caller after some of them were replaced. The nodes of a block lie inside the ranges
of the node in whose place they stand. -/
def nested : List Guarded → List (Option Splice) → List Guarded
  | g :: gs, some s :: os =>
    (guards s.exceptions [] [] (s.block.map Insn.node)).map (Guarded.within g.ranges) ++ nested gs os
  | g :: gs, none :: os => g :: nested gs os
  | _, _ => []

section

variable {P : TargetKey → Method → Prop} {a : Analysis.Inspection} {n n' : Nat} {insns : List Insn}
  {os : List (Option Splice)}

theorem marks_of_call {node : Node} {site : CallSite} (call : CallSite.ofNode? node = some site) (z : LabelId) :
    node.marks z = false := by
  cases node with
  | label m => cases call
  | _ => rfl

/-- A splice marks labels of its own only. -/
theorem Inserted.marked_eq_false {site : CallSite} {slot : UInt16} {s : Splice}
    (made : Inserted policy p P site slot n s n') {z : LabelId} (other : z.val < n ∨ n' ≤ z.val) :
    marked z (s.block.map Insn.node) = false := by
  refine Bytecode.marked_eq_false fun node member label => ?_
  obtain ⟨insn, there, rfl⟩ := List.mem_map.mp member
  have own := made.mentions.2.1 z.val (List.mem_append_left _ (List.mem_flatMap.mpr
    ⟨insn, there, List.mem_cons_of_mem _ (List.mem_map_of_mem label)⟩))
  omega

/-- The ranges of a splice mention labels of its own only. -/
theorem Inserted.labels {site : CallSite} {slot : UInt16} {s : Splice}
    (made : Inserted policy p P site slot n s n') :
    ∀ r ∈ s.exceptions, ∀ z ∈ r.labels, n ≤ z.val ∧ z.val < n' :=
  fun r member z label => made.mentions.2.1 z.val (List.mem_append_right _ (mem_tableIdentities.mpr
    ⟨z, List.mem_append_left _ (List.mem_flatMap.mpr ⟨r, member, label⟩), rfl⟩))

/-- Labels that were there before are marked where they were. -/
theorem Replaced.marked_eq (h : Replaced policy p P a n insns os n') {z : LabelId} (old : z.val < n) :
    marked z ((splicedBody insns os).map Insn.node) = marked z (insns.map Insn.node) := by
  induction h with
  | nil => rfl
  | @left n k n' insn insns os le _ ih =>
    exact congrArg (insn.node.marks z || ·) (ih (Nat.lt_of_lt_of_le old le))
  | inserted call made _ ih =>
    rw [splicedBody_cons, List.map_append, marked_append, ih (Nat.lt_of_lt_of_le old made.mentions.1),
      List.map_cons, marked_cons, marks_of_call call]
    exact congrArg (· || _) (made.marked_eq_false (.inl old))

/-- The ranges of the splices mention labels that were taken for them. -/
theorem Replaced.labels (h : Replaced policy p P a n insns os n') :
    ∀ r ∈ (os.filterMap id).flatMap Splice.exceptions, ∀ z ∈ r.labels, n ≤ z.val := by
  intro r member z label
  obtain ⟨s, there, inside⟩ := List.mem_flatMap.mp member
  obtain ⟨o, known, here⟩ := List.mem_filterMap.mp there
  obtain rfl : o = some s := here
  exact (h.identities known z.val (List.mem_append_right _ (mem_tableIdentities.mpr
    ⟨z, List.mem_append_left _ (List.mem_flatMap.mpr ⟨r, inside, label⟩), rfl⟩))).1

/-- Labels that the nodes of a caller do not mention are marked in blocks only. -/
theorem Replaced.marked_foreign (h : Replaced policy p P a n insns os n') {n₀ : Nat}
    (body : ∀ insn ∈ insns, ∀ z ∈ insn.node.labels, z.val < n₀) {z : LabelId} (above : n₀ ≤ z.val)
    (old : z.val < n) : marked z ((splicedBody insns os).map Insn.node) = false := by
  rw [h.marked_eq old]
  refine Bytecode.marked_eq_false fun node member label => ?_
  obtain ⟨insn, there, rfl⟩ := List.mem_map.mp member
  have := body insn there z label
  omega

theorem start_mem_labels (r : ExceptionRange) : r.start ∈ r.labels :=
  List.mem_cons_self

theorem stop_mem_labels (r : ExceptionRange) : r.stop ∈ r.labels :=
  List.mem_cons_of_mem _ List.mem_cons_self

/-- **One block.** In the table of the caller the ranges of earlier splices have stopped in front of a block
and those of later ones start behind it. So its nodes have the ranges that they have in the block, and behind
them the ranges of the caller that go across the block. -/
theorem Inserted.guards_eq {site : CallSite} {slot : UInt16} {s : Splice}
    (made : Inserted policy p P site slot n s n') {older younger rs : List ExceptionRange}
    {before after : List Node} (gone : ∀ r ∈ older, r.stop.val < n ∧ marked r.stop after = false)
    (coming : ∀ r ∈ younger, n' ≤ r.start.val) (known : ∀ r ∈ rs, ∀ z ∈ r.labels, z.val < n)
    (old : ∀ z : LabelId, n ≤ z.val → marked z before = false)
    (foreign : ∀ z : LabelId, n ≤ z.val → z.val < n' → marked z after = false) :
    guards (older ++ (s.exceptions ++ younger) ++ rs) before after (s.block.map Insn.node) =
      (guards s.exceptions [] [] (s.block.map Insn.node)).map
        (Guarded.within (rs.filter (·.spans before after))) := by
  have more := made.mentions.1
  refine Bytecode.guards_eq fun front node back split => ?_
  have gone : ∀ r ∈ older, marked r.stop (back ++ after) = false := fun r member => by
    obtain ⟨below, none⟩ := gone r member
    rw [marked_append, (marked_split (made.marked_eq_false (.inl below)) split).2, none]
    rfl
  have coming : ∀ r ∈ younger, marked r.start (before ++ front ++ [node]) = false := fun r member => by
    have above := coming r member
    rw [List.append_assoc, marked_append, old _ (Nat.le_trans more above),
      (marked_split (made.marked_eq_false (.inr above)) split).1]
    rfl
  rw [List.filter_append, List.filter_append, List.filter_append, filter_of_stop gone, filter_of_start coming,
    List.nil_append, List.append_nil]
  refine congr (congrArg _ (List.filter_congr fun r member =>
    ExceptionRange.spans_congr (fun z label => ?_) fun z label => ?_)) (List.filter_congr fun r member =>
      ExceptionRange.spans_congr (fun z label => ?_) fun z label => ?_)
  · rw [List.append_assoc, marked_append, old z (made.labels r member z label).1]
    rfl
  · have own := made.labels r member z label
    rw [marked_append, marked_append, foreign z own.1 own.2]
    rfl
  · rw [List.append_assoc, marked_append,
      (marked_split (made.marked_eq_false (.inl (known r member z label))) split).1, Bool.or_false]
  · rw [marked_append, (marked_split (made.marked_eq_false (.inl (known r member z label))) split).2,
      Bool.false_or]

/-- **One round.** The nodes of a caller keep the ranges of the caller, and the nodes of a block have in
front of them the ranges that they have in the block. -/
theorem Replaced.guards_eq (h : Replaced policy p P a n insns os n') {n₀ : Nat} (start : n₀ ≤ n)
    {rs older : List ExceptionRange} (known : ∀ r ∈ rs, ∀ z ∈ r.labels, z.val < n₀)
    (taken : ∀ r ∈ older, ∀ z ∈ r.labels, n₀ ≤ z.val ∧ z.val < n)
    (body : ∀ insn ∈ insns, ∀ z ∈ insn.node.labels, z.val < n₀) {before before' : List Node}
    (same : ∀ z : LabelId, z.val < n₀ → marked z before' = marked z before)
    (old : ∀ z : LabelId, n ≤ z.val → marked z before' = false) :
    guards (older ++ (os.filterMap id).flatMap Splice.exceptions ++ rs) before' []
        ((splicedBody insns os).map Insn.node) =
      nested (guards rs before [] (insns.map Insn.node)) os := by
  induction h generalizing older before before' with
  | nil => rfl
  | @left n k n' insn insns os le rest ih =>
    obtain ⟨first, body⟩ := List.forall_mem_cons.mp body
    have here {z : LabelId} (above : n ≤ z.val) : marked z (before' ++ [insn.node]) = false := by
      have other : insn.node.marks z = false := Node.marks_of_not_mem fun label => by
        have := first z label
        omega
      rw [marked_append, old z above, marked_cons, other]
      rfl
    have others : guards (older ++ (os.filterMap id).flatMap Splice.exceptions ++ rs) (before' ++ [insn.node]) []
        ((splicedBody insns os).map Insn.node) =
          nested (guards rs (before ++ [insn.node]) [] (insns.map Insn.node)) os :=
      ih (Nat.le_trans start le) (fun r member z label => by
          have := taken r member z label
          omega) body (fun z below => by rw [marked_append, marked_append, same z below])
        fun z above => here (Nat.le_trans le above)
    have gone : ∀ r ∈ older, marked r.stop ((splicedBody insns os).map Insn.node ++ []) = false :=
      fun r member => by
        have inside := taken r member _ (stop_mem_labels r)
        rw [List.append_nil, rest.marked_foreign body inside.1 (Nat.lt_of_lt_of_le inside.2 le)]
    have tables : (none :: os).filterMap id = os.filterMap id := rfl
    rw [splicedBody_cons, spliced, Option.elim, List.singleton_append, List.map_cons, List.map_cons, tables, guards,
      guards, nested]
    refine congr (congrArg List.cons (congrArg (Guarded.mk insn.node) ?_)) others
    rw [List.filter_append, List.filter_append, filter_of_stop gone, filter_of_start fun r member =>
      here (Nat.le_trans le (rest.labels r member _ (start_mem_labels r)))]
    refine List.filter_congr fun r member => ExceptionRange.spans_congr (fun z label => ?_) fun z label => ?_
    · rw [marked_append, marked_append, same z (known r member z label)]
    · rw [marked_append, marked_append,
        rest.marked_eq (Nat.lt_of_lt_of_le (known r member z label) (Nat.le_trans start le))]
  | @inserted n k n' insn insns site s os call made rest ih =>
    obtain ⟨-, body⟩ := List.forall_mem_cons.mp body
    have le := made.mentions.1
    have free {z : LabelId} (below : z.val < n₀) : marked z (s.block.map Insn.node) = false :=
      made.marked_eq_false (.inl (Nat.lt_of_lt_of_le below start))
    have others : guards ((older ++ s.exceptions) ++ (os.filterMap id).flatMap Splice.exceptions ++ rs)
        (before' ++ s.block.map Insn.node) [] ((splicedBody insns os).map Insn.node) =
          nested (guards rs (before ++ [insn.node]) [] (insns.map Insn.node)) os := by
      refine ih (Nat.le_trans start le) (fun r member z label => ?_) body (fun z below => ?_) fun z above => ?_
      · rcases List.mem_append.mp member with before | here
        · have := taken r before z label
          omega
        · have := made.labels r here z label
          omega
      · rw [marked_append, marked_append, same z below, free below, marked_cons, marks_of_call call]
        rfl
      · rw [marked_append, old z (Nat.le_trans le above), made.marked_eq_false (.inr above)]
        rfl
    have across : rs.filter (·.spans before' ((splicedBody insns os).map Insn.node ++ [])) =
        rs.filter (·.spans (before ++ [insn.node]) (insns.map Insn.node ++ [])) := by
      refine List.filter_congr fun r member => ExceptionRange.spans_congr (fun z label => ?_) fun z label => ?_
      · rw [same z (known r member z label), marked_append, marked_cons, marks_of_call call]
        simp
      · rw [marked_append, marked_append,
          rest.marked_eq (Nat.lt_of_lt_of_le (known r member z label) (Nat.le_trans start le))]
    have gone : ∀ r ∈ older, r.stop.val < n ∧
        marked r.stop ((splicedBody insns os).map Insn.node ++ []) = false := fun r member => by
      have inside := taken r member _ (stop_mem_labels r)
      rw [List.append_nil, rest.marked_foreign body inside.1 (Nat.lt_of_lt_of_le inside.2 le)]
      exact ⟨inside.2, rfl⟩
    have block : guards (older ++ (s.exceptions ++ (os.filterMap id).flatMap Splice.exceptions) ++ rs) before'
        ((splicedBody insns os).map Insn.node ++ []) (s.block.map Insn.node) =
          (guards s.exceptions [] [] (s.block.map Insn.node)).map (Guarded.within
            (rs.filter (·.spans before' ((splicedBody insns os).map Insn.node ++ [])))) :=
      made.guards_eq gone (fun r member => rest.labels r member _ (start_mem_labels r))
        (fun r member z label => Nat.lt_of_lt_of_le (known r member z label) start) old fun z above below => by
          rw [List.append_nil, rest.marked_foreign body (Nat.le_trans start above) below]
    have tables : older ++ ((some s :: os).filterMap id).flatMap Splice.exceptions ++ rs =
        older ++ (s.exceptions ++ (os.filterMap id).flatMap Splice.exceptions) ++ rs := rfl
    rw [splicedBody_cons, spliced, Option.elim, List.map_append, tables, guards_append, block, across, List.map_cons,
      guards, nested, ← others]
    simp only [List.append_assoc]

end

/-! ## Methods -/

/-- A body that is kept under a key is that of a target with this key, in which handlers nest. -/
def KeptNested (policy : TrustPolicy) (p : ClassPath) (key : TargetKey) (m : Method) : Prop :=
  ∃ (t : Target) (site : CallSite) (f : LabelId → LabelId),
    search policy p site (p.breadth + 1) site.owner = some (.ok t) ∧ t.key = key ∧
      Set.InjOn f (mentioned t.method.guarded) ∧
      Nests policy p (t.method.guarded.map (Guarded.mapLabels f)) m.guarded

/-- A copy keeps the labels apart that guarded nodes mention. -/
theorem injOn_mentioned (m : Method) (n : Nat) : Set.InjOn (m.copied n) (mentioned m.guarded) :=
  (m.injOn_copied n).mono fun l ⟨_, member, label⟩ => Method.labels_guarded member l label

/-- Calls that are replaced make handlers nest. -/
theorem Replaced.nests {a : Analysis.Inspection} {n n' : Nat} {insns : List Insn} {os : List (Option Splice)}
    (h : Replaced policy p (KeptNested policy p) a n insns os n') {gs : List Guarded}
    (nodes : gs.map Guarded.node = insns.map Insn.node) : Nests policy p gs (nested gs os) := by
  induction h generalizing gs with
  | nil =>
    obtain rfl := List.map_eq_nil_iff.mp nodes
    exact .refl _
  | @left n k n' insn insns os le rest ih =>
    obtain ⟨g, gs, rfl, -, others⟩ := List.map_eq_cons_iff.mp nodes
    have nested := (ih others).congr [g] []
    rwa [List.append_nil, List.append_nil] at nested
  | @inserted n k n' insn insns site s os call made rest ih =>
    obtain ⟨g, gs, rfl, node, others⟩ := List.map_eq_cons_iff.mp nodes
    obtain ⟨t', body, first, found', ⟨t, site', f, found, key, apart, inlined⟩, -, run⟩ := made
    obtain ⟨d, l, early, moved, described, moves, block⟩ :=
      guards_splice run fun x mentioned => (body.identities_copyAt first x mentioned).2
    rw [Method.guarded_copyAt] at moves
    have replaced := Nests.call [] gs early (node ▸ call) ⟨t', site', found', key, found⟩ apart inlined
      (injOn_mentioned body first) described moves
    rw [← block] at replaced
    refine replaced.trans ?_
    have nested := (ih others).congr ((guards s.exceptions [] [] (s.block.map Insn.node)).map
      (Guarded.within g.ranges)) []
    rwa [List.append_nil, List.append_nil] at nested

/-- Whatever inlining makes of a method, handlers nest in it. -/
theorem Inlines.nests {owner : String} {m m' : Method}
    (h : Inlines policy p (KeptNested policy p) owner m m') : Nests policy p m.guarded m'.guarded := by
  cases h with
  | same => exact .refl _
  | @replaced frames n n' os analyzed distinct below calls =>
    have known : ∀ r ∈ m.exceptions, ∀ z ∈ r.labels, z.val < n := fun r member z label =>
      below _ (Method.mem_identities.mpr (.inr ⟨z, List.mem_append_left _ (List.mem_append_right _
        (List.mem_flatMap.mpr ⟨r, member, label⟩)), rfl⟩))
    have body : ∀ insn ∈ m.body.toList, ∀ z ∈ insn.node.labels, z.val < n := fun insn member z label =>
      below _ (Method.mem_identities.mpr (.inr ⟨z, List.mem_append_left _ (List.mem_append_left _
        (List.mem_flatMap.mpr ⟨insn, member, label⟩)), rfl⟩))
    have guarded : (withSplices m (splicedBody m.body.toList os).toArray (os.filterMap id)).guarded =
        nested m.guarded os := by
      rw [Method.guarded_eq m, Method.guarded_eq]
      exact calls.guards_eq (Nat.le_refl n) known (List.forall_mem_nil _) body (fun _ _ => rfl) fun _ _ => rfl
    rw [guarded]
    exact calls.nests m.nodes_guarded

theorem closed_keptNested : Closed policy p (KeptNested policy p) := by
  intro t site n m found inlines
  refine ⟨t, site, t.method.copied n, found, rfl, injOn_mentioned t.method n, ?_⟩
  rw [← Method.guarded_copyAt]
  exact inlines.nests

/-- **Handlers nest.** Let an inliner start with nothing kept, and inline into any number of methods. In what
it makes of a method, each node from the body of a callee has the ranges that it has there, followed by those
of the call that was replaced, and each other node has the ranges that it had. -/
theorem inlineAll_nests (uncached : p.cache = []) (barred : Std.HashSet TargetKey) {supply : Supply}
    {methods : List (String × Method)} (distinct : Distinct supply methods) :
    List.Forall₂ (fun entry attempt => ∀ count, attempt.result = .ok count →
      Nests policy p entry.2.guarded attempt.value.guarded) methods
      (inlineAll methods ⟨{ policy, classPath := p, barred }, {}, supply⟩).1 :=
  (inlineAll_inlines closed_keptNested uncached barred distinct).imp fun _ _ inlines count same =>
    (inlines count same).nests

/-- A method that calls another one with a handler around the call. -/
def guardedMethod : Method where
  id := ⟨0⟩
  access := 9
  name := "m"
  descriptor := "()V"
  body := Analysis.numbered [.label ⟨0⟩, .call Opcode.invokestatic "kotlin/A" "f" "()V" false, .label ⟨1⟩,
    .simple Opcode.vreturn, .label ⟨2⟩, .simple Opcode.athrow]
  exceptions := [⟨⟨0⟩, ⟨1⟩, ⟨2⟩, none⟩]

/-- A trusted class with a method that has a handler of its own. -/
def guardedClasses : ClassPath where
  sources := [.memory [{ name := "kotlin/A", superName := some "java/lang/Object", methods := [{
        id := ⟨1⟩
        access := 9
        name := "f"
        descriptor := "()V"
        body := Analysis.numbered [.label ⟨0⟩, .call Opcode.invokestatic "A" "g" "()V" false, .label ⟨1⟩,
          .simple Opcode.vreturn, .label ⟨2⟩, .simple Opcode.athrow]
        exceptions := [⟨⟨0⟩, ⟨1⟩, ⟨2⟩, some "B"⟩] }] }]]

/-- The handler of the callee comes to lie inside that of the caller. -/
theorem inlineAll_nests_guarded : Distinct ⟨6⟩ [("A", guardedMethod)] ∧
    List.Forall₂ (fun entry attempt => ∀ count, attempt.result = .ok count →
        Nests ⟨["kotlin/"]⟩ guardedClasses entry.2.guarded attempt.value.guarded) [("A", guardedMethod)]
      (inlineAll [("A", guardedMethod)]
        ⟨{ policy := ⟨["kotlin/"]⟩, classPath := guardedClasses, barred := ∅ }, {}, ⟨6⟩⟩).1 := by
  have distinct : Distinct ⟨6⟩ [("A", guardedMethod)] := by
    constructor <;> decide
  exact ⟨distinct, inlineAll_nests rfl ∅ distinct⟩

end Bytecode.Inlining
