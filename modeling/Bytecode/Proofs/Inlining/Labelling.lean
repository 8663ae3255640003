import Bytecode.Proofs.Inlining.Nesting

/-!
# Labels after inlining

A method is well labelled if its nodes have identities of their own and each label that it mentions has
exactly one node (`Method.WellLabelled`). Then jumps and tables are never ambiguous and never lead nowhere.

`places` counts the nodes of a label, so that every step of inlining is an equation between counts: a copy
renames labels apart (`places_mapLabels`), a splice adds an exit exactly if some return goes there
(`placed_splice`), and the splices of a round have labels of their own (`Replaced.places_eq`,
`Replaced.places_splices`). Hence methods stay well labelled however often a kept body is spliced in
(`inlineAll_wellLabelled`).
-/

namespace Bytecode

/-! ## Nodes of labels -/

/-- How many nodes mark a label. -/
def places (l : LabelId) (nodes : List Node) : Nat :=
  nodes.countP (·.marks l)

@[simp]
theorem places_nil (l : LabelId) : places l [] = 0 :=
  rfl

@[simp]
theorem places_append (l : LabelId) (xs ys : List Node) : places l (xs ++ ys) = places l xs + places l ys :=
  List.countP_append

theorem places_cons (l : LabelId) (x : Node) (xs : List Node) : places l (x :: xs) = places l [x] + places l xs :=
  places_append l [x] xs

theorem places_of_marked {l : LabelId} {nodes : List Node} (none : marked l nodes = false) : places l nodes = 0 :=
  List.countP_eq_zero.mpr (List.any_eq_false.mp none)

/-- Labels that are kept apart have the nodes that they had. -/
theorem places_mapLabels {f : LabelId → LabelId} {D : Set LabelId} (apart : Set.InjOn f D) {l : LabelId}
    (known : l ∈ D) {nodes : List Node} (inside : ∀ node ∈ nodes, ∀ m ∈ node.labels, m ∈ D) :
    places (f l) (nodes.map (Node.mapLabels f)) = places l nodes := by
  rw [places, List.countP_map]
  refine List.countP_congr fun node member => ?_
  have same := marked_mapLabels apart known (List.forall_mem_singleton.mpr (inside node member))
  simp only [List.map_cons, List.map_nil, marked_cons, marked_nil, Bool.or_false] at same
  rw [Function.comp_apply, same]

namespace Method

/-- The nodes of the body have identities of their own, and each label that a node or a table mentions has
exactly one node. -/
structure WellLabelled (m : Method) : Prop where
  distinct : (m.body.toList.map Insn.id).Nodup
  placed : ∀ l ∈ m.labels, places l (m.body.toList.map Insn.node) = 1

instance (m : Method) : Decidable m.WellLabelled :=
  decidable_of_iff ((m.body.toList.map Insn.id).Nodup ∧ ∀ l ∈ m.labels, places l (m.body.toList.map Insn.node) = 1)
    ⟨fun ⟨distinct, placed⟩ => ⟨distinct, placed⟩, fun ⟨distinct, placed⟩ => ⟨distinct, placed⟩⟩

/-- A method has the same body as another one under new identities: labels are replaced in nodes and tables
alike, different ones by different ones, and all identities are from `n` to before `n'`. -/
structure IsCopy (m c : Method) (f : LabelId → LabelId) (n n' : Nat) : Prop where
  apart : Set.InjOn f {l | l ∈ m.labels}
  nodes : c.body.map Insn.node = (m.mapLabels f).body.map Insn.node
  others : { c with id := m.id, revision := m.revision, body := (m.mapLabels f).body } = m.mapLabels f
  distinct : (c.body.toList.map Insn.id).Nodup
  fresh : n ≤ c.id.val ∧ c.id.val < n' ∧ ∀ x ∈ c.identities, n ≤ x ∧ x < n'

theorem nodes_copyAt (m : Method) (n : Nat) : (m.copyAt n).body.toList.map Insn.node =
    (m.body.toList.map Insn.node).map (Node.mapLabels (m.copied n)) := by
  rw [toList_copyAt]
  apply List.ext_getElem <;> simp

theorem copy_isCopy (m : Method) (supply : Supply) :
    ∃ f, m.IsCopy (m.copy.run supply).1 f supply.next (m.copy.run supply).2.next := by
  obtain ⟨n⟩ := supply
  rw [copy_run]
  refine ⟨m.copied n, m.injOn_copied n, ?_, rfl, m.nodup_copyAt n, ?_, ?_, m.identities_copyAt n⟩
  · apply Array.toList_inj.mp
    rw [Array.toList_map, nodes_copyAt]
    simp [mapLabels]
  · rw [copyAt]
    dsimp only
    omega
  · rw [copyAt, copyCount]
    dsimp only
    omega

/-- What the nodes of the body mention is mentioned. -/
theorem mem_labels_of_node {m : Method} {node : Node} (member : node ∈ m.body.toList.map Insn.node) :
    ∀ l ∈ node.labels, l ∈ m.labels := by
  intro l mentioned
  obtain ⟨insn, there, rfl⟩ := List.mem_map.mp member
  exact List.mem_append_left _ (List.mem_append_left _ (List.mem_flatMap.mpr ⟨insn, there, mentioned⟩))

theorem placed_copyAt {m : Method} (n : Nat) (placed : ∀ l ∈ m.labels, places l (m.body.toList.map Insn.node) = 1) :
    ∀ l ∈ (m.copyAt n).labels, places l ((m.copyAt n).body.toList.map Insn.node) = 1 := by
  intro l mentioned
  rw [labels_copyAt] at mentioned
  obtain ⟨original, known, rfl⟩ := List.mem_map.mp mentioned
  rw [nodes_copyAt, places_mapLabels (m.injOn_copied n) known fun node member => mem_labels_of_node member]
  exact placed original known

end Method

namespace Inlining

/-! ## The block of a splice -/

/-- The labels that a splice mentions. -/
def Splice.labels (s : Splice) : List LabelId :=
  s.block.flatMap (·.node.labels) ++ s.exceptions.flatMap ExceptionRange.labels ++
    s.localVariables.flatMap LocalVariable.labels

theorem Splice.val_mem_identities {s : Splice} {l : LabelId} (member : l ∈ s.labels) : l.val ∈ s.identities := by
  rw [labels, List.append_assoc] at member
  rcases List.mem_append.mp member with inBlock | inTables
  · obtain ⟨insn, there, mentioned⟩ := List.mem_flatMap.mp inBlock
    exact List.mem_append_left _ (List.mem_flatMap.mpr ⟨insn, there, List.mem_cons_of_mem _ (List.mem_map_of_mem mentioned)⟩)
  · exact List.mem_append_right _ (mem_tableIdentities.mpr ⟨l, inTables, rfl⟩)

namespace Layout

variable {l : Layout}

/-- The moved body of the callee marks labels as often as the callee does. -/
theorem places_parts {insns : List Insn} {parts : List Part} (h : l.parts insns = .ok parts) (z : LabelId) :
    places z (parts.map Part.node) = places z (insns.map Insn.node) := by
  induction insns generalizing parts with
  | nil =>
    cases h
    rfl
  | cons insn rest ih =>
    obtain ⟨first, moved, h₁⟩ := ok_of_bind h
    obtain ⟨others, behind, h₂⟩ := ok_of_bind h₁
    cases h₂
    have here : places z (first.map Part.node) = places z [insn.node] := by
      rcases marks_part moved with same | none
      · rw [same]
      · have bare : marked z [insn.node] = false := by rw [marked_cons, (none z).1]; rfl
        rw [places_of_marked (none z).2, places_of_marked bare]
    rw [List.map_append, places_append, List.map_cons, places_cons, ih behind, here]

/-- What becomes of an instruction mentions the labels of the instruction, and the exit if it is a return
in front of other instructions. -/
theorem labels_part {isLast : Bool} {insn : Insn} {parts : List Part} (h : l.part isLast insn = .ok parts)
    {z : LabelId} (mentioned : z ∈ (parts.map Part.node).flatMap Node.labels) :
    z ∈ insn.node.labels ∨ z = l.exit ∧ isLast = false ∧ ∃ op, insn.node = .simple op ∧ op.isReturn = true := by
  have same {node : Node} (h : z ∈ [node].flatMap Node.labels) : z ∈ node.labels := by
    rwa [List.flatMap_singleton] at h
  obtain ⟨id, node⟩ := insn
  cases node with
  | simple op =>
    by_cases returns : op.isReturn = true
    · simp only [part, if_pos returns] at h
      cases h
      have stored : (l.storeResult.map Part.node).flatMap Node.labels = [] := by
        unfold storeResult
        split <;> rfl
      rw [List.map_append, List.flatMap_append, stored, List.nil_append] at mentioned
      cases isLast with
      | true => cases mentioned
      | false => exact .inr ⟨List.mem_singleton.mp mentioned, rfl, op, rfl, returns⟩
    · simp only [part, returns] at h
      cases h
      exact .inl (same mentioned)
  | var op slot =>
    obtain ⟨moved, -, equal⟩ := ok_of_bind h
    cases equal
    exact .inl (same mentioned)
  | increment slot amount =>
    obtain ⟨moved, -, equal⟩ := ok_of_bind h
    cases equal
    exact .inl (same mentioned)
  | line number start =>
    cases h
    cases mentioned
  | _ =>
    cases h
    exact .inl (same mentioned)

/-- The moved body mentions the exit only if the callee returns early. -/
theorem labels_parts {body : Body} {parts : List Part} (h : l.parts body.toList = .ok parts) {z : LabelId}
    (mentioned : z ∈ (parts.map Part.node).flatMap Node.labels) :
    z ∈ body.toList.flatMap (·.node.labels) ∨ z = l.exit ∧ returnsEarly body = true := by
  unfold returnsEarly
  generalize body.toList = insns at h ⊢
  induction insns generalizing parts with
  | nil =>
    cases h
    cases mentioned
  | cons insn rest ih =>
    obtain ⟨first, moved, h₁⟩ := ok_of_bind h
    obtain ⟨others, behind, h₂⟩ := ok_of_bind h₁
    cases h₂
    rw [List.map_append, List.flatMap_append] at mentioned
    rcases List.mem_append.mp mentioned with here | later
    · rcases labels_part moved here with own | ⟨exit, more, op, simple, returns⟩
      · exact .inl (List.mem_append_left _ own)
      · refine .inr ⟨exit, ?_⟩
        cases rest with
        | nil => cases more
        | cons next rest =>
          rw [List.dropLast_cons_of_ne_nil (List.cons_ne_nil _ _), List.any_cons, simple]
          exact Bool.or_eq_true_iff.mpr (.inl returns)
    · rcases ih later behind with own | ⟨exit, early⟩
      · exact .inl (List.mem_append_right _ own)
      · refine .inr ⟨exit, ?_⟩
        cases rest with
        | nil => cases early
        | cons next rest =>
          rw [List.dropLast_cons_of_ne_nil (List.cons_ne_nil _ _), List.any_cons, early, Bool.or_true]

/-- The nodes that store arguments mention no label. -/
theorem labels_entry (hasReceiver : Bool) (arguments : List Descriptor) :
    ((l.entry hasReceiver arguments).map Part.node).flatMap Node.labels = [] := by
  have stores (slot : UInt16) : ∀ node ∈ argumentStores slot arguments, node.labels = [] := by
    induction arguments generalizing slot with
    | nil => exact nofun
    | cons argument rest ih => exact List.forall_mem_cons.mpr ⟨rfl, ih _⟩
  rw [List.flatMap_eq_nil_iff]
  intro node member
  rw [entry, List.map_map] at member
  obtain ⟨_, inside, rfl⟩ := List.mem_map.mp member
  rcases List.mem_append.mp inside with store | receiver
  · exact stores _ _ (List.mem_reverse.mp store)
  · cases hasReceiver with
    | true =>
      rw [List.mem_singleton.mp receiver]
      rfl
    | false => cases receiver

/-- The load of the returned value mentions no label. -/
theorem labels_loadResult (l : Layout) : (l.loadResult.map Part.node).flatMap Node.labels = [] := by
  unfold loadResult
  split <;> rfl

end Layout

/-- The labels of a splice are those of the callee, and an exit if the callee returns early. -/
theorem labels_splice {site : CallSite} {returnSlot : UInt16} {callee : Method} {k : Nat} {s : Splice}
    {supply : Supply} (run : (splice site returnSlot callee).run ⟨k⟩ = .ok (s, supply)) :
    ∀ z ∈ s.labels, z ∈ callee.labels ∨ z = ⟨k⟩ ∧ returnsEarly callee.body = true := by
  obtain ⟨d, body, -, moved, nodes, exceptions, named⟩ := splice_eq_ok run
  intro z member
  rw [Splice.labels, List.append_assoc] at member
  rcases List.mem_append.mp member with inBlock | inTables
  · have inNodes : z ∈ (s.block.map Insn.node).flatMap Node.labels := by rwa [List.flatMap_map]
    rw [nodes] at inNodes
    simp only [List.map_append, List.flatMap_append, List.mem_append] at inNodes
    rcases inNodes with ((inEntry | inBody) | inExit) | inLoad
    · rw [Layout.labels_entry] at inEntry
      cases inEntry
    · exact (Layout.labels_parts moved inBody).imp_left fun own =>
        List.mem_append_left _ (List.mem_append_left _ own)
    · cases early : returnsEarly callee.body with
      | true =>
        rw [early] at inExit
        exact .inr ⟨List.mem_singleton.mp inExit, rfl⟩
      | false =>
        rw [early] at inExit
        cases inExit
    · rw [Layout.labels_loadResult] at inLoad
      cases inLoad
  · rw [exceptions, Layout.labels_of_moved named] at inTables
    rw [Method.labels, List.append_assoc]
    exact .inl (List.mem_append_right _ inTables)

/-- The block of a splice marks labels as often as the callee does, and the exit once more if the callee
returns early. -/
theorem places_splice {site : CallSite} {returnSlot : UInt16} {callee : Method} {k : Nat} {s : Splice}
    {supply : Supply} (run : (splice site returnSlot callee).run ⟨k⟩ = .ok (s, supply)) (z : LabelId) :
    places z (s.block.map Insn.node) = places z (callee.body.toList.map Insn.node) +
      if returnsEarly callee.body && (⟨k⟩ : LabelId) == z then 1 else 0 := by
  obtain ⟨d, body, -, moved, nodes, -, -⟩ := splice_eq_ok run
  let l : Layout := ⟨d.returnType, returnSlot, ⟨k⟩⟩
  have moved : l.parts callee.body.toList = .ok body := moved
  have nodes : s.block.map Insn.node = ((l.entry site.hasReceiver d.arguments ++ body ++
      (if returnsEarly callee.body then [Part.new (.label ⟨k⟩)] else []) ++ l.loadResult).map Part.node) := nodes
  have entered : places z ((l.entry site.hasReceiver d.arguments).map Part.node) = 0 :=
    places_of_marked (Layout.marked_entry _ _ z)
  have load : places z (l.loadResult.map Part.node) = 0 :=
    places_of_marked (marked_eq_false (List.flatMap_eq_nil_iff.mp l.labels_loadResult · · ▸ List.not_mem_nil))
  have exit : places z ((if returnsEarly callee.body then [Part.new (.label ⟨k⟩)] else []).map Part.node) =
      if returnsEarly callee.body && (⟨k⟩ : LabelId) == z then 1 else 0 := by
    cases returnsEarly callee.body with
    | true => exact List.countP_singleton
    | false => rfl
  simp only [nodes, List.map_append, places_append]
  rw [Layout.places_parts moved z, entered, load, exit, Nat.zero_add, Nat.add_zero]

/-- **The labels of a splice.** If each label of the callee has one node, then each label of the splice has one
node in the block. -/
theorem placed_splice {site : CallSite} {returnSlot : UInt16} {callee : Method} {k : Nat} {s : Splice}
    {supply : Supply} (run : (splice site returnSlot callee).run ⟨k⟩ = .ok (s, supply))
    (below : ∀ l ∈ callee.labels, l.val < k)
    (placed : ∀ l ∈ callee.labels, places l (callee.body.toList.map Insn.node) = 1) :
    ∀ z ∈ s.labels, places z (s.block.map Insn.node) = 1 := by
  intro z member
  rw [places_splice run]
  rcases labels_splice run z member with own | ⟨rfl, early⟩
  · have apart : ((⟨k⟩ : LabelId) == z) = false :=
      beq_false_of_ne fun same => Nat.lt_irrefl k (by simpa [← same] using below z own)
    rw [placed z own, apart, Bool.and_false]
    rfl
  · have none : places ⟨k⟩ (callee.body.toList.map Insn.node) = 0 :=
      places_of_marked (marked_eq_false fun node there label =>
        Nat.lt_irrefl k (below ⟨k⟩ (Method.mem_labels_of_node there _ label)))
    rw [none, early, beq_self_eq_true]
    rfl

/-! ## The caller -/

variable {policy : TrustPolicy} {p : ClassPath} {a : Analysis.Inspection} {n n' : Nat} {insns : List Insn}
  {os : List (Option Splice)}

/-- Each label that a kept body mentions has one node. -/
def KeptLabelled (_ : TargetKey) (m : Method) : Prop :=
  ∀ l ∈ m.labels, places l (m.body.toList.map Insn.node) = 1

/-- A splice that takes the place of a call places the labels that it mentions. -/
theorem Inserted.places_eq {site : CallSite} {slot : UInt16} {s : Splice}
    (made : Inserted policy p KeptLabelled site slot n s n') :
    ∀ z ∈ s.labels, places z (s.block.map Insn.node) = 1 := by
  obtain ⟨t, body, k, -, kept, -, run⟩ := made
  refine placed_splice run (fun l mentioned => ?_) (Method.placed_copyAt k kept)
  exact (body.identities_copyAt k _ (Method.mem_identities.mpr (.inr ⟨l, mentioned, rfl⟩))).2

/-- Labels that were there before keep their nodes. -/
theorem Replaced.places_eq (h : Replaced policy p KeptLabelled a n insns os n') {z : LabelId} (old : z.val < n) :
    places z ((splicedBody insns os).map Insn.node) = places z (insns.map Insn.node) := by
  induction h with
  | nil => rfl
  | left le _ ih =>
    rw [splicedBody_cons, List.map_append, places_append, ih (Nat.lt_of_lt_of_le old le), List.map_cons, places_cons]
    rfl
  | inserted call made _ ih =>
    have free : marked z [_] = false := (Bool.or_false _).trans (marks_of_call call z)
    rw [splicedBody_cons, List.map_append, places_append, ih (Nat.lt_of_lt_of_le old made.mentions.1), List.map_cons,
      places_cons, places_of_marked free, spliced, Option.elim, places_of_marked (made.marked_eq_false (.inl old))]

/-- Labels of splices have one node. -/
theorem Replaced.places_splices (h : Replaced policy p KeptLabelled a n insns os n') {n₀ : Nat} (start : n₀ ≤ n)
    (body : ∀ insn ∈ insns, ∀ z ∈ insn.node.labels, z.val < n₀) {s : Splice} (member : some s ∈ os) :
    ∀ z ∈ s.labels, places z ((splicedBody insns os).map Insn.node) = 1 := by
  have within : ∀ z ∈ s.labels, n ≤ z.val ∧ z.val < n' := fun z mentioned =>
    h.identities member _ (Splice.val_mem_identities mentioned)
  induction h with
  | nil => cases member
  | @left n k n' insn insns os le rest ih =>
    obtain ⟨first, body⟩ := List.forall_mem_cons.mp body
    have member := (List.mem_cons.mp member).resolve_left nofun
    intro z mentioned
    have free : places z [insn.node] = 0 :=
      places_of_marked (marked_eq_false (List.forall_mem_singleton.mpr fun label => by
        have := first z label
        have := within z mentioned
        omega))
    rw [splicedBody_cons, List.map_append, places_append]
    refine (congrArg₂ (· + ·) free (ih (Nat.le_trans start le) body member (fun z mentioned => ?_) z mentioned)).trans
      (Nat.zero_add 1)
    exact rest.identities member _ (Splice.val_mem_identities mentioned)
  | @inserted n k n' insn insns site sp os call made rest ih =>
    obtain ⟨-, body⟩ := List.forall_mem_cons.mp body
    have le := made.mentions.1
    intro z mentioned
    rw [splicedBody_cons, List.map_append, places_append, spliced, Option.elim]
    rcases List.mem_cons.mp member with here | later
    · obtain rfl : s = sp := Option.some.inj here
      have own := made.mentions.2.1 _ (Splice.val_mem_identities mentioned)
      have none : marked z (insns.map Insn.node) = false := marked_eq_false fun node there label => by
        obtain ⟨insn, inside, rfl⟩ := List.mem_map.mp there
        have := body insn inside z label
        omega
      rw [made.places_eq z mentioned, rest.places_eq own.2, places_of_marked none]
    · have above := (rest.identities later _ (Splice.val_mem_identities mentioned)).1
      rw [places_of_marked (made.marked_eq_false (.inr above)), Nat.zero_add]
      exact ih (Nat.le_trans start le) body later
        (fun z mentioned => rest.identities later _ (Splice.val_mem_identities mentioned)) z mentioned

/-! ## Methods -/

/-- A method after some nodes were replaced mentions labels that it mentioned before and labels of splices. -/
theorem labels_withSplices {m : Method} {l : LabelId}
    (mentioned : l ∈ (withSplices m (splicedBody m.body.toList os).toArray (os.filterMap id)).labels) :
    l ∈ m.labels ∨ ∃ s, some s ∈ os ∧ l ∈ s.labels := by
  have made {s : Splice} (member : s ∈ os.filterMap id) : some s ∈ os := by
    obtain ⟨o, inside, same⟩ := List.mem_filterMap.mp member
    exact (show o = some s from same) ▸ inside
  simp only [Method.labels, withSplices, Method.markModified, List.flatMap_append, List.mem_append,
    List.mem_flatMap] at mentioned
  simp only [Method.labels, Splice.labels, List.mem_append, List.mem_flatMap]
  rcases mentioned with (⟨insn, inBody, here⟩ | ⟨r, ⟨s, there, inside⟩, here⟩ | ⟨r, inside, here⟩) |
    ⟨v, inside, here⟩ | ⟨v, ⟨s, there, inside⟩, here⟩
  · rcases mem_splicedBody inBody with old | ⟨s, there, inside⟩
    · exact .inl (.inl (.inl ⟨insn, old, here⟩))
    · exact .inr ⟨s, there, .inl (.inl ⟨insn, inside, here⟩)⟩
  · exact .inr ⟨s, made there, .inl (.inr ⟨r, inside, here⟩)⟩
  · exact .inl (.inl (.inr ⟨r, inside, here⟩))
  · exact .inl (.inr ⟨v, inside, here⟩)
  · exact .inr ⟨s, made there, .inr ⟨v, inside, here⟩⟩

/-- Inlining keeps labels placed. -/
theorem Inlines.placed {owner : String} {m m' : Method} (h : Inlines policy p KeptLabelled owner m m')
    (placed : ∀ l ∈ m.labels, places l (m.body.toList.map Insn.node) = 1) :
    ∀ l ∈ m'.labels, places l (m'.body.toList.map Insn.node) = 1 := by
  cases h with
  | same => exact placed
  | replaced analyzed distinct below calls =>
    have known : ∀ l ∈ m.labels, l.val < _ := fun l mentioned =>
      below _ (Method.mem_identities.mpr (.inr ⟨l, mentioned, rfl⟩))
    intro l mentioned
    rcases labels_withSplices mentioned with old | ⟨s, member, new⟩
    · exact (calls.places_eq (known l old)).trans (placed l old)
    · exact calls.places_splices (Nat.le_refl _) (fun insn inside z label => known z
        (Method.mem_labels_of_node (List.mem_map_of_mem inside) z label)) member l new

/-- Inlining keeps methods well labelled. -/
theorem Inlines.wellLabelled {owner : String} {m m' : Method} (h : Inlines policy p KeptLabelled owner m m')
    (labelled : m.WellLabelled) : m'.WellLabelled := by
  refine ⟨?_, h.placed labelled.placed⟩
  cases h with
  | same => exact labelled.distinct
  | replaced analyzed distinct below calls =>
    exact calls.nodup (fun insn member => below _ (Method.mem_identities.mpr (.inl ⟨insn, member, rfl⟩))) distinct

/-- Whatever inlining makes of a copy of a target has its labels placed. -/
theorem closed_keptLabelled (callees : ∀ name c, p.lookup name = some c → ∀ m ∈ c.methods, m.WellLabelled) :
    Closed policy p KeptLabelled := by
  intro t site n m found inlines
  obtain ⟨-, -, -, -, name, c, shown, -, declared⟩ := of_search found
  exact inlines.placed (Method.placed_copyAt n (callees name c shown _ (List.mem_of_find?_eq_some declared)).placed)

/-- **Methods stay well labelled.** Let an inliner start with nothing kept, and inline into any number of
methods. If these methods and those of the classes at hand are well labelled, then so is whatever inlining
makes of them. All this rests on copies, which rename labels apart and alike in nodes and tables. -/
theorem inlineAll_wellLabelled (uncached : p.cache = []) (barred : Std.HashSet TargetKey) {supply : Supply}
    {methods : List (String × Method)} (distinct : Distinct supply methods)
    (callers : ∀ entry ∈ methods, entry.2.WellLabelled)
    (callees : ∀ name c, p.lookup name = some c → ∀ m ∈ c.methods, m.WellLabelled) :
    List.Forall₂ (fun _ attempt => ∀ count, attempt.result = .ok count → attempt.value.WellLabelled) methods
        (inlineAll methods ⟨{ policy, classPath := p, barred }, {}, supply⟩).1 ∧
      ∀ (m : Method) (supply : Supply),
        ∃ f, m.IsCopy (m.copy.run supply).1 f supply.next (m.copy.run supply).2.next := by
  refine ⟨?_, Method.copy_isCopy⟩
  have closed : Closed policy p KeptLabelled := closed_keptLabelled callees
  have inlines := inlineAll_inlines closed uncached barred distinct
  generalize (inlineAll methods _).1 = attempts at inlines
  clear distinct
  induction inlines with
  | nil => exact .nil
  | cons first _ ih =>
    obtain ⟨labelled, callers⟩ := List.forall_mem_cons.mp callers
    exact .cons (fun count same => (first count same).wellLabelled labelled) (ih callers)

/-- A method that calls the same target twice, the one time in a loop and both times with a handler. -/
def twiceCallingMethod : Method where
  id := ⟨0⟩
  access := 9
  name := "m"
  descriptor := "()V"
  body := Analysis.numbered [.label ⟨0⟩, .call Opcode.invokestatic "kotlin/A" "f" "()I" false,
    .jump Opcode.ifeq ⟨0⟩, .call Opcode.invokestatic "kotlin/A" "f" "()I" false, .label ⟨1⟩,
    .var Opcode.istore 0, .simple Opcode.vreturn, .label ⟨2⟩, .simple Opcode.athrow]
  exceptions := [⟨⟨0⟩, ⟨1⟩, ⟨2⟩, none⟩]

/-- A trusted class with a method that returns from two places. -/
def branchingClasses : ClassPath where
  sources := [.memory [{ name := "kotlin/A", superName := some "java/lang/Object", methods := [{
        id := ⟨1⟩
        access := 9
        name := "f"
        descriptor := "()I"
        body := Analysis.numbered [.field Opcode.getstatic "kotlin/A" "x" "I", .jump Opcode.ifeq ⟨0⟩,
          .int Opcode.bipush 1, .simple Opcode.ireturn, .label ⟨0⟩, .line 7 ⟨0⟩, .int Opcode.bipush 2,
          .simple Opcode.ireturn] }] }]]

/-- The exits of the two blocks are not mixed up with each other, nor with the labels of the caller. -/
theorem inlineAll_wellLabelled_twice : Distinct ⟨9⟩ [("A", twiceCallingMethod)] ∧
    (∀ entry ∈ [("A", twiceCallingMethod)], entry.2.WellLabelled) ∧
    (∀ name c, branchingClasses.lookup name = some c → ∀ m ∈ c.methods, m.WellLabelled) ∧
    List.Forall₂ (fun _ attempt => ∀ count, attempt.result = .ok count → attempt.value.WellLabelled)
      [("A", twiceCallingMethod)] (inlineAll [("A", twiceCallingMethod)]
        ⟨{ policy := ⟨["kotlin/"]⟩, classPath := branchingClasses, barred := ∅ }, {}, ⟨9⟩⟩).1 := by
  have distinct : Distinct ⟨9⟩ [("A", twiceCallingMethod)] := by
    constructor <;> decide
  have callers : ∀ entry ∈ [("A", twiceCallingMethod)], entry.2.WellLabelled := by decide
  have shown : ∀ c ∈ branchingClasses.shown, ∀ m ∈ c.methods, m.WellLabelled := by decide
  have callees : ∀ name c, branchingClasses.lookup name = some c → ∀ m ∈ c.methods, m.WellLabelled :=
    fun name c found => shown c (ClassPath.mem_of_lookup found).2
  exact ⟨distinct, callers, callees, (inlineAll_wellLabelled rfl ∅ distinct callers callees).1⟩

end Inlining

end Bytecode
