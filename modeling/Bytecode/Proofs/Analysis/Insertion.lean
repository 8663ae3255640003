import Bytecode.Proofs.Analysis.Lockstep
import Bytecode.Proofs.Analysis.Relocation
import Bytecode.Proofs.Weaving

/-!
# Analyses of edited methods

`m.woven block` is a method with a block in front of each node, announced as modified, so that the height
of its stack is unknown. Its analysis is told about in terms of the old body: `holds j k` says of frames
what is to hold in front of the node at `j` when `k` instructions of its block have been executed. If what
is said `Guides` the analysis, then it has a result, and all its frames are as told
(`analyze_of_guides`).
-/

namespace Bytecode.Analysis

open Tokens (movement? operationMovement)

/-- A property that survives without failures does so with failures allowed. -/
theorem Leads.allow {ε α : Type} {x : Except ε α} {result : α → Prop} (h : Leads False x result) :
    Leads True x result := by
  obtain ⟨a, rfl, done⟩ := h.exists_ok
  exact done

theorem Confines.allow {ctx : Context} {fits : Nat → Frame → Prop} (h : Confines False ctx fits) :
    Confines True ctx fits where
  joins := fun i f g hf hg s => (h.joins i f g hf hg s).allow
  executes := fun i insn f at_position fitting s =>
    (h.executes i insn f at_position fitting s).allow.mono fun _ goes => goes.allow
  handles := fun i f r fitting member covers s => (h.handles i f r fitting member covers s).allow

/-- The positions of ranges are positions of the body. -/
theorem inside_of_coveredRanges {m : Method} {ranges : List CoveredRange}
    (covered : m.coveredRanges m.body.lastLabels = some ranges) : ∀ r ∈ ranges, r.Inside m.body := by
  intro r member
  obtain ⟨range, -, known⟩ := exists_of_mem_right (forall₂_of_mapM covered) member
  unfold CoveredRange.of at known
  obtain ⟨start, at_start, known⟩ := Option.bind_eq_some_iff.mp known
  obtain ⟨stop, at_stop, known⟩ := Option.bind_eq_some_iff.mp known
  obtain ⟨handler, at_handler, known⟩ := Option.bind_eq_some_iff.mp known
  cases known
  exact ⟨Body.lastLabels_lt at_start, Body.lastLabels_lt at_stop, Body.lastLabels_lt at_handler⟩

/-- What is said of the frames of a method with blocks survives joins, it goes on through blocks and from
nodes to their targets and to the next block, and to the handlers around them. -/
structure Guides (m : Method) (block : Insn → List Insn) (ranges : List CoveredRange)
    (holds : Nat → Nat → Frame → Prop) : Prop where
  joins : ∀ j k f g, holds j k f → holds j k g → ∀ s, Leads False (f.merge g s) fun r => holds j k r.1.1
  inserts : ∀ j insn k x f, m.body[j]? = some insn → (block insn)[k]? = some x → holds j k f → ∀ s,
    Leads False (f.execute (m.body.woven block) (blockAt block m.body.toList j + k) x s) fun r =>
      holds j (k + 1) r.1
  nodes : ∀ j insn f, m.body[j]? = some insn → holds j (block insn).length f → ∀ s,
    Leads False (f.execute (m.body.woven block) (nodeAt block m.body.toList j) insn s) fun r =>
      (∃ targets, m.body.successors m.body.lastLabels Flow.always j insn.node = .ok targets) ∧
        (∀ l ∈ insn.node.targets, ∀ t x, m.body.lastLabels l = some t → m.body[t]? = some x →
          holds t (block x).length r.1) ∧
        (insn.node.fallsThrough Flow.always = true → holds (j + 1) 0 r.1)
  handles : ∀ j insn k f r x, m.body[j]? = some insn → k ≤ (block insn).length → holds j k f → r ∈ ranges →
    (k = (block insn).length → r.covers j = true) → (k < (block insn).length → r.start < j ∧ j ≤ r.stop) →
    m.body[r.handler]? = some x → ∀ s,
    Leads False (Flow.handlerFrame f r.caught s) fun e => holds r.handler (block x).length e.1

section

variable {m : Method} {block : Insn → List Insn} {ranges : List CoveredRange}
  {holds : Nat → Nat → Frame → Prop} {owner : String} {d : MethodDescriptor}

/-- What is said in terms of the old body, at a position of the new one. -/
def Placed (m : Method) (block : Insn → List Insn) (holds : Nat → Nat → Frame → Prop) (p : Nat) (f : Frame) :
    Prop :=
  ∃ j insn k, m.body[j]? = some insn ∧ k ≤ (block insn).length ∧
    p = blockAt block m.body.toList j + k ∧ holds j k f

/-- A position has one reading in terms of the old body. -/
theorem Placed.read {j k : Nat} {insn : Insn} {f : Frame}
    (h : Placed m block holds (blockAt block m.body.toList j + k) f) (there : m.body[j]? = some insn)
    (inside : k ≤ (block insn).length) : holds j k f := by
  obtain ⟨j', insn', k', there', inside', same, here⟩ := h
  obtain ⟨rfl, rfl⟩ := spot_unique block (getElem?_toList there) (getElem?_toList there') inside inside' same
  exact here

/-- What guides the analysis goes on from a node to the places of its targets, and to the next block. -/
theorem placed_of_nodes (through : Through block m.body) (guides : Guides m block ranges holds) {j : Nat}
    {insn : Insn} {f : Frame} (there : m.body[j]? = some insn) (here : holds j (block insn).length f)
    (s : Store) :
    Leads False (f.execute (m.body.woven block) (nodeAt block m.body.toList j) insn s) fun r =>
      Leads False ((m.body.woven block).successors (m.body.woven block).lastLabels Flow.always
        (nodeAt block m.body.toList j) insn.node) fun targets =>
          ∀ t ∈ targets, Placed m block holds t r.1 := by
  refine (guides.nodes j insn f there here s).mono fun r goes => ?_
  obtain ⟨⟨targets, leads⟩, jumping, falling⟩ := goes
  obtain ⟨jumps, found, -, moved⟩ := successors_nodeAt through there leads
  rw [moved]
  intro t member
  rcases List.mem_append.mp member with jumped | fallen
  · obtain ⟨t', member', rfl⟩ := List.mem_map.mp jumped
    obtain ⟨l, mentioned, at_label⟩ := exists_of_mem_right (forall₂_of_mapM found) member'
    have target := Array.getElem?_eq_getElem (Body.lastLabels_lt at_label)
    exact ⟨t', _, _, target, Nat.le_refl _, nodeAt_eq block (getElem?_toList target),
      jumping l mentioned t' _ at_label target⟩
  · split at fallen
    · next falls =>
      obtain rfl := List.mem_singleton.mp fallen
      have inside : j + 1 < m.body.size := by
        unfold Body.successors at leads
        rw [found] at leads
        dsimp only at leads
        rw [if_pos falls] at leads
        split at leads
        · assumption
        · cases leads
      exact ⟨j + 1, _, 0, Array.getElem?_eq_getElem inside, Nat.zero_le _, rfl, falling falls⟩
    · cases fallen

/-- What guides the analysis of a method with blocks confines it. -/
theorem confines_of_guides (through : Through block m.body)
    (covered : m.coveredRanges m.body.lastLabels = some ranges) (guides : Guides m block ranges holds) :
    Confines False ⟨m.body.woven block, (m.body.woven block).lastLabels,
      ranges.map (CoveredRange.moved (nodeAt block m.body.toList))⟩ (Placed m block holds) where
  joins := fun p f g hf hg s => by
    obtain ⟨j, insn, k, there, inside, rfl, here⟩ := hf
    exact (guides.joins j k f g here (hg.read there inside) s).mono fun r joined =>
      ⟨j, insn, k, there, inside, rfl, joined⟩
  executes := fun p x f at_position hf s => by
    obtain ⟨j, insn, k, there, inside, rfl, here⟩ := hf
    rcases Nat.lt_or_eq_of_le inside with block_ | rfl
    · rw [Body.getElem?_blockAt there block_] at at_position
      refine (guides.inserts j insn k x f there at_position here s).mono fun r next => ?_
      rw [successors_blockAt through there at_position]
      intro t member
      obtain rfl := List.mem_singleton.mp member
      exact ⟨j, insn, k + 1, there, block_, rfl, next⟩
    · rw [← nodeAt_eq block (getElem?_toList there)] at at_position ⊢
      rw [Body.getElem?_nodeAt there] at at_position
      obtain rfl : insn = x := Option.some.inj at_position
      exact placed_of_nodes through guides there here s
  handles := fun p f r' hf member covers s => by
    obtain ⟨j, insn, k, there, inside, rfl, here⟩ := hf
    obtain ⟨r, listed, rfl⟩ := List.mem_map.mp member
    have positions := inside_of_coveredRanges covered r listed
    have target := Array.getElem?_eq_getElem positions.2.2
    refine (guides.handles j insn k f r _ there inside here listed (fun last => ?_) (fun before => ?_) target
      s).mono fun e next => ⟨r.handler, _, _, target, Nat.le_refl _,
        nodeAt_eq block (getElem?_toList target), next⟩
    · rwa [last, ← nodeAt_eq block (getElem?_toList there), covers_nodeAt positions there] at covers
    · rw [covers_blockAt positions there before] at covers
      simpa using covers

/-- **Analyses of edited methods.** What guides the analysis of a method with blocks, and holds at the entry,
holds of all frames of the analysis, and the analysis has a result. -/
theorem analyze_of_guides {first : Insn} (start : m.body[0]? = some first) (through : Through block m.body)
    (parsed : MethodDescriptor.parse m.descriptor = .ok d)
    (covered : m.coveredRanges m.body.lastLabels = some ranges) (guides : Guides m block ranges holds)
    (entry : holds 0 0 (entryOf owner (m.woven block) d).1) :
    ∃ r, analyze owner (m.woven block) = .ok r ∧ ∀ j insn k f, m.body[j]? = some insn →
      k ≤ (block insn).length → r.frameAt (blockAt block m.body.toList j + k) = some f → holds j k f := by
  have confines := confines_of_guides through covered guides
  have covered' : (m.woven block).coveredRanges (m.woven block).body.lastLabels =
      some (ranges.map (CoveredRange.moved (nodeAt block m.body.toList))) :=
    coveredRanges_woven through rfl covered
  have begins : Placed m block holds 0 (entryOf owner (m.woven block) d).1 :=
    ⟨0, first, 0, start, Nat.zero_le _, by simp, entry⟩
  have at_node : (m.woven block).body[nodeAt block m.body.toList 0]? = some first :=
    Body.getElem?_nodeAt start
  have nonempty : 0 < (m.woven block).body.size :=
    Nat.zero_lt_of_lt (Array.getElem?_eq_some_iff.mp at_node).1
  obtain ⟨r, analyzed⟩ := analyze_of_confined nonempty parsed covered' confines begins
  refine ⟨r, analyzed, fun j insn k f there inside here => ?_⟩
  exact Placed.read (analyze_confined analyzed nonempty parsed covered' confines.allow begins _ f here) there
    inside

/-! ## Edges -/

/-- What arrives behind a node: `after` at its targets and at the next position, and the entries of
handlers. Positions of the old body are found at their places. -/
structure Edges (m : Method) (ranges : List CoveredRange) (frames : Nat → Option Frame) (place : Nat → Nat)
    (next j : Nat) (insn : Insn) (before after : Frame) : Prop where
  executed : ∃ body index s s', before.execute body index insn s = .ok (after, s')
  jumps : ∀ l ∈ insn.node.targets, ∀ t, m.body.lastLabels l = some t → Arrives frames (place t) after
  falls : insn.node.fallsThrough Flow.always = true → Arrives frames next after
  handled : ∀ r ∈ ranges, r.covers j = true → ∃ s entry s',
    Flow.handlerFrame before r.caught s = .ok (entry, s') ∧ Arrives frames (place r.handler) entry

/-- Where there is a frame there is an instruction. -/
theorem exists_insn_of_frameAt {r : Frames} (analyzed : analyze owner m = .ok r) {i : Nat} {f : Frame}
    (here : r.frameAt i = some f) : ∃ insn, m.body[i]? = some insn := by
  have inside : i < m.body.size := by
    by_contra outside
    rw [← size_of_analyze analyzed] at outside
    rw [Frames.frameAt, Array.getElem?_eq_none (Nat.not_lt.mp outside)] at here
    cases here
  exact ⟨_, Array.getElem?_eq_getElem inside⟩

/-- Instructions of one identity stand at one position. -/
theorem position_unique {body : Body} (distinct : (body.toList.map Insn.id).Nodup) {i j : Nat} {x y : Insn}
    (at_position : body[i]? = some x) (at_position' : body[j]? = some y) (same : x.id = y.id) : i = j := by
  have found := Body.insnPositions_complete distinct at_position
  rw [same, Body.insnPositions_complete distinct at_position'] at found
  exact (Option.some.inj found).symm

/-- What is known of a position with a frame. -/
theorem settled_of_analyze {r : Frames} (analyzed : analyze owner m = .ok r)
    (covered : m.coveredRanges m.body.lastLabels = some ranges) {i : Nat} {insn : Insn} {f : Frame}
    (there : m.body[i]? = some insn) (here : r.frameAt i = some f) : ∃ after targets,
      (∃ s s', f.execute m.body i insn s = .ok (after, s')) ∧
      m.body.successors m.body.lastLabels Flow.always i insn.node = .ok targets ∧
      (∀ t ∈ targets, Arrives r.frameAt t after) ∧
      ∀ range ∈ ranges, range.covers i = true → ∃ s entry s',
        Flow.handlerFrame f range.caught s = .ok (entry, s') ∧ Arrives r.frameAt range.handler entry := by
  have nonempty : 0 < m.body.size := Nat.zero_lt_of_lt (Array.getElem?_eq_some_iff.mp there).1
  obtain ⟨d, ranges', made, entry, count, -, covered', -, -, fixpoint⟩ :=
    postFixpoint_of_analyze analyzed nonempty fun _ _ _ => True.intro
  obtain rfl : ranges = ranges' := Option.some.inj (covered.symm.trans covered')
  cases fixpoint.settled i f here with
  | intro at_position recorded made_before executed successors arrives handled visited =>
    obtain rfl : insn = _ := Option.some.inj (there.symm.trans at_position)
    exact ⟨_, _, ⟨_, _, executed⟩, successors, arrives, handled⟩

/-- The edges of a position with a frame. -/
theorem edges_of_analyze {r : Frames} (analyzed : analyze owner m = .ok r)
    (covered : m.coveredRanges m.body.lastLabels = some ranges) {j : Nat} {insn : Insn} {f : Frame}
    (there : m.body[j]? = some insn) (here : r.frameAt j = some f) :
    (∃ targets, m.body.successors m.body.lastLabels Flow.always j insn.node = .ok targets) ∧
      ∃ after, Edges m ranges r.frameAt id (j + 1) j insn f after := by
  obtain ⟨after, targets, ⟨s, s', executed⟩, leads, arrives, handled⟩ :=
    settled_of_analyze analyzed covered there here
  exact ⟨⟨targets, leads⟩, after, ⟨_, _, s, s', executed⟩,
    fun l mentioned t at_label => arrives t (mem_successors_of_target leads mentioned at_label),
    fun falls => arrives _ (mem_successors_of_next leads falls), handled⟩

/-- The edges of a node of a method with blocks that has a frame. -/
theorem edges_of_woven {r : Frames} (analyzed : analyze owner (m.woven block) = .ok r)
    (through : Through block m.body) (covered : m.coveredRanges m.body.lastLabels = some ranges) {j : Nat}
    {insn : Insn} {f : Frame} (there : m.body[j]? = some insn)
    (leads : ∃ targets, m.body.successors m.body.lastLabels Flow.always j insn.node = .ok targets)
    (here : r.frameAt (nodeAt block m.body.toList j) = some f) :
    ∃ after, Edges m ranges r.frameAt (nodeAt block m.body.toList) (blockAt block m.body.toList (j + 1)) j insn f
      after := by
  have covered' : (m.woven block).coveredRanges (m.woven block).body.lastLabels =
      some (ranges.map (CoveredRange.moved (nodeAt block m.body.toList))) :=
    coveredRanges_woven through rfl covered
  obtain ⟨targets, leads⟩ := leads
  obtain ⟨jumps, found, -, goes⟩ := successors_nodeAt through there leads
  obtain ⟨after, moved, ⟨s, s', executed⟩, leads', arrives, handled⟩ :=
    settled_of_analyze analyzed covered' (Body.getElem?_nodeAt there) here
  cases goes.symm.trans leads'
  refine ⟨after, ⟨_, _, s, s', executed⟩, fun l mentioned t at_label => ?_, fun falls => ?_,
    fun range member covers => ?_⟩
  · obtain ⟨t', member, at_label'⟩ := exists_of_mem_right (forall₂_of_mapM found).flip mentioned
    cases at_label.symm.trans at_label'
    exact arrives _ (List.mem_append_left _ (List.mem_map_of_mem member))
  · exact arrives _ (by simp [falls])
  · exact handled (range.moved _) (List.mem_map_of_mem member)
      (by rwa [covers_nodeAt (inside_of_coveredRanges covered range member) there])

/-- From a node of a block its frame goes on to the next position. -/
theorem step_of_block {r : Frames} (analyzed : analyze owner (m.woven block) = .ok r)
    (through : Through block m.body) (covered : m.coveredRanges m.body.lastLabels = some ranges) {j k : Nat}
    {insn x : Insn} {f : Frame} (there : m.body[j]? = some insn) (inside : (block insn)[k]? = some x)
    (here : r.frameAt (blockAt block m.body.toList j + k) = some f) : ∃ after body index s s',
      f.execute body index x s = .ok (after, s') ∧
      Arrives r.frameAt (blockAt block m.body.toList j + (k + 1)) after := by
  have covered' : (m.woven block).coveredRanges (m.woven block).body.lastLabels =
      some (ranges.map (CoveredRange.moved (nodeAt block m.body.toList))) :=
    coveredRanges_woven through rfl covered
  have at_block : (m.woven block).body[blockAt block m.body.toList j + k]? = some x :=
    (Body.getElem?_blockAt there (List.getElem?_eq_some_iff.mp inside).1).trans inside
  obtain ⟨after, targets, ⟨s, s', executed⟩, leads, arrives, -⟩ :=
    settled_of_analyze analyzed covered' at_block here
  have goes := successors_blockAt through there inside (m.woven block).body.lastLabels Flow.always
  cases goes.symm.trans leads
  exact ⟨after, _, _, s, s', executed, arrives _ (List.mem_singleton.mpr rfl)⟩

end

/-- A node that makes an entry is passed through. -/
theorem straight_of_makes {node : Node} (h : makes node = true) : node.Straight := by
  cases node with
  | simple op =>
    have quiet (operands : Nat) (other : binaryKind (.simple op) = none)
        (none : Transfer.unaryKind (.simple op) = none) (unpushed : pushes (.simple op) = false) :
        yields (.simple op) operands = false := by
      rcases operands with _ | _ | _ | _
      · exact unpushed
      · exact congrArg Option.isSome none
      · exact congrArg Option.isSome other
      · rfl
    have on : (Node.simple op).fallsThrough Flow.always = true := by
      refine fallsThrough_simple (fun kind leaves => ?_) fun throws => ?_
      · have still (operands : Nat) : yields (.simple op) operands = false :=
          quiet operands (by simp [binaryKind, leaves]) (by simp [Transfer.unaryKind, leaves])
            (by simp [pushes, leaves])
        cases kind <;> simp [makes, movement?, leaves, operationMovement, still] at h
      · have still (operands : Nat) : yields (.simple op) operands = false :=
          quiet operands (by simp [binaryKind, throws]) (by simp [Transfer.unaryKind, throws])
            (by simp [pushes, throws])
        simp [makes, movement?, throws, operationMovement, still] at h
    exact ⟨rfl, fun _ => on, fun _ => rfl⟩
  | jump op target =>
    have none (operands : Nat) : yields (.jump op target) operands = false := by
      rcases operands with _ | _ | _ | _ <;> rfl
    cases form : JumpForm.ofOpcode op <;> simp [makes, movement?, form, Tokens.jumpMovement, none] at h
  | tableSwitch => cases h
  | lookupSwitch => cases h
  | label => cases h
  | _ => exact ⟨rfl, fun _ => rfl, fun _ => rfl⟩

end Bytecode.Analysis
