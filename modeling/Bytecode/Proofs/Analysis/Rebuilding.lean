import Bytecode.Proofs.Analysis.Spilling

/-!
# Stacks rebuilt

With the stores and the loads of `Inspection.spill` in front of an instruction, the analysis of a method is as
before: it does not fail, and its frames claim neither more nor less than the old ones
(`spill_rebuilds`).
-/

namespace Bytecode.Analysis

/-! ## Frames of the method with stores and loads -/

/-- What holds of the frames of a method with stores and loads in front of one instruction: elsewhere they
are shadows of the old ones. -/
def Refilled (frames : Nat → Option Frame) (width i base : Nat) (values : List Value) (j k : Nat)
    (x : Frame) : Prop :=
  ∃ g, frames j = some g ∧ (j = i → Refilling width base values g k x) ∧
    (j ≠ i → Shadows True (Value.Within True) width x g)

/-- The end of a range is a label. -/
theorem marks_of_stop {m : Method} {ranges : List CoveredRange}
    (covered : m.coveredRanges m.body.lastLabels = some ranges) {range : CoveredRange}
    (member : range ∈ ranges) :
    ∃ insn l, m.body[range.stop]? = some insn ∧ insn.node.marks l = true := by
  obtain ⟨exception, -, known⟩ := exists_of_mem_right (forall₂_of_mapM covered) member
  unfold CoveredRange.of at known
  obtain ⟨start, -, known⟩ := Option.bind_eq_some_iff.mp known
  obtain ⟨stop, at_stop, known⟩ := Option.bind_eq_some_iff.mp known
  obtain ⟨handler, -, known⟩ := Option.bind_eq_some_iff.mp known
  cases known
  obtain ⟨insn, there, marks⟩ := getElem?_of_lastLabel at_stop
  exact ⟨insn, exception.stop, by rwa [Array.getElem?_toList] at there, marks⟩

section

variable {owner : String} {m : Method} {r r' : Frames} {block : Insn → List Insn} {i j k base width : Nat}
  {values : List Value} {stores loads : List Node} {ranges : List CoveredRange} {y : Insn} {g x : Frame}

theorem Refills.length_block (refills : Refills m r.frameAt block i base values stores loads)
    (there : m.body[i]? = some y) : (block y).length = 2 * values.length := by
  obtain ⟨insn, there', -, nodes⟩ := refills.insn
  cases there.symm.trans there'
  rw [← List.length_map (f := Insn.node), nodes, List.length_append, List.length_reverse, refills.spills.counts.1,
    refills.spills.counts.2]
  omega

/-- Only accesses to local variables stand in the block. -/
theorem Refills.accesses (refills : Refills m r.frameAt block i base values stores loads)
    (member : y ∈ m.body)
    {z : Insn} (inside : z ∈ block y) : ∃ op slot, z.node = .var op slot := by
  obtain ⟨j, there⟩ := Array.mem_iff_getElem?.mp member
  by_cases same : j = i
  · subst same
    obtain ⟨insn, there', -, nodes⟩ := refills.insn
    cases there.symm.trans there'
    have node : z.node ∈ stores ++ loads.reverse := nodes ▸ List.mem_map_of_mem inside
    rcases List.mem_append.mp node with stored | loaded
    · obtain ⟨c, at_c⟩ := List.mem_iff_getElem?.mp stored
      have few := (List.getElem?_eq_some_iff.mp at_c).1
      rw [refills.spills.counts.1] at few
      obtain ⟨op, slot, -, at_c', -⟩ := refills.spills.store c _ (List.getElem?_eq_getElem few)
      exact ⟨op, slot, Option.some.inj (at_c.symm.trans at_c')⟩
    · obtain ⟨c, at_c⟩ := List.mem_iff_getElem?.mp (List.mem_reverse.mp loaded)
      have few := (List.getElem?_eq_some_iff.mp at_c).1
      rw [refills.spills.counts.2] at few
      obtain ⟨op, slot, -, at_c', -⟩ := refills.spills.load c _ (List.getElem?_eq_getElem few)
      exact ⟨op, slot, Option.some.inj (at_c.symm.trans at_c')⟩
  · rw [refills.others j y there same] at inside
    cases inside

/-- Stores and loads are passed through. -/
theorem Refills.through (refills : Refills m r.frameAt block i base values stores loads) :
    Through block m.body := by
  intro insn member x inside
  obtain ⟨op, slot, node⟩ := refills.accesses member inside
  rw [node]
  exact ⟨rfl, fun _ => rfl, fun _ => rfl⟩

/-- Stores and loads allocate nothing and call nothing. -/
theorem Refills.allowed (refills : Refills m r.frameAt block i base values stores loads)
    (allowed : ∀ insn ∈ m.body, insn.node ≠ .type Opcode.new builderClass ∧ NarrowConcat insn.node) :
    ∀ insn ∈ (m.woven block).body, insn.node ≠ .type Opcode.new builderClass ∧ NarrowConcat insn.node := by
  intro x member
  have member : x ∈ m.body.woven block := member
  obtain ⟨insn, inside, here⟩ := List.mem_flatMap.mp (List.mem_toArray.mp member)
  have inside := Array.mem_toList_iff.mp inside
  rcases List.mem_append.mp here with before | same
  · obtain ⟨op, slot, node⟩ := refills.accesses inside before
    rw [node]
    exact ⟨nofun, by intro _ _ _ _ other; cases other⟩
  · rw [List.mem_singleton.mp same]
    exact allowed insn inside

/-- In front of a node a shadow of its frame is as told. -/
theorem Refills.at_node (refills : Refills m r.frameAt block i base values stores loads)
    (there : m.body[j]? = some y) (here : r.frameAt j = some g)
    (shadow : Shadows True (Value.Within True) width x g) :
    Refilled r.frameAt width i base values j (block y).length x := by
  refine ⟨g, here, fun same => ?_, fun _ => shadow⟩
  subst same
  rw [refills.length_block there]
  exact refilling_last.mpr shadow

/-- In front of the block of a node a shadow of its frame is as told. -/
theorem Refills.at_block (refills : Refills m r.frameAt block i base values stores loads)
    (here : r.frameAt j = some g) (shadow : Shadows True (Value.Within True) width x g) :
    Refilled r.frameAt width i base values j 0 x := by
  refine ⟨g, here, fun same => ?_, fun _ => shadow⟩
  subst same
  obtain ⟨g', -, here', locals, -⟩ := refills.frame
  cases here.symm.trans here'
  exact refilling_first shadow locals refills.spills

/-- In front of a node what is told is that its frame is shadowed. -/
theorem Refills.shadows (refills : Refills m r.frameAt block i base values stores loads)
    (there : m.body[j]? = some y) (h : Refilled r.frameAt width i base values j (block y).length x) :
    ∃ g, r.frameAt j = some g ∧ Shadows True (Value.Within True) width x g := by
  obtain ⟨g, here, inside, outside⟩ := h
  refine ⟨g, here, ?_⟩
  by_cases same : j = i
  · subst same
    have last := inside rfl
    rw [refills.length_block there] at last
    exact refilling_last.mp last
  · exact outside same

/-- Two frames at one position can be joined. -/
theorem Refilled.merge {f f' : Frame} (matched : ∀ i f, r.frameAt i = some f → f.Every Value.Matched)
    (h : Refilled r.frameAt width i base values j k f) (h' : Refilled r.frameAt width i base values j k f')
    (s : Store) :
    Leads False (f.merge f' s) fun e => Refilled r.frameAt width i base values j k e.1.1 := by
  obtain ⟨g, here, inside, outside⟩ := h
  obtain ⟨g', here', inside', outside'⟩ := h'
  cases here.symm.trans here'
  by_cases same : j = i
  · exact ((inside same).merge (inside' same) (matched j g here) s).mono fun e joined =>
      ⟨g, here, fun _ => joined, absurd same⟩
  · exact ((outside same).merge (outside' same) (comparison_within True) (fun _ => matched j g here) s).mono
      fun e joined => ⟨g, here, fun equal => absurd equal same, fun _ => joined⟩

/-- An instruction of the block is executed. -/
theorem Refills.inserts (refills : Refills m r.frameAt block i base values stores loads)
    (room : ∀ c v, values[c]? = some v → slotFrom base values c + v.size ≤ width) {f : Frame} {z : Insn}
    (there : m.body[j]? = some y) (inside : (block y)[k]? = some z)
    (h : Refilled r.frameAt width i base values j k f) (body : Body) (index : Nat) (s : Store) :
    Leads False (f.execute body index z s) fun e => Refilled r.frameAt width i base values j (k + 1) e.1 := by
  by_cases same : j = i
  · subst same
    obtain ⟨g, here, within, -⟩ := h
    exact (refills.step room there inside here (within rfl) body index s).mono fun e stepped =>
      ⟨g, here, fun _ => stepped.1, absurd rfl⟩
  · rw [refills.others j y there same] at inside
    cases inside

/-- A node is executed on a shadow as before. -/
theorem Refills.nodes (refills : Refills m r.frameAt block i base values stores loads)
    (analyzed : analyze owner m = .ok r) (covered : m.coveredRanges m.body.lastLabels = some ranges)
    (decided : Decided m.body r.frameAt)
    (allowed : ∀ insn ∈ m.body, insn.node ≠ .type Opcode.new builderClass ∧ NarrowConcat insn.node)
    (matched : ∀ i f, r.frameAt i = some f → f.Every Value.Matched)
    (reaches : ∀ j insn g x, m.body[j]? = some insn → r.frameAt j = some g →
      Shadows True (Value.Within True) width x g → x.Reaches insn.node) {f : Frame}
    (there : m.body[j]? = some y) (h : Refilled r.frameAt width i base values j (block y).length f)
    (body : Body) (index : Nat) (s : Store) : Leads False (f.execute body index y s) fun e =>
      (∃ targets, m.body.successors m.body.lastLabels Flow.always j y.node = .ok targets) ∧
        (∀ l ∈ y.node.targets, ∀ t x, m.body.lastLabels l = some t → m.body[t]? = some x →
          Refilled r.frameAt width i base values t (block x).length e.1) ∧
        (y.node.fallsThrough Flow.always = true → Refilled r.frameAt width i base values (j + 1) 0 e.1) := by
  have compares := comparison_within True
  have good (j : Nat) (f : Frame) (here : r.frameAt j = some f) (_ : True) := matched j f here
  obtain ⟨g, here, shadow⟩ := refills.shadows there h
  obtain ⟨leads, after, edges⟩ := edges_of_analyze analyzed covered there here
  obtain ⟨b, p, t, t', executed⟩ := edges.executed
  refine (shadow.execute compares (good j g here) (fun _ => allowed y (Array.mem_of_getElem? there))
    (decided j y g there here) (reaches j y g f there here shadow) executed s).mono fun e passed =>
      ⟨leads, ?_, ?_⟩
  all_goals have behind := passed.shadows fun u v twins => twins.within
  · intro l mentioned target x at_label at_target
    obtain ⟨h, next, arrived⟩ := behind.arrives compares good (edges.jumps l mentioned target at_label)
    exact refills.at_node at_target next arrived
  · intro falls
    obtain ⟨h, next, arrived⟩ := behind.arrives compares good (edges.falls falls)
    exact refills.at_block next arrived

/-- A range that covers the block covers the instruction behind it: it ends with a label. -/
theorem Refills.covers (refills : Refills m r.frameAt block i base values stores loads)
    (covered : m.coveredRanges m.body.lastLabels = some ranges) {range : CoveredRange}
    (member : range ∈ ranges)
    (around : range.start < i ∧ i ≤ range.stop) : range.covers i = true := by
  have apart : i ≠ range.stop := by
    rintro rfl
    obtain ⟨insn, there, real, -⟩ := refills.insn
    obtain ⟨label, l, at_stop, marks⟩ := marks_of_stop covered member
    cases there.symm.trans at_stop
    rw [Node.marks_of_real real] at marks
    cases marks
  rw [CoveredRange.covers, Bool.and_eq_true, decide_eq_true_eq, decide_eq_true_eq]
  omega

/-- Handlers catch shadows: they do not look at the stack. -/
theorem Refills.handles (refills : Refills m r.frameAt block i base values stores loads)
    (analyzed : analyze owner m = .ok r) (covered : m.coveredRanges m.body.lastLabels = some ranges)
    (matched : ∀ i f, r.frameAt i = some f → f.Every Value.Matched) {f : Frame} {z : Insn}
    {range : CoveredRange}
    (there : m.body[j]? = some y) (inside : k ≤ (block y).length)
    (h : Refilled r.frameAt width i base values j k f) (member : range ∈ ranges)
    (last : k = (block y).length → range.covers j = true)
    (before : k < (block y).length → range.start < j ∧ j ≤ range.stop)
    (target : m.body[range.handler]? = some z) (s : Store) :
    Leads False (Flow.handlerFrame f range.caught s) fun e =>
      Refilled r.frameAt width i base values range.handler (block z).length e.1 := by
  have good (j : Nat) (f : Frame) (here : r.frameAt j = some f) (_ : True) := matched j f here
  obtain ⟨slots, g, here, covers, shadow⟩ : ∃ slots g, r.frameAt j = some g ∧ range.covers j = true ∧
      Shadows True (Value.Within True) width (f.gathered slots) g := by
    rcases Nat.lt_or_eq_of_le inside with in_front | at_end
    · obtain rfl : j = i := by
        by_contra apart
        rw [refills.others j y there apart] at in_front
        cases in_front
      obtain ⟨g, here, within, -⟩ := h
      exact ⟨_, g, here, refills.covers covered member (before in_front), (within rfl).shadow⟩
    · subst at_end
      obtain ⟨g, here, shadow⟩ := refills.shadows there h
      exact ⟨[], g, here, last rfl, shadow⟩
  obtain ⟨-, after, edges⟩ := edges_of_analyze analyzed covered there here
  obtain ⟨t, entry, t', entered, arrives⟩ := edges.handled range member covers
  refine Leads.mono (shadow.catches (comparison_within True) entered s) fun e caught => ?_
  obtain ⟨h, next, arrived⟩ := caught.arrives (comparison_within True) good arrives
  exact refills.at_node target next arrived

/-- **Stores and loads guide the analysis.** -/
theorem guides_of_refills (analyzed : analyze owner m = .ok r)
    (covered : m.coveredRanges m.body.lastLabels = some ranges) (decided : Decided m.body r.frameAt)
    (allowed : ∀ insn ∈ m.body, insn.node ≠ .type Opcode.new builderClass ∧ NarrowConcat insn.node)
    (matched : ∀ i f, r.frameAt i = some f → f.Every Value.Matched)
    (refills : Refills m r.frameAt block i base values stores loads)
    (room : ∀ c v, values[c]? = some v → slotFrom base values c + v.size ≤ width)
    (reaches : ∀ j insn g x, m.body[j]? = some insn → r.frameAt j = some g →
      Shadows True (Value.Within True) width x g → x.Reaches insn.node) :
    Guides m block ranges (Refilled r.frameAt width i base values) where
  joins := fun _ _ _ _ hf hf' s => hf.merge matched hf' s
  inserts := fun _ _ _ _ _ there inside hf s => refills.inserts room there inside hf _ _ s
  nodes := fun _ _ _ there hf s => refills.nodes analyzed covered decided allowed matched reaches there hf _ _ s
  handles := fun _ _ _ _ _ _ there inside hf member last before target s =>
    refills.handles analyzed covered matched there inside hf member last before target s

/-! ## Back to the old method -/

/-- Going through the stores and the loads, a frame that claims no less than slots and stack together in
front of them does so behind them. -/
theorem carried_through (analyzed' : analyze owner (m.woven block) = .ok r')
    (covered : m.coveredRanges m.body.lastLabels = some ranges)
    (matched' : ∀ p x, r'.frameAt p = some x → x.Every Value.Matched)
    (refills : Refills m r.frameAt block i base values stores loads)
    (room : ∀ c v, values[c]? = some v → slotFrom base values c + v.size ≤ width)
    (held : ∀ j insn k f, m.body[j]? = some insn → k ≤ (block insn).length →
      r'.frameAt (blockAt block m.body.toList j + k) = some f → Refilled r.frameAt width i base values j k f)
    {f : Frame} (there : m.body[i]? = some y) (narrow : f.locals.length ≤ base)
    (start : r'.frameAt (blockAt block m.body.toList i) = some x)
    (tracks : f.Tracks True (Value.Within True) x)
    (few : k ≤ 2 * values.length) :
    ∃ e, r'.frameAt (blockAt block m.body.toList i + k) = some e ∧ f.Tracks True (Value.Within True)
      (e.gathered (slotsFrom base values (heldAfter values.length k))) := by
  have count := refills.length_block there
  -- on the instructions of the block; each keeps what slots and stack together claim
  induction k with
  | zero =>
    have none_ : heldAfter values.length 0 = 0 := Nat.zero_min _
    rw [none_]
    exact ⟨x, start, tracks⟩
  | succ k ih =>
    obtain ⟨e, here, tracks⟩ := ih (by omega)
    obtain ⟨g, old, within, -⟩ := held i y k e there (by omega) here
    have inside := List.getElem?_eq_getElem (l := block y) (i := k) (by omega)
    obtain ⟨after, b, p, s, s', executed, next, arrives, less⟩ :=
      step_of_block analyzed' refills.through covered there inside here
    have stepped := refills.step room there inside old (within rfl) b p s
    rw [executed] at stepped
    obtain ⟨-, resembles⟩ := stepped
    refine ⟨next, arrives, ?_⟩
    have same : f.Tracks True (Value.Within True)
        (after.gathered (slotsFrom base values (heldAfter values.length (k + 1)))) := by
      have locals (n : Nat) (inside : n < f.locals.length) := resembles.locals n (by omega)
      refine ⟨?_, fun n u v hu hv => ?_, fun n u hu _ wide => ?_⟩
      · refine forall₂_of_getElem? (tracks.stack.length_eq.trans resembles.stack.length_eq) fun n u w hu hw => ?_
        obtain ⟨v, hv, claims⟩ := getElem?_of_forall₂ resembles.stack hw
        exact claims.within' (rel_of_getElem? tracks.stack hu hv)
      · rw [locals n (List.getElem?_eq_some_iff.mp hu).1] at hv
        exact tracks.locals n u v hu hv
      · rw [resembles.width] at *
        exact tracks.room n u hu ‹_› wide
    exact same.below (comparison_within True) (gathered_le less) fun _ =>
      gathered_matched (matched' _ next arrives)

/-- **Nothing is lost.** Frames of the method with stores and loads claim no less than the old ones. -/
theorem carries_of_refills (analyzed : analyze owner m = .ok r)
    (analyzed' : analyze owner (m.woven block) = .ok r')
    (covered : m.coveredRanges m.body.lastLabels = some ranges)
    (allowed : ∀ insn ∈ m.body, insn.node ≠ .type Opcode.new builderClass ∧ NarrowConcat insn.node)
    (matched : ∀ i f, r.frameAt i = some f → f.Every Value.Matched)
    (matched' : ∀ p x, r'.frameAt p = some x → x.Every Value.Matched)
    (refills : Refills m r.frameAt block i base values stores loads)
    (room : ∀ c v, values[c]? = some v → slotFrom base values c + v.size ≤ width)
    (held : ∀ j insn k f, m.body[j]? = some insn → k ≤ (block insn).length →
      r'.frameAt (blockAt block m.body.toList j + k) = some f → Refilled r.frameAt width i base values j k f) :
    Carries m block True (Value.Within True) r.frameAt r'.frameAt where
  matched := fun _ => ⟨matched, matched'⟩
  allowed := fun _ => allowed
  tracks := fun j insn x there here => by
    rw [nodeAt_eq block (getElem?_toList there)] at here
    obtain ⟨g, old, shadow⟩ := refills.shadows there (held j insn _ x there (Nat.le_refl _) here)
    exact ⟨_, g, comparison_within True, old, shadow.tracks⟩
  jumps := fun _ _ _ _ _ twins => twins.within
  falls := fun j insn f f' g after x x' _ _ width' arrives steps' arrives' => by
    have behind := steps'.tracks fun u v twins => twins.within
    obtain ⟨e, here, tracks⟩ := arrives'.tracks behind (comparison_within True) fun _ => matched'
    by_cases same : j + 1 = i
    · -- control goes on through the block
      subst same
      obtain ⟨y, there, -⟩ := refills.insn
      obtain ⟨g', -, old, locals, -⟩ := refills.frame
      obtain ⟨h, old', less⟩ := arrives
      cases old.symm.trans old'
      have narrow : f'.locals.length ≤ base := by
        rw [width', less.locals.length_eq, locals]
      obtain ⟨e', here', tracks'⟩ := carried_through analyzed' covered matched' refills room held there narrow
        here tracks (Nat.le_refl _)
      have none_ : heldAfter values.length (2 * values.length) = 0 := by unfold heldAfter; omega
      rw [none_] at tracks'
      rw [nodeAt_eq block (getElem?_toList there), refills.length_block there]
      exact ⟨e', here', tracks'⟩
    · obtain ⟨h, next, -⟩ := arrives
      obtain ⟨y, there⟩ := exists_insn_of_frameAt analyzed next
      rw [nodeAt_eq block (getElem?_toList there), refills.others _ y there same]
      exact ⟨e, here, tracks⟩

/-- Values that claim no more than each other claim the same. -/
theorem same_of_within {u v : Value} (h : v.Within True u) (h' : u.Within True v) : u.Same v := by
  refine ⟨?_, ?_⟩
  · rcases h.kind with same | unknown
    · exact same.symm
    · rcases h'.kind with same | unknown'
      · exact same
      · exact unknown'.trans unknown.symm
  · cases known : u.literal with
    | some l => exact h.literal trivial l known
    | none =>
      cases known' : v.literal with
      | none => rfl
      | some l =>
        have := h'.literal trivial l known'
        rw [known] at this
        cases this

/-- The method with the stores and the loads has the slots that they use. -/
theorem Refills.room (refills : Refills m r.frameAt block i base values stores loads) (d : MethodDescriptor) :
    ∀ c v, values[c]? = some v →
      slotFrom base values c + v.size ≤ (entryOf owner (m.woven block) d).1.locals.length := by
  intro c v entry
  obtain ⟨insn, there, -, nodes⟩ := refills.insn
  obtain ⟨op, slot, kind, at_store, -, -, slots⟩ := refills.spills.store c v entry
  have fits := refills.spills.fits c v entry
  have some_ := v.size_pos
  have node : ((block insn).map Insn.node)[c]? = some (.var op slot) := by
    rw [nodes, List.getElem?_append_left (List.getElem?_eq_some_iff.mp at_store).1]
    exact at_store
  rw [List.getElem?_map, Option.map_eq_some_iff] at node
  obtain ⟨y, inside, node⟩ := node
  have at_block : (m.woven block).body[blockAt block m.body.toList i + c]? = some y :=
    (Body.getElem?_blockAt there (List.getElem?_eq_some_iff.mp inside).1).trans inside
  have last : slotFrom base values c + v.size - 1 ∈ y.node.slots := by
    rw [node, slots, List.mem_range'_1]
    omega
  have counted : slotFrom base values c + v.size - 1 < (entryOf owner (m.woven block) d).1.locals.length :=
    slot_of_counted rfl (Array.mem_of_getElem? at_block) last (by omega)
  omega

/-- A method with stores and loads of some entries is accepted, and its frames are as told. -/
theorem accepted_of_refills {d : MethodDescriptor} (analyzed : analyze owner m = .ok r)
    (parsed : MethodDescriptor.parse m.descriptor = .ok d)
    (covered : m.coveredRanges m.body.lastLabels = some ranges) (decided : Decided m.body r.frameAt)
    (allowed : ∀ insn ∈ m.body, insn.node ≠ .type Opcode.new builderClass ∧ NarrowConcat insn.node)
    (matched : ∀ i f, r.frameAt i = some f → f.Every Value.Matched)
    (refills : Refills m r.frameAt block i base values stores loads)
    (room : ∀ c v, values[c]? = some v → slotFrom base values c + v.size ≤ width)
    (wide : (entryOf owner (m.woven block) d).1.locals.length = width)
    (wider : ∀ j f, r.frameAt j = some f → f.locals.length ≤ width) :
    ∃ r', analyze owner (m.woven block) = .ok r' ∧ ∀ j insn k f, m.body[j]? = some insn →
      k ≤ (block insn).length → r'.frameAt (blockAt block m.body.toList j + k) = some f →
        Refilled r.frameAt width i base values j k f := by
  have compares := comparison_within True
  obtain ⟨insn, there, -⟩ := refills.insn
  have nonempty : 0 < m.body.size := Nat.zero_lt_of_lt (Array.getElem?_eq_some_iff.mp there).1
  have reaches (j : Nat) (y : Insn) (f x : Frame) (there : m.body[j]? = some y) (here : r.frameAt j = some f)
      (shadow : Shadows True (Value.Within True) width x f) : x.Reaches y.node := by
    obtain ⟨-, after, edges⟩ := edges_of_analyze analyzed covered there here
    obtain ⟨b, p, t, t', executed⟩ := edges.executed
    exact (reaches_of_execute executed).wider shadow.tracks.stack.length_eq
      (shadow.tracks.asked compares (decided j y f there here)) (shadow.width ▸ wider j f here)
  have guides := guides_of_refills analyzed covered decided allowed matched refills room reaches
  refine analyze_of_guides (Array.getElem?_eq_getElem nonempty) refills.through parsed covered guides ?_
  have shadow : Shadows True (Value.Within True) (entryOf owner (m.woven block) d).1.locals.length
      (entryOf owner (m.woven block) d).1 (entryOf owner m d).1 := entryOf_shadows rfl rfl
  obtain ⟨f, here, arrived⟩ := shadow.arrives compares (fun j f here _ => matched j f here)
    (entry_arrives analyzed parsed nonempty)
  exact refills.at_block here (wide ▸ arrived)

/-- Two frames that track each other, the second of which is no narrower, claim the same. -/
theorem same_of_tracks {f x : Frame} (h : x.Tracks True (Value.Within True) f)
    (h' : f.Tracks True (Value.Within True) x) (wider : f.locals.length ≤ x.locals.length) :
    List.Forall₂ Value.Same f.stack x.stack ∧
      ∀ (k : Nat) u, f.locals[k]? = some u → ∃ u', x.locals[k]? = some u' ∧ u.Same u' := by
  refine ⟨forall₂_of_getElem? h'.stack.length_eq fun k u v hu hv =>
    same_of_within (rel_of_getElem? h.stack hv hu) (rel_of_getElem? h'.stack hu hv), fun k u at_slot => ?_⟩
  have inside := Nat.lt_of_lt_of_le (List.getElem?_eq_some_iff.mp at_slot).1 wider
  have at_slot' := List.getElem?_eq_getElem inside
  exact ⟨_, at_slot', same_of_within (h.locals k _ u at_slot' at_slot) (h'.locals k u _ at_slot at_slot')⟩

/-- In a method with stores and loads of some entries all frames claim the same as before. -/
theorem rebuilt_of_refills (analyzed : analyze owner m = .ok r) (decided : Decided m.body r.frameAt)
    (allowed : ∀ insn ∈ m.body, insn.node ≠ .type Opcode.new builderClass ∧ NarrowConcat insn.node)
    (some_ : values ≠ []) (refills : Refills m r.frameAt block i base values stores loads) :
    ∃ r', analyze owner (m.woven block) = .ok r' ∧ ∀ j insn f, m.body[j]? = some insn → r.frameAt j = some f →
      ∃ f', r'.frameAt (nodeAt block m.body.toList j) = some f' ∧ List.Forall₂ Value.Same f.stack f'.stack ∧
        ∀ (k : Nat) u, f.locals[k]? = some u → ∃ u', f'.locals[k]? = some u' ∧ u.Same u' := by
  obtain ⟨insn, there, -⟩ := refills.insn
  obtain ⟨g, rest, here, locals, stack⟩ := refills.frame
  have nonempty : 0 < m.body.size := Nat.zero_lt_of_lt (Array.getElem?_eq_some_iff.mp there).1
  obtain ⟨d, ranges, -, parsed, covered, -⟩ := analyze_eq_ok analyzed nonempty
  have start := Array.getElem?_eq_getElem nonempty
  have matched := matched_of_analyze analyzed nonempty (fun x member => (allowed x member).1)
    fun x member => (allowed x member).2
  generalize wide : (entryOf owner (m.woven block) d).1.locals.length = width
  have room : ∀ c v, values[c]? = some v → slotFrom base values c + v.size ≤ width := wide ▸ refills.room d
  have wider (j : Nat) (f : Frame) (old : r.frameAt j = some f) : f.locals.length ≤ width := by
    obtain ⟨y, there'⟩ := exists_insn_of_frameAt analyzed old
    rw [width_of_analyze analyzed parsed there' old, ← width_of_analyze analyzed parsed there here, locals]
    have first := room 0 _ (List.getElem?_eq_getElem (List.length_pos_iff.mpr some_))
    exact Nat.le_trans (Nat.le_add_right _ _) (Nat.le_trans (Nat.le_add_right _ _) first)
  obtain ⟨r', analyzed', held⟩ :=
    accepted_of_refills analyzed parsed covered decided allowed matched refills room wide wider
  have at_node : (m.woven block).body[nodeAt block m.body.toList 0]? = some m.body[0] :=
    Body.getElem?_nodeAt start
  have matched' := matched_of_analyze analyzed' (Nat.zero_lt_of_lt (Array.getElem?_eq_some_iff.mp at_node).1)
    (fun x member => (refills.allowed allowed x member).1) fun x member => (refills.allowed allowed x member).2
  have carries := carries_of_refills analyzed analyzed' covered allowed matched matched' refills room held
  have unblocked : block m.body[0] = [] := by
    -- at the entry there is nothing to put aside
    refine refills.others 0 _ start ?_
    rintro rfl
    obtain ⟨f, here', less⟩ := entry_arrives analyzed parsed nonempty
    cases here.symm.trans here'
    have empty := less.stack.length_eq
    rw [stack, List.length_append] at empty
    exact some_ (List.eq_nil_of_length_eq_zero (Nat.eq_zero_of_add_eq_zero_right empty.symm))
  refine ⟨r', analyzed', fun j y f there' old => ?_⟩
  obtain ⟨x, new, tracks⟩ := (carries.between (comparison_within True) analyzed analyzed' refills.through parsed
    covered decided start unblocked old).new
  refine ⟨x, new, ?_⟩
  rw [nodeAt_eq block (getElem?_toList there')] at new
  obtain ⟨f', old', shadow⟩ := refills.shadows there' (held j y _ x there' (Nat.le_refl _) new)
  cases old.symm.trans old'
  exact same_of_tracks shadow.tracks tracks (shadow.width ▸ wider j f old)

end

/-! ## Spills -/

section

variable {owner : String} {m : Method} {r : Frames} {i depth base : Nat} {insn : Insn} {f : Frame}
  {values : List Value} {stores loads : List Node} {block : List Insn}

/-- The slots of different entries do not overlap. -/
theorem Spills.disjoint (h : Spills base values stores loads) :
    stores.Pairwise fun store store' => List.Disjoint store.slots store'.slots := by
  rw [List.pairwise_iff_getElem]
  intro c c' few few' earlier
  have inside : c < values.length := h.counts.1 ▸ few
  have inside' : c' < values.length := h.counts.1 ▸ few'
  obtain ⟨op, slot, -, at_c, -, -, slots⟩ := h.store c _ (List.getElem?_eq_getElem inside)
  obtain ⟨op', slot', -, at_c', -, -, slots'⟩ := h.store c' _ (List.getElem?_eq_getElem inside')
  rw [List.getElem?_eq_getElem few, Option.some.injEq] at at_c
  rw [List.getElem?_eq_getElem few', Option.some.injEq] at at_c'
  rw [at_c, at_c', slots, slots']
  have apart : slotFrom base values c + _ ≤ slotFrom base values c' :=
    slotFrom_apart (List.getElem?_eq_getElem inside) earlier
  intro w member member'
  rw [List.mem_range'_1] at member member'
  omega

/-- Entries are loaded from the slots into which they are stored. -/
theorem Spills.loaded (h : Spills base values stores loads) :
    loads.map Node.slots = stores.map Node.slots := by
  refine List.ext_getElem? fun c => ?_
  rw [List.getElem?_map, List.getElem?_map]
  cases entry : values[c]? with
  | none =>
    have outside := List.getElem?_eq_none_iff.mp entry
    rw [List.getElem?_eq_none (by rwa [h.counts.2]), List.getElem?_eq_none (by rwa [h.counts.1])]
  | some v =>
    obtain ⟨op, slot, -, at_store, -, -, slots⟩ := h.store c v entry
    obtain ⟨op', slot', -, at_load, -, -, slots'⟩ := h.load c v entry
    rw [at_store, at_load, Option.map_some, Option.map_some, slots, slots']

/-- No entry takes a slot below the first one. -/
theorem Spills.from_base (h : Spills base values stores loads) :
    ∀ store ∈ stores, ∀ w ∈ store.slots, base ≤ w := by
  intro store member w accessed
  obtain ⟨c, at_c⟩ := List.mem_iff_getElem?.mp member
  have inside := (List.getElem?_eq_some_iff.mp at_c).1
  rw [h.counts.1] at inside
  obtain ⟨op, slot, -, at_c', -, -, slots⟩ := h.store c _ (List.getElem?_eq_getElem inside)
  cases at_c.symm.trans at_c'
  rw [slots, List.mem_range'_1] at accessed
  exact Nat.le_trans (Nat.le_add_right _ _) accessed.1

theorem nextFreeLocal_eq (frame : r.frame insn.id = some f) :
    Inspection.nextFreeLocal ⟨owner, m, r⟩ insn.id = min f.locals.length 65535 := by
  rw [Inspection.nextFreeLocal, frame, Option.elim_some]

theorem spill_eq (frame : r.frame insn.id = some f) (some_ : 0 < depth) (enough : depth ≤ f.stack.length) :
    Inspection.spill ⟨owner, m, r⟩ insn.id depth =
      (Inspection.spillFrom (.ofNat (min f.locals.length 65535)) (f.stack.take depth)).map id
        (Except.mapError (Failure.analysis owner m.signature)) := by
  rw [Inspection.spill, frame]
  dsimp only
  rw [if_neg (by omega), nextFreeLocal_eq frame]
  rfl

/-- What is stored in front of an instruction: the topmost entries, from the first free slot on. -/
theorem spills_of_spill (analyzed : analyze owner m = .ok r) (distinct : (m.body.toList.map Insn.id).Nodup)
    (there : m.body[i]? = some insn) (here : r.frameAt i = some f) (some_ : 0 < depth)
    (enough : depth ≤ f.stack.length)
    (spilled : Inspection.spill ⟨owner, m, r⟩ insn.id depth = (stores, .ok loads))
    (small : ∀ store ∈ stores, ∀ w ∈ store.slots, w < 65535) :
    Spills f.locals.length (f.stack.take depth) stores loads ∧
      Inspection.nextFreeLocal ⟨owner, m, r⟩ insn.id = f.locals.length := by
  have frame : r.frame insn.id = some f := (frame_eq_frameAt analyzed distinct there).trans here
  have free : Inspection.nextFreeLocal ⟨owner, m, r⟩ insn.id = min f.locals.length 65535 :=
    nextFreeLocal_eq frame
  rw [spill_eq frame some_ enough] at spilled
  cases made : Inspection.spillFrom (.ofNat (min f.locals.length 65535)) (f.stack.take depth) with
  | mk stores' result =>
    rw [made] at spilled
    cases result with
    | error e => cases spilled
    | ok loads' =>
      cases spilled
      have spills := spills_of_spillFrom made small
      rw [UInt16.toNat_ofNat_of_lt' (by unfold UInt16.size; omega)] at spills
      have inside : 0 < (f.stack.take depth).length := by
        rw [List.length_take]
        omega
      have first := spills.fits 0 _ (List.getElem?_eq_getElem inside)
      have := (f.stack.take depth)[0].size_pos
      have whole : min f.locals.length 65535 = f.locals.length := by
        simp only [slotFrom, List.take_zero, total_nil] at first
        omega
      rw [whole] at spills free
      exact ⟨spills, free⟩

/-- The block that is requested before one instruction. -/
theorem blockOf_single (y : Insn) :
    EditBatch.blockOf [(insn.id, block)] y = if y.id = insn.id then block else [] := by
  rw [EditBatch.blockOf, List.lookup_cons, List.lookup_nil]
  by_cases same : y.id = insn.id
  · rw [beq_iff_eq.mpr same, if_pos same, Option.getD_some]
  · rw [beq_eq_false_iff_ne.mpr same, if_neg same, Option.getD_none]

/-- It is requested once. -/
theorem flatMap_blockOf_single {insns : List Insn} (distinct : (insns.map Insn.id).Nodup)
    (member : insn ∈ insns) :
    insns.flatMap (EditBatch.blockOf [(insn.id, block)]) = block := by
  obtain ⟨before, behind, rfl⟩ := List.append_of_mem member
  have others {ys : List Insn} (apart : insn.id ∉ ys.map Insn.id) :
      ys.flatMap (EditBatch.blockOf [(insn.id, block)]) = [] := by
    rw [List.flatMap_eq_nil_iff]
    intro y inside
    have other : y.id ≠ insn.id := fun same => apart (same ▸ List.mem_map_of_mem inside)
    rw [blockOf_single, if_neg other]
  rw [List.map_append, List.map_cons, List.nodup_append'] at distinct
  obtain ⟨-, later, apart⟩ := distinct
  rw [List.flatMap_append, List.flatMap_cons, blockOf_single, if_pos rfl,
    others fun earlier => apart earlier List.mem_cons_self, others (List.nodup_cons.mp later).1, List.nil_append,
    List.append_nil]

/-- **Stacks rebuilt.** Stores and loads of the topmost entries in front of an instruction make a method that
is accepted, where no string builder is allocated, no concatenation returns two words and the sizes that
matter are known. In front of the instruction the stack and the local variables that there were claim the
same as before; and the entries take different slots, all behind these. -/
theorem spill_rebuilds (block : List Insn) (analyzed : analyze owner m = .ok r)
    (distinct : (m.body.toList.map Insn.id).Nodup) (decided : Decided m.body r.frameAt)
    (unbuilt : ∀ x ∈ m.body, x.node ≠ .type Opcode.new builderClass)
    (narrow : ∀ x ∈ m.body, NarrowConcat x.node) (there : m.body[i]? = some insn)
    (real : insn.node.isPseudo = false) (here : r.frameAt i = some f) (some_ : 0 < depth)
    (enough : depth ≤ f.stack.length)
    (spilled : Inspection.spill ⟨owner, m, r⟩ insn.id depth = (stores, .ok loads))
    (small : ∀ store ∈ stores, ∀ w ∈ store.slots, w < 65535)
    (nodes : block.map Insn.node = stores ++ loads.reverse) (fresh : (block.map Insn.id).Nodup)
    (unused : ∀ x ∈ block, x.id ∉ m.body.toList.map Insn.id) :
    (∃ m' r' f', m.inserting [(insn.id, block)] = .ok m' ∧ analyze owner m' = .ok r' ∧
      r'.frame insn.id = some f' ∧ List.Forall₂ Value.Same f.stack f'.stack ∧
      ∀ (k : Nat) u, f.locals[k]? = some u → ∃ u', f'.locals[k]? = some u' ∧ u.Same u') ∧
    (stores.Pairwise fun store store' => List.Disjoint store.slots store'.slots) ∧
    loads.map Node.slots = stores.map Node.slots ∧
    ∀ store ∈ stores, ∀ w ∈ store.slots, Inspection.nextFreeLocal ⟨owner, m, r⟩ insn.id ≤ w := by
  obtain ⟨spills, free⟩ := spills_of_spill analyzed distinct there here some_ enough spilled small
  refine ⟨?_, spills.disjoint, spills.loaded, free ▸ spills.from_base⟩
  have refills : Refills m r.frameAt (EditBatch.blockOf [(insn.id, block)]) i f.locals.length (f.stack.take depth)
      stores loads := by
    refine ⟨⟨insn, there, real, ?_⟩, fun j y at_j apart => ?_, ⟨f, f.stack.drop depth, here, rfl, ?_⟩, spills⟩
    · rw [blockOf_single, if_pos rfl, nodes]
    · rw [blockOf_single, if_neg fun same => apart (position_unique distinct at_j there same)]
    · rw [List.take_append_drop]
  have values : f.stack.take depth ≠ [] := by
    rw [← List.length_pos_iff, List.length_take]
    omega
  obtain ⟨r', analyzed', rebuilt⟩ :=
    rebuilt_of_refills analyzed decided (fun x member => ⟨unbuilt x member, narrow x member⟩) values refills
  obtain ⟨f', here', stack, locals⟩ := rebuilt i insn f there here
  have listed : insn.id ∈ m.body.toList.map Insn.id :=
    List.mem_map_of_mem (Array.mem_toList_iff.mpr (Array.mem_of_getElem? there))
  have inserted : m.inserting [(insn.id, block)] = .ok (m.woven (EditBatch.blockOf [(insn.id, block)])) :=
    Method.inserting_eq (by simp) (by simp) (by simpa using listed)
  have distinct' : ((m.woven (EditBatch.blockOf [(insn.id, block)])).body.toList.map Insn.id).Nodup := by
    have inserted : m.body.toList.flatMap (EditBatch.blockOf [(insn.id, block)]) = block :=
      flatMap_blockOf_single distinct (Array.mem_toList_iff.mpr (Array.mem_of_getElem? there))
    exact nodup_woven distinct (by rwa [inserted]) (by rwa [inserted])
  have frame : r'.frame insn.id = some f' :=
    (frame_eq_frameAt analyzed' distinct' (Body.getElem?_nodeAt there)).trans here'
  exact ⟨_, r', f', inserted, analyzed', frame, stack, locals⟩

end

/-! ## Samples -/

/-- Entries with some kinds. -/
def entriesOf (kinds : List Kind) : List Value :=
  kinds.map fun kind => { (default : Value) with kind }

/-- The kinds of entries tell how they are stored. -/
theorem spillFrom_entriesOf (values : List Value) (slot : UInt16) :
    Inspection.spillFrom slot values = Inspection.spillFrom slot (entriesOf (values.map Value.kind)) := by
  induction values generalizing slot with
  | nil => rfl
  | cons v rest ih =>
    rw [Inspection.spillFrom, ih]
    rfl

/-- The kinds of the topmost entries of the frame at a position, and the number of its locals. -/
def Frames.kindsAt (r : Frames) (i depth locals : Nat) (kinds : List Kind) : Bool :=
  (r.frameAt i).any fun f => decide (depth ≤ f.stack.length ∧ f.locals.length = locals ∧
    (f.stack.take depth).map Value.kind = kinds)

theorem spill_of_kindsAt {owner : String} {m : Method} {r : Frames} {i depth locals : Nat} {insn : Insn}
    {kinds : List Kind} (analyzed : analyze owner m = .ok r) (distinct : (m.body.toList.map Insn.id).Nodup)
    (there : m.body[i]? = some insn) (some_ : 0 < depth) (h : r.kindsAt i depth locals kinds = true) :
    ∃ f, r.frameAt i = some f ∧ depth ≤ f.stack.length ∧ Inspection.spill ⟨owner, m, r⟩ insn.id depth =
      (Inspection.spillFrom (.ofNat (min locals 65535)) (entriesOf kinds)).map id
        (Except.mapError (Failure.analysis owner m.signature)) := by
  obtain ⟨f, here, h⟩ := (Option.any_eq_true _ _).mp h
  obtain ⟨enough, width, same⟩ := of_decide_eq_true h
  refine ⟨f, here, enough, ?_⟩
  have frame : r.frame insn.id = some f := (frame_eq_frameAt analyzed distinct there).trans here
  rw [spill_eq frame some_ enough, spillFrom_entriesOf, same, width]

instance (node : Node) : Decidable (NarrowConcat node) :=
  match node with
  | .dynamicCall name descriptor bootstrap constants =>
    decidable_of_iff (bootstrap.owner = concatFactory →
        ∀ kind ∈ Transfer.resultKind (.dynamicCall name descriptor bootstrap constants), kind.isWide = false)
      ⟨fun h _ _ _ _ same => by cases same; exact h, fun h => h _ _ _ _ rfl⟩
  | .simple .. | .int .. | .var .. | .type .. | .field .. | .call .. | .jump .. | .label .. | .constant ..
  | .increment .. | .tableSwitch .. | .lookupSwitch .. | .newArrays .. | .line .. =>
    .isTrue fun _ _ _ _ same => by cases same

/-- A method in which a value of two words lies on one of one word. -/
def pilingMethod : Method where
  id := ⟨0⟩
  access := 9
  name := "m"
  descriptor := "()V"
  body := numbered [.simple 4, .simple 9, .simple 0x58, .simple 0x57, .simple Opcode.vreturn]

/-- Both values can be put aside. -/
theorem spill_rebuilds_piling : ∃ r f m' r' f', analyze "A" pilingMethod = .ok r ∧ r.frameAt 2 = some f ∧
    Inspection.spill ⟨"A", pilingMethod, r⟩ ⟨2⟩ 2 = ([.var Opcode.lstore 0, .var Opcode.istore 2],
      .ok [.var Opcode.lload 0, .var Opcode.iload 2]) ∧
    pilingMethod.inserting [(⟨2⟩, [⟨⟨10⟩, .var Opcode.lstore 0⟩, ⟨⟨11⟩, .var Opcode.istore 2⟩,
      ⟨⟨12⟩, .var Opcode.iload 2⟩, ⟨⟨13⟩, .var Opcode.lload 0⟩])] = .ok m' ∧
    analyze "A" m' = .ok r' ∧ r'.frame ⟨2⟩ = some f' ∧ List.Forall₂ Value.Same f.stack f'.stack := by
  have evaluated : (analyze "A" pilingMethod).toOption.any (fun r =>
      decide (Decided pilingMethod.body r.frameAt) && r.kindsAt 2 2 0 [.long, .int]) = true := by
    unfold analyze
    rw [Body.ofTable_labelTable]
    decide +kernel
  obtain ⟨r, analyzed, holds⟩ := exists_of_any evaluated
  obtain ⟨decided, known⟩ := Bool.and_eq_true_iff.mp holds
  have there : pilingMethod.body[2]? = some ⟨⟨2⟩, .simple 0x58⟩ := rfl
  obtain ⟨f, here, enough, spilled⟩ := spill_of_kindsAt analyzed (by decide) there (by decide) known
  have spilled : Inspection.spill ⟨"A", pilingMethod, r⟩ ⟨2⟩ 2 = ([.var Opcode.lstore 0, .var Opcode.istore 2],
      .ok [.var Opcode.lload 0, .var Opcode.iload 2]) := spilled
  obtain ⟨⟨m', r', f', inserted, analyzed', frame, stack, -⟩, -⟩ :=
    spill_rebuilds [⟨⟨10⟩, .var Opcode.lstore 0⟩, ⟨⟨11⟩, .var Opcode.istore 2⟩, ⟨⟨12⟩, .var Opcode.iload 2⟩,
      ⟨⟨13⟩, .var Opcode.lload 0⟩] analyzed (by decide) (of_decide_eq_true decided)
      (by simp [pilingMethod, numbered]) (by decide) there rfl here (by decide) enough spilled (by decide) rfl
      (by decide) (by decide)
  exact ⟨r, f, m', r', f', analyzed, here, spilled, inserted, analyzed', frame, stack⟩

/-- The topmost entry in front of an instruction, an int, can be put aside in a method that allocates no string
builder. The frame is as told, and so is the analysis of the method with the store and the load. -/
def PutsAside (m : Method) (i : Nat) (slot : UInt16) (before : Frame → Bool)
    (after : Except Failure Frames → Bool) : Prop :=
  (∀ x ∈ m.body, x.node ≠ .type Opcode.new builderClass) ∧ ∃ r f m', analyze "A" m = .ok r ∧
    r.frameAt i = some f ∧ before f = true ∧ 0 < f.stack.length ∧ Inspection.spill ⟨"A", m, r⟩ ⟨i⟩ 1 =
      ([.var Opcode.istore slot], .ok [.var Opcode.iload slot]) ∧
    m.inserting [(⟨i⟩, [⟨⟨100⟩, .var Opcode.istore slot⟩, ⟨⟨101⟩, .var Opcode.iload slot⟩])] = .ok m' ∧
    after (analyze "A" m') = true

/-- What can be evaluated: the two analyses. -/
theorem putsAside_of_kindsAt (locals : Nat) {m : Method} {i : Nat} {slot : UInt16} {node : Node}
    {before : Frame → Bool}
    {after : Except Failure Frames → Bool} (there : m.body[i]? = some ⟨⟨i⟩, node⟩)
    (unbuilt : ∀ x ∈ m.body, x.node ≠ .type Opcode.new builderClass)
    (distinct : (m.body.toList.map Insn.id).Nodup) (free : UInt16.ofNat (min locals 65535) = slot)
    (evaluated : (analyze "A" m).toOption.any (fun r =>
      r.kindsAt i 1 locals [.int] && (r.frameAt i).all before) = true)
    (answer : after (analyze "A" (m.woven (EditBatch.blockOf
      [(⟨i⟩, [⟨⟨100⟩, .var Opcode.istore slot⟩, ⟨⟨101⟩, .var Opcode.iload slot⟩])]))) = true) :
    PutsAside m i slot before after := by
  obtain ⟨r, analyzed, holds⟩ := exists_of_any evaluated
  obtain ⟨known, told⟩ := Bool.and_eq_true_iff.mp holds
  obtain ⟨f, here, some_, spilled⟩ := spill_of_kindsAt analyzed distinct there Nat.one_pos known
  rw [here, Option.all_some] at told
  have listed : (⟨i⟩ : InsnId) ∈ m.body.toList.map Insn.id :=
    List.mem_map_of_mem (Array.mem_toList_iff.mpr (Array.mem_of_getElem? there))
  refine ⟨unbuilt, r, f, _, analyzed, here, told, some_, spilled.trans ?_,
    Method.inserting_eq (by simp) (by simp) (by simpa using listed), answer⟩
  rw [free]
  rfl

/-- A method in which POP may find a value of two words. -/
def joiningMethod : Method where
  id := ⟨0⟩
  access := 9
  name := "m"
  descriptor := "(Z)V"
  body := numbered [.var Opcode.iload 0, .jump Opcode.ifeq ⟨0⟩, .simple 4, .jump Opcode.goto ⟨1⟩, .label ⟨0⟩,
    .simple 9, .label ⟨1⟩, .simple 0x57, .simple Opcode.vreturn]

/-- A method with a concatenation that returns a long, which shares a local variable with a string. -/
def concatenatingMethod : Method where
  id := ⟨0⟩
  access := 9
  name := "m"
  descriptor := "(Z)V"
  body := numbered [.var Opcode.iload 0, .jump Opcode.ifeq ⟨0⟩, .constant (.string ""), .var Opcode.astore 1,
    .label ⟨2⟩, .simple 4, .simple 0x57, .jump Opcode.goto ⟨1⟩, .label ⟨0⟩, .simple 0, .simple 0, .simple 0,
    .dynamicCall "f" "()J" ⟨6, concatFactory, "makeConcat", "x", false⟩ [], .var Opcode.lstore 1, .label ⟨1⟩,
    .simple 3, .var Opcode.istore 2, .var Opcode.iload 0, .jump Opcode.ifeq ⟨2⟩, .simple Opcode.vreturn]

/-- A store and a load can make a method that is rejected, because values of different sizes arrive in another
order; and where a literal of one word is told of a value of two, a local variable can lose it. -/
theorem spill_disturbs :
    PutsAside joiningMethod 3 1 (fun _ => true) (fun a => a.toOption.isNone) ∧
    PutsAside concatenatingMethod 6 3 (fun f => (f.locals[1]?.bind Value.literal) == some (.string ""))
      (fun a => a.toOption.any fun r => (r.frameAt 8).any fun f => (f.locals[1]?.bind Value.literal).isNone) := by
  refine ⟨putsAside_of_kindsAt 1 rfl (by simp [joiningMethod, numbered]) (by decide) (by decide) ?_ ?_,
    putsAside_of_kindsAt 3 rfl (by simp [concatenatingMethod, numbered]) (by decide) (by decide) ?_ ?_⟩
  all_goals
    unfold analyze
    rw [Body.ofTable_labelTable]
    decide +kernel

end Bytecode.Analysis
