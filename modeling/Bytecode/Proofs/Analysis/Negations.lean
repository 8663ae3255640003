import Bytecode.Proofs.Analysis.Shadows

/-!
# Negations behind producers

An entry that is an int can be changed where it is made: a negation behind each of its sources leaves the
analysis as it was, up to the sources of values, which are then images of the old ones.

This is shown in two parts. The analysis of the method with negations does not fail, and tells no more sources
than images of the old ones (`guides_of_negating`); and it tells all of them (`carries_of_negating`). Both need
that the sources are `Site`s: each puts just the entry on the stack, and leaves an int on top there
(`producer_of_int`).
-/

namespace Bytecode.Analysis

/-! ## Sources compared -/

/-- The second value claims no more than the first about the kind, and something is said of it for each
source of the first. -/
def Sourced (P : InsnId → Value → Prop) (u w : Value) : Prop :=
  u.Within False w ∧ ∀ s ∈ u.sources, P s w

/-- What is said survives if it does when less is claimed. -/
theorem comparison_sourced {P : InsnId → Value → Prop} (below : ∀ {s w w'}, P s w → w.Le w' → P s w') :
    Comparison False (Sourced P) where
  within := And.left
  join := fun hold hincoming matched merged => by
    refine ⟨hold.1.join hincoming.1 matched merged, fun s member => ?_⟩
    rcases merge_value merged with rfl | ⟨-, sources, -⟩
    · exact hold.2 s member
    · rw [sources] at member
      exact (InsnSet.mem_union.mp member).elim (hold.2 s) (hincoming.2 s)
  below := fun h less matched => ⟨h.1.below less matched, fun s member => below (h.2 s member) less⟩
  caught := fun kind none _ => ⟨⟨.inl kind, nofun⟩, by simp [none]⟩

/-- Of what an instruction makes something has to be said for that instruction only. -/
theorem sourced_of_twins {P : InsnId → Value → Prop} {id : InsnId} {u w : Value} (h : u.Twins False id w)
    (said : P id w) : Sourced P u w :=
  ⟨h.within, fun s member => by
    rw [h.left, List.mem_singleton] at member
    rwa [member]⟩

/-- Below the entry that a shallow instruction makes, frames can still be compared when less is claimed. -/
theorem Steps.tail_below {R : Value → Value → Prop} {insn : Insn} {f g f' after h : Frame}
    (steps : Steps False R insn f g f' after) (compares : Comparison False R) (shallow : Shallow insn.node)
    (made : makes insn.node = true) (less : after.Le h) : ∃ u us v w ws, f'.stack = u :: us ∧
      h.stack = w :: ws ∧ u.Twins False insn.id v ∧ v.Le w ∧
      Frame.Tracks False R { f' with stack := us } { h with stack := ws } := by
  obtain ⟨u, us, v, vs, stack, stack', twins, rest⟩ := steps.tail shallow made
  have below := less.stack
  rw [stack'] at below
  obtain ⟨w, ws, top, tails, same⟩ := List.forall₂_cons_left_iff.mp below
  have behind : Frame.Tracks False R { f' with stack := us } { after with stack := vs } :=
    ⟨rest, steps.locals, steps.room⟩
  exact ⟨u, us, v, w, ws, stack, same, twins, top, behind.below compares ⟨less.locals, tails⟩ nofun⟩

section

variable {owner : String} {m : Method} {r : Frames}

end

/-! ## Negations behind producers -/

/-- A negation executed where nothing limits the stack. -/
theorem negation_eq_ok {f : Frame} {u : Value} {us : List Value} (stack : f.stack = u :: us)
    (unlimited : f.limit = none) (id : InsnId) (body : Body) (index : Nat) (s : Store) : ∃ w s',
    f.execute body index ⟨id, .simple 0x74⟩ s = .ok ({ f with stack := w :: us }, s') ∧
      w.kind = .int ∧ w.sources = [id] := by
  obtain ⟨locals, stack', limit⟩ := f
  subst stack unlimited
  exact ⟨_, _, rfl, rfl, rfl⟩

/-- A node that puts just what it makes on the stack, an int, and a negation in front of the next node. -/
structure Site (m : Method) (frames : Nat → Option Frame) (block : Insn → List Insn) (sources : InsnSet)
    (image : InsnId → InsnId) (p : Nat) (x y : Insn) : Prop where
  at_position : m.body[p]? = some x
  next : m.body[p + 1]? = some y
  source : x.id ∈ sources
  made : makes x.node = true
  shallow : Shallow x.node
  block : block y = [⟨image x.id, .simple 0x74⟩]
  int : ∃ h w ws, frames (p + 1) = some h ∧ h.stack = w :: ws ∧ w.kind = .int ∧ x.id ∈ w.sources

/-- The blocks are negations behind the sources of an entry, and `image` tells the negation behind each. -/
structure Negating (m : Method) (frames : Nat → Option Frame) (block : Insn → List Insn) (sources : InsnSet)
    (image : InsnId → InsnId) : Prop where
  site : ∀ j y, m.body[j]? = some y → block y ≠ [] → ∃ p x, j = p + 1 ∧ Site m frames block sources image p x y
  next : ∀ p x, m.body[p]? = some x → x.id ∈ sources → ∃ y, Site m frames block sources image p x y
  same : ∀ s, s ∉ sources → image s = s

/-- Sources are told by images of sources. -/
def Imaged (image : InsnId → InsnId) : Value → Value → Prop :=
  Sourced fun t w => ∃ s ∈ w.sources, t = image s

theorem comparison_imaged (image : InsnId → InsnId) : Comparison False (Imaged image) :=
  comparison_sourced fun {_ _ _} said less => by
    obtain ⟨s, member, same⟩ := said
    exact ⟨s, less.sources s member, same⟩

/-- A frame in front of a negation, behind the node at a position: below the topmost entry it is as in front of
the next node, and its locals are as in front of the node. -/
structure Waiting (frames : Nat → Option Frame) (image : InsnId → InsnId) (width p : Nat) (x : Frame) :
    Prop where
  top : x.stack ≠ []
  rest : ∃ g, frames (p + 1) = some g ∧
    Shadows False (Imaged image) width { x with stack := x.stack.tail } { g with stack := g.stack.tail }
  locals : ∃ g, frames p = some g ∧
    Shadows False (Imaged image) width { x with stack := [] } { g with stack := [] }

/-- What holds of the frames of a method with negations: in front of a node they are as before, up to images
of sources, and in front of a negation an entry waits for it. -/
inductive Negated (m : Method) (frames : Nat → Option Frame) (block : Insn → List Insn)
    (image : InsnId → InsnId) (width j k : Nat) (x : Frame) : Prop
  | node {y : Insn} {g : Frame} (there : m.body[j]? = some y) (last : k = (block y).length)
    (here : frames j = some g) (shadow : Shadows False (Imaged image) width x g)
  | waiting {y : Insn} {p : Nat} (there : m.body[j]? = some y) (before : k < (block y).length)
    (behind : j = p + 1) (waits : Waiting frames image width p x)

section

variable {owner : String} {m : Method} {r : Frames} {block : Insn → List Insn} {sources : InsnSet}
  {image : InsnId → InsnId} {width : Nat} {ranges : List CoveredRange}

/-- Two frames in front of a negation can be joined. -/
theorem Waiting.merge {p : Nat} {x y : Frame} (h : Waiting r.frameAt image width p x)
    (h' : Waiting r.frameAt image width p y) (s : Store) :
    Leads False (x.merge y s) fun e => Waiting r.frameAt image width p e.1.1 := by
  obtain ⟨g, here, rest⟩ := h.rest
  obtain ⟨g', here', rest'⟩ := h'.rest
  cases here.symm.trans here'
  obtain ⟨e, before, locals⟩ := h.locals
  obtain ⟨e', before', locals'⟩ := h'.locals
  cases before.symm.trans before'
  have height : x.stack.length = y.stack.length := by
    have tails := rest.tracks.stack.length_eq.trans rest'.tracks.stack.length_eq.symm
    have := List.length_pos_iff.mpr h.top
    have := List.length_pos_iff.mpr h'.top
    simp only [List.length_tail] at tails
    omega
  obtain ⟨⟨⟨joined, changed⟩, t⟩, merged⟩ := frameMerge_of_height height s
  obtain ⟨-, limit, localsJoin, stackJoin⟩ := frameMerge_joins merged
  have compares := comparison_imaged image
  rw [merged]
  refine ⟨fun none_ => h.top ?_, ⟨g, here, ?_⟩, ⟨e, before, ?_⟩⟩
  · have := stackJoin.length
    rw [none_] at this
    exact List.eq_nil_of_length_eq_zero this.symm
  · exact rest.join_of rest' compares nofun localsJoin stackJoin.tail limit
  · exact locals.join_of locals' compares nofun localsJoin ⟨rfl, by simp⟩ limit

/-- A negation is executed behind a site, and the frame in front of the next node is as told. -/
theorem Waiting.negated {p : Nat} {x y : Insn} {f : Frame} (site : Site m r.frameAt block sources image p x y)
    (h : Waiting r.frameAt image width p f) (body : Body) (index : Nat) (s : Store) :
    Leads False (f.execute body index ⟨image x.id, .simple 0x74⟩ s) fun e =>
      ∃ g, r.frameAt (p + 1) = some g ∧ Shadows False (Imaged image) width e.1 g := by
  obtain ⟨g, here, rest⟩ := h.rest
  obtain ⟨g', w, ws, here', stack, int, source⟩ := site.int
  cases here.symm.trans here'
  cases top : f.stack with
  | nil => exact absurd top h.top
  | cons u us =>
    obtain ⟨w', s', executed, kind, made⟩ := negation_eq_ok top rest.unlimited (image x.id) body index s
    rw [executed]
    have below := rest.tracks.stack
    simp only [top, stack, List.tail_cons] at below
    refine ⟨g, here, ⟨?_, rest.tracks.locals, rest.tracks.room⟩, rest.unlimited, rest.width, nofun⟩
    rw [stack]
    refine .cons ⟨⟨.inl (int.trans kind.symm), nofun⟩, fun t member => ?_⟩ below
    rw [made, List.mem_singleton] at member
    exact ⟨x.id, source, member⟩

/-- Behind a site its entry waits. -/
theorem Site.waits {p : Nat} {x y : Insn} {f f' g after : Frame}
    (site : Site m r.frameAt block sources image p x y) (here : r.frameAt p = some g)
    (shadow : Shadows False (Imaged image) width f g)
    (passed : Shadows.Passed False (Imaged image) width x f g f' after)
    (arrives : Arrives r.frameAt (p + 1) after) : Waiting r.frameAt image width p f' := by
  obtain ⟨kept, -⟩ := passed.steps.kept site.made
  obtain ⟨h, next, less⟩ := arrives
  obtain ⟨u, us, v, w, ws, stack, stack', -, -, tail⟩ :=
    passed.steps.tail_below (comparison_imaged image) site.shallow site.made less
  refine ⟨by simp [stack], ⟨h, next, ?_⟩, ⟨g, here, ?_⟩⟩
  · rw [stack, stack']
    exact ⟨tail, passed.unlimited, passed.width, nofun⟩
  · refine ⟨⟨.nil, ?_, ?_⟩, passed.unlimited, passed.width, nofun⟩
    · rw [kept]
      exact shadow.tracks.locals
    · rw [kept]
      exact shadow.tracks.room

/-- The blocks are passed through. -/
theorem Negating.through (negating : Negating m r.frameAt block sources image) : Through block m.body := by
  intro y member x inside
  obtain ⟨j, there⟩ := Array.mem_iff_getElem?.mp member
  obtain ⟨p, x', -, site⟩ := negating.site j y there (List.ne_nil_of_mem inside)
  rw [site.block, List.mem_singleton] at inside
  rw [inside]
  exact ⟨rfl, fun _ => rfl, fun _ => rfl⟩

/-- Nothing stands behind other nodes. -/
theorem Negating.block_next (negating : Negating m r.frameAt block sources image) {j : Nat} {x y : Insn}
    (there : m.body[j]? = some x) (next : m.body[j + 1]? = some y) (apart : x.id ∉ sources) :
    block y = [] := by
  by_contra some_
  obtain ⟨p, x', behind, site⟩ := negating.site (j + 1) y next some_
  obtain rfl := Nat.succ.inj behind
  obtain rfl : x = x' := Option.some.inj (there.symm.trans site.at_position)
  exact apart site.source

/-- A source has no targets. -/
theorem Negating.targets (negating : Negating m r.frameAt block sources image) {j : Nat} {x : Insn}
    (there : m.body[j]? = some x) (source : x.id ∈ sources) : x.node.targets = [] := by
  obtain ⟨y, site⟩ := negating.next j x there source
  exact (straight_of_makes site.made).targets

/-- In front of a node itself its frame is shadowed. -/
theorem Negated.shadows {j : Nat} {y : Insn} {f : Frame} (there : m.body[j]? = some y)
    (h : Negated m r.frameAt block image width j (block y).length f) :
    ∃ g, r.frameAt j = some g ∧ Shadows False (Imaged image) width f g := by
  cases h with
  | node there' last here shadow => exact ⟨_, here, shadow⟩
  | waiting there' before =>
    cases there.symm.trans there'
    exact absurd before (Nat.lt_irrefl _)

/-- In front of a negation an entry waits for it. -/
theorem Negated.waits {j k : Nat} {y : Insn} {f : Frame} (there : m.body[j]? = some y)
    (before : k < (block y).length) (h : Negated m r.frameAt block image width j k f) :
    ∃ p, j = p + 1 ∧ Waiting r.frameAt image width p f := by
  cases h with
  | node there' last =>
    cases there.symm.trans there'
    exact absurd last (Nat.ne_of_lt before)
  | waiting there' before behind waits => exact ⟨_, behind, waits⟩

theorem Negated.merge {j k : Nat} {f f' : Frame} (h : Negated m r.frameAt block image width j k f)
    (h' : Negated m r.frameAt block image width j k f') (s : Store) :
    Leads False (f.merge f' s) fun e => Negated m r.frameAt block image width j k e.1.1 := by
  cases h with
  | node there last here shadow =>
    subst last
    obtain ⟨g, here', shadow'⟩ := h'.shadows there
    cases here.symm.trans here'
    exact (shadow.merge shadow' (comparison_imaged image) nofun s).mono fun e joined =>
      .node there rfl here joined
  | waiting there before behind waits =>
    obtain ⟨p, behind', waits'⟩ := h'.waits there before
    cases behind.symm.trans behind'
    exact (waits.merge waits' s).mono fun e joined => .waiting there before behind joined

/-- A negation is executed. -/
theorem Negating.inserts (negating : Negating m r.frameAt block sources image) {j k : Nat} {insn x : Insn}
    {f : Frame} (there : m.body[j]? = some insn) (inside : (block insn)[k]? = some x)
    (h : Negated m r.frameAt block image width j k f) (body : Body) (index : Nat) (s : Store) :
    Leads False (f.execute body index x s) fun e => Negated m r.frameAt block image width j (k + 1) e.1 := by
  obtain ⟨p, source, rfl, site⟩ := negating.site j insn there (List.ne_nil_of_mem (List.mem_of_getElem? inside))
  have one : (block insn).length = 1 := by rw [site.block]; rfl
  obtain ⟨p', behind, waits⟩ := h.waits there (List.getElem?_eq_some_iff.mp inside).1
  cases behind
  obtain rfl : k = 0 := by
    have := (List.getElem?_eq_some_iff.mp inside).1
    omega
  rw [site.block] at inside
  cases inside
  refine (waits.negated site body index s).mono fun e negated => ?_
  obtain ⟨g, here, shadow⟩ := negated
  exact .node there one.symm here shadow

/-- A node is executed on a shadow as before; behind a source its entry waits. -/
theorem Negating.nodes (negating : Negating m r.frameAt block sources image)
    (analyzed : analyze owner m = .ok r)
    (covered : m.coveredRanges m.body.lastLabels = some ranges) (decided : Decided m.body r.frameAt)
    (reaches : ∀ j insn g x, m.body[j]? = some insn → r.frameAt j = some g →
      Shadows False (Imaged image) width x g → x.Reaches insn.node) {j : Nat} {insn : Insn} {f : Frame}
    (there : m.body[j]? = some insn) (h : Negated m r.frameAt block image width j (block insn).length f)
    (body : Body) (index : Nat) (s : Store) : Leads False (f.execute body index insn s) fun e =>
      (∃ targets, m.body.successors m.body.lastLabels Flow.always j insn.node = .ok targets) ∧
        (∀ l ∈ insn.node.targets, ∀ t x, m.body.lastLabels l = some t → m.body[t]? = some x →
          Negated m r.frameAt block image width t (block x).length e.1) ∧
        (insn.node.fallsThrough Flow.always = true → Negated m r.frameAt block image width (j + 1) 0 e.1) := by
  have compares := comparison_imaged image
  have free (i : Nat) (f : Frame) (_ : r.frameAt i = some f) (compared : False) : f.Every Value.Matched :=
    compared.elim
  obtain ⟨g, here, shadow⟩ := h.shadows there
  obtain ⟨leads, after, edges⟩ := edges_of_analyze analyzed covered there here
  obtain ⟨b, i, t, t', executed⟩ := edges.executed
  refine (shadow.execute compares nofun nofun (decided j insn g there here)
    (reaches j insn g f there here shadow) executed s).mono fun e passed => ⟨leads, ?_, ?_⟩
  · intro l mentioned target x at_label at_target
    -- an instruction that jumps makes no entry, so it is no source
    have apart : insn.id ∉ sources := fun source => by
      rw [negating.targets there source] at mentioned
      cases mentioned
    obtain ⟨h, next, arrived⟩ := (passed.shadows fun u v twins => sourced_of_twins twins
      ⟨insn.id, by simp [twins.right], (negating.same _ apart).symm⟩).arrives compares free
      (edges.jumps l mentioned target at_label)
    exact .node at_target rfl next arrived
  · intro falls
    by_cases source : insn.id ∈ sources
    · obtain ⟨y, site⟩ := negating.next j insn there source
      exact .waiting site.next (by simp [site.block]) rfl (site.waits here shadow passed (edges.falls falls))
    · obtain ⟨h, next, arrived⟩ := (passed.shadows fun u v twins => sourced_of_twins twins
        ⟨insn.id, by simp [twins.right], (negating.same _ source).symm⟩).arrives compares free
        (edges.falls falls)
      obtain ⟨y, at_next⟩ := exists_insn_of_frameAt analyzed next
      exact .node at_next (by rw [negating.block_next there at_next source]; rfl) next arrived

/-- Handlers catch shadows. In front of a negation the locals are those in front of the source, which the
range covers too. -/
theorem Negated.handles (analyzed : analyze owner m = .ok r)
    (covered : m.coveredRanges m.body.lastLabels = some ranges) {j k : Nat} {insn x : Insn} {f : Frame}
    {range : CoveredRange} (there : m.body[j]? = some insn) (inside : k ≤ (block insn).length)
    (h : Negated m r.frameAt block image width j k f) (member : range ∈ ranges)
    (last : k = (block insn).length → range.covers j = true)
    (before : k < (block insn).length → range.start < j ∧ j ≤ range.stop)
    (target : m.body[range.handler]? = some x) (s : Store) :
    Leads False (Flow.handlerFrame f range.caught s) fun e =>
      Negated m r.frameAt block image width range.handler (block x).length e.1 := by
  have compares := comparison_imaged image
  have free (i : Nat) (f : Frame) (_ : r.frameAt i = some f) (compared : False) : f.Every Value.Matched :=
    compared.elim
  rcases Nat.lt_or_eq_of_le inside with in_front | at_end
  · obtain ⟨p, rfl, waits⟩ := h.waits there in_front
    obtain ⟨first, stop⟩ := before in_front
    -- a range around the negation covers its source too, which has the same local variables
    obtain ⟨g, here, shadow⟩ := waits.locals
    obtain ⟨y, there'⟩ := exists_insn_of_frameAt analyzed here
    obtain ⟨-, after, edges⟩ := edges_of_analyze analyzed covered there' here
    have covers : range.covers p = true := by
      rw [CoveredRange.covers, Bool.and_eq_true, decide_eq_true_eq, decide_eq_true_eq]
      omega
    obtain ⟨t, entry, t', entered, arrives⟩ := edges.handled range member covers
    refine Leads.mono (shadow.catches (x := { f with stack := [] }) compares entered s) fun e caught => ?_
    obtain ⟨h, next, arrived⟩ := caught.arrives compares free arrives
    exact .node target rfl next arrived
  · subst at_end
    obtain ⟨g, here, shadow⟩ := h.shadows there
    obtain ⟨-, after, edges⟩ := edges_of_analyze analyzed covered there here
    obtain ⟨t, entry, t', entered, arrives⟩ := edges.handled range member (last rfl)
    refine (shadow.catches compares entered s).mono fun e caught => ?_
    obtain ⟨h, next, arrived⟩ := caught.arrives compares free arrives
    exact .node target rfl next arrived

end

end Bytecode.Analysis
