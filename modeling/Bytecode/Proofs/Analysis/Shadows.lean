import Bytecode.Proofs.Analysis.Insertion
import Bytecode.Proofs.Analysis.Occupancy

/-!
# Frames of edited methods

In an edited method, whose stack height is unknown, nothing fails on a frame that `Shadows` one of the old
analysis at the same node: it tracks that frame, nothing limits its stack, and its locals have the width
of the edited method. Shadows survive joins and instructions, and handlers catch shadows.

The width of the edited method is enough for what the nodes of the old one access (`reaches_of_needed`).
-/

namespace Bytecode.Analysis

open Tokens (Movement movement?)

/-! ## Shadows -/

/-- A frame of an edited method that tracks a frame of the old one. -/
structure Shadows (exact : Prop) (R : Value → Value → Prop) (width : Nat) (x g : Frame) : Prop where
  tracks : x.Tracks exact R g
  unlimited : x.limit = none
  width : x.locals.length = width
  matched : exact → x.Every Value.Matched

namespace Shadows

section

variable {exact : Prop} {R : Value → Value → Prop} {width : Nat} {x y g g' : Frame} {s t : Store}

/-- Slots joined from those of two shadows of a frame are a shadow of it. -/
theorem join_of {joined : Frame} (h : Shadows exact R width x g) (h' : Shadows exact R width y g)
    (compares : Comparison exact R) (matched : exact → g.Every Value.Matched)
    (locals : JoinOf x.locals y.locals joined.locals) (stack : JoinOf x.stack y.stack joined.stack)
    (limit : joined.limit = x.limit) : Shadows exact R width joined g where
  tracks := h.tracks.join_of h'.tracks compares matched locals stack
  unlimited := limit.trans h.unlimited
  width := locals.length.trans h.width
  matched := fun compared => by
    have good {olds news slots : List Value} (joins : JoinOf olds news slots) (hold : ∀ v ∈ olds, v.Matched)
        (hnew : ∀ v ∈ news, v.Matched) : ∀ v ∈ slots, v.Matched := by
      intro v member
      obtain ⟨k, at_slot⟩ := List.mem_iff_getElem?.mp member
      obtain ⟨old, there, rfl | ⟨new, s, t, there', merged⟩⟩ := joins.slot k v at_slot
      · exact hold _ (List.mem_of_getElem? there)
      · exact .join (hold old (List.mem_of_getElem? there)) (hnew new (List.mem_of_getElem? there')) merged
    exact ⟨good locals (h.matched compared).locals (h'.matched compared).locals,
      good stack (h.matched compared).stack (h'.matched compared).stack⟩

/-- Two shadows of a frame can be joined. -/
theorem merge (h : Shadows exact R width x g) (h' : Shadows exact R width y g)
    (compares : Comparison exact R) (matched : exact → g.Every Value.Matched) (s : Store) :
    Leads False (x.merge y s) fun r => Shadows exact R width r.1.1 g := by
  obtain ⟨⟨⟨joined, changed⟩, t⟩, merged⟩ :=
    frameMerge_of_height (h.tracks.stack.length_eq.trans h'.tracks.stack.length_eq.symm) s
  obtain ⟨-, limit, locals, stack⟩ := frameMerge_joins merged
  rw [merged]
  exact h.join_of h' compares matched locals stack limit

/-- A shadow of a frame is one of a frame that claims less. -/
theorem below (h : Shadows exact R width x g) (compares : Comparison exact R) (less : g.Le g')
    (matched : exact → g'.Every Value.Matched) : Shadows exact R width x g' :=
  ⟨h.tracks.below compares less matched, h.unlimited, h.width, h.matched⟩

/-- A shadow at the next frame: what arrives there is a shadow of it. -/
theorem arrives {frames : Nat → Option Frame} {target : Nat} (h : Shadows exact R width x g)
    (compares : Comparison exact R) (matched : ∀ i f, frames i = some f → exact → f.Every Value.Matched)
    (arrived : Arrives frames target g) : ∃ f, frames target = some f ∧ Shadows exact R width x f := by
  obtain ⟨f, there, less⟩ := arrived
  exact ⟨f, there, h.below compares less (matched target f there)⟩

/-- What a simulated instruction leaves of a shadow. -/
structure Passed (exact : Prop) (R : Value → Value → Prop) (width : Nat) (insn : Insn) (x g x' g' : Frame) :
    Prop where
  steps : Steps exact R insn x g x' g'
  unlimited : x'.limit = none
  width : x'.locals.length = width
  matched : exact → x'.Every Value.Matched

/-- An instruction that is simulated on a frame can be simulated on its shadow. -/
theorem execute {insn : Insn} {body body' : Body} {index index' : Nat} (h : Shadows exact R width x g)
    (compares : Comparison exact R) (matched : exact → g.Every Value.Matched)
    (allowed : exact → insn.node ≠ .type Opcode.new builderClass ∧ NarrowConcat insn.node)
    (known : ∀ kind ∈ g.kinds.take (askedBy insn.node g.kinds), kind ≠ .uninitialized)
    (reaches : x.Reaches insn.node) (executed : g.execute body' index' insn t = .ok (g', t')) (s : Store) :
    Leads False (x.execute body index insn s) fun r => Passed exact R width insn x g r.1 g' := by
  have follows : Follows exact R insn x g (x.execute body index insn) g' :=
    execute_follows h.tracks compares h.matched matched (fun compared => (allowed compared).1)
      (h.tracks.asked compares known) executed
  obtain ⟨⟨x', s'⟩, run⟩ := follows.succeeds h.unlimited reaches s
  have steps := follows.steps s x' s' run
  rw [run]
  exact ⟨steps, steps.limit.trans h.unlimited, steps.width.1.trans h.width, fun compared =>
    execute_matched (allowed compared).1 (allowed compared).2 (h.matched compared) run⟩

/-- What is left is a shadow of what is left of the frame. -/
theorem Passed.shadows {insn : Insn} {x' : Frame} (h : Passed exact R width insn x g x' g')
    (made : ∀ u v, u.Twins exact insn.id v → R u v) : Shadows exact R width x' g' :=
  ⟨h.steps.tracks made, h.unlimited, h.width, h.matched⟩

/-- What a handler catches on a shadow is a shadow. -/
theorem catches {entry : Frame} {caught : String} (h : Shadows exact R width x g)
    (compares : Comparison exact R) (entered : Flow.handlerFrame g caught t = .ok (entry, t')) (s : Store) :
    Leads False (Flow.handlerFrame x caught s) fun e => Shadows exact R width e.1 entry := by
  obtain ⟨⟨entry', s'⟩, run⟩ := handlerFrame_of_unlimited h.unlimited caught s
  obtain ⟨v, -, -, same⟩ := handlerFrame_eq_ok run
  rw [run]
  refine ⟨h.tracks.caught compares run entered, ?_, ?_, fun compared =>
    handlerFrame_matched (h.matched compared) run⟩
  · rw [same]
    exact h.unlimited
  · rw [same]
    exact h.width

end

end Shadows

/-! ## The entry -/

section

variable {owner : String} {m m' : Method} {d : MethodDescriptor} {exact : Prop} {R : Value → Value → Prop}

/-- The locals at the entry of a method hold what is passed, and there are as many as the method needs. -/
theorem length_locals_entryOf (owner : String) (m : Method) (d : MethodDescriptor) :
    (entryOf owner m d).1.locals.length =
      max (entryKinds m.isStatic d.arguments).length (slotsOf m d) := by
  have kinds := congrArg List.length (kinds_entryOf owner m d)
  rw [List.length_map, List.length_append, List.length_replicate] at kinds
  omega

/-- The kind of a local variable at the entry: that of a passed word, or none. -/
theorem kind_entryOf {k : Nat} {v : Value} (found : (entryOf owner m d).1.locals[k]? = some v) :
    v.kind = ((entryKinds m.isStatic d.arguments)[k]?).getD .uninitialized ∧ v.literal = none := by
  have kind : ((entryOf owner m d).1.locals.map Value.kind)[k]? = some v.kind := by
    rw [List.getElem?_map, found, Option.map_some]
  obtain ⟨made, -, -, unknown⟩ := entryOf_records True owner m d
  refine ⟨?_, (unknown.1 v (List.mem_of_getElem? found)).2⟩
  rw [kinds_entryOf, List.getElem?_append] at kind
  split at kind
  · rw [kind, Option.getD_some]
  · next behind =>
    rw [List.getElem?_eq_none (Nat.not_lt.mp behind), Option.getD_none]
    exact List.eq_of_mem_replicate (List.mem_of_getElem? kind)

/-- The entries of two methods with the same parameters track each other. -/
theorem entryOf_tracks (isStatic : m'.isStatic = m.isStatic) :
    (entryOf owner m' d).1.Tracks exact R (entryOf owner m d).1 where
  stack := .nil
  locals := fun k u v hu hv => by
    obtain ⟨kind, -⟩ := kind_entryOf hu
    obtain ⟨kind', unknown⟩ := kind_entryOf hv
    rw [isStatic] at kind
    exact ⟨.inl (kind'.trans kind.symm), fun _ l known => by simp [unknown] at known⟩
  room := fun k u hu _ wide => by
    obtain ⟨kind, -⟩ := kind_entryOf hu
    rw [Value.isWide, kind, isStatic] at wide
    cases passed : (entryKinds m.isStatic d.arguments)[k]? with
    | none =>
      rw [passed] at wide
      cases wide
    | some kind =>
      rw [passed, Option.getD_some] at wide
      have inside := room_of_entryKinds passed wide
      have := length_locals_entryOf owner m d
      have := Nat.mod_le (k + 1) 65536
      omega

/-- The frame at the entry of an edited method is a shadow. -/
theorem entryOf_shadows (isStatic : m'.isStatic = m.isStatic) (unlimited : m'.maxStack = none) :
    Shadows exact R (entryOf owner m' d).1.locals.length (entryOf owner m' d).1 (entryOf owner m d).1 where
  tracks := entryOf_tracks isStatic
  unlimited := by rw [entryOf, unlimited]; rfl
  width := rfl
  matched := fun _ => entryOf_matched owner m' d

/-- The frame at the entry arrives at the first position. -/
theorem entry_arrives {r : Frames} (analyzed : analyze owner m = .ok r)
    (parsed : MethodDescriptor.parse m.descriptor = .ok d) (nonempty : 0 < m.body.size) :
    Arrives r.frameAt 0 (entryOf owner m d).1 := by
  obtain ⟨d', ranges, made, fuel, flow, parsed', covered, closed, valid, run, done, frames, -⟩ :=
    loop_of_analyze analyzed nonempty fun _ _ _ => True.intro
  obtain rfl : d = d' := Except.ok.inj (parsed.symm.trans parsed')
  obtain ⟨made', valid'⟩ := Flow.run_valid closed valid run
  rw [← frames]
  exact (valid'.postFixpoint done).entry

/-- All frames of an analysis have the locals that there are at the entry. -/
theorem width_of_analyze {r : Frames} (analyzed : analyze owner m = .ok r)
    (parsed : MethodDescriptor.parse m.descriptor = .ok d) {i : Nat} {insn : Insn} {f : Frame}
    (there : m.body[i]? = some insn) (here : r.frameAt i = some f) :
    f.locals.length = (entryOf owner m d).1.locals.length := by
  have nonempty : 0 < m.body.size := Nat.zero_lt_of_lt (Array.getElem?_eq_some_iff.mp there).1
  obtain ⟨d', ranges, made, fuel, flow, parsed', covered, closed, valid, run, done, frames, -⟩ :=
    loop_of_analyze analyzed nonempty fun _ _ _ => True.intro
  obtain rfl : d = d' := Except.ok.inj (parsed.symm.trans parsed')
  obtain ⟨made', valid'⟩ := Flow.run_valid closed valid run
  exact valid'.sound.width i f (frames ▸ here)

end

/-! ## Slots -/

section

variable {owner : String} {m m' : Method} {d : MethodDescriptor} {insn : Insn} {f g : Frame} {w : Nat}

/-- A slot below the last ones that a node of an edited method needs is there. -/
theorem slot_of_counted (unlimited : m'.maxStack = none) (member : insn ∈ m'.body)
    (accessed : w ∈ insn.node.slots)
    (small : w < 65535) : w < (entryOf owner m' d).1.locals.length := by
  have needed := Nat.lt_of_lt_of_le (Node.slotsNeeded_of_mem accessed small) (Body.slotsNeeded_of_mem member)
  have counted : m'.body.slotsNeeded ≤ slotsOf m' d := by
    rw [slotsOf, unlimited]
    exact Nat.le_max_left _ _
  rw [length_locals_entryOf]
  omega

end

/-! ## The method as it was -/

/-- What carries the frames of a method along those of the method with blocks. In front of nodes the latter
track frames of the former. What an instruction with targets makes is related, and frames that
control falls through to are related once a block has been executed. -/
structure Carries (m : Method) (block : Insn → List Insn) (exact : Prop) (R : Value → Value → Prop)
    (frames frames' : Nat → Option Frame) : Prop where
  matched : exact → (∀ i f, frames i = some f → f.Every Value.Matched) ∧
    ∀ p x, frames' p = some x → x.Every Value.Matched
  allowed : exact → ∀ insn ∈ m.body, insn.node ≠ .type Opcode.new builderClass ∧ NarrowConcat insn.node
  tracks : ∀ j insn x, m.body[j]? = some insn → frames' (nodeAt block m.body.toList j) = some x →
    ∃ R' g, Comparison exact R' ∧ frames j = some g ∧ x.Tracks exact R' g
  jumps : ∀ insn ∈ m.body, insn.node.targets ≠ [] → ∀ u v : Value, u.Twins exact insn.id v → R u v
  falls : ∀ j insn f f' g after x x', m.body[j]? = some insn →
    Steps exact (Value.Within exact) insn f g f' after → f'.locals.length = after.locals.length →
    Arrives frames (j + 1) after → Steps exact R insn f x f' x' →
    Arrives frames' (blockAt block m.body.toList (j + 1)) x' →
    ∃ e, frames' (nodeAt block m.body.toList (j + 1)) = some e ∧ f'.Tracks exact R e

section

variable {owner : String} {m : Method} {d : MethodDescriptor} {block : Insn → List Insn} {exact : Prop}
  {R : Value → Value → Prop} {r r' : Frames} {ranges : List CoveredRange}

/-- What tracks a frame tracks the frame where that arrives. -/
theorem Arrives.tracks {frames : Nat → Option Frame} {target : Nat} {f g : Frame}
    (arrives : Arrives frames target g)
    (tracks : f.Tracks exact R g) (compares : Comparison exact R)
    (matched : exact → ∀ i f, frames i = some f → f.Every Value.Matched) :
    ∃ h, frames target = some h ∧ f.Tracks exact R h := by
  obtain ⟨h, there, less⟩ := arrives
  exact ⟨h, there, tracks.below compares less fun compared => matched compared target h there⟩

/-- A frame of the method as it was, compared with both analyses. -/
structure Between (m : Method) (block : Insn → List Insn) (exact : Prop) (R : Value → Value → Prop)
    (frames frames' : Nat → Option Frame) (j : Nat) (f : Frame) : Prop where
  old : ∃ g, frames j = some g ∧ f.Tracks exact (Value.Within exact) g ∧ f.locals.length = g.locals.length
  new : ∃ x, frames' (nodeAt block m.body.toList j) = some x ∧ f.Tracks exact R x
  matched : exact → f.Every Value.Matched

/-- What tracks a frame of the same width tracks the frame where that arrives, which has that width too. -/
theorem Arrives.tracks_wide {frames : Nat → Option Frame} {target : Nat} {f g : Frame}
    (arrives : Arrives frames target g) (tracks : f.Tracks exact R g)
    (width : f.locals.length = g.locals.length)
    (compares : Comparison exact R) (matched : exact → ∀ i f, frames i = some f → f.Every Value.Matched) :
    ∃ h, frames target = some h ∧ f.Tracks exact R h ∧ f.locals.length = h.locals.length := by
  obtain ⟨h, there, less⟩ := arrives
  exact ⟨h, there, tracks.below compares less fun compared => matched compared target h there,
    width.trans less.locals.length_eq⟩

/-- An instruction carries a frame to its successors. -/
theorem Carries.executes (carries : Carries m block exact R r.frameAt r'.frameAt)
    (compares : Comparison exact R)
    (analyzed : analyze owner m = .ok r) (analyzed' : analyze owner (m.woven block) = .ok r')
    (through : Through block m.body) (covered : m.coveredRanges m.body.lastLabels = some ranges)
    (decided : Decided m.body r.frameAt) {j : Nat} {insn : Insn} {f f' : Frame} {s s' : Store}
    (there : m.body[j]? = some insn) (between : Between m block exact R r.frameAt r'.frameAt j f)
    (run : f.execute m.body j insn s = .ok (f', s')) {t : Nat}
    (edge : Tokens.Edge ⟨m.body, m.body.lastLabels, ranges⟩ j insn.node t) :
    Between m block exact R r.frameAt r'.frameAt t f' := by
  have kinds := comparison_within exact
  have member := Array.mem_of_getElem? there
  obtain ⟨g, here, tracks, width⟩ := between.old
  obtain ⟨x, here', tracks'⟩ := between.new
  obtain ⟨leads, after, edges⟩ := edges_of_analyze analyzed covered there here
  obtain ⟨after', edges'⟩ := edges_of_woven analyzed' through covered there leads here'
  obtain ⟨b, i, t₁, t₁', executed⟩ := edges.executed
  obtain ⟨b', i', t₂, t₂', executed'⟩ := edges'.executed
  have unbuilt (compared : exact) := (carries.allowed compared insn member).1
  have matched (compared : exact) := (carries.matched compared).1 j g here
  have matched' (compared : exact) := (carries.matched compared).2 _ x here'
  have known := decided j insn g there here
  have steps := (execute_follows tracks kinds between.matched matched unbuilt (tracks.asked kinds known)
    executed).steps _ _ _ run
  have asked : f.kinds.take (askedBy insn.node x.kinds) = x.kinds.take (askedBy insn.node x.kinds) := by
    obtain ⟨R', g', compares', here₁, tracks₁⟩ := carries.tracks j insn x there here'
    cases here.symm.trans here₁
    exact asked_of_tracks tracks tracks₁ kinds compares' known
  have steps' :=
    (execute_follows tracks' compares between.matched matched' unbuilt asked executed').steps _ _ _ run
  have behind := steps.tracks fun u v twins => twins.within
  have width : f'.locals.length = after.locals.length := steps.width.1.trans (width.trans steps.width.2.symm)
  have good (compared : exact) : f'.Every Value.Matched :=
    execute_matched (unbuilt compared) (carries.allowed compared insn member).2 (between.matched compared) run
  cases edge with
  | jump mentioned at_label =>
    have behind' := steps'.tracks (carries.jumps insn member (List.ne_nil_of_mem mentioned))
    exact ⟨(edges.jumps _ mentioned t at_label).tracks_wide behind width kinds fun compared =>
        (carries.matched compared).1,
      (edges'.jumps _ mentioned t at_label).tracks behind' compares fun compared => (carries.matched compared).2,
      good⟩
  | next falls =>
    exact ⟨(edges.falls falls).tracks_wide behind width kinds fun compared => (carries.matched compared).1,
      carries.falls j insn f f' g after x after' there steps width (edges.falls falls) steps'
        (edges'.falls falls), good⟩

/-- **Frames are carried along.** The frames of a method can be compared with those of the method with blocks
at the same nodes. -/
theorem Carries.between {first : Insn} (carries : Carries m block exact R r.frameAt r'.frameAt)
    (compares : Comparison exact R) (analyzed : analyze owner m = .ok r)
    (analyzed' : analyze owner (m.woven block) = .ok r') (through : Through block m.body)
    (parsed : MethodDescriptor.parse m.descriptor = .ok d)
    (covered : m.coveredRanges m.body.lastLabels = some ranges) (decided : Decided m.body r.frameAt)
    (start : m.body[0]? = some first) (unblocked : block first = []) {i : Nat} {f : Frame}
    (here : r.frameAt i = some f) : Between m block exact R r.frameAt r'.frameAt i f := by
  have kinds := comparison_within exact
  have nonempty : 0 < m.body.size := Nat.zero_lt_of_lt (Array.getElem?_eq_some_iff.mp start).1
  -- the analysis of the method as it was is run once more, next to the results of both
  have confines : Confines True ⟨m.body, m.body.lastLabels, ranges⟩
      (Between m block exact R r.frameAt r'.frameAt) := by
    refine ⟨fun j f f' hf hf' _ => .of_results fun e joined => ?_,
      fun j insn f there between _ => .of_results fun e run => .of_results fun targets leads t member => ?_,
      fun j f range between member covers _ => .of_results fun e entered => ?_⟩
    · obtain ⟨g, here, tracks, width⟩ := hf.old
      obtain ⟨x, here', tracks'⟩ := hf.new
      obtain ⟨g₁, here₁, tracks₁, -⟩ := hf'.old
      obtain ⟨x₁, here₁', tracks₁'⟩ := hf'.new
      cases here.symm.trans here₁
      cases here'.symm.trans here₁'
      obtain ⟨-, -, locals, -⟩ := frameMerge_joins joined
      exact ⟨⟨g, here, tracks.join tracks₁ kinds (fun compared => (carries.matched compared).1 j g here) joined,
          locals.length.trans width⟩,
        ⟨x, here',
          tracks'.join tracks₁' compares (fun compared => (carries.matched compared).2 _ x here') joined⟩,
        fun compared => frameMerge_matched (hf.matched compared) (hf'.matched compared) joined⟩
    · exact carries.executes compares analyzed analyzed' through covered decided there between run
        (Iff.mp (mem_successors_iff leads t) member)
    · obtain ⟨g, here, tracks, width⟩ := between.old
      obtain ⟨x, here', tracks'⟩ := between.new
      obtain ⟨insn, there⟩ := exists_insn_of_frameAt analyzed here
      obtain ⟨leads, after, edges⟩ := edges_of_analyze analyzed covered there here
      obtain ⟨after', edges'⟩ := edges_of_woven analyzed' through covered there leads here'
      obtain ⟨t, entry, t', entered₁, arrives⟩ := edges.handled range member covers
      obtain ⟨t₂, entry', t₂', entered₂, arrives'⟩ := edges'.handled range member covers
      have same : e.1.locals.length = entry.locals.length := by
        obtain ⟨u, -, -, caught⟩ := handlerFrame_eq_ok entered
        obtain ⟨v, -, -, caught'⟩ := handlerFrame_eq_ok entered₁
        rw [caught, caught']
        exact width
      exact ⟨arrives.tracks_wide (tracks.caught kinds entered entered₁) same kinds fun compared =>
          (carries.matched compared).1,
        arrives'.tracks (tracks'.caught compares entered entered₂) compares fun compared =>
          (carries.matched compared).2,
        fun compared => handlerFrame_matched (between.matched compared) entered⟩
  have begins : Between m block exact R r.frameAt r'.frameAt 0 (entryOf owner m d).1 := by
    have at_node : (m.woven block).body[nodeAt block m.body.toList 0]? = some first :=
      Body.getElem?_nodeAt start
    have arrives : Arrives r'.frameAt 0 (entryOf owner (m.woven block) d).1 :=
      entry_arrives analyzed' parsed (Nat.zero_lt_of_lt (Array.getElem?_eq_some_iff.mp at_node).1)
    have tracks : (entryOf owner m d).1.Tracks exact R (entryOf owner (m.woven block) d).1 :=
      entryOf_tracks rfl
    refine ⟨(entry_arrives analyzed parsed nonempty).tracks_wide (entryOf_tracks rfl) rfl kinds fun compared =>
      (carries.matched compared).1, ?_, fun _ => entryOf_matched owner m d⟩
    rw [nodeAt_eq block (getElem?_toList start), unblocked]
    exact arrives.tracks tracks compares fun compared => (carries.matched compared).2
  exact analyze_confined analyzed nonempty parsed covered confines begins i f here

end

end Bytecode.Analysis
