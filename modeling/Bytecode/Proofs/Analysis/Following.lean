import Bytecode.Proofs.Analysis.Buffers
import Bytecode.Proofs.Analysis.Fixpoint

/-!
# Builders that the analysis follows

The analysis keeps one text for a buffer, whatever path leads to it and however often a position is
visited. The text is the one of every run if the builder is followed along one line of instructions.
Which builders are followed before a position is a choice: a copy may be followed on behind the
instruction that makes it, and the original no longer. `Line` says of a choice that every position
which sees a followed builder is visited once, and that the line has no branches and no joins.

The invariant of the loop is `Trace`. A frame that has a followed builder is the state that the
position before it has left, and between the two visits nobody has changed the text: only the last
visited position of the line has a successor that waits, and no other frame has the builder without
following it. When the loop ends, this is `Traced`.
-/

namespace Bytecode.Analysis

/-- The positions to which control can go on from a position, other than handlers. -/
def Context.successorsAt (ctx : Context) (i : Nat) : List Nat :=
  (ctx.body[i]?.bind fun insn =>
    (ctx.body.successors ctx.positions Flow.always i insn.node).toOption).getD []

/-- The handlers around a position. -/
def Context.handlersAt (ctx : Context) (i : Nat) : List Nat :=
  (ctx.ranges.filter (·.covers i)).map CoveredRange.handler

/-- The buffer of a builder. -/
def Literal.builder? : Literal → Option BufferId
  | .builder b => some b
  | _ => none

/-- The buffer of a value that is known to be a builder. -/
def Value.builder? (v : Value) : Option BufferId :=
  v.literal.bind Literal.builder?

theorem Value.builder?_eq_some {v : Value} {b : BufferId} :
    v.builder? = some b ↔ v.literal = some (.builder b) := by
  rw [Value.builder?, Option.bind_eq_some_iff]
  constructor
  · rintro ⟨l, known, builder⟩
    cases l <;> cases builder
    exact known
  · exact fun known => ⟨_, known, rfl⟩

/-- The builders of a frame. -/
def Frame.builders (f : Frame) : List BufferId :=
  (f.locals ++ f.stack).filterMap Value.builder?

theorem Frame.mem_builders {f : Frame} {b : BufferId} : b ∈ f.builders ↔ f.Holds b := by
  simp only [builders, List.mem_filterMap, Value.builder?_eq_some, Holds]

instance (f : Frame) (b : BufferId) : Decidable (f.Holds b) :=
  decidable_of_iff (b ∈ f.builders) Frame.mem_builders

/-- A frame has a builder of a set. -/
def Frame.Has (tracked : BufferId → Prop) (f : Frame) : Prop :=
  ∃ b, tracked b ∧ f.Holds b

instance (tracked : BufferId → Prop) [DecidablePred tracked] (f : Frame) : Decidable (f.Has tracked) :=
  decidable_of_iff (∃ b ∈ f.builders, tracked b) <| by
    simp only [Frame.Has, Frame.mem_builders, and_comm]

/-- A visit sees a followed builder, before its instruction or behind it. -/
def Visit.Sees (follows : Nat → BufferId → Prop) (v : Visit) : Prop :=
  v.before.Has (follows v.position) ∨ v.after.Has (follows (v.position + 1))

/-- The line on which builders are followed: each position is visited once, is left for the next one,
and the next one is reached from nowhere else. A builder in a local variable meets no handler. A
builder that is followed behind an instruction was so before it, or is new. -/
structure Line (ctx : Context) (visits : List Visit) (follows : Nat → BufferId → Prop) : Prop where
  once : ∀ v ∈ visits, v.Sees follows → visits.countP (·.position == v.position) = 1
  onward : ∀ v ∈ visits, v.after.Has (follows (v.position + 1)) →
    ctx.successorsAt v.position = [v.position + 1]
  straight : ∀ v ∈ visits, ∀ k ∈ ctx.successorsAt v.position, v.after.Has (follows k) →
    k = v.position + 1
  only : ∀ v ∈ visits, v.after.Has (follows (v.position + 1)) → ∀ u ∈ visits,
    v.position + 1 ∈ ctx.successorsAt u.position → u.position = v.position
  unhandled : ∀ v ∈ visits, v.after.Has (follows (v.position + 1)) → ∀ u ∈ visits,
    v.position + 1 ∉ ctx.handlersAt u.position
  uncovered : ∀ v ∈ visits, ∀ k ∈ ctx.handlersAt v.position, ∀ x ∈ v.before.locals,
    ∀ b ∈ x.builder?, ¬follows v.position b ∧ ¬follows k b
  begins : ∀ v ∈ visits, ∀ b ∈ v.before.builders, v.after.Holds b → follows (v.position + 1) b →
    follows v.position b

instance (follows : Nat → BufferId → Prop) [∀ k, DecidablePred (follows k)] (v : Visit) :
    Decidable (v.Sees follows) :=
  inferInstanceAs (Decidable (_ ∨ _))

/-! ## What a visit carries on -/

namespace Flow

/-- What happens to a flow when states are carried to positions: the buffers stay as they are, frames
change only there, and a builder in a frame was there before or has been carried there. -/
structure Carries (sources : Nat → Frame → Prop) (flow flow' : Flow) : Prop where
  buffers : flow'.store.buffers = flow.store.buffers
  size : flow'.frames.size = flow.frames.size
  same : ∀ k, (∀ f, ¬sources k f) → flow'.at k = flow.at k
  stays : ∀ k, (flow.at k).isSome → (flow'.at k).isSome
  holds : ∀ k g b, flow'.at k = some g → g.Holds b →
    (∃ f, flow.at k = some f ∧ f.Holds b) ∨ ∃ f, sources k f ∧ f.Holds b

variable {sources sources' : Nat → Frame → Prop} {flow flow' flow'' : Flow}

theorem Carries.refl : Carries sources flow flow :=
  ⟨rfl, rfl, fun _ _ => rfl, fun _ some => some, fun _ g _ found holds => .inl ⟨g, found, holds⟩⟩

theorem Carries.trans (first : Carries sources flow flow') (second : Carries sources flow' flow'') :
    Carries sources flow flow'' where
  buffers := second.buffers.trans first.buffers
  size := second.size.trans first.size
  same := fun k free => (second.same k free).trans (first.same k free)
  stays := fun k some => second.stays k (first.stays k some)
  holds := fun k g b found holds => by
    rcases second.holds k g b found holds with ⟨f, found', holds'⟩ | carried
    · exact first.holds k f b found' holds'
    · exact .inr carried

theorem Carries.mono (h : Carries sources flow flow') (more : ∀ k f, sources k f → sources' k f) :
    Carries sources' flow flow' where
  buffers := h.buffers
  size := h.size
  same := fun k free => h.same k fun f source => free f (more k f source)
  stays := h.stays
  holds := fun k g b found holds => by
    rcases h.holds k g b found holds with old | ⟨f, source, held⟩
    · exact .inl old
    · exact .inr ⟨f, more k f source, held⟩

/-- A frame that arrives first is the frame of its position. -/
theorem at_mergeInto {target : Nat} {incoming : Frame} (inside : target < flow.frames.size)
    (empty : flow.at target = none) (h : mergeInto flow target incoming = .ok flow') :
    flow'.at target = some incoming := by
  unfold mergeInto at h
  rw [← Flow.at, empty] at h
  cases h
  rw [at_set inside, if_pos rfl]

/-- A join carries one frame to one position. -/
theorem mergeInto_carries {target : Nat} {incoming : Frame} (inside : target < flow.frames.size)
    (h : mergeInto flow target incoming = .ok flow') :
    Carries (fun k f => k = target ∧ f = incoming) flow flow' := by
  unfold mergeInto at h
  split at h
  · cases h
    refine ⟨rfl, by simp, fun k free => ?_, fun k some => ?_, fun k g b found holds => ?_⟩
    · rw [at_set inside, if_neg fun same => free _ ⟨same, rfl⟩, Flow.at]
    · rw [at_set inside]
      split
      · rfl
      · exact some
    · rw [at_set inside] at found
      split at found
      · next same =>
        cases found
        exact .inr ⟨_, ⟨same, rfl⟩, holds⟩
      · exact .inl ⟨g, found, holds⟩
  · next existing there =>
    split at h
    · cases h
    · next merged changed store run =>
      cases h
      obtain ⟨buffers, kept⟩ := frameMerge_lends run
      refine ⟨buffers, by simp, fun k free => ?_, fun k some => ?_, fun k g b found holds => ?_⟩
      · rw [at_set inside, if_neg fun same => free _ ⟨same, rfl⟩, Flow.at]
      · rw [at_set inside]
        split
        · rfl
        · exact some
      · rw [at_set inside] at found
        split at found
        · next same =>
          cases found
          exact .inl ⟨existing, same ▸ there, kept b holds⟩
        · exact .inl ⟨g, found, holds⟩

/-- A state is carried to all its targets. -/
theorem mergeAll_carries {targets : List Nat} {incoming : Frame}
    (inside : ∀ t ∈ targets, t < flow.frames.size)
    (h : targets.foldlM (fun flow target => mergeInto flow target incoming) flow = .ok flow') :
    Carries (fun k f => k ∈ targets ∧ f = incoming) flow flow' := by
  induction targets generalizing flow with
  | nil =>
    cases h
    exact .refl
  | cons target targets ih =>
    obtain ⟨first, rest⟩ := List.forall_mem_cons.mp inside
    rw [List.foldlM_cons] at h
    cases joined : mergeInto flow target incoming with
    | error e =>
      rw [joined] at h
      cases h
    | ok middle =>
      rw [joined] at h
      have carries := mergeInto_carries first joined
      refine (carries.mono fun k f => ?_).trans ((ih (fun t member => ?_) h).mono fun k f => ?_)
      · rintro ⟨rfl, rfl⟩
        exact ⟨List.mem_cons_self, rfl⟩
      · rw [carries.size]
        exact rest t member
      · rintro ⟨member, rfl⟩
        exact ⟨List.mem_cons_of_mem _ member, rfl⟩

/-- The states that a visit carries to handlers: their builders are in local variables. -/
def EntersHandler (ranges : List CoveredRange) (before : Frame) (k : Nat) (f : Frame) : Prop :=
  k ∈ ranges.map CoveredRange.handler ∧
    ∀ b, f.Holds b → ∃ x ∈ before.locals, x.literal = some (.builder b)

/-- The state before an instruction is carried to the handlers around it. -/
theorem visitHandlers_carries {before : Frame} {fail : FlowError → AnalysisError}
    {ranges : List CoveredRange} (inside : ∀ r ∈ ranges, r.handler < flow.frames.size)
    (h : ranges.foldlM (visitHandler before fail) flow = .ok flow') :
    Carries (EntersHandler ranges before) flow flow' := by
  induction ranges generalizing flow with
  | nil =>
    cases h
    exact .refl
  | cons r ranges ih =>
    obtain ⟨first, rest⟩ := List.forall_mem_cons.mp inside
    rw [List.foldlM_cons] at h
    cases entered : visitHandler before fail flow r with
    | error e =>
      rw [entered] at h
      cases h
    | ok middle =>
      rw [entered] at h
      unfold visitHandler at entered
      split at entered
      · cases entered
      · next entry store run =>
        obtain ⟨buffers, locals⟩ := handlerFrame_lends run
        have joins : Carries _ { flow with store } middle := mergeInto_carries first entered
        have more : Carries (EntersHandler (r :: ranges) before) { flow with store } middle :=
          joins.mono fun k f => by
            rintro ⟨rfl, rfl⟩
            exact ⟨List.mem_cons_self, locals⟩
        have carries : Carries (EntersHandler (r :: ranges) before) flow middle :=
          ⟨more.buffers.trans buffers, more.size, more.same, more.stays, more.holds⟩
        refine carries.trans ((ih (fun r' member => ?_) h).mono fun k f => ?_)
        · rw [carries.size]
          exact rest r' member
        · rintro ⟨member, held⟩
          exact ⟨List.mem_cons_of_mem _ member, held⟩

/-- What a visit carries to a position: the state behind the instruction, or the state before it to a
handler. -/
def VisitCarries (ctx : Context) (v : Visit) (k : Nat) (f : Frame) : Prop :=
  k ∈ ctx.successorsAt v.position ∧ f = v.after ∨
    k ∈ ctx.handlersAt v.position ∧ ∀ b, f.Holds b → ∃ x ∈ v.before.locals, x.literal = some (.builder b)

/-- One turn of the loop: a visit simulates its instruction and carries the states around it on. A first
state is the frame of its position, unless a handler begins there too. -/
structure Turn (ctx : Context) (flow : Flow) (v : Visit) (flow' : Flow) : Prop where
  executed : ∃ insn, ctx.body[v.position]? = some insn ∧
    v.before.execute ctx.body v.position insn v.store = .ok (v.after, v.storeAfter)
  there : flow.at v.position = some v.before
  store : v.store = flow.store
  carries : Carries (VisitCarries ctx v) { flow with store := v.storeAfter } flow'
  first : ctx.successorsAt v.position = [v.position + 1] → flow.at (v.position + 1) = none →
    v.position + 1 ∉ ctx.handlersAt v.position → flow'.at (v.position + 1) = some v.after

theorem turn_of_visit {builders : Prop} {ctx : Context} (closed : ctx.Closed builders)
    (size : flow.frames.size = ctx.body.size) {i : Nat} {queue : List Nat} {v : Visit}
    (h : visit ctx i { flow with queue } = .ok flow') (visited : visitOf? ctx i flow = some v) :
    Turn ctx flow v flow' := by
  obtain ⟨insn, at_position, visited⟩ := Option.bind_eq_some_iff.mp visited
  obtain ⟨before, there, visited⟩ := Option.bind_eq_some_iff.mp visited
  obtain ⟨⟨after, store⟩, executed, visited⟩ := Option.bind_eq_some_iff.mp visited
  cases visited
  have executed := toOption_eq_some.mp executed
  suffices both : Carries (VisitCarries ctx _) { flow with store } flow' ∧ _ from
    ⟨⟨insn, at_position, executed⟩, there, rfl, both.1, both.2⟩
  have there' : flow.frames[i]?.join = some before := there
  simp only [visit, at_position, there'] at h
  unfold visitNode at h
  have run : (before.execute ctx.body i insn).run flow.store = .ok (after, store) := executed
  cases edges : ctx.body.successors ctx.positions always i insn.node with
  | error e =>
    rw [run, edges] at h
    cases h
  | ok targets =>
    rw [run, edges] at h
    have successors : ctx.successorsAt i = targets := by
      rw [Context.successorsAt, at_position, Option.bind_some, edges]
      rfl
    have inside : ∀ t ∈ targets, t < flow.frames.size := fun t member =>
      size ▸ lt_of_mem_successors closed edges member
    have insideHandlers : ∀ r ∈ ctx.ranges.filter (·.covers i), r.handler < flow.frames.size :=
      fun r member => size ▸ closed.handlers r (List.mem_of_mem_filter member)
    cases joined : targets.foldlM (fun flow target => mergeInto flow target after)
        (⟨flow.frames, queue, store⟩ : Flow) with
    | error e =>
      simp only [Except.mapError, bind, Except.bind, joined] at h
      cases h
    | ok middle =>
      simp only [Except.mapError, bind, Except.bind, joined] at h
      have first : Carries (fun k f => k ∈ targets ∧ f = after) ⟨flow.frames, queue, store⟩ middle :=
        mergeAll_carries inside joined
      have second : Carries (EntersHandler (ctx.ranges.filter (·.covers i)) before) middle flow' :=
        visitHandlers_carries (fun r member => first.size ▸ insideHandlers r member) h
      let v : Visit := ⟨i, before, flow.store, after, store⟩
      have toTargets : Carries (VisitCarries ctx v) ⟨flow.frames, queue, store⟩ middle :=
        first.mono fun k f source => .inl ⟨successors.symm ▸ source.1, source.2⟩
      have toHandlers : Carries (VisitCarries ctx v) middle flow' :=
        second.mono fun k f source => .inr source
      have both := toTargets.trans toHandlers
      refine ⟨⟨both.buffers, both.size, both.same, both.stays, both.holds⟩, fun next empty free => ?_⟩
      obtain rfl : targets = [i + 1] := successors.symm.trans next
      have only : mergeInto ⟨flow.frames, queue, store⟩ (i + 1) after = .ok middle := by
        rw [← joined, List.foldlM_cons]
        exact (bind_pure _).symm
      rw [second.same (i + 1) fun f source => free source.1]
      have there : i + 1 < (⟨flow.frames, queue, store⟩ : Flow).frames.size :=
        inside _ (List.mem_singleton.mpr rfl)
      exact at_mergeInto there empty only

end Flow

/-! ## The invariant of the loop -/

/-- The positions at which a visit looks for a builder are visited later. -/
def Waits (log : List Visit) (k : Nat) : Prop :=
  ∀ u ∈ log, u.position ≠ k

/-- What the loop has made of followed builders after a list of visits. A frame that has one is what
the visit of the position before it has left, and nothing changes the text between that visit and the
next. At most one position waits with a builder, and every other frame that has it follows it. -/
structure Trace (ctx : Context) (follows : Nat → BufferId → Prop) (log : List Visit) (flow : Flow) :
    Prop where
  lent : ∀ k f b, flow.at k = some f → f.Holds b → b.val < flow.store.buffers.texts.size
  lentBefore : ∀ u ∈ log, ∀ b, u.before.Holds b → b.val < u.store.buffers.texts.size
  reached : ∀ k f, flow.at k = some f → k = 0 ∨ ∃ u ∈ log,
    k ∈ ctx.successorsAt u.position ∨ k ∈ ctx.handlersAt u.position
  visited : ∀ u ∈ log, (flow.at u.position).isSome
  behind : ∀ k f, flow.at k = some f → f.Has (follows k) → ∃ u ∈ log, u.position + 1 = k ∧ u.after = f
  kept : ∀ u ∈ log, u.after.Has (follows (u.position + 1)) → flow.at (u.position + 1) = some u.after
  texts : ∀ u ∈ log, ∀ b, follows (u.position + 1) b → u.after.Holds b →
    (∃ v ∈ log, v.position = u.position + 1 ∧ v.before = u.after ∧
      v.store.buffers.contents b = u.storeAfter.buffers.contents b) ∨
    Waits log (u.position + 1) ∧
      flow.store.buffers.contents b = u.storeAfter.buffers.contents b
  front : ∀ u ∈ log, ∀ v ∈ log, ∀ b, follows (u.position + 1) b → follows (v.position + 1) b →
    u.after.Holds b → v.after.Holds b →
    Waits log (u.position + 1) → Waits log (v.position + 1) → u.position = v.position
  sole : ∀ u ∈ log, ∀ b, follows (u.position + 1) b → u.after.Holds b → Waits log (u.position + 1) →
    ∀ k f, flow.at k = some f → f.Holds b → follows k b

section

variable {ctx : Context} {follows : Nat → BufferId → Prop} {log rest visits : List Visit} {v : Visit}

/-- A position that is visited once is not visited before or after. -/
theorem waits_of_once (all : visits = log ++ v :: rest)
    (once : visits.countP (·.position == v.position) = 1) : Waits log v.position := by
  intro u member same
  have both : 2 ≤ visits.countP (·.position == v.position) := by
    rw [all, List.countP_append, List.countP_cons_of_pos (by simp)]
    have : 0 < log.countP (·.position == v.position) :=
      List.countP_pos_iff.mpr ⟨u, member, by simp [same]⟩
    omega
  omega

/-- Two visits of a position that is visited once are the same. -/
theorem eq_of_once {u : Visit} (once : visits.countP (·.position == v.position) = 1) (hu : u ∈ visits)
    (hv : v ∈ visits) (same : u.position = v.position) : u = v := by
  rw [List.countP_eq_length_filter, List.length_eq_one_iff] at once
  obtain ⟨w, only⟩ := once
  have member (x : Visit) (hx : x ∈ visits) (there : x.position = v.position) : x = w := by
    have : x ∈ visits.filter (·.position == v.position) := List.mem_filter.mpr ⟨hx, by simp [there]⟩
    rw [only] at this
    exact List.mem_singleton.mp this
  rw [member u hu same, member v hv rfl]

/-- Before the loop starts, no frame has a builder. -/
theorem trace_start {body : Body} {entered : Frame × Store} {ranges : List CoveredRange}
    (nonempty : 0 < body.size) (plain : ∀ b, ¬entered.1.Holds b) :
    Trace ⟨body, body.lastLabels, ranges⟩ follows [] (Flow.start body entered) := by
  have only (k : Nat) (f : Frame) (found : (Flow.start body entered).at k = some f) :
      k = 0 ∧ f = entered.1 := Flow.at_start nonempty found
  refine ⟨fun k f b found holds => ?_, by simp, fun k f found => .inl (only k f found).1, by simp,
    fun k f found => ?_, by simp, by simp, by simp, by simp⟩
  · rw [(only k f found).2] at holds
    exact absurd holds (plain b)
  · rintro ⟨b, -, holds⟩
    rw [(only k f found).2] at holds
    exact absurd holds (plain b)

section

variable {flow flow' : Flow} (line : Line ctx visits follows) (all : visits = log ++ v :: rest)
  (trace : Trace ctx follows log flow) (turn : Flow.Turn ctx flow v flow')

include line all

/-- No earlier visit is at the position of the next one, if one of the two sees a followed builder. -/
theorem Line.away {u : Visit} (member : u ∈ log) (sees : u.Sees follows ∨ v.Sees follows) :
    u.position ≠ v.position := by
  have hu : u ∈ visits := all ▸ List.mem_append_left _ member
  have hv : v ∈ visits := all ▸ List.mem_append_right _ List.mem_cons_self
  intro same
  have once : visits.countP (·.position == v.position) = 1 := by
    rcases sees with sees | sees
    · exact same ▸ line.once u hu sees
    · exact line.once v hv sees
  exact waits_of_once all once u member same

/-- The next visit carries nothing to a position that has a followed builder from before. -/
theorem Line.apart {u : Visit} (member : u ∈ log) (has : u.after.Has (follows (u.position + 1))) :
    u.position + 1 ∉ ctx.successorsAt v.position ∧ u.position + 1 ∉ ctx.handlersAt v.position := by
  have hu : u ∈ visits := all ▸ List.mem_append_left _ member
  have hv : v ∈ visits := all ▸ List.mem_append_right _ List.mem_cons_self
  refine ⟨fun leads => ?_, line.unhandled u hu has v hv⟩
  exact line.away all member (.inl (.inr has)) (line.only u hu has v hv leads).symm

include trace

/-- Nothing has arrived at the position behind the next visit, if that leaves a followed builder. -/
theorem Trace.untouched (has : v.after.Has (follows (v.position + 1))) : flow.at (v.position + 1) = none := by
  have hv : v ∈ visits := all ▸ List.mem_append_right _ List.mem_cons_self
  cases there : flow.at (v.position + 1) with
  | none => rfl
  | some f =>
    rcases trace.reached _ f there with first | ⟨u, member, leads | handled⟩
    · cases first
    · have hu : u ∈ visits := all ▸ List.mem_append_left _ member
      exact absurd (line.only v hv has u hu leads) (line.away all member (.inr (.inr has)))
    · have hu : u ∈ visits := all ▸ List.mem_append_left _ member
      exact absurd handled (line.unhandled v hv has u hu)

include turn

/-- The state that the visit leaves with a followed builder is the frame of the next position. -/
theorem Trace.arrives_turn (has : v.after.Has (follows (v.position + 1))) : flow'.at (v.position + 1) = some v.after := by
  have hv : v ∈ visits := all ▸ List.mem_append_right _ List.mem_cons_self
  exact turn.first (line.onward v hv has) (trace.untouched line all has) (line.unhandled v hv has v hv)

/-- A frame with a followed builder from before is still there. -/
theorem Trace.still {u : Visit} (member : u ∈ log) (has : u.after.Has (follows (u.position + 1))) :
    flow'.at (u.position + 1) = some u.after := by
  obtain ⟨noJump, noHandler⟩ := line.apart all member has
  rw [turn.carries.same (u.position + 1) fun f source =>
    source.elim (fun jump => noJump jump.1) fun handler => noHandler handler.1]
  exact trace.kept u member has

/-- A frame with a followed builder is what the visit of the position before it has left. -/
theorem Trace.behind_turn {k : Nat} {g : Frame} (found : flow'.at k = some g) (has : g.Has (follows k)) :
    ∃ u ∈ (log ++ [v]), u.position + 1 = k ∧ u.after = g := by
  have hv : v ∈ visits := all ▸ List.mem_append_right _ List.mem_cons_self
  obtain ⟨b, followed, holds⟩ := has
  rcases turn.carries.holds k g b found holds with ⟨f, there, held⟩ | ⟨f, ⟨leads, rfl⟩ | ⟨handled, slots⟩, held⟩
  · obtain ⟨u, member, rfl, rfl⟩ := trace.behind k f there ⟨b, followed, held⟩
    have still := trace.still line all turn member ⟨b, followed, held⟩
    rw [found] at still
    exact ⟨u, List.mem_append_left _ member, rfl, (Option.some.inj still).symm⟩
  · obtain rfl := line.straight v hv k leads ⟨b, followed, held⟩
    have arrived := trace.arrives_turn line all turn ⟨b, followed, held⟩
    exact ⟨v, by simp, rfl, Option.some.inj (arrived.symm.trans found)⟩
  · obtain ⟨x, slot, builder⟩ := slots b held
    exact absurd followed (line.uncovered v hv k handled x slot b (Value.builder?_eq_some.mpr builder)).2

/-- A visit that sees a followed builder finds it where the visit before has left it. -/
theorem Trace.previous {b : BufferId} (followed : follows v.position b) (held : v.before.Holds b) :
    ∃ u ∈ log, u.position + 1 = v.position ∧ u.after.Holds b ∧ Waits log (u.position + 1) := by
  obtain ⟨u, member, next, after⟩ := trace.behind _ _ turn.there ⟨b, followed, held⟩
  refine ⟨u, member, next, after ▸ held, fun w hw same => ?_⟩
  exact line.away all hw (.inr (.inl ⟨b, followed, held⟩)) (same.trans next)

/-- The visit does not see a builder that waits at another position. -/
theorem Trace.unseen {u : Visit} {b : BufferId} (member : u ∈ log) (followed : follows (u.position + 1) b)
    (held : u.after.Holds b) (waits : Waits log (u.position + 1)) (other : v.position ≠ u.position + 1) :
    ¬v.before.Holds b := by
  intro before
  have here := trace.sole u member b followed held waits _ _ turn.there before
  obtain ⟨p, hp, next, after, waits'⟩ := trace.previous line all turn here before
  have same := trace.front u member p hp b followed (next ▸ here) held after waits waits'
  exact other (next ▸ same ▸ rfl)

/-- The visit leaves the text of a builder alone that waits at another position. -/
theorem Trace.text_turn {u : Visit} {b : BufferId} (member : u ∈ log) (followed : follows (u.position + 1) b)
    (held : u.after.Holds b) (waits : Waits log (u.position + 1)) (other : v.position ≠ u.position + 1) :
    flow'.store.buffers.contents b = flow.store.buffers.contents b := by
  obtain ⟨insn, -, executed⟩ := turn.executed
  have lends := execute_lends executed
  have inside := trace.lent _ _ b (trace.kept u member ⟨b, followed, held⟩) held
  rw [turn.carries.buffers]
  rw [turn.store] at lends
  refine (lends.extends_.contents b inside).resolve_left fun ⟨_, known⟩ => ?_
  have before := known.resolve_right (Nat.not_le.mpr inside)
  exact trace.unseen line all turn member followed held waits other before

/-- The text of a builder behind a turn: a visit has found it as it was left, or it still waits. -/
theorem Trace.texts_turn {u : Visit} {b : BufferId} (member : u ∈ log)
    (followed : follows (u.position + 1) b) (held : u.after.Holds b) :
    (∃ w ∈ (log ++ [v]), w.position = u.position + 1 ∧ w.before = u.after ∧
      w.store.buffers.contents b = u.storeAfter.buffers.contents b) ∨
    Waits (log ++ [v]) (u.position + 1) ∧
      flow'.store.buffers.contents b = u.storeAfter.buffers.contents b := by
  rcases trace.texts u member b followed held with ⟨w, hw, found⟩ | ⟨waits, text⟩
  · exact .inl ⟨w, List.mem_append_left _ hw, found⟩
  · by_cases here : v.position = u.position + 1
    · have there := turn.there
      rw [here, trace.kept u member ⟨b, followed, held⟩] at there
      exact .inl ⟨v, by simp, here, (Option.some.inj there).symm, turn.store ▸ text⟩
    · refine .inr ⟨fun w hw => ?_, ?_⟩
      · rcases List.mem_append.mp hw with old | new
        · exact waits w old
        · exact List.mem_singleton.mp new ▸ here
      · rw [trace.text_turn line all turn member followed held waits here, text]

/-- The visit does not leave a builder that waits at another position. -/
theorem Trace.unleft {u : Visit} {b : BufferId} (member : u ∈ log) (followed : follows (u.position + 1) b)
    (held : u.after.Holds b) (waits : Waits (log ++ [v]) (u.position + 1)) : ¬v.after.Holds b := by
  intro after
  obtain ⟨insn, -, executed⟩ := turn.executed
  have earlier : Waits log (u.position + 1) := fun w hw => waits w (List.mem_append_left _ hw)
  rcases (execute_lends executed).held b after with before | ⟨new, -⟩
  · exact trace.unseen line all turn member followed held earlier (waits v (by simp)) before
  · have old := trace.lent _ _ b (trace.kept u member ⟨b, followed, held⟩) held
    rw [turn.store] at new
    omega

/-- A builder that the visit leaves and follows on is followed wherever a frame has it. -/
theorem Trace.sole_turn {b : BufferId} (followed : follows (v.position + 1) b) (held : v.after.Holds b)
    {k : Nat} {g : Frame} (found : flow'.at k = some g) (holds : g.Holds b) : follows k b := by
  have hv : v ∈ visits := all ▸ List.mem_append_right _ List.mem_cons_self
  rcases turn.carries.holds k g b found holds with
    ⟨f, there, old⟩ | ⟨f, ⟨leads, rfl⟩ | ⟨handled, slots⟩, carried⟩
  · obtain ⟨insn, -, executed⟩ := turn.executed
    rcases (execute_lends executed).held b held with before | ⟨new, -⟩
    · have here := line.begins v hv b (Frame.mem_builders.mpr before) held followed
      obtain ⟨p, hp, next, after, waits⟩ := trace.previous line all turn here before
      exact trace.sole p hp b (next ▸ here) after waits k f there old
    · have inside := trace.lent k f b there old
      rw [turn.store] at new
      omega
  · rw [line.onward v hv ⟨b, followed, held⟩, List.mem_singleton] at leads
    exact leads ▸ followed
  · obtain ⟨x, slot, builder⟩ := slots b carried
    have before : v.before.Holds b := Frame.holds_of_locals slot builder
    exact absurd (line.begins v hv b (Frame.mem_builders.mpr before) held followed)
      (line.uncovered v hv k handled x slot b (Value.builder?_eq_some.mpr builder)).1

/-- One turn of the loop keeps the invariant. -/
theorem Trace.next : Trace ctx follows (log ++ [v]) flow' := by
  have hv : v ∈ visits := all ▸ List.mem_append_right _ List.mem_cons_self
  obtain ⟨insn, -, executed⟩ := turn.executed
  have lends := execute_lends executed
  have split {p : Visit → Prop} (old : ∀ u ∈ log, p u) (new : p v) : ∀ u ∈ (log ++ [v]), p u := by
    intro u member
    rcases List.mem_append.mp member with first | last
    · exact old u first
    · exact List.mem_singleton.mp last ▸ new
  have below {k : Nat} {f : Frame} {b : BufferId} (there : flow.at k = some f) (holds : f.Holds b) :
      b.val < v.storeAfter.buffers.texts.size := by
    refine Nat.lt_of_lt_of_le (trace.lent k f b there holds) ?_
    rw [← turn.store]
    exact lends.extends_.size
  refine ⟨fun k g b found holds => ?_, ?_, fun k g found => ?_, ?_, fun k g => ?_, ?_, ?_, ?_, ?_⟩
  · rw [turn.carries.buffers]
    rcases turn.carries.holds k g b found holds with
      ⟨f, there, held⟩ | ⟨f, ⟨-, rfl⟩ | ⟨-, slots⟩, held⟩
    · exact below there held
    · rcases lends.held b held with before | ⟨-, new⟩
      · exact below turn.there before
      · exact new
    · obtain ⟨x, slot, builder⟩ := slots b held
      exact below turn.there (Frame.holds_of_locals slot builder)
  · refine split trace.lentBefore fun b held => ?_
    rw [turn.store]
    exact trace.lent _ _ b turn.there held
  · by_cases leads : k ∈ ctx.successorsAt v.position ∨ k ∈ ctx.handlersAt v.position
    · exact .inr ⟨v, by simp, leads⟩
    · have same := turn.carries.same k fun f source => leads (source.imp And.left And.left)
      rcases trace.reached k g (same.symm.trans found) with first | ⟨u, member, reached⟩
      · exact .inl first
      · exact .inr ⟨u, List.mem_append_left _ member, reached⟩
  · refine split (fun u member => turn.carries.stays _ (trace.visited u member)) ?_
    refine turn.carries.stays _ ?_
    show (flow.at v.position).isSome = true
    rw [turn.there]
    rfl
  · exact trace.behind_turn line all turn
  · exact split (fun u member => trace.still line all turn member) (trace.arrives_turn line all turn)
  · refine split (fun u member b => trace.texts_turn line all turn member) fun b followed held => .inr ⟨?_, ?_⟩
    · refine split (fun u member same => ?_) (by omega)
      have there := trace.visited u member
      rw [same, trace.untouched line all ⟨b, followed, held⟩] at there
      cases there
    · rw [turn.carries.buffers]
  · have earlier {k : Nat} (waits : Waits (log ++ [v]) k) : Waits log k :=
      fun w hw => waits w (List.mem_append_left _ hw)
    refine split (fun u hu => split (fun w hw b followed followed' held held' waits waits' => ?_)
      fun b followed _ held after waits _ => ?_) (split (fun w hw b _ followed after held _ waits => ?_)
      fun _ _ _ _ _ _ _ => rfl)
    · exact trace.front u hu w hw b followed followed' held held' (earlier waits) (earlier waits')
    · exact absurd after (trace.unleft line all turn hu followed held waits)
    · exact absurd after (trace.unleft line all turn hw followed held waits)
  · refine split (fun u hu b followed held waits k g found holds => ?_)
      fun b followed held _ k g found holds => trace.sole_turn line all turn followed held found holds
    -- the visit has not seen the builder, so the frame has had it before
    have unleft := trace.unleft line all turn hu followed held waits
    have earlier : Waits log (u.position + 1) := fun w hw => waits w (List.mem_append_left _ hw)
    have unseen := trace.unseen line all turn hu followed held earlier (waits v (by simp))
    rcases turn.carries.holds k g b found holds with ⟨f, there, old⟩ | ⟨f, ⟨-, rfl⟩ | ⟨-, slots⟩, carried⟩
    · exact trace.sole u hu b followed held earlier k f there old
    · exact absurd carried unleft
    · obtain ⟨x, slot, builder⟩ := slots b carried
      exact absurd (Frame.holds_of_locals slot builder) unseen

end

/-- A turn of the loop without a visit changes nothing. -/
theorem visit_eq_of_none {flow flow' : Flow} {i : Nat} {queue : List Nat}
    (h : Flow.visit ctx i { flow with queue } = .ok flow') (none_ : Flow.visitOf? ctx i flow = none) :
    flow' = { flow with queue } := by
  unfold Flow.visit at h
  split at h
  · next insn before at_position there =>
    have there' : flow.at i = some before := there
    cases run : before.execute ctx.body i insn flow.store with
    | error e =>
      have run' : (before.execute ctx.body i insn).run flow.store = .error e := run
      simp only [Flow.visitNode, run', Except.mapError, bind, Except.bind] at h
      cases h
    | ok p =>
      simp [Flow.visitOf?, at_position, there', run, Except.toOption] at none_
  · cases h
    rfl

/-- The whole loop keeps the invariant. -/
theorem Trace.run {builders : Prop} (closed : ctx.Closed builders) (line : Line ctx visits follows)
    {fuel : Nat} {flow flow' : Flow} (size : flow.frames.size = ctx.body.size)
    (all : visits = log ++ Flow.visits ctx fuel flow) (trace : Trace ctx follows log flow)
    (h : Flow.run ctx fuel flow = .ok flow') : Trace ctx follows visits flow' := by
  induction fuel generalizing flow log with
  | zero =>
    cases h
    rw [Flow.visits, List.append_nil] at all
    exact all ▸ trace
  | succ fuel ih =>
    rw [Flow.run] at h
    rw [Flow.visits] at all
    split at h
    · next empty =>
      cases h
      rw [empty, List.append_nil] at all
      exact all ▸ trace
    · next i queue first =>
      rw [first] at all
      cases visited : Flow.visit ctx i { flow with queue } with
      | error e =>
        rw [visited] at h
        cases h
      | ok next =>
        rw [visited] at h
        simp only [visited] at all
        cases visit : Flow.visitOf? ctx i flow with
        | none =>
          obtain rfl := visit_eq_of_none visited visit
          rw [visit, Option.toList_none, List.nil_append] at all
          have rested : Trace ctx follows log { flow with queue } := ⟨trace.lent, trace.lentBefore,
            trace.reached, trace.visited, trace.behind, trace.kept, trace.texts, trace.front, trace.sole⟩
          have size' : ({ flow with queue } : Flow).frames.size = ctx.body.size := size
          exact ih size' all rested h
        | some v =>
          rw [visit] at all
          have turn := Flow.turn_of_visit closed size visited visit
          have all' : visits = (log ++ [v]) ++ Flow.visits ctx fuel next := by
            rw [all, Option.toList_some, List.append_assoc]
          exact ih (turn.carries.size.trans size) all' (trace.next line all turn) h

end

/-! ## The result -/

/-- What the frames of a finished analysis say about followed builders. -/
structure Traced (visits : List Visit) (follows : Nat → BufferId → Prop) (frames : Nat → Option Frame) :
    Prop where
  lent : ∀ v ∈ visits, ∀ b, v.before.Holds b → b.val < v.store.buffers.texts.size
  behind : ∀ k f, frames k = some f → f.Has (follows k) → ∃ v ∈ visits, v.position + 1 = k ∧ v.after = f
  kept : ∀ v ∈ visits, v.after.Has (follows (v.position + 1)) → frames (v.position + 1) = some v.after
  texts : ∀ u ∈ visits, ∀ v ∈ visits, ∀ b, follows (u.position + 1) b → u.after.Holds b →
    v.position = u.position + 1 →
    v.store.buffers.contents b = u.storeAfter.buffers.contents b

/-- The invariant of the loop tells what holds behind it. -/
theorem Trace.traced {ctx : Context} {follows : Nat → BufferId → Prop} {visits : List Visit}
    {flow : Flow} (line : Line ctx visits follows) (trace : Trace ctx follows visits flow) :
    Traced visits follows flow.at where
  lent := trace.lentBefore
  behind := trace.behind
  kept := trace.kept
  texts := fun u hu v hv b followed held next => by
    rcases trace.texts u hu b followed held with ⟨w, hw, position, before, text⟩ | ⟨waits, -⟩
    · have sees : w.Sees follows := .inl ⟨b, position ▸ followed, before ▸ held⟩
      rw [eq_of_once (line.once w hw sees) hv hw (next.trans position.symm)]
      exact text
    · exact absurd next (waits v hv)

/-- The frames of an analysis without a failure carry the builders on that are followed along a line. -/
theorem traced_of_analyze {owner : String} {m : Method} {r : Frames} {ranges : List CoveredRange}
    {follows : Nat → BufferId → Prop} (h : analyze owner m = .ok r) (nonempty : 0 < m.body.size)
    (covered : m.coveredRanges m.body.lastLabels = some ranges)
    (line : Line ⟨m.body, m.body.lastLabels, ranges⟩ (visitsOf owner m) follows) :
    Traced (visitsOf owner m) follows r.frameAt := by
  obtain ⟨d, ranges', flow, parsed, covered', run, -, frames, -⟩ := analyze_eq_ok h nonempty
  cases covered.symm.trans covered'
  obtain ⟨made, -, -, unknown⟩ := entryOf_records True owner m d
  have plain (b : BufferId) : ¬(entryOf owner m d).1.Holds b := by
    rintro ⟨v, member, builder⟩
    rw [show (entryOf owner m d).1.stack = [] from rfl, List.append_nil] at member
    cases (unknown.1 v member).2.symm.trans builder
  have log : visitsOf owner m = [] ++ Flow.visits ⟨m.body, m.body.lastLabels, ranges⟩
      (visitBound m.body.size (entryOf owner m d).1.locals.length) (Flow.start m.body (entryOf owner m d)) := by
    rw [visitsOf, parsed, covered]
    rfl
  have closed : Context.Closed True ⟨m.body, m.body.lastLabels, ranges⟩ :=
    closed_of_coveredRanges covered fun _ _ _ => trivial
  have same : r.frameAt = flow.at := by
    funext i
    rw [Frames.frameAt, frames, Flow.at]
  rw [same]
  refine Trace.traced line ?_
  exact Trace.run closed line (by simp [Flow.start]) log (trace_start nonempty plain) run

end Bytecode.Analysis
