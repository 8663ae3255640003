import Bytecode.Analysis.Dataflow
import Bytecode.Proofs.Analysis.Order
import Bytecode.Proofs.Analysis.Recording
import Bytecode.Proofs.Labels

/-!
# The frames of an analysis are closed under control flow

When the queue is empty, the frames are a post-fixpoint: for every frame, the state behind the
instruction is below the frame of every successor, and the state before it with the exception alone
on the stack is below the frame of every handler. Nothing here knows what frames mean.

The invariant of the loop is that a position waits in the queue or its edges are `Settled`. A visit
only lets frames grow, and queues every position whose frame has changed: `Grows` collects this. So
an edge that is settled stays settled, unless its source is queued again.
-/

namespace Bytecode.Analysis

/-- The frames that a flow has for positions. -/
def Flow.at (flow : Flow) (i : Nat) : Option Frame :=
  flow.frames[i]?.join

/-- A frame arrives at a position if the frame there claims no more. -/
def Arrives (frames : Nat → Option Frame) (target : Nat) (incoming : Frame) : Prop :=
  ∃ g, frames target = some g ∧ incoming.Le g

/-- What arrives once arrives at larger frames too. -/
theorem Arrives.mono {frames frames' : Nat → Option Frame} {target : Nat} {incoming : Frame}
    (h : Arrives frames target incoming)
    (larger : ∀ i f, frames i = some f → ∃ g, frames' i = some g ∧ f.Le g) :
    Arrives frames' target incoming := by
  obtain ⟨f, found, below⟩ := h
  obtain ⟨g, found', below'⟩ := larger _ f found
  exact ⟨g, found', below.trans below'⟩

/-- A visit of a position: the states and the stores before and behind its instruction. -/
structure Visit where
  position : Nat
  before : Frame
  store : Store
  after : Frame
  storeAfter : Store

/-- The edges of a position are settled by a visit from a list: what the simulation of its instruction
has left arrives at the successors, and the entries of the handlers around it arrive there. -/
inductive Settled (builders : Prop) (ctx : Context) (visits : List Visit) (frames : Nat → Option Frame)
    (i : Nat) (before : Frame) : Prop
  | intro {insn : Insn} {made : List Value} {s : Store} {after : Frame} {s' : Store}
      {targets : List Nat}
      (at_position : ctx.body[i]? = some insn)
      (recorded : Recorded builders made s)
      (made_before : before.Made made)
      (executed : before.execute ctx.body i insn s = .ok (after, s'))
      (successors : ctx.body.successors ctx.positions Flow.always i insn.node = .ok targets)
      (arrives : ∀ t ∈ targets, Arrives frames t after)
      (handled : ∀ r ∈ ctx.ranges, r.covers i = true → ∃ s₁ entry s₂,
        Flow.handlerFrame before r.caught s₁ = .ok (entry, s₂) ∧ Arrives frames r.handler entry)
      (visited : ⟨i, before, s, after, s'⟩ ∈ visits)

theorem Settled.mono {builders : Prop} {ctx : Context} {visits visits' : List Visit}
    {frames frames' : Nat → Option Frame} {i : Nat} {before : Frame}
    (h : Settled builders ctx visits frames i before) (more : visits ⊆ visits')
    (larger : ∀ i f, frames i = some f → ∃ g, frames' i = some g ∧ f.Le g) :
    Settled builders ctx visits' frames' i before := by
  obtain ⟨at_position, recorded, made_before, executed, successors, arrives, handled, visited⟩ := h
  refine .intro at_position recorded made_before executed successors
    (fun t member => (arrives t member).mono larger) (fun r member covers => ?_) (more visited)
  obtain ⟨s₁, entry, s₂, handler, arrives⟩ := handled r member covers
  exact ⟨s₁, entry, s₂, handler, arrives.mono larger⟩

/-- The frames of a finished analysis: the entry has arrived, and all edges are settled by visits. -/
structure PostFixpoint (builders : Prop) (ctx : Context) (visits : List Visit) (entry : Frame)
    (frames : Nat → Option Frame) : Prop where
  entry : Arrives frames 0 entry
  settled : ∀ i f, frames i = some f → Settled builders ctx visits frames i f

/-! ## Steps of the loop -/

/-- What a step of the loop does to a flow: frames grow, and a position whose frame changes is in the
queue. -/
structure Flow.Grows (flow flow' : Flow) : Prop where
  size : flow'.frames.size = flow.frames.size
  queue : ∀ i ∈ flow.queue, i ∈ flow'.queue
  larger : ∀ i f, flow.at i = some f → ∃ g, flow'.at i = some g ∧ f.Le g
  changed : ∀ i g, flow'.at i = some g → flow.at i = some g ∨ i ∈ flow'.queue

/-- The values of a flow are in a history, and its frames have one width. -/
structure Flow.Sound (builders : Prop) (made : List Value) (width : Nat) (flow : Flow) : Prop where
  recorded : Recorded builders made flow.store
  frames : ∀ i f, flow.at i = some f → f.Made made
  width : ∀ i f, flow.at i = some f → f.locals.length = width

namespace Flow

variable {builders : Prop} {made : List Value} {width : Nat} {flow flow' flow'' : Flow}
  {ctx : Context}

theorem Grows.refl : flow.Grows flow :=
  ⟨rfl, fun _ h => h, fun _ f h => ⟨f, h, .refl f⟩, fun _ _ h => .inl h⟩

theorem Grows.trans (first : flow.Grows flow') (second : flow'.Grows flow'') :
    flow.Grows flow'' where
  size := second.size.trans first.size
  queue := fun i h => second.queue i (first.queue i h)
  larger := fun i f h => by
    obtain ⟨g, hg, below⟩ := first.larger i f h
    obtain ⟨g', hg', below'⟩ := second.larger i g hg
    exact ⟨g', hg', below.trans below'⟩
  changed := fun i g h => by
    rcases second.changed i g h with same | queued
    · rcases first.changed i g same with same | queued
      · exact .inl same
      · exact .inr (second.queue i queued)
    · exact .inr queued

/-- A computation on flows extends the history and lets the flow grow. -/
def Advances (builders : Prop) (made : List Value) (width : Nat) (flow : Flow)
    (x : Except AnalysisError Flow) (result : Flow → Prop) : Prop :=
  ∀ flow', x = .ok flow' → ∃ made', made <+: made' ∧ flow'.Sound builders made' width ∧
    flow.Grows flow' ∧ result flow'

/-- The frames after one position has got another frame. -/
theorem at_set {frames : Array (Option Frame)} {queue : List Nat} {store : Store} {target i : Nat}
    {f : Frame} (inside : target < frames.size) :
    Flow.at ⟨frames.setIfInBounds target (some f), queue, store⟩ i =
      if i = target then some f else frames[i]?.join := by
  unfold Flow.at
  rw [Array.getElem?_setIfInBounds]
  by_cases same : i = target
  · rw [if_pos same.symm, if_pos same, if_pos (same ▸ inside)]
    rfl
  · rw [if_neg (Ne.symm same), if_neg same]

/-- A joined frame arrives, and everything else only grows. -/
theorem mergeInto_advances {target : Nat} {incoming : Frame} (sound : flow.Sound builders made width)
    (inside : target < flow.frames.size) (hincoming : incoming.Made made)
    (hwidth : incoming.locals.length = width) :
    Advances builders made width flow (mergeInto flow target incoming)
      fun flow' => Arrives flow'.at target incoming := by
  intro flow' h
  unfold mergeInto at h
  have queues (i : Nat) (queue : List Nat) (old : i ∈ queue) :
      i ∈ if target ∈ queue then queue else queue ++ [target] := by
    split
    · exact old
    · exact List.mem_append_left _ old
  have queued (queue : List Nat) : target ∈ if target ∈ queue then queue else queue ++ [target] := by
    split
    · assumption
    · exact List.mem_append_right _ (List.mem_singleton.mpr rfl)
  split at h
  · next empty =>
    cases h
    refine ⟨made, List.prefix_rfl, ⟨sound.recorded, fun i f found => ?_, fun i f found => ?_⟩,
      ⟨by simp, fun i => queues i _, fun i f found => ?_, fun i g found => ?_⟩,
      incoming, by rw [at_set inside, if_pos rfl], .refl _⟩
    · rw [at_set inside] at found
      split at found
      · cases found
        exact hincoming
      · exact sound.frames i f found
    · rw [at_set inside] at found
      split at found
      · cases found
        exact hwidth
      · exact sound.width i f found
    · refine ⟨f, ?_, .refl f⟩
      have other : i ≠ target := by
        rintro rfl
        rw [Flow.at, empty] at found
        cases found
      rw [at_set inside, if_neg other]
      exact found
    · rw [at_set inside] at found
      split at found
      · next same =>
        subst same
        exact .inr (queued _)
      · exact .inl found
  · next existing there =>
    split at h
    · cases h
    · next merged changed store run =>
      cases h
      have known : flow.at target = some existing := there
      have fits := hwidth.trans (sound.width _ _ known).symm
      obtain ⟨made', longer, recorded, kept, below, arrives, limit, unchanged⟩ :=
        frameMerge_records (sound.frames _ _ known) hincoming fits _ sound.recorded _ _ run
      have sameWidth : merged.locals.length = width :=
        below.locals.length_eq.symm.trans (sound.width _ _ known)
      refine ⟨made', longer, ⟨recorded, fun i f found => ?_, fun i f found => ?_⟩,
        ⟨by simp, fun i old => ?_, fun i f found => ?_, fun i g found => ?_⟩,
        merged, by rw [at_set inside, if_pos rfl], arrives⟩
      · rw [at_set inside] at found
        split at found
        · cases found
          exact kept
        · exact (sound.frames i f found).mono longer
      · rw [at_set inside] at found
        split at found
        · cases found
          exact sameWidth
        · exact sound.width i f found
      · show i ∈ if changed = true then _ else _
        split
        · exact queues i _ old
        · exact old
      · rw [at_set inside]
        split
        · next same =>
          subst same
          rw [known] at found
          cases found
          exact ⟨merged, rfl, below⟩
        · exact ⟨f, found, .refl f⟩
      · rw [at_set inside] at found
        split at found
        · next same =>
          cases found
          subst same
          cases changed with
          | true => exact .inr (queued _)
          | false => exact .inl (known.trans (congrArg some (unchanged rfl).symm))
        · exact .inl found

/-- One advance after another, where the first result survives the growth of the second. -/
theorem Advances.bind {x : Except AnalysisError Flow} {next : Flow → Except AnalysisError Flow}
    {middle result : Flow → Prop} (hx : Advances builders made width flow x middle)
    (hnext : ∀ made' flow', made <+: made' → flow'.Sound builders made' width → flow.Grows flow' →
      middle flow' → Advances builders made' width flow' (next flow') result) :
    Advances builders made width flow (x >>= next) result := by
  intro flow'' h
  cases run : x with
  | error e =>
    rw [run] at h
    cases h
  | ok flow' =>
    rw [run] at h
    obtain ⟨made', longer, sound, grows, holds⟩ := hx flow' run
    obtain ⟨made'', longer', sound', grows', holds'⟩ :=
      hnext made' flow' longer sound grows holds flow'' h
    exact ⟨made'', longer.trans longer', sound', grows.trans grows', holds'⟩

/-- A state that is carried to several positions arrives at each of them. -/
theorem mergeAll_advances {targets : List Nat} {incoming : Frame}
    (sound : flow.Sound builders made width) (inside : ∀ t ∈ targets, t < flow.frames.size)
    (hincoming : incoming.Made made) (hwidth : incoming.locals.length = width) :
    Advances builders made width flow
      (targets.foldlM (fun flow target => mergeInto flow target incoming) flow)
      fun flow' => ∀ t ∈ targets, Arrives flow'.at t incoming := by
  induction targets generalizing made flow with
  | nil =>
    rintro flow' ⟨⟩
    exact ⟨made, List.prefix_rfl, sound, .refl, by simp⟩
  | cons target targets ih =>
    obtain ⟨first, rest⟩ := List.forall_mem_cons.mp inside
    rw [List.foldlM_cons]
    refine (mergeInto_advances sound first hincoming hwidth).bind fun made' flow' longer sound' grows arrived => ?_
    intro flow'' h
    obtain ⟨made'', longer', sound'', grows', arrives⟩ :=
      ih sound' (fun t member => grows.size ▸ rest t member) (hincoming.mono longer) flow'' h
    exact ⟨made'', longer', sound'', grows', List.forall_mem_cons.mpr
      ⟨arrived.mono grows'.larger, arrives⟩⟩

/-- The entry of a handler consists of values of the history. -/
theorem handlerFrame_records {before : Frame} {caught : String} (h : before.Made made) :
    StepRecords builders made (handlerFrame before caught) (before.Kept (history builders)) := by
  refine .bind (.lift (ofType_records _)) fun made' v longer hv => ?_
  have nothing : ∀ v ∈ ([] : List Value), (history builders).good made' v := by simp
  have entry := Frame.kept_of_stack (h.later longer) nothing
  exact (Frame.push_kept entry.good hv.1).mono fun _ _ _ kept => entry.trans kept

/-- The entry of a handler arrives there. -/
theorem visitHandler_advances {before : Frame} {fail : FlowError → AnalysisError} {r : CoveredRange}
    (sound : flow.Sound builders made width) (inside : r.handler < flow.frames.size)
    (hbefore : before.Made made) (hwidth : before.locals.length = width) :
    Advances builders made width flow (visitHandler before fail flow r) fun flow' =>
      ∃ s₁ entry s₂, handlerFrame before r.caught s₁ = .ok (entry, s₂) ∧
        Arrives flow'.at r.handler entry := by
  intro flow' h
  unfold visitHandler at h
  split at h
  · cases h
  · next entry store run =>
    obtain ⟨made', longer, recorded, kept⟩ :=
      handlerFrame_records hbefore _ sound.recorded _ _ run
    have sound' : Flow.Sound builders made' width { flow with store } :=
      ⟨recorded, fun i f found => (sound.frames i f found).mono longer, sound.width⟩
    obtain ⟨made'', longer', sound'', grows, arrives⟩ :=
      mergeInto_advances sound' inside kept.good (kept.width.trans hwidth) flow' h
    exact ⟨made'', longer.trans longer', sound'',
      ⟨grows.size, grows.queue, grows.larger, grows.changed⟩, _, entry, _, run, arrives⟩

/-- The state before an instruction arrives at all handlers around it. -/
theorem visitHandlers_advances {before : Frame} {fail : FlowError → AnalysisError}
    {ranges : List CoveredRange} (sound : flow.Sound builders made width)
    (inside : ∀ r ∈ ranges, r.handler < flow.frames.size) (hbefore : before.Made made)
    (hwidth : before.locals.length = width) :
    Advances builders made width flow (ranges.foldlM (visitHandler before fail) flow) fun flow' =>
      ∀ r ∈ ranges, ∃ s₁ entry s₂, handlerFrame before r.caught s₁ = .ok (entry, s₂) ∧
        Arrives flow'.at r.handler entry := by
  induction ranges generalizing made flow with
  | nil =>
    rintro flow' ⟨⟩
    exact ⟨made, List.prefix_rfl, sound, .refl, by simp⟩
  | cons r ranges ih =>
    obtain ⟨first, rest⟩ := List.forall_mem_cons.mp inside
    rw [List.foldlM_cons]
    refine (visitHandler_advances sound first hbefore hwidth).bind
      fun made' flow' longer sound' grows arrived => ?_
    intro flow'' h
    obtain ⟨made'', longer', sound'', grows', arrives⟩ :=
      ih sound' (fun t member => grows.size ▸ rest t member) (hbefore.mono longer) flow'' h
    obtain ⟨s₁, entry, s₂, run, arrived⟩ := arrived
    exact ⟨made'', longer', sound'', grows', List.forall_mem_cons.mpr
      ⟨⟨s₁, entry, s₂, run, arrived.mono grows'.larger⟩, arrives⟩⟩

end Flow

/-! ## The invariant of the loop -/

/-- All positions that a body mentions lie inside it, and builders are allowed if it allocates one. -/
structure Context.Closed (builders : Prop) (ctx : Context) : Prop where
  positions : ∀ l t, ctx.positions l = some t → t < ctx.body.size
  handlers : ∀ r ∈ ctx.ranges, r.handler < ctx.body.size
  allocation : ∀ insn ∈ ctx.body, insn.node = .type Opcode.new builderClass → builders

/-- Successors lie inside the body. -/
theorem lt_of_mem_successors {builders : Prop} {ctx : Context} (closed : ctx.Closed builders)
    {i : Nat} {node : Node} {targets : List Nat}
    (h : ctx.body.successors ctx.positions Flow.always i node = .ok targets) {t : Nat}
    (member : t ∈ targets) : t < ctx.body.size := by
  unfold Body.successors at h
  split at h
  · cases h
  · next jumps found =>
    have inside : ∀ t ∈ jumps, t < ctx.body.size := fun t member => by
      obtain ⟨l, -, position⟩ := exists_of_mem_right (forall₂_of_mapM found) member
      exact closed.positions l t position
    split at h
    · split at h
      · next next =>
        cases h
        rcases List.mem_append.mp member with jump | behind
        · exact inside t jump
        · rw [List.mem_singleton.mp behind]
          exact next
      · cases h
    · cases h
      exact inside t member

namespace Flow

variable {builders : Prop} {made : List Value} {width : Nat} {flow flow' : Flow} {ctx : Context}
  {entry : Frame}

/-- The visit of a position, if that has a frame and its instruction can be simulated. -/
def visitOf? (ctx : Context) (i : Nat) (flow : Flow) : Option Visit := do
  let insn ← ctx.body[i]?
  let before ← flow.at i
  let (after, store) ← (before.execute ctx.body i insn flow.store).toOption
  return ⟨i, before, flow.store, after, store⟩

/-- The visits of a loop, in their order. -/
def visits (ctx : Context) : Nat → Flow → List Visit
  | 0, _ => []
  | fuel + 1, flow =>
    match flow.queue with
    | [] => []
    | i :: queue =>
      match visit ctx i { flow with queue } with
      | .error _ => []
      | .ok next => (visitOf? ctx i flow).toList ++ visits ctx fuel next

/-- The invariant of the loop: a position waits in the queue, or its edges are settled. -/
structure Valid (builders : Prop) (ctx : Context) (visits : List Visit) (entry : Frame) (width : Nat)
    (made : List Value) (flow : Flow) : Prop where
  sound : flow.Sound builders made width
  size : flow.frames.size = ctx.body.size
  start : Arrives flow.at 0 entry
  settled : ∀ i f, flow.at i = some f → i ∈ flow.queue ∨ Settled builders ctx visits flow.at i f

/-- A visit settles the edges of its position, as far as that is not queued again. -/
theorem visitNode_advances (closed : ctx.Closed builders) {i : Nat} {insn : Insn} {before : Frame}
    (sound : flow.Sound builders made width) (size : flow.frames.size = ctx.body.size)
    (at_position : ctx.body[i]? = some insn) (there : flow.at i = some before) :
    Advances builders made width flow (visitNode ctx i insn before flow) fun flow' =>
      Settled builders ctx (visitOf? ctx i flow).toList flow'.at i before := by
  have hbefore := sound.frames i before there
  have hwidth := sound.width i before there
  intro flow' h
  unfold visitNode at h
  cases run : (before.execute ctx.body i insn).run flow.store with
  | error e =>
    rw [run] at h
    cases h
  | ok p =>
    cases edges : ctx.body.successors ctx.positions always i insn.node with
    | error e =>
      rw [run, edges] at h
      cases h
    | ok targets =>
      rw [run, edges] at h
      obtain ⟨after, store⟩ := p
      have executed : before.execute ctx.body i insn flow.store = .ok (after, store) := run
      have visited : visitOf? ctx i flow = some ⟨i, before, flow.store, after, store⟩ := by
        simp [visitOf?, at_position, there, executed, Except.toOption]
      have supply : Supplies (history builders) ctx.body i insn before :=
        history_supplies fun node => closed.allocation insn (Array.mem_of_getElem? at_position) node
      obtain ⟨made₁, longer₁, recorded₁, kept⟩ :=
        Frame.execute_kept supply hbefore _ sound.recorded _ _ run
      have sound₁ : Flow.Sound builders made₁ width { flow with store } :=
        ⟨recorded₁, fun i f found => (sound.frames i f found).mono longer₁, sound.width⟩
      have inside : ∀ t ∈ targets, t < flow.frames.size := fun t member =>
        size ▸ lt_of_mem_successors closed edges member
      have insideHandlers : ∀ r ∈ ctx.ranges.filter (·.covers i), r.handler < flow.frames.size :=
        fun r member => size ▸ closed.handlers r (List.mem_of_mem_filter member)
      have advances := (mergeAll_advances sound₁ inside kept.good (kept.width.trans hwidth)).bind
        fun made₂ flow₂ longer₂ sound₂ grows₂ arrives₂ flow₃
            (run₃ : (ctx.ranges.filter (·.covers i)).foldlM
              (visitHandler before (AnalysisError.instruction insn.node.describe i)) flow₂ = .ok flow₃) => by
          obtain ⟨made₃, longer₃, sound₃, grows₃, handled⟩ :=
            visitHandlers_advances sound₂
              (fun r member => grows₂.size ▸ insideHandlers r member)
              (hbefore.mono (longer₁.trans longer₂)) hwidth flow₃ run₃
          exact ⟨made₃, longer₃, sound₃, grows₃,
            Settled.intro at_position sound.recorded hbefore run edges
              (fun t member => (arrives₂ t member).mono grows₃.larger)
              (fun r member covers => handled r (List.mem_filter.mpr ⟨member, covers⟩))
              (Option.mem_toList.mpr visited)⟩
      obtain ⟨made', longer', sound', grows', holds'⟩ := advances flow' h
      exact ⟨made', longer₁.trans longer', sound',
        ⟨grows'.size, grows'.queue, grows'.larger, grows'.changed⟩, holds'⟩

/-- One turn of the loop keeps the invariant. -/
theorem visit_valid (closed : ctx.Closed builders) {i : Nat} {queue : List Nat} {log : List Visit}
    (valid : flow.Valid builders ctx log entry width made) (first : flow.queue = i :: queue)
    (h : visit ctx i { flow with queue } = .ok flow') :
    ∃ made', flow'.Valid builders ctx (log ++ (visitOf? ctx i flow).toList) entry width made' := by
  have waits (j : Nat) (f : Frame) (found : flow.at j = some f) (other : j ≠ i) :
      j ∈ queue ∨ Settled builders ctx log flow.at j f := by
    rcases valid.settled j f found with queued | settled
    · rw [first] at queued
      exact .inl ((List.mem_cons.mp queued).resolve_left other)
    · exact .inr settled
  unfold visit at h
  split at h
  · next insn before at_position there =>
    have sound : Flow.Sound builders made width { flow with queue } :=
      ⟨valid.sound.recorded, valid.sound.frames, valid.sound.width⟩
    obtain ⟨made', longer, sound', grows, settled⟩ :=
      visitNode_advances closed sound valid.size at_position there flow' h
    refine ⟨made', sound', grows.size.trans valid.size, valid.start.mono grows.larger,
      fun j f found => ?_⟩
    rcases grows.changed j f found with same | queued
    · by_cases other : j = i
      · subst other
        obtain rfl : before = f := Option.some.inj (there.symm.trans same)
        exact .inr (settled.mono (List.subset_append_right _ _) fun _ f found => ⟨f, found, .refl f⟩)
      · rcases waits j f same other with queued | settled
        · exact .inl (grows.queue j queued)
        · exact .inr (settled.mono (List.subset_append_left _ _) grows.larger)
    · exact .inl queued
  · next missing =>
    cases h
    refine ⟨made, ⟨valid.sound.recorded, valid.sound.frames, valid.sound.width⟩, valid.size,
      valid.start, fun j f found => ?_⟩
    have other : j ≠ i := by
      rintro rfl
      -- a position with a frame has an instruction
      have inside : j < flow.frames.size := by
        by_contra outside
        have : flow.frames[j]? = none := Array.getElem?_eq_none (Nat.not_lt.mp outside)
        have found : flow.at j = some f := found
        rw [Flow.at, this] at found
        cases found
      exact missing _ _ (Array.getElem?_eq_getElem (valid.size ▸ inside)) found
    exact (waits j f found other).imp_right fun settled =>
      settled.mono (List.subset_append_left _ _) fun _ f found => ⟨f, found, .refl f⟩

/-- The whole loop keeps the invariant. -/
theorem run_valid (closed : ctx.Closed builders) {fuel : Nat} {log : List Visit}
    (valid : flow.Valid builders ctx log entry width made) (h : run ctx fuel flow = .ok flow') :
    ∃ made', flow'.Valid builders ctx (log ++ visits ctx fuel flow) entry width made' := by
  induction fuel generalizing flow made log with
  | zero =>
    cases h
    rw [visits, List.append_nil]
    exact ⟨made, valid⟩
  | succ fuel ih =>
    rw [run] at h
    split at h
    · next empty =>
      cases h
      rw [visits, empty, List.append_nil]
      exact ⟨made, valid⟩
    · next i queue first =>
      rw [visits, first]
      cases visited : visit ctx i { flow with queue } with
      | error e =>
        rw [visited] at h
        cases h
      | ok next =>
        rw [visited] at h
        obtain ⟨made', valid'⟩ := visit_valid closed valid first visited
        have tail := ih valid' h
        rw [List.append_assoc] at tail
        simp only [visited]
        exact tail

/-- When no position waits, the frames are a post-fixpoint. -/
theorem Valid.postFixpoint {log : List Visit} (valid : flow.Valid builders ctx log entry width made)
    (done : flow.queue = []) : PostFixpoint builders ctx log entry flow.at where
  entry := valid.start
  settled := fun i f found => (valid.settled i f found).resolve_left (by simp [done])

end Flow

/-! ## The frames of a method -/

section

variable {ω : Type} {P : Phases ω}

/-- A result that is good for each member is good for all. -/
theorem mapM_ensures {α β : Type} {f : α → StoreM β} {q : ω → β → Prop}
    (mono : ∀ {w w' b}, q w b → P.later w w' → q w' b) (each : ∀ w a, P.Ensures w (f a) q) (w : ω)
    (xs : List α) : P.Ensures w (xs.mapM f) fun w' bs => ∀ b ∈ bs, q w' b := by
  induction xs generalizing w with
  | nil => exact .pure (by simp)
  | cons a xs ih =>
    rw [List.mapM_cons]
    refine .bind (each w a) fun w₁ b _ first => ?_
    refine .bind (ih w₁) fun w₂ bs later rest => .pure ?_
    exact List.forall_mem_cons.mpr ⟨mono first later, rest⟩

/-- The local variables at the entry are good if every value without a source is. -/
theorem entryLocals_ensures (unknown : ∀ w kind, P.Ensures w (Store.make kind [] none) P.good)
    (owner : String) (isStatic : Bool) (arguments : List Descriptor) (maxLocals : Nat) (w : ω) :
    P.Ensures w (entryLocals owner isStatic arguments maxLocals) fun w' locals =>
      ∀ v ∈ locals, P.good w' v := by
  have typed (w : ω) (type : Descriptor) : P.Ensures w (Store.ofType type) P.good := by
    unfold Store.ofType
    cases Kind.ofDescriptor type <;> exact unknown w _
  have keeps {w w' : ω} {slots : List Value} (good : ∀ v ∈ slots, P.good w v) (later : P.later w w')
      (v : Value) (member : v ∈ slots) : P.good w' v :=
    P.mono (good v member) later
  have argument (w : ω) (type : Descriptor) : P.Ensures w (do
      let v ← Store.ofType type
      if v.isWide then return [v, ← Store.empty] else return [v])
      fun w' slots => ∀ v ∈ slots, P.good w' v := by
    refine .bind (typed w type) fun w₁ v _ good => ?_
    split
    · refine .bind (unknown w₁ _) fun w₂ e later blank => .pure ?_
      simpa using ⟨P.mono good later, blank⟩
    · exact .pure (by simpa using good)
  unfold entryLocals
  have rest (w : ω) (receiver : List Value) (good : ∀ v ∈ receiver, P.good w v) :
      P.Ensures w (do
        let passed ← arguments.mapM fun type => do
          let v ← Store.ofType type
          if v.isWide then return [v, ← Store.empty] else return [v]
        let given := receiver ++ passed.flatten
        let rest ← (List.replicate (maxLocals - given.length) ()).mapM fun _ => Store.empty
        return given ++ rest) fun w' locals => ∀ v ∈ locals, P.good w' v := by
    refine .bind (mapM_ensures (q := fun w slots => ∀ v ∈ slots, P.good w v) keeps argument w arguments)
      fun w₁ passed later₁ good₁ => ?_
    refine .bind (mapM_ensures (q := P.good) P.mono (fun w _ => unknown w _) w₁ _)
      fun w₂ blanks later₂ good₂ => .pure fun v member => ?_
    rcases List.mem_append.mp member with given | blank
    · refine P.mono ?_ later₂
      rcases List.mem_append.mp given with old | new
      · exact P.mono (good v old) later₁
      · obtain ⟨slots, inside, member⟩ := List.mem_flatten.mp new
        exact good₁ slots inside v member
    · exact good₂ v blank
  cases isStatic with
  | true =>
    refine .bind (q := fun _ receiver => receiver = []) (.pure rfl) fun w₁ receiver _ none => ?_
    exact rest w₁ receiver (by simp [none])
  | false =>
    refine .bind (q := fun w' receiver => ∀ v ∈ receiver, P.good w' v)
      ((typed w _).map fun w' v _ good => by simpa [List.singleton] using good)
      fun w₁ receiver _ good => ?_
    exact rest w₁ receiver good

end

/-- The kinds of the slots that a method finds filled: the receiver, and the arguments. A value of
two words is followed by an empty slot. -/
def entryKinds (isStatic : Bool) (arguments : List Descriptor) : List Kind :=
  (if isStatic then [] else [.reference]) ++ arguments.flatMap fun type =>
    let kind := (Kind.ofDescriptor type).getD .uninitialized
    if kind.isWide then [kind, .uninitialized] else [kind]

/-- Slots of an entry frame: values of the history without literals, of the given kinds. -/
def Unknown (made : List Value) (slots : List Value) (kinds : List Kind) : Prop :=
  (∀ v ∈ slots, Made made v ∧ v.literal = none) ∧ slots.map Value.kind = kinds

section

variable {builders : Prop} {made made' : List Value} {slots slots' : List Value}
  {kinds kinds' : List Kind}

theorem Unknown.mono (h : Unknown made slots kinds) (longer : made <+: made') :
    Unknown made' slots kinds :=
  ⟨fun v member => ⟨(h.1 v member).1.mono longer, (h.1 v member).2⟩, h.2⟩

theorem Unknown.append (h : Unknown made slots kinds) (h' : Unknown made slots' kinds') :
    Unknown made (slots ++ slots') (kinds ++ kinds') := by
  refine ⟨fun v member => ?_, by rw [List.map_append, h.2, h'.2]⟩
  rcases List.mem_append.mp member with first | second
  · exact h.1 v first
  · exact h'.1 v second

theorem unknown_nil : Unknown made [] [] :=
  ⟨by simp, rfl⟩

theorem unknown_singleton {v : Value} (h : Made made v) (literal : v.literal = none) :
    Unknown made [v] [v.kind] :=
  ⟨by simp [h, literal], rfl⟩

/-- The slots of one argument. -/
theorem argument_records (type : Descriptor) :
    Records builders made (do
        let v ← Store.ofType type
        if v.isWide then return [v, ← Store.empty] else return [v])
      fun made' slots => Unknown made' slots (entryKinds true [type]) := by
  refine .bind (ofType_records type) fun made' v longer hv => ?_
  obtain ⟨hmade, kind, literal⟩ := hv
  have single := unknown_singleton hmade literal
  have wide : v.isWide = ((Kind.ofDescriptor type).getD .uninitialized).isWide := by
    rw [← kind]
    rfl
  by_cases isWide : v.isWide = true
  · simp only [if_pos isWide]
    refine .bind make_unknown_records fun made'' e longer' he => .pure ?_
    have both := (single.mono longer').append (unknown_singleton he.1 he.2.2)
    rw [kind, he.2.1] at both
    simpa [entryKinds, ← wide, isWide] using both
  · simp only [if_neg isWide]
    refine .pure ?_
    rw [kind] at single
    simpa [entryKinds, ← wide, isWide] using single

/-- The slots of all arguments. -/
theorem arguments_records (arguments : List Descriptor) :
    Records builders made (arguments.mapM fun type => do
        let v ← Store.ofType type
        if v.isWide then return [v, ← Store.empty] else return [v])
      fun made' passed => Unknown made' passed.flatten (entryKinds true arguments) := by
  induction arguments generalizing made with
  | nil => exact .pure unknown_nil
  | cons type arguments ih =>
    rw [List.mapM_cons]
    refine .bind (argument_records type) fun made' slots longer first => ?_
    refine .bind ih fun made'' passed longer' rest => .pure ?_
    simpa [entryKinds] using (first.mono longer').append rest

/-- Empty slots. -/
theorem blanks_records (units : List Unit) :
    Records builders made (units.mapM fun _ => Store.empty) fun made' slots =>
      Unknown made' slots (List.replicate units.length .uninitialized) := by
  induction units generalizing made with
  | nil => exact .pure unknown_nil
  | cons _ units ih =>
    rw [List.mapM_cons]
    refine .bind make_unknown_records fun made' e longer he => ?_
    refine .bind ih fun made'' slots longer' rest => .pure ?_
    have first := (unknown_singleton he.1 he.2.2).mono longer'
    rw [he.2.1] at first
    exact first.append rest

/-- The locals at the entry of a method: the arguments, and empty slots behind them. -/
theorem entryLocals_records (owner : String) (isStatic : Bool) (arguments : List Descriptor)
    (maxLocals : Nat) :
    Records builders made (entryLocals owner isStatic arguments maxLocals) fun made' locals =>
      Unknown made' locals (entryKinds isStatic arguments ++
        List.replicate (maxLocals - (entryKinds isStatic arguments).length) .uninitialized) := by
  unfold entryLocals
  have rest (made : List Value) (receiver : List Value) (kinds : List Kind)
      (hreceiver : Unknown made receiver kinds) :
      Records builders made (do
        let passed ← arguments.mapM fun type => do
          let v ← Store.ofType type
          if v.isWide then return [v, ← Store.empty] else return [v]
        let given := receiver ++ passed.flatten
        let rest ← (List.replicate (maxLocals - given.length) ()).mapM fun _ => Store.empty
        return given ++ rest) fun made' locals => Unknown made' locals
          (kinds ++ entryKinds true arguments ++
            List.replicate (maxLocals - (kinds ++ entryKinds true arguments).length) .uninitialized) := by
    refine .bind (arguments_records arguments) fun made' passed longer hpassed => ?_
    refine .bind (blanks_records _) fun made'' blanks longer' hblanks => .pure ?_
    have given := (hreceiver.mono longer).append hpassed
    rw [List.length_replicate, ← List.length_map Value.kind, given.2] at hblanks
    exact (given.mono longer').append hblanks
  cases isStatic with
  | true =>
    refine .bind (q := fun made' receiver => Unknown made' receiver []) (.pure unknown_nil)
      fun made' receiver _ hreceiver => ?_
    exact rest made' receiver [] hreceiver
  | false =>
    refine .bind (q := fun made' receiver => Unknown made' receiver [.reference])
      ((ofType_records _).map fun made' v _ hv => ?_) fun made' receiver _ hreceiver => ?_
    · obtain ⟨hmade, kind, literal⟩ := hv
      have single := unknown_singleton hmade literal
      rw [kind] at single
      exact single
    · exact rest made' receiver [.reference] hreceiver

end

/-- The positions of the labels and handlers of a method lie inside its body. -/
theorem closed_of_coveredRanges {m : Method} {ranges : List CoveredRange} {builders : Prop}
    (h : m.coveredRanges m.body.lastLabels = some ranges)
    (allowed : ∀ insn ∈ m.body, insn.node = .type Opcode.new builderClass → builders) :
    Context.Closed builders ⟨m.body, m.body.lastLabels, ranges⟩ where
  positions := fun _ _ => Body.lastLabels_lt
  handlers := fun r member => by
    obtain ⟨range, -, covered⟩ := exists_of_mem_right (forall₂_of_mapM h) member
    unfold CoveredRange.of at covered
    obtain ⟨start, -, covered⟩ := Option.bind_eq_some_iff.mp covered
    obtain ⟨stop, -, covered⟩ := Option.bind_eq_some_iff.mp covered
    obtain ⟨handler, found, covered⟩ := Option.bind_eq_some_iff.mp covered
    cases covered
    exact Body.lastLabels_lt found
  allocation := allowed

/-- The number of local variables that the analysis of a method works with. -/
def slotsOf (m : Method) (d : MethodDescriptor) : Nat :=
  max (if m.maxStack.isNone then m.body.slotsNeeded else m.maxLocals.toNat)
    (d.slots m.isStatic).toNat

/-- The frame at the entry of a method, and the store after its values have been made. -/
def entryOf (owner : String) (m : Method) (d : MethodDescriptor) : Frame × Store :=
  let entered := (entryLocals owner m.isStatic d.arguments (slotsOf m d)).run {}
  ({ locals := entered.1, limit := m.maxStack.map UInt16.toNat }, entered.2)

/-- The values at the entry of a method are recorded, and nothing but their kinds is known. -/
theorem entryOf_records (builders : Prop) (owner : String) (m : Method) (d : MethodDescriptor) :
    ∃ made, Recorded builders made (entryOf owner m d).2 ∧ (entryOf owner m d).1.Made made ∧
      Unknown made (entryOf owner m d).1.locals (entryKinds m.isStatic d.arguments ++
        List.replicate (slotsOf m d - (entryKinds m.isStatic d.arguments).length) .uninitialized) := by
  obtain ⟨made, -, recorded, unknown⟩ :=
    entryLocals_records owner m.isStatic d.arguments (slotsOf m d) {} (⟨rfl, by simp⟩ : Recorded builders [] {})
  exact ⟨made, recorded, ⟨fun v member => (unknown.1 v member).1, by simp [entryOf]⟩, unknown⟩

/-- The flow before the first visit: one frame, which waits in the queue. -/
def Flow.start (body : Body) (entered : Frame × Store) : Flow where
  frames := (Array.replicate body.size none).setIfInBounds 0 (some entered.1)
  queue := [0]
  store := entered.2

/-- What the analysis of a method comes to when the loop has ended. -/
def Flow.result (flow : Flow) (m : Method) (d : MethodDescriptor) : Frames where
  frames := flow.frames
  store := flow.store
  positions := m.body.insnPositions
  maxLocals := slotsOf m d
  maxStack := min (flow.frames.foldl (fun n f => max n (f.elim 0 Frame.stackWords)) 0) 65535

/-- The analysis of a method runs the loop. -/
theorem analyze_eq {owner : String} {m : Method} {d : MethodDescriptor} {ranges : List CoveredRange}
    (nonempty : 0 < m.body.size) (parsed : MethodDescriptor.parse m.descriptor = .ok d)
    (covered : m.coveredRanges m.body.lastLabels = some ranges) :
    analyze owner m = ((Flow.run ⟨m.body, m.body.lastLabels, ranges⟩
        (visitBound m.body.size (entryOf owner m d).1.locals.length)
        (Flow.start m.body (entryOf owner m d))).mapError (Failure.analysis owner m.signature)).bind
      fun flow => if flow.queue.isEmpty then .ok (flow.result m d) else .error .endless := by
  have filled : m.body.isEmpty = false := by simpa using Nat.ne_of_gt nonempty
  unfold analyze
  rw [Method.parseDescriptor, parsed]
  simp only [Except.mapError, filled, Body.ofTable_labelTable, covered, bind, Except.bind, Bool.false_eq_true,
    if_false]
  split
  next locals store entered =>
  have entry : entryOf owner m d = ({ locals, limit := m.maxStack.map UInt16.toNat }, store) := by
    unfold entryOf slotsOf
    rw [entered]
  rw [entry]
  unfold Flow.start
  dsimp only
  split
  · rfl
  · next flow ran =>
    cases flow.queue <;> rfl

/-- A method whose descriptor is invalid is not analyzed. -/
theorem parse_of_analyze {owner : String} {m : Method} {r : Frames} (h : analyze owner m = .ok r) :
    ∃ d, MethodDescriptor.parse m.descriptor = .ok d := by
  cases parsed : MethodDescriptor.parse m.descriptor with
  | ok d => exact ⟨d, rfl⟩
  | error e =>
    unfold analyze at h
    rw [Method.parseDescriptor, parsed] at h
    cases h

/-- There is nothing to visit in a method without nodes. -/
theorem analyze_of_isEmpty {owner : String} {m : Method} {d : MethodDescriptor} (empty : ¬0 < m.body.size)
    (parsed : MethodDescriptor.parse m.descriptor = .ok d) :
    analyze owner m = .ok (Flow.result ⟨#[], [], {}⟩ m d) := by
  have empty : m.body.isEmpty = true := by simpa using empty
  unfold analyze
  rw [Method.parseDescriptor, parsed]
  simp only [Except.mapError, empty, if_true]
  rfl

/-- An analysis without a failure has run the loop until no position waited. -/
theorem result_of_analyze {owner : String} {m : Method} {r : Frames} (h : analyze owner m = .ok r)
    (nonempty : 0 < m.body.size) :
    ∃ d ranges flow, MethodDescriptor.parse m.descriptor = .ok d ∧
      m.coveredRanges m.body.lastLabels = some ranges ∧
      Flow.run ⟨m.body, m.body.lastLabels, ranges⟩ (visitBound m.body.size (entryOf owner m d).1.locals.length)
        (Flow.start m.body (entryOf owner m d)) = .ok flow ∧
      flow.queue = [] ∧ r = flow.result m d := by
  obtain ⟨d, parsed⟩ := parse_of_analyze h
  cases covered : m.coveredRanges m.body.lastLabels with
  | none =>
    have filled : m.body.isEmpty = false := by simpa using Nat.ne_of_gt nonempty
    unfold analyze at h
    rw [Method.parseDescriptor, parsed] at h
    simp only [Except.mapError, filled, Body.ofTable_labelTable, covered] at h
    cases h
  | some ranges =>
    rw [analyze_eq nonempty parsed covered] at h
    cases ran : Flow.run ⟨m.body, m.body.lastLabels, ranges⟩
        (visitBound m.body.size (entryOf owner m d).1.locals.length) (Flow.start m.body (entryOf owner m d)) with
    | error e =>
      rw [ran] at h
      cases h
    | ok flow =>
      rw [ran] at h
      change (if flow.queue.isEmpty then _ else _) = _ at h
      split at h
      · next done => exact ⟨d, ranges, flow, parsed, rfl, ran, List.isEmpty_iff.mp done, (Except.ok.inj h).symm⟩
      · cases h

/-- The frames of an analysis without a failure are those of the finished loop. -/
theorem analyze_eq_ok {owner : String} {m : Method} {r : Frames} (h : analyze owner m = .ok r)
    (nonempty : 0 < m.body.size) :
    ∃ d ranges flow, MethodDescriptor.parse m.descriptor = .ok d ∧
      m.coveredRanges m.body.lastLabels = some ranges ∧
      Flow.run ⟨m.body, m.body.lastLabels, ranges⟩ (visitBound m.body.size (entryOf owner m d).1.locals.length)
        (Flow.start m.body (entryOf owner m d)) = .ok flow ∧
      flow.queue = [] ∧ r.frames = flow.frames ∧ r.store = flow.store := by
  obtain ⟨d, ranges, flow, parsed, covered, ran, done, rfl⟩ := result_of_analyze h nonempty
  exact ⟨d, ranges, flow, parsed, covered, ran, done, rfl, rfl⟩

/-- Every analysis without a failure ends with the result of a flow. -/
theorem exists_result {owner : String} {m : Method} {r : Frames} (h : analyze owner m = .ok r) :
    ∃ (d : MethodDescriptor) (flow : Flow), MethodDescriptor.parse m.descriptor = .ok d ∧ r = flow.result m d := by
  by_cases nonempty : 0 < m.body.size
  · obtain ⟨d, ranges, flow, parsed, -, -, -, same⟩ := result_of_analyze h nonempty
    exact ⟨d, flow, parsed, same⟩
  · obtain ⟨d, parsed⟩ := parse_of_analyze h
    exact ⟨d, _, parsed, Except.ok.inj (h.symm.trans (analyze_of_isEmpty nonempty parsed))⟩

/-- Before the first visit, only the entry has a frame. -/
theorem Flow.at_start {body : Body} {entered : Frame × Store} {i : Nat} {f : Frame}
    (nonempty : 0 < body.size) (found : (Flow.start body entered).at i = some f) :
    i = 0 ∧ f = entered.1 := by
  have inside : 0 < (Array.replicate body.size (none : Option Frame)).size := by simpa using nonempty
  rw [Flow.start, Flow.at_set inside] at found
  split at found
  · next first => exact ⟨first, (Option.some.inj found).symm⟩
  · rw [Array.getElem?_replicate] at found
    split at found <;> cases found

/-- The flow before the first visit is valid. -/
theorem Flow.start_valid {builders : Prop} {ctx : Context} {made : List Value}
    {entered : Frame × Store} (nonempty : 0 < ctx.body.size)
    (recorded : Recorded builders made entered.2) (hentry : entered.1.Made made) :
    Flow.Valid builders ctx [] entered.1 entered.1.locals.length made (Flow.start ctx.body entered) := by
  have inside : 0 < (Array.replicate ctx.body.size (none : Option Frame)).size := by simpa using nonempty
  have only (i : Nat) (f : Frame) (found : (Flow.start ctx.body entered).at i = some f) :
      i = 0 ∧ f = entered.1 := Flow.at_start nonempty found
  refine ⟨⟨recorded, fun i f found => ?_, fun i f found => ?_⟩, by simp [Flow.start], ?_,
    fun i f found => .inl ?_⟩
  · rw [(only i f found).2]
    exact hentry
  · rw [(only i f found).2]
  · exact ⟨entered.1, by rw [Flow.start, Flow.at_set inside, if_pos rfl], .refl _⟩
  · rw [(only i f found).1]
    exact List.mem_singleton.mpr rfl

/-- The visits of the analysis of a method. -/
def visitsOf (owner : String) (m : Method) : List Visit :=
  match MethodDescriptor.parse m.descriptor, m.coveredRanges m.body.lastLabels with
  | .ok d, some ranges => Flow.visits ⟨m.body, m.body.lastLabels, ranges⟩
      (visitBound m.body.size (entryOf owner m d).1.locals.length) (Flow.start m.body (entryOf owner m d))
  | _, _ => []

/-- The frames of an analysis without a failure are a post-fixpoint above the entry of the method,
where nothing but the kinds of the arguments is known. -/
theorem postFixpoint_of_analyze {owner : String} {m : Method} {r : Frames} {builders : Prop}
    (h : analyze owner m = .ok r) (nonempty : 0 < m.body.size)
    (allowed : ∀ insn ∈ m.body, insn.node = .type Opcode.new builderClass → builders) :
    ∃ d ranges made entry count, MethodDescriptor.parse m.descriptor = .ok d ∧
      m.coveredRanges m.body.lastLabels = some ranges ∧
      Unknown made entry.locals
        (entryKinds m.isStatic d.arguments ++ List.replicate count .uninitialized) ∧
      entry.stack = [] ∧
      PostFixpoint builders ⟨m.body, m.body.lastLabels, ranges⟩ (visitsOf owner m) entry r.frameAt := by
  obtain ⟨d, ranges, flow, parsed, covered, run, done, frames, -⟩ := analyze_eq_ok h nonempty
  obtain ⟨made, recorded, hentry, unknown⟩ := entryOf_records builders owner m d
  obtain ⟨made', valid⟩ := Flow.run_valid (closed_of_coveredRanges covered allowed)
    (Flow.start_valid nonempty recorded hentry) run
  refine ⟨d, ranges, made, (entryOf owner m d).1, _, parsed, covered, unknown, rfl, ?_⟩
  have same : r.frameAt = flow.at := by
    funext i
    rw [Frames.frameAt, frames, Flow.at]
  have log : visitsOf owner m = Flow.visits ⟨m.body, m.body.lastLabels, ranges⟩
      (visitBound m.body.size (entryOf owner m d).1.locals.length) (Flow.start m.body (entryOf owner m d)) := by
    rw [visitsOf, parsed, covered]
  rw [same, log]
  exact valid.postFixpoint done

end Bytecode.Analysis
