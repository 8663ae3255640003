import Bytecode.Proofs.Analysis.Fixpoint

/-!
# The steps of a visit

A visit simulates an instruction and carries frames to other positions one by one. The lemmas here
take a successful visit apart: `mergeInto_cases` says what carrying a frame to a position does,
`mergeSlots_slot` what a join does to a slot, and `visitNode_eq_ok` which simulation and which
carryings a visit consists of. Invariants of the loop are then proved for one carrying at a time, and
`foldlM_invariant` and `foldlM_establishes` take them through a whole visit.

The frames of a flow only grow while the loop runs: `run_larger` compares each of them with the frame
at the end.
-/

namespace Bytecode.Analysis

/-! ## Sequences of steps -/

section

variable {σ α ε : Type} {f : σ → α → Except ε σ} {xs : List α} {s s' : σ}

/-- A sequence of steps reaches what each of its steps reaches, if the other steps keep that. -/
theorem foldlM_establishes {I : σ → Prop} {R : α → σ → Prop}
    (step : ∀ a ∈ xs, ∀ s s', I s → f s a = .ok s' → I s' ∧ R a s' ∧ ∀ b, R b s → R b s')
    (start : I s) (run : xs.foldlM f s = .ok s') :
    I s' ∧ (∀ b, R b s → R b s') ∧ ∀ a ∈ xs, R a s' := by
  induction xs generalizing s with
  | nil =>
    cases run
    exact ⟨start, fun _ h => h, by simp⟩
  | cons a xs ih =>
    rw [List.foldlM_cons] at run
    obtain ⟨first, rest⟩ := List.forall_mem_cons.mp step
    cases here : f s a with
    | error e =>
      rw [here] at run
      cases run
    | ok s₁ =>
      rw [here] at run
      obtain ⟨holds, reached, kept⟩ := first s s₁ start here
      obtain ⟨holds', kept', all⟩ := ih rest holds run
      exact ⟨holds', fun b h => kept' b (kept b h),
        List.forall_mem_cons.mpr ⟨kept' a reached, all⟩⟩

/-- A sequence of steps keeps what every step keeps. -/
theorem foldlM_invariant {I : σ → Prop}
    (step : ∀ a ∈ xs, ∀ s s', I s → f s a = .ok s' → I s') (start : I s)
    (run : xs.foldlM f s = .ok s') : I s' :=
  (foldlM_establishes (R := fun _ _ => True) (fun a member s s' holds here =>
    ⟨step a member s s' holds here, trivial, fun _ h => h⟩) start run).1

end

/-! ## Joins -/

section

variable {s s' : Store}

/-- A join keeps the key of the old value, and has no sources of its own. -/
theorem merge_eq {old incoming joined : Value} (h : Store.merge old incoming s = (joined, s')) :
    joined.key = old.key ∧ s'.usages = s.usages.union old.key incoming.key ∧
      ∀ id ∈ joined.sources, id ∈ old.sources ∨ id ∈ incoming.sources := by
  unfold Store.merge at h
  dsimp only at h
  split at h
  · cases h
    exact ⟨rfl, rfl, fun _ => .inl⟩
  · generalize (if old.kind = incoming.kind then old.kind else .uninitialized) = kind at h
    generalize Store.commonLiteral _ old incoming = literal at h
    split at h
    · cases h
      exact ⟨rfl, rfl, fun _ => .inl⟩
    · cases h
      exact ⟨rfl, rfl, fun _ => InsnSet.mem_union.mp⟩

/-- A join of slots begins with the first slot. -/
theorem mergeSlots_cons {old new : Value} {olds news joined : List Value} {changed : Bool}
    (h : Frame.mergeSlots (old :: olds) (new :: news) s = ((joined, changed), s')) :
    ∃ v s₁ rest restChanged, Store.merge old new s = (v, s₁) ∧
      Frame.mergeSlots olds news s₁ = ((rest, restChanged), s') ∧ joined = v :: rest ∧
      changed = (restChanged || v.id != old.id) := by
  cases first : Store.merge old new s with
  | mk v s₁ =>
    cases others : Frame.mergeSlots olds news s₁ with
    | mk result s₂ =>
      have run : Frame.mergeSlots (old :: olds) (new :: news) s =
          ((v :: result.1, result.2 || v.id != old.id), s₂) := by
        simp only [Frame.mergeSlots, bind, StateT.bind, first, others]
        rfl
      rw [run] at h
      cases h
      exact ⟨v, s₁, result.1, result.2, rfl, others, rfl, rfl⟩

/-- Nothing is joined if one side has no more slots. -/
theorem mergeSlots_stop {olds news joined : List Value} {changed : Bool} (stop : olds = [] ∨ news = [])
    (h : Frame.mergeSlots olds news s = ((joined, changed), s')) :
    joined = olds ∧ s' = s ∧ changed = false := by
  cases olds with
  | nil =>
    rw [Frame.mergeSlots] at h
    · cases h
      exact ⟨rfl, rfl, rfl⟩
    · simp
  | cons old olds =>
    obtain rfl := stop.resolve_left (by simp)
    rw [Frame.mergeSlots] at h
    · cases h
      exact ⟨rfl, rfl, rfl⟩
    · simp

/-- A slot behind a join of slots. -/
theorem mergeSlots_slot {olds news joined : List Value} {changed : Bool}
    (h : Frame.mergeSlots olds news s = ((joined, changed), s')) {k : Nat} {v : Value}
    (found : joined[k]? = some v) : ∃ old, olds[k]? = some old ∧ v.key = old.key ∧
      ∀ id ∈ v.sources, id ∈ old.sources ∨ ∃ new, news[k]? = some new ∧ id ∈ new.sources := by
  induction olds generalizing news joined s changed k with
  | nil =>
    obtain ⟨rfl, -⟩ := mergeSlots_stop (.inl rfl) h
    cases found
  | cons old olds ih =>
    cases news with
    | nil =>
      obtain ⟨rfl, -⟩ := mergeSlots_stop (.inr rfl) h
      exact ⟨v, found, rfl, fun _ => .inl⟩
    | cons new news =>
      obtain ⟨u, s₁, rest, restChanged, first, others, rfl, -⟩ := mergeSlots_cons h
      cases k with
      | zero =>
        obtain ⟨key, -, sources⟩ := merge_eq first
        cases found
        exact ⟨old, rfl, key, fun id member => (sources id member).imp_right fun h => ⟨new, rfl, h⟩⟩
      | succ k => exact ih others found

/-- A join of frames joins their slots and their stacks, which have one height. -/
theorem frameMerge_eq_ok {f incoming g : Frame} {changed : Bool}
    (h : f.merge incoming s = .ok ((g, changed), s')) :
    f.stack.length = incoming.stack.length ∧ ∃ localsChanged stackChanged s₁,
      Frame.mergeSlots f.locals incoming.locals s = ((g.locals, localsChanged), s₁) ∧
      Frame.mergeSlots f.stack incoming.stack s₁ = ((g.stack, stackChanged), s') ∧
      changed = (localsChanged || stackChanged) := by
  unfold Frame.merge at h
  split at h
  · cases h
  · next heights =>
    obtain ⟨⟨locals, localsChanged⟩, s₁, first, rest⟩ := Step.bind_eq_ok h
    obtain ⟨⟨stack, stackChanged⟩, s₂, second, last⟩ := Step.bind_eq_ok rest
    cases last
    exact ⟨not_not.mp heights, localsChanged, stackChanged, s₁, Step.lift_eq_ok first,
      Step.lift_eq_ok second, rfl⟩

end

namespace Flow

variable {flow flow' : Flow} {ctx : Context} {target : Nat} {incoming : Frame}

/-- A frame that is carried to a position stands there or is joined into the frame there. The queue
grows by at most one position, and only if a frame is new there or changes. -/
theorem mergeInto_cases (h : mergeInto flow target incoming = .ok flow') :
    ∃ g, flow'.frames = flow.frames.setIfInBounds target (some g) ∧
      ((flow.at target = none ∧ g = incoming ∧ flow'.store = flow.store ∧
          flow'.queue.length ≤ flow.queue.length + 1) ∨
        ∃ existing changed, flow.at target = some existing ∧
          existing.merge incoming flow.store = .ok ((g, changed), flow'.store) ∧
          flow'.queue.length ≤ flow.queue.length + changed.toNat) := by
  unfold mergeInto at h
  have queued (queue : List Nat) :
      (if target ∈ queue then queue else queue ++ [target]).length ≤ queue.length + 1 := by
    split <;> simp
  dsimp only at h
  split at h
  · next empty =>
    cases h
    exact ⟨incoming, rfl, .inl ⟨empty, rfl, rfl, queued _⟩⟩
  · next existing there =>
    split at h
    · cases h
    · next merged changed store run =>
      cases h
      refine ⟨merged, rfl, .inr ⟨existing, changed, there, run, ?_⟩⟩
      cases changed with
      | true => exact queued _
      | false => exact Nat.le_refl _

/-- The frames of a flow in which one position has got another frame. -/
theorem at_of_set {g f : Frame} {i : Nat}
    (h : flow'.frames = flow.frames.setIfInBounds target (some g)) (found : flow'.at i = some f) :
    (i = target ∧ f = g) ∨ flow.at i = some f := by
  rw [Flow.at, h, Array.getElem?_setIfInBounds] at found
  split at found
  · next here =>
    split at found
    · cases found
      exact .inl ⟨here.symm, rfl⟩
    · cases found
  · exact .inr found

/-- The simulation and the carryings of a visit. -/
theorem visitNode_eq_ok {i : Nat} {insn : Insn} {before : Frame}
    (h : visitNode ctx i insn before flow = .ok flow') :
    ∃ after store targets flow₁ fail, before.execute ctx.body i insn flow.store = .ok (after, store) ∧
      ctx.body.successors ctx.positions always i insn.node = .ok targets ∧
      targets.foldlM (fun flow target => mergeInto flow target after) { flow with store } = .ok flow₁ ∧
      (ctx.ranges.filter (·.covers i)).foldlM (visitHandler before fail) flow₁ = .ok flow' := by
  unfold visitNode at h
  cases run : (before.execute ctx.body i insn).run flow.store with
  | error e =>
    rw [run] at h
    cases h
  | ok p =>
    cases edges : ctx.body.successors ctx.positions always i insn.node with
    | error e =>
      rw [run, edges] at h
      cases h
    | ok targets =>
      rw [run, edges] at h
      obtain ⟨after, store⟩ := p
      have h : (targets.foldlM (fun flow target => mergeInto flow target after) { flow with store } >>=
        fun flow₁ => (ctx.ranges.filter (·.covers i)).foldlM
          (visitHandler before (AnalysisError.instruction insn.node.describe i)) flow₁) = .ok flow' := h
      cases carried : targets.foldlM (fun flow target => mergeInto flow target after)
          { flow with store } with
      | error e =>
        rw [carried] at h
        cases h
      | ok flow₁ =>
        rw [carried] at h
        exact ⟨after, store, targets, flow₁, _, run, rfl, carried, h⟩

/-- A visit of a handler makes its entry and carries it there. -/
theorem visitHandler_eq_ok {before : Frame} {fail : FlowError → AnalysisError} {r : CoveredRange}
    (h : visitHandler before fail flow r = .ok flow') :
    ∃ entry store, handlerFrame before r.caught flow.store = .ok (entry, store) ∧
      mergeInto { flow with store } r.handler entry = .ok flow' := by
  unfold visitHandler at h
  split at h
  · cases h
  · next entry store run => exact ⟨entry, store, run, h⟩

/-- A visit of a position visits its node, if there is one and a frame for it. -/
theorem visit_eq_ok {i : Nat} (h : visit ctx i flow = .ok flow') :
    (∃ insn before, ctx.body[i]? = some insn ∧ flow.at i = some before ∧
      visitNode ctx i insn before flow = .ok flow') ∨
    flow' = flow ∧ visitOf? ctx i flow = none := by
  unfold visit at h
  split at h
  · next insn before at_position there => exact .inl ⟨insn, before, at_position, there, h⟩
  · next missing =>
    cases h
    refine .inr ⟨rfl, ?_⟩
    rw [visitOf?]
    cases at_position : ctx.body[i]? with
    | none => rfl
    | some insn =>
      cases there : flow.at i with
      | none => rfl
      | some before => exact absurd there (missing insn before at_position)

/-! ## Frames while the loop runs -/

variable {builders : Prop} {entry : Frame} {width : Nat} {made : List Value} {log : List Visit}

/-- The frames of a flow are at most those of another one. -/
def Below (flow flow' : Flow) : Prop :=
  ∀ i f, flow.at i = some f → ∃ g, flow'.at i = some g ∧ f.Le g

/-- A visit lets the frames grow. -/
theorem visit_larger (closed : ctx.Closed builders) {i : Nat} {queue : List Nat}
    (valid : flow.Valid builders ctx log entry width made)
    (h : visit ctx i { flow with queue } = .ok flow') : flow.Below flow' := by
  rcases visit_eq_ok h with ⟨insn, before, at_position, there, h⟩ | ⟨rfl, -⟩
  · have sound : Flow.Sound builders made width { flow with queue } :=
      ⟨valid.sound.recorded, valid.sound.frames, valid.sound.width⟩
    obtain ⟨-, -, -, grows, -⟩ :=
      visitNode_advances closed sound valid.size at_position there flow' h
    exact grows.larger
  · exact fun i f found => ⟨f, found, .refl f⟩

/-- The loop lets the frames grow. -/
theorem run_larger (closed : ctx.Closed builders) {fuel : Nat}
    (valid : flow.Valid builders ctx log entry width made) (h : run ctx fuel flow = .ok flow') :
    flow.Below flow' := by
  induction fuel generalizing flow made log with
  | zero =>
    cases h
    exact fun i f found => ⟨f, found, .refl f⟩
  | succ fuel ih =>
    rw [run] at h
    split at h
    · cases h
      exact fun i f found => ⟨f, found, .refl f⟩
    · next i queue first =>
      cases visited : visit ctx i { flow with queue } with
      | error e =>
        rw [visited] at h
        cases h
      | ok next =>
        rw [visited] at h
        obtain ⟨made', valid'⟩ := visit_valid closed valid first visited
        intro j f found
        obtain ⟨g, found', below⟩ := visit_larger closed valid visited j f found
        obtain ⟨g', found'', below'⟩ := ih valid' h j g found'
        exact ⟨g', found'', below.trans below'⟩

end Flow

/-- The loop of an analysis without a failure: it starts with a valid flow, and ends with the frames
and the store of the result. -/
theorem loop_of_analyze {owner : String} {m : Method} {r : Frames} {builders : Prop}
    (h : analyze owner m = .ok r) (nonempty : 0 < m.body.size)
    (allowed : ∀ insn ∈ m.body, insn.node = .type Opcode.new builderClass → builders) :
    ∃ d ranges made fuel flow, MethodDescriptor.parse m.descriptor = .ok d ∧
      m.coveredRanges m.body.lastLabels = some ranges ∧
      Context.Closed builders ⟨m.body, m.body.lastLabels, ranges⟩ ∧
      Flow.Valid builders ⟨m.body, m.body.lastLabels, ranges⟩ [] (entryOf owner m d).1
        (entryOf owner m d).1.locals.length made (Flow.start m.body (entryOf owner m d)) ∧
      Flow.run ⟨m.body, m.body.lastLabels, ranges⟩ fuel (Flow.start m.body (entryOf owner m d)) =
        .ok flow ∧
      flow.queue = [] ∧ flow.at = r.frameAt ∧ flow.store = r.store := by
  obtain ⟨d, ranges, flow, parsed, covered, run, done, frames, store⟩ := analyze_eq_ok h nonempty
  obtain ⟨made, recorded, hentry, -⟩ := entryOf_records builders owner m d
  have closed := closed_of_coveredRanges covered allowed
  refine ⟨d, ranges, made, _, flow, parsed, covered, closed,
    Flow.start_valid nonempty recorded hentry, run, done, ?_, store.symm⟩
  funext i
  rw [Frames.frameAt, frames, Flow.at]

/-! ## Analyses that succeed -/

/-- The visit of a node behind which control goes on with a node that was not visited. -/
theorem Flow.run_next {ctx : Context} {fuel i : Nat} {frames : Array (Option Frame)} {s s' : Store}
    {insn : Insn} {f g : Frame} (there : ctx.body[i]? = some insn) (here : frames[i]?.join = some f)
    (fresh : frames[i + 1]?.join = none) (executed : f.execute ctx.body i insn s = .ok (g, s'))
    (goes : ctx.body.successors ctx.positions always i insn.node = .ok [i + 1]) (bare : ctx.ranges = []) :
    Flow.run ctx (fuel + 1) ⟨frames, [i], s⟩ =
      Flow.run ctx fuel ⟨frames.setIfInBounds (i + 1) (some g), [i + 1], s'⟩ := by
  have merged : mergeInto ⟨frames, [], s'⟩ (i + 1) g =
      .ok ⟨frames.setIfInBounds (i + 1) (some g), [i + 1], s'⟩ := by
    unfold mergeInto
    dsimp only
    rw [fresh]
    rfl
  have visited : visit ctx i ⟨frames, [], s⟩ = .ok ⟨frames.setIfInBounds (i + 1) (some g), [i + 1], s'⟩ := by
    unfold visit
    dsimp only
    rw [there, here]
    dsimp only
    unfold visitNode
    rw [show (f.execute ctx.body i insn).run s = .ok (g, s') from executed, goes, bare]
    show Except.bind (Except.bind (mergeInto ⟨frames, [], s'⟩ (i + 1) g) pure) pure = _
    rw [merged]
    rfl
  rw [Flow.run]
  dsimp only
  rw [visited]
  rfl

/-- The visit of a node behind which control does not go on. -/
theorem Flow.run_last {ctx : Context} {fuel i : Nat} {frames : Array (Option Frame)} {s s' : Store}
    {insn : Insn} {f g : Frame} (there : ctx.body[i]? = some insn) (here : frames[i]?.join = some f)
    (executed : f.execute ctx.body i insn s = .ok (g, s'))
    (goes : ctx.body.successors ctx.positions always i insn.node = .ok []) (bare : ctx.ranges = []) :
    Flow.run ctx (fuel + 2) ⟨frames, [i], s⟩ = .ok ⟨frames, [], s'⟩ := by
  have visited : visit ctx i ⟨frames, [], s⟩ = .ok ⟨frames, [], s'⟩ := by
    unfold visit
    dsimp only
    rw [there, here]
    dsimp only
    unfold visitNode
    rw [show (f.execute ctx.body i insn).run s = .ok (g, s') from executed, goes, bare]
    rfl
  rw [Flow.run]
  dsimp only
  rw [visited]
  rfl

/-- An analysis whose loop comes to an end succeeds. -/
theorem analyze_of_run {owner : String} {m : Method} {d : MethodDescriptor} {ranges : List CoveredRange} {flow : Flow}
    (nonempty : 0 < m.body.size) (parsed : MethodDescriptor.parse m.descriptor = .ok d)
    (covered : m.coveredRanges m.body.lastLabels = some ranges)
    (run : Flow.run ⟨m.body, m.body.lastLabels, ranges⟩ (visitBound m.body.size (entryOf owner m d).1.locals.length)
        (Flow.start m.body (entryOf owner m d)) = .ok flow) (done : flow.queue = []) :
    ∃ r, analyze owner m = .ok r := by
  rw [analyze_eq nonempty parsed covered, run]
  exact ⟨flow.result m d, if_pos (List.isEmpty_iff.mpr done)⟩

end Bytecode.Analysis
