import Bytecode.Proofs.Analysis.Lockstep

/-!
# Analyses under a limit

The height of the stack may be limited. An instruction checks the limit whenever it pushes a value, and while
it pushes the stack only gets higher. So the limit amounts to one check behind each instruction: under a limit
that the stack before it respects, a simulation gives what it gives without one, if the stack behind it respects
the limit too, and fails otherwise (`execute_capped`).

Joins and entries of handlers do not push more than one word. A loop under a limit therefore makes the same
visits as without one, up to the first instruction behind which the stack is too high (`run_capped`).
-/

namespace Bytecode.Analysis

open Tokens (movement?)

/-! ## Words -/

/-- Lists whose members measure less, one by one, measure less. -/
theorem total_mono {α : Type} {measure : α → Nat} {xs ys : List α}
    (h : List.Forall₂ (fun x y => measure x ≤ measure y) xs ys) : total measure xs ≤ total measure ys := by
  induction h with
  | nil => exact le_rfl
  | cons first _ ih => exact Nat.add_le_add first ih

/-- A value takes at most the words of another one that has two words if it has two. -/
theorem Value.size_mono {v w : Value} (h : v.isWide = true → w.isWide = true) : v.size ≤ w.size := by
  rw [size, size, Kind.size_eq, Kind.size_eq]
  split
  · next wide => exact (if_pos (h wide)).ge
  · split <;> omega

/-- A join takes as many words as the old slots, or fewer. -/
theorem JoinOf.words_le {olds news joined : List Value} (h : JoinOf olds news joined) :
    total Value.size joined ≤ total Value.size olds := by
  refine total_mono (forall₂_of_getElem? h.length fun k v old found there => Value.size_mono fun wide => ?_)
  obtain ⟨old', there', rfl | ⟨new, s, t, -, merged⟩⟩ := h.slot k v found
  · exact Option.some.inj (there'.symm.trans there) ▸ wide
  · exact Option.some.inj (there'.symm.trans there) ▸ wide_of_merge merged wide

/-! ## Frames -/

/-- The frame without its limit. -/
def Frame.unlimited (f : Frame) : Frame :=
  { f with limit := none }

/-- The frame has a limit, and respects it. -/
structure Frame.Limited (bound : Nat) (f : Frame) : Prop where
  limit : f.limit = some bound
  words : f.stackWords ≤ bound

/-- What a limit makes of the result of a simulation without one. -/
def capped (bound : Nat) (r : Frame × Store) : Except FlowError (Frame × Store) :=
  if r.1.stackWords ≤ bound then .ok ({ r.1 with limit := some bound }, r.2) else .error (.overflow bound)

/-- Wherever the second simulation succeeds, without a limit, the first one gives the same under a limit. -/
def Capped (bound : Nat) (x y : Step Frame) : Prop :=
  ∀ s r, y s = .ok r → r.1.limit = none ∧ x s = capped bound r

/-- Wherever the second simulation succeeds, the first one does, and it respects a limit. -/
def Respects (bound : Nat) (x y : Step Frame) : Prop :=
  ∀ s r, y s = .ok r → ∃ g, x s = .ok (g, r.2) ∧ g.Limited bound ∧ g.unlimited = r.1

section

variable {bound : Nat} {f g : Frame} {x y : Step Frame}

/-- Fewer entries respect the limit too. -/
theorem Frame.Limited.drop (h : f.Limited bound) {stack : List Value}
    (fewer : total Value.size stack ≤ f.stackWords) : Frame.Limited bound { f with stack } :=
  ⟨h.limit, fewer.trans h.words⟩

theorem capped_of_limited (h : g.Limited bound) (s : Store) : capped bound (g.unlimited, s) = .ok (g, s) := by
  obtain ⟨locals, stack, limit⟩ := g
  obtain rfl : limit = some bound := h.limit
  exact if_pos h.words

theorem Respects.capped (h : Respects bound x y) : Capped bound x y := by
  rintro s ⟨g, s'⟩ run
  obtain ⟨g', same, limited, rfl⟩ := h s (g, s') run
  exact ⟨rfl, same.trans (capped_of_limited limited s').symm⟩

theorem Respects.pure (h : f.Limited bound) : Respects bound (pure f) (pure f.unlimited) := by
  rintro s r ⟨⟩
  exact ⟨f, rfl, h, rfl⟩

theorem Respects.bind {next next' : Frame → Step Frame} (first : Respects bound x y)
    (rest : ∀ g, g.Limited bound → Respects bound (next g) (next' g.unlimited)) :
    Respects bound (x >>= next) (y >>= next') := by
  rintro s ⟨g, s'⟩ run
  obtain ⟨f, s₁, ran, run⟩ := Step.bind_eq_ok run
  obtain ⟨f', same, limited, rfl⟩ := first s _ ran
  obtain ⟨g', same', rest⟩ := rest f' limited s₁ _ run
  refine ⟨g', ?_, rest⟩
  show (x s >>= fun p => next p.1 p.2) = _
  rw [same]
  exact same'

/-- A step that is the same in both simulations. -/
theorem Respects.after {α : Type} {z : Step α} {next next' : α → Step Frame}
    (rest : ∀ a, Respects bound (next a) (next' a)) : Respects bound (z >>= next) (z >>= next') := by
  rintro s ⟨h, s'⟩ run
  obtain ⟨a, s₁, ran, run⟩ := Step.bind_eq_ok run
  obtain ⟨g, same, holds⟩ := rest a s₁ _ run
  refine ⟨g, ?_, holds⟩
  show (z s >>= fun p => next p.1 p.2) = _
  rw [ran]
  exact same

/-- A step that is the same in both simulations. -/
theorem Capped.after {α : Type} {z : Step α} {next next' : α → Step Frame}
    (rest : ∀ a, Capped bound (next a) (next' a)) : Capped bound (z >>= next) (z >>= next') := by
  rintro s ⟨h, s'⟩ run
  obtain ⟨a, s₁, ran, run⟩ := Step.bind_eq_ok run
  obtain ⟨limit, same⟩ := rest a s₁ _ run
  refine ⟨limit, ?_⟩
  show (z s >>= fun p => next p.1 p.2) = _
  rw [ran]
  exact same

/-- A step that fails where the second simulation does not matter. -/
theorem Capped.throw (e : FlowError) (x : Step Frame) : Capped bound x (throw e) := by
  rintro s r ⟨⟩

end

namespace Frame

variable {bound : Nat} {f g : Frame} {insn : Insn} {body : Body} {index : Nat}

/-- Pushing checks the limit. -/
theorem push_capped (limit : f.limit = some bound) (v : Value) :
    Capped bound (liftM (f.push v)) (liftM (f.unlimited.push v)) := by
  rintro s r ⟨⟩
  refine ⟨rfl, ?_⟩
  have words : stackWords { f with stack := v :: f.stack, limit := none } = f.stackWords + v.size :=
    Nat.add_comm _ _
  unfold push
  rw [limit]
  dsimp only
  split
  · next high => exact (if_neg (by rw [← words] at high; exact Nat.not_le_of_lt high)).symm
  · next low => exact (if_pos (by rw [← words] at low; exact Nat.le_of_not_lt low)).symm

theorem push?_capped (limited : f.Limited bound) (o : Option Value) :
    Capped bound (liftM (f.push? o)) (liftM (f.unlimited.push? o)) := by
  cases o with
  | none => exact (Respects.pure limited).capped
  | some v => exact push_capped limited.limit v

/-- Pushing values one by one checks the limit in the end, because the stack only gets higher. -/
theorem pushAll_capped (limited : f.Limited bound) (values : List Value) :
    Capped bound (values.foldlM (fun f v => (liftM (f.push v) : Step Frame)) f)
      (values.foldlM (fun f v => (liftM (f.push v) : Step Frame)) f.unlimited) := by
  induction values generalizing f with
  | nil => exact (Respects.pure limited).capped
  | cons v values ih =>
    intro s r run
    rw [List.foldlM_cons] at run ⊢
    have pushed : f.unlimited.push v = .ok { f.unlimited with stack := v :: f.stack } := rfl
    rw [pushed, liftM_ok, pure_bind] at run
    obtain ⟨-, first⟩ := push_capped limited.limit v s _ (by rw [pushed]; rfl)
    obtain ⟨g, s'⟩ := r
    obtain ⟨rfl, -⟩ := pushAll_eq_ok run
    refine ⟨rfl, ?_⟩
    show ((liftM (f.push v) : Step Frame) s >>= fun p =>
      values.foldlM (fun f v => (liftM (f.push v) : Step Frame)) p.1 p.2) = _
    rw [first, capped]
    dsimp only
    split
    · next low => exact (ih (f := { f with stack := v :: f.stack, limit := some bound }) ⟨rfl, low⟩ s _ run).2
    · next high =>
      have higher : stackWords { f.unlimited with stack := v :: f.stack } ≤
          stackWords { f.unlimited with stack := values.reverse ++ v :: f.stack } := by
        simp [stackWords]
      rw [capped, if_neg fun low => high (higher.trans low)]
      rfl

theorem words_drop_le (f : Frame) (count : Nat) : total Value.size (f.stack.drop count) ≤ f.stackWords := by
  have parts := total_append Value.size (f.stack.take count) (f.stack.drop count)
  rw [List.take_append_drop] at parts
  rw [stackWords]
  omega

/-- Instructions that take operands and push what comes of them. -/
theorem apply_capped (limited : f.Limited bound) (count : Nat) :
    Capped bound (f.apply insn count) (f.unlimited.apply insn count) := by
  unfold apply popMany
  by_cases short : f.stack.length < count
  · have : f.unlimited.stack.length < count := short
    rw [if_pos this]
    exact .throw _ _
  · have : ¬f.unlimited.stack.length < count := short
    rw [if_neg short, if_neg this]
    simp only [liftM_ok, pure_bind]
    exact .after fun o => push?_capped (limited.drop (words_drop_le f count)) o

/-- A store into a local variable. -/
theorem setLocal_respects (limited : f.Limited bound) (slot : Nat) (v : Value) :
    Respects bound (liftM (f.setLocal slot v)) (liftM (f.unlimited.setLocal slot v)) := by
  rintro s ⟨h, s'⟩ run
  obtain ⟨set, same⟩ := Step.liftExcept_eq_ok run
  obtain ⟨inside, frame⟩ := setLocal_eq_ok set
  refine ⟨{ f with locals := f.locals.set slot v }, ?_, ⟨limited.limit, limited.words⟩, frame.symm⟩
  have inside : slot < f.locals.length := inside
  rw [setLocal, if_pos inside, same]
  rfl

theorem store_respects (limited : f.Limited bound) (slot : UInt16) (v : Value) :
    Respects bound (f.store slot v) (f.unlimited.store slot v) := by
  unfold store
  refine (setLocal_respects limited _ v).bind fun g limited => ?_
  extract_lets last
  have ends (g : Frame) (limited : g.Limited bound) : Respects bound (last g) (last g.unlimited) := by
    simp only [last]
    split
    · exact .pure limited
    · next before _ =>
      have same : g.unlimited.locals[before]? = g.locals[before]? := rfl
      rw [same]
      split
      · split
        · exact .after fun e => setLocal_respects limited _ e
        · exact .pure limited
      · exact .pure limited
  split
  · exact .after fun e => (setLocal_respects limited _ e).bind ends
  · exact (Respects.pure limited).bind ends

/-- A step that takes the topmost value. -/
theorem pop_bind_respects {next next' : Value × Frame → Step Frame} (limited : f.Limited bound)
    (rest : ∀ v g, g.Limited bound → Respects bound (next (v, g)) (next' (v, g.unlimited))) :
    Respects bound (liftM f.pop >>= next) (liftM f.unlimited.pop >>= next') := by
  obtain ⟨locals, stack, limit⟩ := f
  cases stack with
  | nil => rintro s r ⟨⟩
  | cons v below => exact rest v ⟨locals, below, limit⟩ (limited.drop (Nat.le_add_left _ _))

theorem shuffle_capped (limited : f.Limited bound) (id : InsnId) (form : Bytecode.Shuffle) :
    Capped bound (f.shuffle body index id form) (f.unlimited.shuffle body index id form) := by
  rw [shuffle_eq, shuffle_eq, show f.unlimited.stack = f.stack from rfl]
  cases planned : Shuffle.plan form f.stack with
  | error e => exact .throw _ _
  | ok plan =>
    obtain ⟨rest, moved⟩ := plan
    obtain ⟨x, -, rfl, -⟩ := plan_exchange planned
    simp only [liftM_ok, pure_bind]
    exact .after fun values => pushAll_capped (limited.drop (words_drop_le f x.taken)) values

/-- **A limit is a check behind each instruction.** -/
theorem execute_capped (limited : f.Limited bound) :
    Capped bound (f.execute body index insn) (f.unlimited.execute body index insn) := by
  rintro s ⟨g, s'⟩ executed
  obtain ⟨m, movement⟩ := movement_of_execute executed
  -- what pops some values and makes a new one is one operation; only moves of values are left
  obtain ⟨count, result, rfl⟩ | rearranges := rearranges_of_movement movement
  · rw [execute_eq_apply_of_movement movement] at executed ⊢
    exact apply_capped limited count s _ executed
  refine (?_ : Capped bound (f.execute body index insn) (f.unlimited.execute body index insn)) s _ executed
  obtain ⟨id, node⟩ := insn
  cases rearranges with
  | load node access =>
    cases node
    simp only [execute, access]
    exact .after fun v => .after fun w => push_capped limited.limit w
  | store node access =>
    cases node
    simp only [execute, access]
    exact (pop_bind_respects limited fun v g limited => .after fun w => store_respects limited _ w).capped
  | increment node =>
    cases node
    refine Capped.after fun v => .after fun o => ?_
    cases o with
    | none => exact (Respects.pure limited).capped
    | some w => exact (setLocal_respects limited _ w).capped
  | pop node operation =>
    cases node
    simp only [execute, executeSimple, operation]
    refine (pop_bind_respects limited fun v g limited => ?_).capped
    split
    · rintro s r ⟨⟩
    · exact .pure limited
  | pop2 node operation =>
    cases node
    simp only [execute, executeSimple, operation]
    refine (pop_bind_respects limited fun v g limited => ?_).capped
    split
    · exact .pure limited
    · refine pop_bind_respects limited fun w g limited => ?_
      split
      · rintro s r ⟨⟩
      · exact .pure limited
  | shuffle node operation =>
    cases node
    simp only [execute, executeSimple, operation]
    exact shuffle_capped limited _ _

/-- Joining frames does not check the limit. -/
theorem merge_unlimited (f g : Frame) (s : Store) :
    f.unlimited.merge g.unlimited s = (f.merge g s).map fun r => ((r.1.1.unlimited, r.1.2), r.2) := by
  by_cases heights : f.stack.length = g.stack.length
  · simp only [merge, unlimited, heights, ne_eq, not_true_eq_false, if_false]
    rfl
  · simp only [merge, unlimited, heights, ne_eq, not_false_eq_true, if_true]
    rfl

/-- A join takes as many words as the old frame, or fewer. -/
theorem Limited.merge {incoming : Frame} {changed : Bool} {s s' : Store} (limited : f.Limited bound)
    (h : f.merge incoming s = .ok ((g, changed), s')) : g.Limited bound := by
  obtain ⟨-, limit, -, stack⟩ := frameMerge_joins h
  exact ⟨limit.trans limited.limit, stack.words_le.trans limited.words⟩

end Frame

/-! ## Flows -/

namespace Flow

variable {bound : Nat} {flow flow' next : Flow} {ctx : Context}

/-- The flow without the limits of its frames. -/
def unlimited (flow : Flow) : Flow :=
  { flow with frames := flow.frames.map (Option.map Frame.unlimited) }

/-- All frames respect the limit. -/
def Limited (bound : Nat) (flow : Flow) : Prop :=
  ∀ i f, flow.at i = some f → f.Limited bound

theorem at_unlimited (flow : Flow) (i : Nat) : flow.unlimited.at i = (flow.at i).map Frame.unlimited := by
  simp only [Flow.at, unlimited, Array.getElem?_map]
  cases flow.frames[i]? with
  | none => rfl
  | some o => rfl

theorem mergeInto_unlimited (flow : Flow) (target : Nat) (incoming : Frame) :
    mergeInto flow.unlimited target incoming.unlimited = (mergeInto flow target incoming).map unlimited := by
  have here : flow.unlimited.frames[target]?.join = flow.frames[target]?.join.map Frame.unlimited :=
    at_unlimited flow target
  unfold mergeInto
  rw [here]
  cases flow.frames[target]?.join with
  | none =>
    simp only [Except.map, unlimited, Array.map_setIfInBounds, Option.map_some]
    rfl
  | some existing =>
    have joined : (existing.unlimited.merge incoming.unlimited).run flow.unlimited.store =
        ((existing.merge incoming).run flow.store).map fun r => ((r.1.1.unlimited, r.1.2), r.2) :=
      Frame.merge_unlimited existing incoming flow.store
    simp only [Option.map_some, joined]
    cases (existing.merge incoming).run flow.store with
    | error e => rfl
    | ok r =>
      simp only [Except.map, unlimited, Array.map_setIfInBounds, Option.map_some]
      rfl

theorem mergeAll_unlimited (flow : Flow) (targets : List Nat) (incoming : Frame) :
    targets.foldlM (fun flow target => mergeInto flow target incoming.unlimited) flow.unlimited =
      (targets.foldlM (fun flow target => mergeInto flow target incoming) flow).map unlimited := by
  induction targets generalizing flow with
  | nil => rfl
  | cons target targets ih =>
    rw [List.foldlM_cons, List.foldlM_cons, mergeInto_unlimited]
    cases mergeInto flow target incoming with
    | error e => rfl
    | ok next => exact ih next

/-- A caught exception takes one word. -/
theorem handlerFrame_eq (before : Frame) (room : ∀ bound ∈ before.limit, 1 ≤ bound) (caught : String) (s : Store) :
    handlerFrame before caught s =
      let made := (Store.ofType (.object caught)).run s
      .ok ({ before with stack := [made.1] }, made.2) := by
  obtain ⟨locals, stack, limit⟩ := before
  show (liftM (Frame.push _ _) : Analysis.Step Frame) _ = _
  unfold Frame.push
  cases limit with
  | none => rfl
  | some bound => exact congrArg (fun x => (liftM x : Analysis.Step Frame) _) (if_neg (Nat.not_lt_of_le (room bound rfl)))

theorem visitHandler_unlimited {before : Frame} (limit : before.limit = some bound) (room : 1 ≤ bound)
    (fail : FlowError → AnalysisError) (flow : Flow) (r : CoveredRange) :
    visitHandler before.unlimited fail flow.unlimited r = (visitHandler before fail flow r).map unlimited := by
  have entered := handlerFrame_eq before (by simpa [limit] using room) r.caught flow.store
  have entered' := handlerFrame_eq before.unlimited (by simp [Frame.unlimited]) r.caught flow.store
  unfold visitHandler
  rw [show (handlerFrame before r.caught).run flow.store = _ from entered,
    show (handlerFrame before.unlimited r.caught).run flow.unlimited.store = _ from entered']
  generalize (Store.ofType (.object r.caught)).run flow.store = made
  exact mergeInto_unlimited { flow with store := made.2 } r.handler { before with stack := [made.1] }

theorem visitHandlers_unlimited {before : Frame} (limit : before.limit = some bound)
    (fail : FlowError → AnalysisError) (flow : Flow) (ranges : List CoveredRange)
    (room : ranges ≠ [] → 1 ≤ bound) :
    ranges.foldlM (visitHandler before.unlimited fail) flow.unlimited =
      (ranges.foldlM (visitHandler before fail) flow).map unlimited := by
  induction ranges generalizing flow with
  | nil => rfl
  | cons r ranges ih =>
    rw [List.foldlM_cons, List.foldlM_cons, visitHandler_unlimited limit (room (by simp))]
    cases visitHandler before fail flow r with
    | error e => rfl
    | ok next => exact ih next fun _ => room (by simp)

theorem Limited.mergeInto {target : Nat} {incoming : Frame} (h : flow.Limited bound)
    (limited : incoming.Limited bound) (run : mergeInto flow target incoming = .ok flow') :
    flow'.Limited bound := by
  obtain ⟨g, frames, here⟩ := mergeInto_cases run
  intro i f found
  rcases at_of_set frames found with ⟨rfl, rfl⟩ | old
  · obtain ⟨-, rfl, -⟩ | ⟨existing, changed, there, joined, -⟩ := here
    · exact limited
    · exact (h i existing there).merge joined
  · exact h i f old

/-- Where the stack behind a node respects the limit, a visit does the same as without a limit. -/
theorem visitNode_unlimited {i : Nat} {insn : Insn} {before after : Frame} {s : Store}
    (limit : before.limit = some bound) (room : (∃ r ∈ ctx.ranges, r.covers i = true) → 1 ≤ bound)
    (executed : before.execute ctx.body i insn flow.store = .ok (after, s))
    (executed' : before.unlimited.execute ctx.body i insn flow.store = .ok (after.unlimited, s)) :
    visitNode ctx i insn before.unlimited flow.unlimited = (visitNode ctx i insn before flow).map unlimited := by
  have covered (some : ctx.ranges.filter (·.covers i) ≠ []) : 1 ≤ bound := by
    obtain ⟨r, member⟩ := List.exists_mem_of_ne_nil _ some
    obtain ⟨listed, covers⟩ := List.mem_filter.mp member
    exact room ⟨r, listed, covers⟩
  unfold visitNode
  rw [show (before.execute ctx.body i insn).run flow.store = _ from executed,
    show (before.unlimited.execute ctx.body i insn).run flow.unlimited.store = _ from executed']
  cases ctx.body.successors ctx.positions always i insn.node with
  | error e => cases e <;> rfl
  | ok targets =>
    have carried := mergeAll_unlimited { flow with store := s } targets after
    show (targets.foldlM (fun flow target => mergeInto flow target after.unlimited)
      (unlimited { flow with store := s }) >>= _) = Except.map unlimited (targets.foldlM _ _ >>= _)
    rw [carried]
    cases targets.foldlM (fun flow target => mergeInto flow target after) { flow with store := s } with
    | error e => rfl
    | ok between => exact visitHandlers_unlimited limit _ between _ covered

/-- A visit keeps the limit. -/
theorem Limited.visitNode {i : Nat} {insn : Insn} {before after : Frame} {s : Store} (h : flow.Limited bound)
    (limit : before.limit = some bound) (room : (∃ r ∈ ctx.ranges, r.covers i = true) → 1 ≤ bound)
    (executed : before.execute ctx.body i insn flow.store = .ok (after, s)) (limited : after.Limited bound)
    (visited : visitNode ctx i insn before flow = .ok flow') : flow'.Limited bound := by
  obtain ⟨after', store, targets, between, fail, executed', -, onward, handled⟩ := visitNode_eq_ok visited
  cases executed.symm.trans executed'
  have onward' : between.Limited bound :=
    foldlM_invariant (I := Flow.Limited bound) (fun _ _ _ _ h carried => h.mergeInto limited carried) (by exact h) onward
  refine foldlM_invariant (I := Flow.Limited bound) (fun r member flow flow' h carried => ?_) onward' handled
  obtain ⟨listed, covers⟩ := List.mem_filter.mp member
  obtain ⟨entry, store, entered, carried⟩ := visitHandler_eq_ok carried
  obtain ⟨v, kind, -, rfl⟩ := handlerFrame_eq_ok entered
  -- a handler needs room for one word, the caught reference
  have h : Flow.Limited bound { flow with store } := h
  have entry : Frame.Limited bound { before with stack := [v] } := by
    refine ⟨limit, ?_⟩
    rw [Frame.stackWords, total_cons, total_nil, Value.size, kind]
    exact room ⟨r, listed, covers⟩
  exact h.mergeInto entry carried

/-- A visit of a node under a limit: it does what it does without one if the stack behind the node respects
the limit, and fails otherwise. -/
theorem visitNode_capped {i : Nat} {insn : Insn} {before after : Frame} {s : Store}
    (h : flow.Limited bound) (limited : before.Limited bound)
    (room : (∃ r ∈ ctx.ranges, r.covers i = true) → 1 ≤ bound)
    (executed : before.unlimited.execute ctx.body i insn flow.store = .ok (after, s))
    (visited : visitNode ctx i insn before.unlimited flow.unlimited = .ok next) :
    if after.stackWords ≤ bound then
      ∃ flow', visitNode ctx i insn before flow = .ok flow' ∧ flow'.Limited bound ∧ flow'.unlimited = next
    else visitNode ctx i insn before flow = .error (.instruction insn.node.describe i (.overflow bound)) := by
  obtain ⟨limit, behind⟩ := Frame.execute_capped limited _ _ executed
  rw [capped] at behind
  dsimp only at limit behind
  split
  · next low =>
    rw [if_pos low] at behind
    have same : Frame.unlimited { after with limit := some bound } = after := by
      obtain ⟨locals, stack, _⟩ := after
      cases limit
      rfl
    rw [visitNode_unlimited limited.limit room behind (same ▸ executed)] at visited
    cases ran : visitNode ctx i insn before flow with
    | error e =>
      rw [ran] at visited
      cases visited
    | ok flow' =>
      rw [ran] at visited
      exact ⟨flow', rfl, h.visitNode limited.limit room behind ⟨rfl, low⟩ ran, Except.ok.inj visited⟩
  · next high =>
    rw [if_neg high] at behind
    unfold visitNode
    rw [show (before.execute ctx.body i insn).run flow.store = _ from behind]
    rfl

/-- A visit of a position with a frame visits its node. -/
theorem visit_eq_visitNode (flow : Flow) {i : Nat} {insn : Insn} {before : Frame} (at_position : ctx.body[i]? = some insn)
    (there : flow.at i = some before) : visit ctx i flow = visitNode ctx i insn before flow := by
  unfold visit
  rw [at_position, show flow.frames[i]?.join = _ from there]

/-- A visit of a position without a frame does nothing, under a limit or not. -/
theorem visit_idle {i : Nat} (queue : List Nat) (idle : ∀ insn before, ctx.body[i]? = some insn → flow.at i ≠ some before) :
    visit ctx i { flow with queue } = .ok { flow with queue } ∧
      visit ctx i { flow.unlimited with queue } = .ok { flow.unlimited with queue } ∧
      visitOf? ctx i flow.unlimited = none := by
  have missing := at_unlimited flow i
  rw [Flow.at] at missing
  unfold visit
  simp only [visitOf?, Flow.at, missing]
  cases at_position : ctx.body[i]? with
  | none => exact ⟨rfl, rfl, rfl⟩
  | some insn =>
    cases there : flow.at i with
    | some before => exact absurd there (idle insn before at_position)
    | none =>
      rw [Flow.at] at there
      rw [there]
      exact ⟨rfl, rfl, rfl⟩

/-- **A loop under a limit** makes the visits that it makes without one, up to the first of them behind which
the stack is too high. -/
theorem run_capped {fuel : Nat} (h : flow.Limited bound)
    (room : ∀ v ∈ visits ctx fuel flow.unlimited, (∃ r ∈ ctx.ranges, r.covers v.position = true) → 1 ≤ bound)
    (ran : run ctx fuel flow.unlimited = .ok next) :
    (∃ flow', run ctx fuel flow = .ok flow' ∧ flow'.Limited bound ∧ flow'.unlimited = next ∧
      ∀ v ∈ visits ctx fuel flow.unlimited, v.before.stackWords ≤ bound ∧ v.after.stackWords ≤ bound) ∨
    ∃ v ∈ visits ctx fuel flow.unlimited, ∃ insn ∈ ctx.body[v.position]?,
      v.before.stackWords ≤ bound ∧ bound < v.after.stackWords ∧
      run ctx fuel flow = .error (.instruction insn.node.describe v.position (.overflow bound)) := by
  induction fuel generalizing flow with
  | zero =>
    cases ran
    exact .inl ⟨flow, rfl, h, rfl, by simp [visits]⟩
  | succ fuel ih =>
    rw [run] at ran
    rw [visits, run]
    rw [visits] at room
    have waiting : flow.unlimited.queue = flow.queue := rfl
    rw [waiting] at ran room ⊢
    cases queue : flow.queue with
    | nil =>
      rw [queue] at ran
      cases ran
      exact .inl ⟨flow, rfl, h, rfl, by simp⟩
    | cons i queue' =>
      simp only [queue] at ran room ⊢
      have h' : Flow.Limited bound { flow with queue := queue' } := h
      by_cases found : ∃ insn before, ctx.body[i]? = some insn ∧ flow.at i = some before
      · obtain ⟨insn, before, at_position, there⟩ := found
        have there' : flow.unlimited.at i = some before.unlimited := by rw [at_unlimited, there, Option.map_some]
        have limited := h i before there
        rw [visit_eq_visitNode { flow with queue := queue' } at_position there]
        rw [visit_eq_visitNode { flow.unlimited with queue := queue' } at_position there'] at ran room ⊢
        cases visited : visitNode ctx i insn before.unlimited { flow.unlimited with queue := queue' } with
        | error e =>
          rw [visited] at ran
          cases ran
        | ok next' =>
          rw [visited] at ran
          simp only [visited] at room ⊢
          obtain ⟨after, s, targets, between, fail, executed, -⟩ := visitNode_eq_ok visited
          have executed : before.unlimited.execute ctx.body i insn flow.unlimited.store = .ok (after, s) := executed
          have seen : visitOf? ctx i flow.unlimited =
              some ⟨i, before.unlimited, flow.unlimited.store, after, s⟩ := by
            simp [visitOf?, at_position, there', executed, Except.toOption]
          rw [seen] at room ⊢
          simp only [Option.toList_some, List.singleton_append, List.forall_mem_cons, List.exists_mem_cons_iff]
            at room ⊢
          have node := visitNode_capped h' limited room.1 executed visited
          -- the first visit behind which the stack is too high ends the run under the limit
          split at node
          · next low =>
            obtain ⟨flow', visited', kept, rfl⟩ := node
            rw [visited']
            rcases ih kept room.2 ran with ⟨last, ran', kept, same, lows⟩ | high
            · exact .inl ⟨last, ran', kept, same, ⟨limited.words, low⟩, lows⟩
            · exact .inr (.inr high)
          · next high =>
            rw [node]
            exact .inr (.inl ⟨insn, at_position, limited.words, Nat.lt_of_not_le high, rfl⟩)
      · obtain ⟨same, same', none_⟩ := visit_idle queue' fun insn before at_position there =>
          found ⟨insn, before, at_position, there⟩
        rw [same'] at ran room ⊢
        rw [none_] at room ⊢
        rw [same]
        exact ih h' room ran

end Flow

end Bytecode.Analysis
