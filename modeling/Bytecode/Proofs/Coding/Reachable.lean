import Bytecode.Proofs.Coding.Layout
import Bytecode.Verification.Inference

/-!
# Reachable positions are closed under control flow

The first position has a frame, and with a position all those have one to which control can go from
there: its successors, and the handlers around it. The invariant of the loop is that a position with
a frame waits in the queue or is `Done`; a visit only adds frames, and queues the positions that it
gives one.
-/

namespace Bytecode

namespace InferenceState

/-- Whether a position has a frame. -/
def Live (s : InferenceState) (i : Nat) : Prop :=
  (s.frames[i]?.join).isSome = true

/-- What a step of the inference does: frames stay, and a position that gets one is queued. -/
structure Grows (s s' : InferenceState) : Prop where
  size : s'.frames.size = s.frames.size
  live : ∀ i, s.Live i → s'.Live i
  queue : s.queue ⊆ s'.queue
  new : ∀ i, s'.Live i → s.Live i ∨ i ∈ s'.queue

namespace Grows

theorem refl (s : InferenceState) : s.Grows s :=
  ⟨rfl, fun _ h => h, List.Subset.refl _, fun _ h => .inl h⟩

theorem trans {s t u : InferenceState} (first : s.Grows t) (second : t.Grows u) : s.Grows u where
  size := second.size.trans first.size
  live := fun i h => second.live i (first.live i h)
  queue := List.Subset.trans first.queue second.queue
  new := by
    intro i h
    rcases second.new i h with h | h
    · rcases first.new i h with h | h
      · exact .inl h
      · exact .inr (second.queue h)
    · exact .inr h

end Grows

end InferenceState

namespace InferenceContext

open InferenceState

variable {ctx : InferenceContext} {s s' : InferenceState}

/-- A position is given a frame and queued. -/
def update (s : InferenceState) (target : Nat) (frame : TypeFrame) : InferenceState :=
  { s with
    frames := s.frames.setIfInBounds target (some frame)
    queue := if target ∈ s.queue then s.queue else s.queue ++ [target] }

theorem mem_queue_update (s : InferenceState) (target : Nat) (frame : TypeFrame) :
    target ∈ (update s target frame).queue := by
  show target ∈ if target ∈ s.queue then s.queue else s.queue ++ [target]
  split
  · assumption
  · exact List.mem_append_right _ (List.mem_singleton_self _)

theorem update_grows (s : InferenceState) (target : Nat) (frame : TypeFrame) :
    s.Grows (update s target frame) := by
  have queued := mem_queue_update s target frame
  constructor
  · exact Array.size_setIfInBounds
  · intro i live
    show (((s.frames.setIfInBounds target (some frame))[i]?).join).isSome = true
    rw [Array.getElem?_setIfInBounds]
    split
    · split
      · rfl
      · rename_i outside
        rw [InferenceState.Live, Array.getElem?_eq_none (by omega)] at live
        cases live
    · exact live
  · intro i member
    show i ∈ if target ∈ s.queue then s.queue else s.queue ++ [target]
    split
    · exact member
    · exact List.mem_append_left _ member
  · intro i live
    change (((s.frames.setIfInBounds target (some frame))[i]?).join).isSome = true at live
    rw [Array.getElem?_setIfInBounds] at live
    split at live
    · rename_i same
      exact .inr (same ▸ queued)
    · exact .inl live

/-- Joining a frame into a position gives the position a frame. -/
theorem mergeInto_grows {target : Nat} {incoming : TypeFrame}
    (ran : ctx.mergeInto s target incoming = .ok s') :
    s.Grows s' ∧ (target < s.frames.size → s'.Live target) := by
  have updated (frame : TypeFrame) : target < s.frames.size →
      (update s target frame).Live target := by
    intro inside
    show (((s.frames.setIfInBounds target (some frame))[target]?).join).isSome = true
    rw [Array.getElem?_setIfInBounds_self_of_lt inside]
    rfl
  rw [mergeInto] at ran
  cases here : s.frames[target]?.join with
  | none =>
    rw [here] at ran
    cases ran
    exact ⟨update_grows s target incoming, updated incoming⟩
  | some existing =>
    rw [here] at ran
    obtain ⟨merged, -, ran⟩ := ok_of_bind ran
    by_cases same : merged = existing
    · rw [if_pos same] at ran
      cases ran
      refine ⟨.refl s, fun _ => ?_⟩
      rw [InferenceState.Live, here]
      rfl
    · rw [if_neg same] at ran
      cases ran
      exact ⟨update_grows s target merged, updated merged⟩

/-- Joining frames into positions one behind the other. -/
theorem foldlM_grows {α : Type} (target : α → Nat) (incoming : α → TypeFrame) {l : List α}
    (ran : l.foldlM (fun s a => ctx.mergeInto s (target a) (incoming a)) s = .ok s') :
    s.Grows s' ∧ ∀ a ∈ l, target a < s.frames.size → s'.Live (target a) := by
  induction l generalizing s with
  | nil =>
    cases ran
    exact ⟨.refl _, fun a member => by cases member⟩
  | cons a l ih =>
    rw [List.foldlM_cons] at ran
    obtain ⟨s₁, first, ran⟩ := ok_of_bind ran
    obtain ⟨grown₁, live₁⟩ := mergeInto_grows first
    obtain ⟨grown₂, live₂⟩ := ih ran
    refine ⟨grown₁.trans grown₂, fun b member inside => ?_⟩
    rcases List.mem_cons.mp member with rfl | member
    · exact grown₂.live _ (live₁ inside)
    · exact live₂ b member (grown₁.size ▸ inside)

/-- Control goes on from a position to positions with frames. -/
def Done (ctx : InferenceContext) (s : InferenceState) (i : Nat) : Prop :=
  ∃ insn targets, ctx.body[i]? = some insn ∧ ctx.successors i insn.node = .ok targets ∧
    (∀ j ∈ targets, j < s.frames.size → s.Live j) ∧
    ∀ r ∈ ctx.ranges, r.covers i = true → r.handler < s.frames.size → s.Live r.handler

theorem Done.mono {i : Nat} (h : ctx.Done s i) (grown : s.Grows s') : ctx.Done s' i := by
  obtain ⟨insn, targets, at_, next, live, handled⟩ := h
  rw [← grown.size] at live handled
  exact ⟨insn, targets, at_, next, fun j member inside => grown.live j (live j member inside),
    fun r member covers inside => grown.live _ (handled r member covers inside)⟩

/-- A visit of a position with a frame settles it. -/
theorem visit_grows {i : Nat} (size : s.frames.size = ctx.body.size)
    (ran : ctx.visit i s = .ok s') : s.Grows s' ∧ (s.Live i → ctx.Done s' i) := by
  cases live : s.frames[i]?.join with
  | none =>
    have dead : ¬ s.Live i := by
      rw [InferenceState.Live, live]
      exact Bool.false_ne_true
    have same : ctx.visit i s = .ok s := by
      rw [visit, live]
      cases ctx.body[i]? <;> rfl
    rw [same] at ran
    cases ran
    exact ⟨.refl s, fun h => absurd h dead⟩
  | some frame =>
    have inside : i < ctx.body.size := by
      rw [← size]
      by_contra outside
      rw [Array.getElem?_eq_none (Nat.le_of_not_lt outside)] at live
      cases live
    have at_ := Array.getElem?_eq_getElem inside
    rw [visit, live, at_] at ran
    obtain ⟨after, -, ran⟩ := ok_of_bind ran
    obtain ⟨targets, next, ran⟩ := ok_of_bind ran
    obtain ⟨s₁, first, ran⟩ := ok_of_bind ran
    obtain ⟨grown₁, live₁⟩ := foldlM_grows id (fun _ => after) first
    obtain ⟨grown₂, live₂⟩ := foldlM_grows CoveredRange.handler (handlerFrame frame) ran
    refine ⟨Grows.trans ⟨grown₁.size, grown₁.live, grown₁.queue, grown₁.new⟩ grown₂, fun _ => ?_⟩
    refine ⟨_, targets, at_, next, fun j member bound => ?_, fun r member covers bound => ?_⟩
    · rw [grown₂.size, grown₁.size] at bound
      exact grown₂.live j (live₁ j member bound)
    · rw [grown₂.size] at bound
      exact live₂ r (List.mem_filter.mpr ⟨member, covers⟩) bound

/-- Every position with a frame waits in the queue or is done. -/
structure Invariant (ctx : InferenceContext) (s : InferenceState) : Prop where
  size : s.frames.size = ctx.body.size
  settled : ∀ i, s.Live i → i ∈ s.queue ∨ ctx.Done s i

/-- What a visit of the first position in the queue preserves holds at the end of the loop. -/
theorem run_induction {I : InferenceState → Prop}
    (step : ∀ {s s' i queue}, I s → s.queue = i :: queue → ctx.visit i { s with queue } = .ok s' →
      I s') {fuel : Nat} (h : I s) (ran : ctx.run fuel s = .ok s') : I s' := by
  induction fuel generalizing s with
  | zero =>
    cases ran
    exact h
  | succ fuel ih =>
    rw [run] at ran
    cases waiting : s.queue with
    | nil =>
      rw [waiting] at ran
      cases ran
      exact h
    | cons i queue =>
      rw [waiting] at ran
      obtain ⟨s₁, visited, ran⟩ := ok_of_bind ran
      exact ih (step h waiting visited) ran

/-- The invariant holds to the end of the loop, and frames stay. -/
theorem run_invariant {fuel : Nat} (h : ctx.Invariant s) (ran : ctx.run fuel s = .ok s') :
    ctx.Invariant s' ∧ ∀ i, s.Live i → s'.Live i := by
  refine run_induction (I := fun s' => ctx.Invariant s' ∧ ∀ i, s.Live i → s'.Live i) ?_
    ⟨h, fun _ live => live⟩ ran
  rintro s s' i queue ⟨invariant, kept⟩ waiting visited
  obtain ⟨grown, done⟩ := visit_grows (s := { s with queue }) invariant.size visited
  refine ⟨⟨grown.size.trans invariant.size, fun j live => ?_⟩,
    fun j live => grown.live j (kept j live)⟩
  rcases grown.new j live with before | new
  · rcases invariant.settled j before with queued | settled
    · rw [waiting] at queued
      rcases List.mem_cons.mp queued with rfl | queued
      · exact .inr (done before)
      · exact .inl (grown.queue queued)
    · exact .inr (Done.mono (s := { s with queue }) settled grown)
  · exact .inl new

end InferenceContext

/-- The frames of a method are closed under control flow. -/
structure MethodFrames.Closed (frames : MethodFrames) (m : Method) : Prop where
  first : frames.isLive 0 = true
  next : ∀ i, frames.isLive i = true → ∃ insn targets, m.body[i]? = some insn ∧
    m.body.successors m.body.lastLabels (· == .always) i insn.node = .ok targets ∧
    ∀ j ∈ targets, frames.isLive j = true
  ranges : ∀ r ∈ m.exceptions, ∃ start stop handler, m.body.lastLabels r.start = some start ∧
    m.body.lastLabels r.stop = some stop ∧ m.body.lastLabels r.handler = some handler ∧
    ∀ i, frames.isLive i = true → start ≤ i → i < stop → frames.isLive handler = true

/-- The nodes to which control can go: those of the targets, and the next one unless control never
goes on. -/
theorem Body.of_successors {body : Body} {positions : LabelPositions} {always : JumpForm → Bool}
    {i : Nat} {node : Node} {targets : List Nat}
    (h : body.successors positions always i node = .ok targets) :
    ∃ jumps, node.targets.mapM positions = some jumps ∧ jumps ⊆ targets ∧
      (node.fallsThrough always = true → i + 1 ∈ targets) ∧
      ∀ j ∈ targets, j ∈ jumps ∨ j < body.size := by
  rw [Body.successors] at h
  cases found : node.targets.mapM positions with
  | none => rw [found] at h; cases h
  | some jumps =>
    rw [found] at h
    change (if node.fallsThrough always then _ else _) = _ at h
    by_cases falls : node.fallsThrough always = true
    · rw [if_pos falls] at h
      by_cases inside : i + 1 < body.size
      · rw [if_pos inside] at h
        cases h
        refine ⟨jumps, rfl, List.subset_append_left .., fun _ => by simp, fun j member => ?_⟩
        rcases List.mem_append.mp member with jump | next
        · exact .inl jump
        · rw [List.mem_singleton.mp next]
          exact .inr inside
      · rw [if_neg inside] at h
        cases h
    · rw [if_neg falls] at h
      cases h
      exact ⟨_, rfl, List.Subset.refl _, fun h => absurd h falls, fun j member => .inl member⟩

/-- The successors that the inference follows are those of the body. -/
theorem InferenceContext.of_successors {ctx : InferenceContext} {i : Nat} {node : Node}
    {targets : List Nat} (h : ctx.successors i node = .ok targets) :
    ctx.body.successors ctx.positions (· == .always) i node = .ok targets := by
  rw [InferenceContext.successors] at h
  cases here : ctx.body.successors ctx.positions (· == .always) i node with
  | error cause => rw [here] at h; cases h
  | ok targets' =>
    rw [here] at h
    cases h
    rfl

/-- Control goes only to positions of the body. -/
theorem Body.successors_lt {body : Body} {always : JumpForm → Bool} {i : Nat} {node : Node}
    {targets : List Nat} (h : body.successors body.lastLabels always i node = .ok targets) :
    ∀ j ∈ targets, j < body.size := by
  intro j member
  obtain ⟨jumps, found, -, -, each⟩ := Body.of_successors h
  rcases each j member with jump | inside
  · obtain ⟨l, -, there⟩ := exists_of_mem_results (mapM_eq_some.mp found) jump
    exact Body.lastLabels_lt there
  · exact inside

/-- The loop of an inference, which has ended with an empty queue. -/
theorem run_of_inferFrames {h : Hierarchy} {owner : String} {m : Method} {frames : MethodFrames}
    (some_ : m.body.isEmpty = false) (ran : inferFrames h owner m = .ok frames) :
    ∃ descriptor ranges fuel final, m.parseDescriptor = .ok descriptor ∧
      m.coveredRanges m.body.lastLabels = some ranges ∧
      InferenceContext.run ⟨h, owner, m.signature, m.body, m.body.lastLabels, ranges⟩ fuel
        { frames := (Array.replicate m.body.size none).setIfInBounds 0
            (some (m.entryFrame owner descriptor.arguments frames.maxLocals))
          queue := [0] } = .ok final ∧
      final.queue = [] ∧ frames.frames = final.frames ∧ frames.maxStack = final.maxStack ∧
      final.maxStack ≤ 65535 := by
  rw [inferFrames, Body.ofTable_labelTable] at ran
  obtain ⟨descriptor, parsed, ran⟩ := ok_of_bind ran
  cases found : m.coveredRanges m.body.lastLabels with
  | none =>
    simp only [some_, found, Bool.false_eq_true, if_false] at ran
    cases ran
  | some ranges =>
    simp only [some_, found, Bool.false_eq_true, if_false] at ran
    obtain ⟨final, loop, ran⟩ := ok_of_bind ran
    cases idle : final.queue with
    | cons i queue =>
      rw [idle] at ran
      cases ran
    | nil =>
      rw [idle] at ran
      by_cases deep : 65535 < final.maxStack
      · simp only [List.isEmpty_nil, Bool.not_true, Bool.false_eq_true, if_false, if_pos deep] at ran
        cases ran
      · simp only [List.isEmpty_nil, Bool.not_true, Bool.false_eq_true, if_false,
          if_neg deep] at ran
        cases ran
        exact ⟨descriptor, ranges, _, final, parsed, rfl, loop, idle, rfl, rfl, Nat.le_of_not_lt deep⟩

/-- At the start of an inference the first position has a frame, and no other. -/
theorem InferenceContext.entered (size i : Nat) (entry : TypeFrame) (positive : 0 < size) :
    ((Array.replicate size none).setIfInBounds 0 (some entry))[i]?.join =
      if i = 0 then some entry else none := by
  rw [Array.getElem?_setIfInBounds]
  by_cases zero : i = 0
  · rw [if_pos zero.symm, if_pos zero, Array.size_replicate, if_pos positive]
    rfl
  · rw [if_neg (Ne.symm zero), if_neg zero, Array.getElem?_replicate]
    split <;> rfl

theorem Body.size_pos {body : Body} (some_ : body.isEmpty = false) : 0 < body.size :=
  Nat.pos_of_ne_zero fun zero => by
    rw [Array.size_eq_zero_iff.mp zero] at some_
    cases some_

/-- The inference gives frames that are closed under control flow. -/
theorem inferFrames_closed {h : Hierarchy} {owner : String} {m : Method} {frames : MethodFrames}
    (some_ : m.body.isEmpty = false) (ran : inferFrames h owner m = .ok frames) :
    frames.Closed m := by
  obtain ⟨descriptor, ranges, fuel, final, -, covered, loop, idle, same, -⟩ :=
    run_of_inferFrames some_ ran
  let entry := m.entryFrame owner descriptor.arguments frames.maxLocals
  have entered (i : Nat) := InferenceContext.entered m.body.size i entry (Body.size_pos some_)
  have begun : InferenceContext.Invariant
      ⟨h, owner, m.signature, m.body, m.body.lastLabels, ranges⟩
      { frames := (Array.replicate m.body.size none).setIfInBounds 0 (some entry)
        queue := [0] } := by
    refine ⟨by simp, fun i live => .inl ?_⟩
    rw [InferenceState.Live, entered] at live
    split at live
    · rename_i zero
      rw [zero]
      exact List.mem_singleton_self 0
    · cases live
  obtain ⟨invariant, kept⟩ := InferenceContext.run_invariant begun loop
  have live (i : Nat) : frames.isLive i = true ↔ final.Live i := by
    rw [MethodFrames.isLive, same]
    rfl
  have done (i : Nat) (alive : frames.isLive i = true) :=
    (invariant.settled i ((live i).mp alive)).resolve_left (by rw [idle]; exact List.not_mem_nil)
  have size : final.frames.size = m.body.size := invariant.size
  constructor
  · rw [live]
    apply kept
    rw [InferenceState.Live, entered]
    rfl
  · intro i alive
    obtain ⟨insn, targets, at_, next, each, -⟩ := done i alive
    have goes := InferenceContext.of_successors next
    refine ⟨insn, targets, at_, goes, fun j member => ?_⟩
    rw [live]
    exact each j member (size ▸ Body.successors_lt goes j member)
  · intro r member
    obtain ⟨range, known, there⟩ := exists_of_mem_elements (mapM_eq_some.mp covered) member
    obtain ⟨start, starts, there⟩ := Option.bind_eq_some_iff.mp there
    obtain ⟨stop, stops, there⟩ := Option.bind_eq_some_iff.mp there
    obtain ⟨handler, handles, there⟩ := Option.bind_eq_some_iff.mp there
    cases there
    refine ⟨start, stop, handler, starts, stops, handles, fun i alive first last => ?_⟩
    obtain ⟨insn, targets, -, -, -, handled⟩ := done i alive
    rw [live]
    refine handled _ known ?_ (size ▸ Body.lastLabels_lt handles)
    rw [CoveredRange.covers, decide_eq_true first, decide_eq_true last]
    rfl

end Bytecode
