import Bytecode.Proofs.Verification.Visits
import Bytecode.Proofs.Verification.Weights
import Mathlib.Data.Set.Finite.List

/-!
# The loop of an inference ends

Where chains of superclasses end, a change of a frame takes something off its weight, because joins
ascend. `InferenceState.potential` counts what the frames weigh, where a position without a frame
counts as much as any frame can, and the positions that wait. A visit takes one position off the queue,
and what it queues is paid for by the potential (`visit_spends`). So the loop ends (`inference_finishes`).

Two invariants bound what a frame can weigh: its names weigh no more than the names that the method can
bring, and its stack is no higher than twice the number of positions that have been reached.

Where a chain of superclasses comes back to its start, two classes can be joined to each other in turn,
and the loop never ends (`inference_circling`).
-/

namespace Bytecode

variable {h : Hierarchy} {rank : String → Nat} {most names width : Nat}

/-! ## Frames -/

/-- How often the types of a frame can still change. -/
def TypeFrame.weight (rank : String → Nat) (most : Nat) (f : TypeFrame) : Nat :=
  total (VerificationType.weight rank most) f.locals + total (VerificationType.weight rank most) f.stack

theorem TypeFrame.Bounded.weight_le {f : TypeFrame} {height : Nat} (bounded : f.Bounded rank most height) :
    f.weight rank most ≤ (f.locals.length + height) * (most + 2) := by
  have locals := total_le fun type member => (bounded.locals type member).weight_le
  have stack := total_le fun type member => (bounded.stack type member).weight_le
  have higher := Nat.mul_le_mul_right (most + 2) bounded.height
  rw [Nat.add_mul]
  exact Nat.add_le_add locals (Nat.le_trans stack higher)

/-- A join of frames leaves the first one as it is, or it is lighter. -/
theorem TypeFrame.merge_lighter (grounded : h.Grounded) (ranks : h.Ranks rank) {height height' : Nat}
    {f incoming merged : TypeFrame} (bounded : f.Bounded rank most height)
    (bounded' : incoming.Bounded rank most height') (ran : f.merge h incoming = .ok merged) :
    merged.Bounded rank most height ∧
      (merged = f ∨ merged.weight rank most < f.weight rank most) := by
  obtain ⟨-, room⟩ := room_of_merge ran
  rw [TypeFrame.merge] at ran
  split at ran
  · cases ran
  cases ran
  obtain ⟨locals, ascended⟩ := mergeSlots_lighter grounded ranks bounded.locals bounded'.locals
  obtain ⟨stack, ascended'⟩ := mergeSlots_lighter grounded ranks bounded.stack bounded'.stack
  refine ⟨⟨locals, stack, room ▸ bounded.height⟩, ?_⟩
  simp only [weight]
  rcases ascended with same | less <;> rcases ascended' with same' | less'
  · exact .inl (by rw [same, same'])
  · exact .inr (by rw [same]; omega)
  · exact .inr (by rw [same']; omega)
  · exact .inr (by omega)

/-! ## States -/

namespace InferenceState

/-- The number of positions that have a frame. -/
def reached (s : InferenceState) : Nat :=
  total (fun o : Option TypeFrame => o.isSome.toNat) s.frames.toList

theorem reached_le (s : InferenceState) : s.reached ≤ s.frames.size := by
  have bound : s.reached ≤ s.frames.toList.length * 1 := total_le fun o _ => Bool.toNat_le o.isSome
  rw [Nat.mul_one, Array.length_toList] at bound
  exact bound

/-- What a position weighs. Without a frame that is more than any frame can bring. -/
def weight (rank : String → Nat) (most nodes width : Nat) : Option TypeFrame → Nat
  | none => (width + 2 * nodes) * (most + 2) + 1
  | some f => f.weight rank most

/-- What all positions weigh, and the positions that wait. -/
def potential (rank : String → Nat) (most nodes width : Nat) (s : InferenceState) : Nat :=
  total (weight rank most nodes width) s.frames.toList + s.queue.length

/-- The frames have light types, one number of slots, and stacks that have grown by at most two words
with each position that was reached. -/
structure Bounded (rank : String → Nat) (most nodes width : Nat) (s : InferenceState) : Prop where
  size : s.frames.size = nodes
  sized : s.Sized width
  frame : ∀ i f, s.frameAt i = some f → f.Bounded rank most (2 * s.reached)

/-- A step reaches positions and uses something up. -/
structure Spends (rank : String → Nat) (most nodes width : Nat) (s s' : InferenceState) : Prop where
  bounded : s'.Bounded rank most nodes width
  reached : s.reached ≤ s'.reached
  potential : s'.potential rank most nodes width ≤ s.potential rank most nodes width

variable {nodes : Nat} {s s' s'' : InferenceState}

theorem Spends.refl (bounded : s.Bounded rank most nodes width) : s.Spends rank most nodes width s :=
  ⟨bounded, Nat.le_refl _, Nat.le_refl _⟩

theorem Spends.trans (first : s.Spends rank most nodes width s')
    (second : s'.Spends rank most nodes width s'') : s.Spends rank most nodes width s'' :=
  ⟨second.bounded, Nat.le_trans first.reached second.reached,
    Nat.le_trans second.potential first.potential⟩

/-- A position inside gets a frame that pays for its place in the queue. -/
theorem update_spends {target : Nat} {frame : TypeFrame} (bounded : s.Bounded rank most nodes width)
    (inside : target < nodes) (slots : frame.locals.length = width)
    (light : frame.Bounded rank most (2 * (s.reached + 1)))
    (pays : ∀ f, s.frameAt target = some f → frame.Bounded rank most (2 * s.reached) ∧
      frame.weight rank most < f.weight rank most) :
    s.Spends rank most nodes width (InferenceContext.update s target frame) := by
  let next := InferenceContext.update s target frame
  obtain ⟨o, there⟩ : ∃ o, s.frames[target]? = some o :=
    ⟨_, Array.getElem?_eq_getElem (bounded.size.symm ▸ inside)⟩
  have known : s.frameAt target = o := by rw [frameAt, there]; rfl
  have listed : s.frames.toList[target]? = some o := by rw [Array.getElem?_toList]; exact there
  have frames : next.frames.toList = s.frames.toList.set target (some frame) :=
    Array.toList_setIfInBounds
  have count : next.reached + o.isSome.toNat = s.reached + 1 := by
    rw [reached, frames]
    exact total_set listed
  have left : total (weight rank most nodes width) next.frames.toList +
      weight rank most nodes width o =
        total (weight rank most nodes width) s.frames.toList + frame.weight rank most := by
    rw [frames]
    exact total_set listed
  have size : next.frames.size = nodes := Array.size_setIfInBounds.trans bounded.size
  have all : next.reached ≤ nodes := size ▸ next.reached_le
  have more : s.reached ≤ next.reached := by
    have := Bool.toNat_le o.isSome
    omega
  have queue : next.queue.length ≤ s.queue.length + 1 := by
    show (if target ∈ s.queue then s.queue else s.queue ++ [target]).length ≤ _
    split
    · exact Nat.le_succ _
    · rw [List.length_append, List.length_singleton]
  -- what the position weighed before pays for its frame and for its place in the queue
  have paid : frame.Bounded rank most (2 * next.reached) ∧
      frame.weight rank most + 1 ≤ weight rank most nodes width o := by
    cases o with
    | none =>
      have count : next.reached = s.reached + 1 := count
      have heaviest := light.weight_le
      have room : (frame.locals.length + 2 * (s.reached + 1)) * (most + 2) ≤
          (width + 2 * nodes) * (most + 2) := Nat.mul_le_mul_right _ (by omega)
      exact ⟨count ▸ light, Nat.succ_le_succ (Nat.le_trans heaviest room)⟩
    | some f =>
      obtain ⟨light, less⟩ := pays f known
      exact ⟨light.mono (by omega), less⟩
  show s.Spends rank most nodes width next
  refine ⟨⟨size, fun i f found => ?_, fun i f found => ?_⟩, more, ?_⟩
  · rcases InferenceContext.frameAt_update found with old | ⟨-, rfl⟩
    · exact bounded.sized i f old
    · exact slots
  · rcases InferenceContext.frameAt_update found with old | ⟨-, rfl⟩
    · exact (bounded.frame i f old).mono (by omega)
    · exact paid.1
  · simp only [potential]
    omega

end InferenceState

namespace InferenceContext

variable {ctx : InferenceContext} {s s' : InferenceState}

/-! ## Visits -/

/-- Joins in the hierarchy of an inference ascend, its positions are those of its body, and the names
that it can bring into a frame are light. -/
structure Weighed (ctx : InferenceContext) (rank : String → Nat) (most names : Nat) : Prop where
  grounded : ctx.hierarchy.Grounded
  ranks : ctx.hierarchy.Ranks rank
  short : ∀ name : List Char, name.length ≤ names → Hierarchy.weight rank name ≤ most
  positions : ctx.positions = ctx.body.lastLabels
  handlers : ∀ range ∈ ctx.ranges, range.handler < ctx.body.size
  caught : ∀ range ∈ ctx.ranges, range.caught.length ≤ names
  known : longestKnownClass.length ≤ names
  owner : ctx.owner.length ≤ names
  body : ∀ insn ∈ ctx.body, insn.node.nameLength ≤ names

/-- A position that a frame is carried to pays for its place in the queue. -/
theorem mergeInto_spends (weighed : ctx.Weighed rank most names)
    (bounded : s.Bounded rank most ctx.body.size width) {target : Nat} {incoming : TypeFrame}
    (inside : target < ctx.body.size) (slots : incoming.locals.length = width)
    (light : incoming.Bounded rank most (2 * (s.reached + 1)))
    (ran : ctx.mergeInto s target incoming = .ok s') : s.Spends rank most ctx.body.size width s' := by
  rcases mergeInto_eq_ok ran with
    ⟨empty, rfl⟩ | ⟨existing, merged, here, joined, ⟨-, rfl⟩ | ⟨changed, rfl⟩⟩
  · exact s.update_spends bounded inside slots light fun f found => by cases empty.symm.trans found
  · exact .refl bounded
  · obtain ⟨room, -⟩ := TypeFrame.room_of_merge joined
    obtain ⟨light', lighter⟩ := TypeFrame.merge_lighter weighed.grounded weighed.ranks
      (bounded.frame target existing here) light joined
    refine s.update_spends bounded inside (room.trans (bounded.sized target existing here))
      (light'.mono (by omega)) fun f found => ?_
    cases here.symm.trans found
    exact ⟨light', lighter.resolve_left changed⟩

/-- A visit of a position with a frame pays for all positions that it queues. -/
theorem Visited.spends (weighed : ctx.Weighed rank most names)
    (bounded : s.Bounded rank most ctx.body.size width) {i : Nat} {insn : Insn}
    {before after : TypeFrame} {targets : List Nat} {between : InferenceState}
    (visited : ctx.Visited s s' i insn before after targets between) :
    s.Spends rank most ctx.body.size width s' := by
  have slots := bounded.sized i before visited.frame
  have light := bounded.frame i before visited.frame
  have slots' : after.locals.length = width :=
    (TypeFrame.keeps_execute before _ _ _ _ after visited.execute).trans slots
  have light' := light.execute weighed.short i weighed.known weighed.body weighed.owner
    (weighed.body insn (Array.mem_of_getElem? visited.present)) after visited.execute
  have start : s.Spends rank most ctx.body.size width
      { s with maxStack := max s.maxStack (max before.stack.length after.stack.length) } :=
    ⟨⟨bounded.size, bounded.sized, bounded.frame⟩, Nat.le_refl _, Nat.le_refl _⟩
  refine visited.invariant start (fun target member t t' spent carried => ?_)
    fun range member _ t t' spent carried => ?_
  · have inside := Body.successors_lt (weighed.positions ▸ visited.successors) target member
    have more := spent.reached
    exact spent.trans (mergeInto_spends weighed spent.bounded inside slots'
      (light'.mono (by omega)) carried)
  · have caught : (handlerFrame before range).Bounded rank most (2 * (t.reached + 1)) := by
      refine ⟨light.locals, fun type found => ?_, ?_⟩
      · rw [List.mem_singleton.mp found]
        exact TypeFrame.light_of_length weighed.short (weighed.caught range member)
      · show 1 ≤ 2 * (t.reached + 1)
        omega
    have slots : (handlerFrame before range).locals.length = width := slots
    exact spent.trans (mergeInto_spends weighed spent.bounded (weighed.handlers range member) slots
      caught carried)

/-- A visit of the first waiting position takes it off the queue. -/
theorem visit_spends (weighed : ctx.Weighed rank most names)
    (bounded : s.Bounded rank most ctx.body.size width) {i : Nat} {queue : List Nat}
    (first : s.queue = i :: queue) (ran : ctx.visit i { s with queue } = .ok s') :
    s'.Bounded rank most ctx.body.size width ∧
      s'.potential rank most ctx.body.size width + 1 ≤ s.potential rank most ctx.body.size width := by
  have bounded' : InferenceState.Bounded rank most ctx.body.size width { s with queue } :=
    ⟨bounded.size, bounded.sized, bounded.frame⟩
  have taken : s.potential rank most ctx.body.size width =
      InferenceState.potential rank most ctx.body.size width { s with queue } + 1 := by
    simp only [InferenceState.potential, first, List.length_cons, Nat.add_assoc]
  have spends : InferenceState.Spends rank most ctx.body.size width { s with queue } s' := by
    rcases visit_eq_ok ran with ⟨insn, before, after, targets, between, visited⟩ | ⟨rfl, -⟩
    · exact visited.spends weighed bounded'
    · exact .refl bounded'
  have spent := spends.potential
  exact ⟨spends.bounded, by omega⟩

/-- The loop fails, or it is done as soon as nothing is left in the state. -/
theorem run_done (weighed : ctx.Weighed rank most names) {fuel : Nat}
    (bounded : s.Bounded rank most ctx.body.size width)
    (enough : s.potential rank most ctx.body.size width ≤ fuel)
    (ran : ctx.run fuel s = .ok s') : s'.queue = [] := by
  induction fuel generalizing s with
  | zero =>
    cases ran
    rw [InferenceState.potential] at enough
    exact List.eq_nil_of_length_eq_zero (by omega)
  | succ fuel ih =>
    rw [run] at ran
    cases first : s.queue with
    | nil =>
      rw [first] at ran
      cases ran
      exact first
    | cons i queue =>
      rw [first] at ran
      obtain ⟨next, visited, ran⟩ := ok_of_bind ran
      obtain ⟨bounded', spent⟩ := visit_spends weighed bounded first visited
      exact ih bounded' (by omega) ran

theorem fail_ne_endless (ctx : InferenceContext) (i : Nat) (cause : InferenceError) :
    ctx.fail i cause ≠ .endless := by
  rw [fail]
  intro same
  cases same

theorem mergeInto_ne_endless (ctx : InferenceContext) (s : InferenceState) (target : Nat)
    (incoming : TypeFrame) : ctx.mergeInto s target incoming ≠ .error .endless := by
  rw [mergeInto]
  cases s.frames[target]?.join with
  | none => exact ok_ne_error _ _
  | some existing =>
    refine bind_ne_error (mapError_ne_error (ctx.fail_ne_endless target)) fun merged => ?_
    split <;> exact ok_ne_error _ _

theorem successors_ne_endless (ctx : InferenceContext) (i : Nat) (node : Node) :
    ctx.successors i node ≠ .error .endless := by
  refine mapError_ne_error fun cause => ?_
  cases cause <;> exact ctx.fail_ne_endless i _

theorem visit_ne_endless (ctx : InferenceContext) (i : Nat) (s : InferenceState) :
    ctx.visit i s ≠ .error .endless := by
  rw [visit]
  split
  · apply bind_ne_error (mapError_ne_error (ctx.fail_ne_endless i))
    intro after
    apply bind_ne_error (ctx.successors_ne_endless i _)
    intro targets
    apply bind_ne_error (foldlM_ne_error (fun s target => ctx.mergeInto_ne_endless s target after) _ _)
    intro between
    exact foldlM_ne_error (fun s range => ctx.mergeInto_ne_endless s _ _) _ _
  · exact ok_ne_error _ _

/-- What fails in the loop is an instruction of the method. -/
theorem run_ne_endless (ctx : InferenceContext) (fuel : Nat) (s : InferenceState) :
    ctx.run fuel s ≠ .error .endless := by
  induction fuel generalizing s with
  | zero => exact ok_ne_error _ _
  | succ fuel ih =>
    rw [run]
    cases s.queue with
    | nil => exact ok_ne_error _ _
    | cons i queue => exact bind_ne_error (ctx.visit_ne_endless i _) ih

/-- The loop comes to an end: it fails because of the method, or no position waits any more. -/
def Ends (ctx : InferenceContext) (fuel : Nat) (s : InferenceState) : Prop :=
  (∃ e, ctx.run fuel s = .error e ∧ e ≠ .endless) ∨ ∃ final, ctx.run fuel s = .ok final ∧ final.queue = []

theorem ends_of_potential_le (weighed : ctx.Weighed rank most names) {fuel : Nat}
    (bounded : s.Bounded rank most ctx.body.size width)
    (enough : s.potential rank most ctx.body.size width ≤ fuel) : ctx.Ends fuel s := by
  cases ran : ctx.run fuel s with
  | error e => exact .inl ⟨e, ran, fun same => ctx.run_ne_endless fuel s (same ▸ ran)⟩
  | ok final => exact .inr ⟨final, ran, run_done weighed bounded enough ran⟩

end InferenceContext

/-! ## Methods -/

theorem le_foldl_max {α : Type} (measure : α → Nat) (as : List α) (n : Nat) :
    n ≤ as.foldl (fun n a => max n (measure a)) n ∧
      ∀ a ∈ as, measure a ≤ as.foldl (fun n a => max n (measure a)) n := by
  induction as generalizing n with
  | nil => exact ⟨Nat.le_refl _, by simp⟩
  | cons a as ih =>
    obtain ⟨first, others⟩ := ih (max n (measure a))
    refine ⟨Nat.le_trans (Nat.le_max_left _ _) first, List.forall_mem_cons.mpr ⟨?_, others⟩⟩
    exact Nat.le_trans (Nat.le_max_right _ _) first

/-- No name that can come into a frame of a method is longer than the longest one. -/
theorem Method.le_longestName (m : Method) (owner : String) :
    (∀ insn ∈ m.body, insn.node.nameLength ≤ m.longestName owner) ∧
      (∀ r ∈ m.exceptions, ∀ name, r.catchType = some name → name.length ≤ m.longestName owner) ∧
      m.descriptor.length ≤ m.longestName owner ∧ owner.length ≤ m.longestName owner ∧
      longestKnownClass.length ≤ m.longestName owner := by
  unfold longestName
  rw [← Array.foldl_toList]
  obtain ⟨described, nodes⟩ :=
    le_foldl_max (fun insn => insn.node.nameLength) m.body.toList m.descriptor.length
  generalize m.body.toList.foldl _ _ = longest at described nodes ⊢
  dsimp only
  obtain ⟨others, caught⟩ := le_foldl_max (fun n : Nat => n) (m.exceptions.map fun r => r.catchType.elim 0 String.length)
    (max longest (max owner.length longestKnownClass.length))

  generalize List.foldl _ _ _ = all at others caught ⊢
  refine ⟨fun insn member => ?_, fun r member name known => ?_, by omega, by omega, by omega⟩
  · have := nodes insn (Array.mem_toList_iff.mpr member)
    omega
  · have := caught _ (List.mem_map_of_mem member)
    rwa [known] at this

/-- The entry of a method of a class whose name and descriptor are short. -/
theorem Method.bounded_entryFrame {m : Method} {owner : String} {d : MethodDescriptor}
    (short : ∀ name : List Char, name.length ≤ names → Hierarchy.weight rank name ≤ most)
    (owned : owner.length ≤ names) (described : m.descriptor.length ≤ names)
    (parsed : MethodDescriptor.parse m.descriptor = .ok d) (count height : Nat) :
    (m.entryFrame owner d.arguments count).Bounded rank most height := by
  have text := congrArg List.length (MethodDescriptor.chars_of_parse parsed).1
  rw [String.length_toList, MethodDescriptor.chars] at text
  simp only [List.length_append, List.length_cons] at text
  have receiver (type : VerificationType)
      (member : type ∈ if m.isStatic then []
        else if m.name = "<init>" ∧ owner ≠ objectClass then [.uninitializedThis]
        else [VerificationType.object owner]) : type.Light rank most := by
    split at member
    · cases member
    · split at member <;> rw [List.mem_singleton.mp member]
      · exact trivial
      · exact TypeFrame.light_of_length short owned
  have passed (type : VerificationType)
      (member : type ∈ (d.arguments.filterMap VerificationType.ofDescriptor).flatMap fun type =>
        if type.isWide then [type, .top] else [type]) : type.Light rank most := by
    obtain ⟨argument, listed, here⟩ := List.mem_flatMap.mp member
    obtain ⟨descriptor, there, named⟩ := List.mem_filterMap.mp listed
    have part : descriptor.chars.length ≤ (d.arguments.flatMap Descriptor.chars).length :=
      (List.sublist_flatten_of_mem (List.mem_map_of_mem there)).length_le
    have light := TypeFrame.light_ofDescriptor short (by omega) argument named
    split at here
    · rcases List.mem_cons.mp here with rfl | here
      · exact light
      · rw [List.mem_singleton.mp here]
        exact trivial
    · rw [List.mem_singleton.mp here]
      exact light
  refine ⟨fun type member => ?_, fun type member => absurd member List.not_mem_nil, Nat.zero_le _⟩
  rcases List.mem_append.mp member with member | member
  · exact (List.mem_append.mp (List.mem_of_mem_take member)).elim (receiver type) (passed type)
  · rw [List.eq_of_mem_replicate member]
    exact trivial

/-- What an inference knows about a method whose exception table has been read. -/
def Method.inferenceContext (m : Method) (h : Hierarchy) (owner : String) (ranges : List CoveredRange) :
    InferenceContext :=
  ⟨h, owner, m.signature, m.body, m.body.lastLabels, ranges⟩

theorem Method.weighed_inferenceContext {m : Method} {owner : String} {ranges : List CoveredRange}
    (grounded : h.Grounded) (ranks : h.Ranks rank)
    (short : ∀ name : List Char, name.length ≤ m.longestName owner → Hierarchy.weight rank name ≤ most)
    (covered : m.coveredRanges m.body.lastLabels = some ranges) :
    (m.inferenceContext h owner ranges).Weighed rank most (m.longestName owner) := by
  obtain ⟨body, caught, -, owned, known⟩ := m.le_longestName owner
  have handled (range : CoveredRange) (listed : range ∈ ranges) : range.handler < m.body.size ∧
      range.caught.length ≤ m.longestName owner := by
    obtain ⟨entry, member, there⟩ := exists_of_mem_results (mapM_eq_some.mp covered) listed
    obtain ⟨_, -, there⟩ := Option.bind_eq_some_iff.mp there
    obtain ⟨_, -, there⟩ := Option.bind_eq_some_iff.mp there
    obtain ⟨handler, handles, there⟩ := Option.bind_eq_some_iff.mp there
    cases there
    refine ⟨Body.lastLabels_lt handles, ?_⟩
    rw [CoveredRange.caught]
    cases type : entry.catchType with
    | none => exact Nat.le_trans (by decide : "java/lang/Throwable".length ≤ _) known
    | some name => exact caught entry member name type
  exact ⟨grounded, ranks, short, rfl, fun r listed => (handled r listed).1,
    fun r listed => (handled r listed).2, known, owned, body⟩

/-- The state before the first visit of a body of some length. -/
def InferenceState.start (nodes : Nat) (entry : TypeFrame) : InferenceState where
  frames := (Array.replicate nodes none).setIfInBounds 0 (some entry)
  queue := [0]

theorem InferenceState.start_bounded {nodes : Nat} {entry : TypeFrame} (positive : 0 < nodes)
    (slots : entry.locals.length = width) (light : ∀ height, entry.Bounded rank most height) :
    (start nodes entry).Bounded rank most nodes width := by
  have only {i : Nat} {f : TypeFrame} (found : (start nodes entry).frameAt i = some f) : f = entry := by
    rw [start, frameAt, InferenceContext.entered nodes i entry positive] at found
    split at found <;> cases found
    rfl
  refine ⟨by simp [start], fun i f found => ?_, fun i f found => ?_⟩
  · rw [only found]
    exact slots
  · rw [only found]
    exact light _

/-- The first state has no larger potential than the bound on the visits allows. -/
theorem InferenceState.potential_start_le {nodes : Nat} {entry : TypeFrame}
    (slots : entry.locals.length = width) (light : entry.Bounded rank most 0) :
    (start nodes entry).potential rank most nodes width ≤
      nodes * ((width + 2 * nodes) * (most + 2) + 1) + 1 := by
  have heaviest (o : Option TypeFrame) (member : o ∈ (start nodes entry).frames.toList) :
      weight rank most nodes width o ≤ (width + 2 * nodes) * (most + 2) + 1 := by
    rw [start, Array.toList_setIfInBounds] at member
    rcases List.mem_or_eq_of_mem_set member with old | rfl
    · obtain rfl := (List.mem_replicate.mp (Array.toList_replicate ▸ old)).2
      exact Nat.le_refl _
    · have less := light.weight_le
      exact (less.trans (Nat.mul_le_mul_right _ (by omega))).trans (Nat.le_succ _)
  have all := total_le heaviest
  have size : (start nodes entry).frames.toList.length = nodes := by simp [start]
  rw [size] at all
  exact Nat.succ_le_succ all

/-- The number of local variable slots of a method with a descriptor. -/
def Method.slotCount (m : Method) (d : MethodDescriptor) : Nat :=
  max (max m.maxLocals.toNat (d.slots m.isStatic).toNat) m.body.slotsNeeded

/-- The loop over a method comes to its end within a bound that follows from how heavy the names can be
that the method brings into frames. -/
theorem Method.inference_ends {m : Method} (owner : String) {d : MethodDescriptor}
    {ranges : List CoveredRange} {fuel : Nat} (grounded : h.Grounded) (ranks : h.Ranks rank)
    (short : ∀ name : List Char, name.length ≤ m.longestName owner → Hierarchy.weight rank name ≤ most)
    (parsed : m.parseDescriptor = .ok d) (covered : m.coveredRanges m.body.lastLabels = some ranges)
    (positive : 0 < m.body.size)
    (enough : m.body.size * ((m.slotCount d + 2 * m.body.size) * (most + 2) + 1) + 1 ≤ fuel) :
    (m.inferenceContext h owner ranges).Ends fuel
      (.start m.body.size (m.entryFrame owner d.arguments (m.slotCount d))) := by
  obtain ⟨-, -, described, owned, -⟩ := m.le_longestName owner
  have slots := m.length_entryFrame owner d.arguments (m.slotCount d)
  have light := m.bounded_entryFrame short owned described (ok_of_mapError parsed) (m.slotCount d)
  exact InferenceContext.ends_of_potential_le (weighed_inferenceContext grounded ranks short covered)
    (InferenceState.start_bounded positive slots light)
    ((InferenceState.potential_start_le slots (light 0)).trans enough)

/-- There are finitely many short names, so that their weights have a bound. -/
theorem exists_most (rank : String → Nat) (names : Nat) :
    ∃ most, ∀ name : List Char, name.length ≤ names → Hierarchy.weight rank name ≤ most := by
  have : Finite Char := Finite.of_injective (fun c : Char => (⟨c.toNat, c.val.toNat_lt⟩ : Fin (2 ^ 32)))
    fun c c' same => Char.ext (UInt32.toNat_inj.mp (Fin.mk.inj same))
  obtain ⟨most, above⟩ := ((List.finite_length_le Char names).image (Hierarchy.weight rank)).bddAbove
  exact ⟨most, fun name short => above ⟨name, short, rfl⟩⟩

/-- The loop of an inference: what it knows about the method, and the state with which it begins.
There is none for a method whose descriptor or exception table cannot be read, or without a body. -/
def inferenceOf? (h : Hierarchy) (owner : String) (m : Method) :
    Option (InferenceContext × InferenceState) := do
  let d ← m.parseDescriptor.toOption
  let ranges ← m.coveredRanges m.body.lastLabels
  if m.body.isEmpty then none
  else some (m.inferenceContext h owner ranges,
    .start m.body.size (m.entryFrame owner d.arguments (m.slotCount d)))

/-- An inference is not given up as endless where chains of superclasses are no longer than what is
looked at of them. -/
theorem inferFrames_ne_endless (grounded : h.Grounded)
    (shallow : ∀ name, (h.ancestorsUpTo (Hierarchy.maxDepth + 1) name).length ≤ Hierarchy.maxDepth)
    (owner : String) (m : Method) : inferFrames h owner m ≠ .error .endless := by
  intro ran
  rw [inferFrames, Body.ofTable_labelTable] at ran
  cases parsed : m.parseDescriptor with
  | error e =>
    rw [parsed] at ran
    cases ran
    exact mapError_ne_error (f := Failure.descriptor) (fun _ => Failure.noConfusion) parsed
  | ok d =>
    rw [parsed] at ran
    cases some_ : m.body.isEmpty with
    | true =>
      simp only [bind, Except.bind, some_, if_true] at ran
      cases ran
    | false =>
      cases covered : m.coveredRanges m.body.lastLabels with
      | none =>
        simp only [bind, Except.bind, some_, covered] at ran
        cases ran
      | some ranges =>
        obtain ⟨rank, ranks, ranked⟩ := grounded.exists_ranks
        have low := ranked _ shallow
        have ends := Method.inference_ends owner grounded ranks
          (fun name few => (Hierarchy.weight_le low name).trans (Nat.add_le_add_right few _))
          parsed covered (Body.size_pos some_) (Nat.le_refl _)
        simp only [bind, Except.bind, some_, covered, Bool.false_eq_true, if_false] at ran
        rcases ends with ⟨e, failed, other⟩ | ⟨final, done, empty⟩
        · change InferenceContext.run _ (InferenceContext.visitBound _ _ _) _ = _ at failed
          erw [failed] at ran
          cases ran
          exact other rfl
        · change InferenceContext.run _ (InferenceContext.visitBound _ _ _) _ = _ at done
          erw [done] at ran
          simp only [empty, List.isEmpty_nil, Bool.not_true, Bool.false_eq_true, if_false] at ran
          split at ran <;> cases ran

/-- **The inference of frames ends.** Where chains of superclasses end, the loop over a method fails or
comes to an empty queue after finitely many visits, whatever the method is. Where they are no longer
than what is looked at of them, the bound on the visits is enough, so that there are frames or a
failure that tells what is wrong with the method. -/
theorem inferFrames_ends (grounded : h.Grounded) (owner : String) (m : Method) :
    (∀ ctx start, inferenceOf? h owner m = some (ctx, start) →
      ∃ visits, ∀ fuel, visits ≤ fuel → ctx.Ends fuel start) ∧
    ((∀ name, (h.ancestorsUpTo (Hierarchy.maxDepth + 1) name).length ≤ Hierarchy.maxDepth) →
      (∃ frames, inferFrames h owner m = .ok frames) ∨
        ∃ e, inferFrames h owner m = .error e ∧ e ≠ .endless) := by
  refine ⟨fun ctx start begins => ?_, fun shallow => ?_⟩
  · obtain ⟨rank, ranks, -⟩ := grounded.exists_ranks
    obtain ⟨most, short⟩ := exists_most rank (m.longestName owner)
    obtain ⟨d, known, begins⟩ := Option.bind_eq_some_iff.mp begins
    obtain ⟨ranges, covered, begins⟩ := Option.bind_eq_some_iff.mp begins
    have parsed : m.parseDescriptor = .ok d := by
      cases parsed : m.parseDescriptor <;> rw [parsed] at known <;> cases known
      rfl
    split at begins
    · cases begins
    · next filled =>
      cases begins
      exact ⟨_, fun fuel enough => Method.inference_ends owner grounded ranks short parsed covered
        (Body.size_pos (Bool.not_eq_true _ ▸ filled)) enough⟩
  · have ended := inferFrames_ne_endless grounded shallow owner m
    cases ran : inferFrames h owner m with
    | ok frames => exact .inl ⟨frames, rfl⟩
    | error e => exact .inr ⟨e, rfl, fun same => ended (same ▸ ran)⟩

/-- A method that exchanges its two arguments for ever. -/
def Method.swapping : Method where
  id := ⟨0⟩
  access := 9
  name := "m"
  descriptor := "(LA;LB;)V"
  maxLocals := 2
  body := #[⟨⟨0⟩, .label ⟨0⟩⟩, ⟨⟨1⟩, .var Opcode.aload 0⟩, ⟨⟨2⟩, .var Opcode.aload 1⟩,
    ⟨⟨3⟩, .var Opcode.astore 0⟩, ⟨⟨4⟩, .var Opcode.astore 1⟩, ⟨⟨5⟩, .jump Opcode.goto ⟨0⟩⟩]

/-- A class and a subclass of it. -/
def Hierarchy.extending (name : String) : Option ClassHeader :=
  if name = "A" then some ⟨some "B", false⟩ else none

/-- The inference ends where one of the exchanged classes is above the other. -/
theorem inferFrames_ends_swapping : Hierarchy.Grounded .extending ∧
    (∃ ctx start, inferenceOf? .extending "T" Method.swapping = some (ctx, start) ∧
      ∃ visits, ∀ fuel, visits ≤ fuel → ctx.Ends fuel start) ∧
    ((∃ frames, inferFrames .extending "T" Method.swapping = .ok frames) ∨
      ∃ e, inferFrames .extending "T" Method.swapping = .error e ∧ e ≠ .endless) := by
  have above {name parent : String}
      (extends_ : (Hierarchy.extending name).bind ClassHeader.superName = some parent) :
      name = "A" ∧ parent = "B" := by
    unfold Hierarchy.extending at extends_
    split at extends_
    · next same => exact ⟨same, (Option.some.inj extends_).symm⟩
    · cases extends_
  have last (depth : Nat) : (Hierarchy.ancestorsUpTo .extending depth "B").length ≤ 1 := by
    cases depth with
    | zero => exact Nat.zero_le _
    | succ depth => exact Nat.le_refl 1
  have chain (depth : Nat) (name : String) :
      (Hierarchy.ancestorsUpTo .extending depth name).length ≤ 2 := by
    cases depth with
    | zero => exact Nat.zero_le _
    | succ depth =>
      rw [Hierarchy.ancestorsUpTo]
      cases extends_ : (Hierarchy.extending name).bind ClassHeader.superName with
      | none => exact Nat.le_succ 1
      | some parent =>
        rw [(above extends_).2]
        exact Nat.succ_le_succ (last depth)
  have grounded : Hierarchy.Grounded .extending :=
    ⟨rfl, fun name => ⟨3, Nat.lt_succ_of_le (chain 3 name)⟩,
      fun name parent extends_ => by rw [(above extends_).2]; decide⟩
  obtain ⟨loop, result⟩ := inferFrames_ends grounded "T" Method.swapping
  have begins : (inferenceOf? .extending "T" Method.swapping).isSome = true := by
    decide +kernel
  obtain ⟨⟨ctx, start⟩, begins⟩ := Option.isSome_iff_exists.mp begins
  exact ⟨grounded, ⟨ctx, start, begins, loop ctx start begins⟩,
    result fun name => (chain _ name).trans (by decide)⟩

/-- Two classes that extend each other. -/
def Hierarchy.circling (name : String) : Option ClassHeader :=
  if name = "A" then some ⟨some "B", false⟩
  else if name = "B" then some ⟨some "A", false⟩
  else none

/-- Visits behind visits. -/
theorem InferenceContext.run_add (ctx : InferenceContext) (n k : Nat) (s : InferenceState) :
    ctx.run (n + k) s = ctx.run n s >>= ctx.run k := by
  have done {s : InferenceState} (empty : s.queue = []) (n : Nat) : ctx.run n s = .ok s := by
    cases n with
    | zero => rfl
    | succ n => rw [run, empty]
  induction n generalizing s with
  | zero => rw [Nat.zero_add]; rfl
  | succ n ih =>
    rw [Nat.succ_add, run, run]
    cases first : s.queue with
    | nil => exact (done first k).symm
    | cons i queue =>
      show ctx.visit i { s with queue } >>= ctx.run (n + k) = (ctx.visit i _ >>= ctx.run n) >>= ctx.run k
      rw [bind_assoc]
      exact congrArg _ (funext ih)

/-- A loop that comes back to a state in which it has been goes on for ever. -/
theorem InferenceContext.busy_of_lasso {ctx : InferenceContext} {start : InferenceState} {n k : Nat}
    (positive : 0 < k) (again : ctx.run (n + k) start = ctx.run n start)
    (busy : ∀ fuel < n + k, ∃ s, ctx.run fuel start = .ok s ∧ s.queue ≠ []) (fuel : Nat) :
    ∃ s, ctx.run fuel start = .ok s ∧ s.queue ≠ [] := by
  induction fuel using Nat.strong_induction_on with
  | _ fuel ih =>
  by_cases few : fuel < n + k
  · exact busy fuel few
  · have earlier := ih (n + (fuel - (n + k))) (by omega)
    rw [ctx.run_add, ← again, ← ctx.run_add, Nat.add_sub_cancel' (Nat.le_of_not_lt few)] at earlier
    exact earlier

/-- Where the exchanged classes extend each other, each of them is joined to the other one in turn, and
the loop never ends. -/
theorem inference_circling : ∃ ctx start,
    inferenceOf? .circling "T" Method.swapping = some (ctx, start) ∧
      ∀ fuel, ∃ s, ctx.run fuel start = .ok s ∧ s.queue ≠ [] := by
  let ran (fuel : Nat) : Option InferenceState := do
    let (ctx, start) ← inferenceOf? .circling "T" Method.swapping
    (ctx.run fuel start).toOption
  -- the state behind the first round comes back when the arguments have been exchanged twice
  have again : ran 17 = ran 5 := by decide +kernel
  have busy : ∀ fuel < 17, (ran fuel).any (fun s => !s.queue.isEmpty) = true := by decide +kernel
  have begins : (inferenceOf? .circling "T" Method.swapping).isSome = true := by decide +kernel
  obtain ⟨⟨ctx, start⟩, begins⟩ := Option.isSome_iff_exists.mp begins
  have ran_eq (fuel : Nat) : ran fuel = (ctx.run fuel start).toOption := by
    show (inferenceOf? .circling "T" Method.swapping >>= _) = _
    rw [begins]
    rfl
  have waits (fuel : Nat) (few : fuel < 17) : ∃ s, ctx.run fuel start = .ok s ∧ s.queue ≠ [] := by
    have waits := busy fuel few
    rw [ran_eq] at waits
    cases result : ctx.run fuel start with
    | error e => rw [result] at waits; cases waits
    | ok s =>
      rw [result] at waits
      exact ⟨s, rfl, fun empty => by simp [Except.toOption, empty] at waits⟩
  have same : ctx.run 17 start = ctx.run 5 start := by
    obtain ⟨s, first, -⟩ := waits 5 (by decide)
    rw [ran_eq, ran_eq, first] at again
    cases result : ctx.run 17 start with
    | error e => rw [result] at again; cases again
    | ok s' => rw [result] at again; rw [first, Option.some.inj again]
  exact ⟨ctx, start, begins, InferenceContext.busy_of_lasso (n := 5) (k := 12) (by decide) same waits⟩

end Bytecode
