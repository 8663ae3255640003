import Bytecode.Proofs.Coding.Reachable
import Bytecode.Proofs.Verification.Assignability
import Bytecode.Proofs.Verification.Locals

/-!
# Inferred frames are sound

Wherever control can go, the types that it brings are assignable to the frame that is there
(`inferFrames_sound`): behind an instruction to its successors, before an instruction to the handlers
around it, and into the method to its first instruction.

The loop replaces frames while it runs. A replaced frame only widens, so that what was assignable to
it stays so, and its position is queued, so that what leaves it is looked at again. The invariant is
that a position with a frame waits in the queue or is `Satisfied`.
-/

namespace Bytecode

namespace InferenceState

variable {h : Hierarchy} {s t u : InferenceState} {n : Nat}

/-- The frame at a position. -/
def frameAt (s : InferenceState) (i : Nat) : Option TypeFrame :=
  s.frames[i]?.join

/-- All frames have a number of local variable slots. -/
def Sized (s : InferenceState) (n : Nat) : Prop :=
  ∀ i f, s.frameAt i = some f → f.locals.length = n

/-- What a step of the inference does: frames are widened, and a position whose frame changes is
queued. -/
structure Widened (h : Hierarchy) (s t : InferenceState) : Prop where
  size : t.frames.size = s.frames.size
  queue : s.queue ⊆ t.queue
  frame : ∀ i f, s.frameAt i = some f → ∃ g, t.frameAt i = some g ∧
    ∀ e : TypeFrame, e.Assignable h f → e.Assignable h g
  kept : ∀ i, i ∉ t.queue → t.frameAt i = s.frameAt i

namespace Widened

theorem refl (h : Hierarchy) (s : InferenceState) : s.Widened h s :=
  ⟨rfl, List.Subset.refl _, fun _ f here => ⟨f, here, fun _ assignable => assignable⟩, fun _ _ => rfl⟩

theorem trans (first : s.Widened h t) (second : t.Widened h u) : s.Widened h u where
  size := second.size.trans first.size
  queue := List.Subset.trans first.queue second.queue
  frame := by
    intro i f here
    obtain ⟨g, there, widens⟩ := first.frame i f here
    obtain ⟨k, last, widens'⟩ := second.frame i g there
    exact ⟨k, last, fun e assignable => widens' e (widens e assignable)⟩
  kept := fun i idle => (second.kept i idle).trans
    (first.kept i fun queued => idle (second.queue queued))

end Widened

end InferenceState

namespace InferenceContext

open InferenceState

variable {ctx : InferenceContext} {s s' : InferenceState} {n : Nat}

theorem frameAt_eq_none {target : Nat} (outside : ¬target < s.frames.size) :
    s.frameAt target = none := by
  rw [frameAt, Array.getElem?_eq_none (Nat.le_of_not_lt outside)]
  rfl

theorem frameAt_update_self {target : Nat} {frame : TypeFrame} (inside : target < s.frames.size) :
    (update s target frame).frameAt target = some frame := by
  show ((s.frames.setIfInBounds target (some frame))[target]?).join = _
  rw [Array.getElem?_setIfInBounds_self_of_lt inside]
  rfl

/-- A frame is replaced by a wider one, or given to a position that has none. -/
theorem update_widened {target : Nat} {frame : TypeFrame} (sized : s.Sized n)
    (size : frame.locals.length = n)
    (widens : ∀ f, s.frameAt target = some f → ∀ e : TypeFrame, e.Assignable ctx.hierarchy f →
      e.Assignable ctx.hierarchy frame) :
    s.Widened ctx.hierarchy (update s target frame) ∧ (update s target frame).Sized n ∧
      (target < s.frames.size → (update s target frame).frameAt target = some frame) := by
  have grown := update_grows s target frame
  have elsewhere (i : Nat) (other : i ≠ target) :
      (update s target frame).frameAt i = s.frameAt i := by
    show ((s.frames.setIfInBounds target (some frame))[i]?).join = _
    rw [Array.getElem?_setIfInBounds_ne other.symm]
    rfl
  have inside {i : Nat} {t : InferenceState} {f : TypeFrame} (here : t.frameAt i = some f) :
      i < t.frames.size := by
    by_contra outside
    rw [frameAt_eq_none outside] at here
    cases here
  refine ⟨⟨grown.size, grown.queue, fun i f here => ?_, fun i idle => ?_⟩, fun i f here => ?_,
    frameAt_update_self⟩
  · by_cases same : i = target
    · subst same
      exact ⟨frame, frameAt_update_self (inside here), widens f here⟩
    · exact ⟨f, (elsewhere i same).trans here, fun _ assignable => assignable⟩
  · exact elsewhere i fun same => idle (same ▸ mem_queue_update s target frame)
  · by_cases same : i = target
    · subst same
      rw [frameAt_update_self (grown.size ▸ inside here)] at here
      cases here
      exact size
    · rw [elsewhere i same] at here
      exact sized i f here

/-- A frame is carried to a position: it is assignable to the frame that is there afterwards. -/
theorem mergeInto_widened (rooted : ctx.hierarchy.Rooted) {target : Nat} {incoming : TypeFrame}
    (sized : s.Sized n) (size : incoming.locals.length = n)
    (ran : ctx.mergeInto s target incoming = .ok s') :
    s.Widened ctx.hierarchy s' ∧ s'.Sized n ∧ (target < s.frames.size →
      ∃ f, s'.frameAt target = some f ∧ incoming.Assignable ctx.hierarchy f) := by
  rw [mergeInto] at ran
  cases here : s.frames[target]?.join with
  | none =>
    rw [here] at ran
    cases ran
    have nothing (f : TypeFrame) (there : s.frameAt target = some f) :
        ∀ e : TypeFrame, e.Assignable ctx.hierarchy f → e.Assignable ctx.hierarchy incoming := by
      rw [frameAt, here] at there
      cases there
    obtain ⟨widened, sized', there⟩ := update_widened sized size nothing
    exact ⟨widened, sized', fun inside => ⟨incoming, there inside, .refl _ incoming⟩⟩
  | some existing =>
    rw [here] at ran
    obtain ⟨merged, first, ran⟩ := ok_of_bind ran
    have old := sized target existing here
    obtain ⟨widens, bound, kept⟩ := TypeFrame.merge_bounds rooted (old.trans size.symm)
      (ok_of_mapError first)
    by_cases same : merged = existing
    · rw [if_pos same] at ran
      cases ran
      exact ⟨.refl _ s, sized, fun _ => ⟨existing, here, same ▸ bound⟩⟩
    · rw [if_neg same] at ran
      cases ran
      obtain ⟨widened, sized', there⟩ := update_widened sized (kept.trans old) fun f found => by
        rw [frameAt, here] at found
        cases found
        exact widens
      exact ⟨widened, sized', fun inside => ⟨merged, there inside, bound⟩⟩

/-- Frames are carried to positions one behind the other. -/
theorem foldlM_widened {α : Type} (rooted : ctx.hierarchy.Rooted) (target : α → Nat)
    (incoming : α → TypeFrame) {l : List α} (sized : s.Sized n)
    (size : ∀ a ∈ l, (incoming a).locals.length = n)
    (ran : l.foldlM (fun s a => ctx.mergeInto s (target a) (incoming a)) s = .ok s') :
    s.Widened ctx.hierarchy s' ∧ s'.Sized n ∧ ∀ a ∈ l, target a < s.frames.size →
      ∃ f, s'.frameAt (target a) = some f ∧ (incoming a).Assignable ctx.hierarchy f := by
  induction l generalizing s with
  | nil =>
    cases ran
    exact ⟨.refl _ _, sized, fun a member => by cases member⟩
  | cons a l ih =>
    rw [List.foldlM_cons] at ran
    obtain ⟨s₁, first, ran⟩ := ok_of_bind ran
    obtain ⟨widened₁, sized₁, there⟩ := mergeInto_widened rooted sized (size a List.mem_cons_self) first
    obtain ⟨widened₂, sized₂, others⟩ :=
      ih sized₁ (fun b member => size b (List.mem_cons_of_mem _ member)) ran
    refine ⟨widened₁.trans widened₂, sized₂, fun b member inside => ?_⟩
    rcases List.mem_cons.mp member with rfl | member
    · obtain ⟨f, found, bound⟩ := there inside
      obtain ⟨g, later, widens⟩ := widened₂.frame _ f found
      exact ⟨g, later, widens _ bound⟩
    · exact others b member (widened₁.size ▸ inside)

/-- What leaves a position is assignable to the frames where control can go. -/
structure Satisfied (ctx : InferenceContext) (s : InferenceState) (i : Nat) (insn : Insn)
    (before after : TypeFrame) (targets : List Nat) : Prop where
  present : ctx.body[i]? = some insn
  frame : s.frameAt i = some before
  execute : before.execute ctx.body ctx.owner i insn.node = .ok after
  successors : ctx.successors i insn.node = .ok targets
  next : ∀ j ∈ targets, j < s.frames.size →
    ∃ f, s.frameAt j = some f ∧ after.Assignable ctx.hierarchy f
  handlers : ∀ r ∈ ctx.ranges, r.covers i = true → r.handler < s.frames.size →
    ∃ f, s.frameAt r.handler = some f ∧ (handlerFrame before r).Assignable ctx.hierarchy f

theorem Satisfied.mono {i : Nat} {insn : Insn} {before after : TypeFrame} {targets : List Nat}
    (h : ctx.Satisfied s i insn before after targets) (widened : s.Widened ctx.hierarchy s')
    (idle : i ∉ s'.queue) : ctx.Satisfied s' i insn before after targets := by
  refine ⟨h.present, (widened.kept i idle).trans h.frame, h.execute, h.successors,
    fun j member inside => ?_, fun r member covers inside => ?_⟩
  · obtain ⟨f, found, bound⟩ := h.next j member (widened.size ▸ inside)
    obtain ⟨g, later, widens⟩ := widened.frame j f found
    exact ⟨g, later, widens _ bound⟩
  · obtain ⟨f, found, bound⟩ := h.handlers r member covers (widened.size ▸ inside)
    obtain ⟨g, later, widens⟩ := widened.frame _ f found
    exact ⟨g, later, widens _ bound⟩

/-- A visit satisfies a position with a frame, unless it queues the position again. -/
theorem visit_widened (rooted : ctx.hierarchy.Rooted) {i : Nat} (size : s.frames.size = ctx.body.size)
    (sized : s.Sized n) (ran : ctx.visit i s = .ok s') :
    s.Widened ctx.hierarchy s' ∧ s'.Sized n ∧ ∀ before, s.frameAt i = some before → i ∉ s'.queue →
      ∃ insn after targets, ctx.Satisfied s' i insn before after targets := by
  cases live : s.frames[i]?.join with
  | none =>
    have same : ctx.visit i s = .ok s := by
      rw [visit, live]
      cases ctx.body[i]? <;> rfl
    rw [same] at ran
    cases ran
    refine ⟨.refl _ s, sized, fun before here => ?_⟩
    rw [frameAt, live] at here
    cases here
  | some frame =>
    have inside : i < ctx.body.size := by
      rw [← size]
      by_contra outside
      rw [Array.getElem?_eq_none (Nat.le_of_not_lt outside)] at live
      cases live
    have at_ := Array.getElem?_eq_getElem inside
    rw [visit, live, at_] at ran
    obtain ⟨after, executed, ran⟩ := ok_of_bind ran
    obtain ⟨targets, next, ran⟩ := ok_of_bind ran
    obtain ⟨s₁, first, ran⟩ := ok_of_bind ran
    have old := sized i frame live
    have executed := ok_of_mapError executed
    have kept := (TypeFrame.keeps_execute frame _ _ _ _ after executed).trans old
    obtain ⟨widened₁, sized₁, live₁⟩ :=
      foldlM_widened rooted id (fun _ => after) (by exact sized) (fun _ _ => kept) first
    obtain ⟨widened₂, sized₂, live₂⟩ := foldlM_widened rooted CoveredRange.handler
      (handlerFrame frame) sized₁ (fun _ _ => old) ran
    have widened : s.Widened ctx.hierarchy s' :=
      Widened.trans ⟨widened₁.size, widened₁.queue, widened₁.frame, widened₁.kept⟩ widened₂
    refine ⟨widened, sized₂, fun before here idle => ?_⟩
    rw [frameAt, live] at here
    cases here
    refine ⟨_, after, targets, at_, (widened.kept i idle).trans live, executed, next,
      fun j member bound => ?_, fun r member covers bound => ?_⟩
    · rw [widened.size] at bound
      obtain ⟨f, found, assignable⟩ := live₁ j member bound
      obtain ⟨g, later, widens⟩ := widened₂.frame j f found
      exact ⟨g, later, widens _ assignable⟩
    · rw [widened₂.size] at bound
      exact live₂ r (List.mem_filter.mpr ⟨member, covers⟩) bound

/-- Every position with a frame waits in the queue or is satisfied, and the types at the entry are
assignable to the first frame. -/
structure Sound (ctx : InferenceContext) (n : Nat) (entry : TypeFrame) (s : InferenceState) : Prop where
  size : s.frames.size = ctx.body.size
  sized : s.Sized n
  entry : ∃ f, s.frameAt 0 = some f ∧ entry.Assignable ctx.hierarchy f
  settled : ∀ i before, s.frameAt i = some before → i ∈ s.queue ∨
    ∃ insn after targets, ctx.Satisfied s i insn before after targets

/-- A visit keeps the invariant. -/
theorem visit_sound (rooted : ctx.hierarchy.Rooted) {entry : TypeFrame} {i : Nat} {queue : List Nat}
    (sound : ctx.Sound n entry s) (waiting : s.queue = i :: queue)
    (ran : ctx.visit i { s with queue } = .ok s') : ctx.Sound n entry s' := by
  obtain ⟨widened, sized, satisfied⟩ :=
    visit_widened (s := { s with queue }) rooted sound.size sound.sized ran
  refine ⟨widened.size.trans sound.size, sized, ?_, fun j before here => ?_⟩
  · obtain ⟨f, found, bound⟩ := sound.entry
    obtain ⟨g, later, widens⟩ := widened.frame 0 f found
    exact ⟨g, later, widens _ bound⟩
  · by_cases queued : j ∈ s'.queue
    · exact .inl queued
    -- The frame of a position that is not queued has not changed.
    have unchanged := here
    rw [widened.kept j queued] at unchanged
    rcases sound.settled j before unchanged with earlier | ⟨insn, after, targets, done⟩
    · rw [waiting] at earlier
      rcases List.mem_cons.mp earlier with rfl | earlier
      · exact .inr (satisfied before unchanged queued)
      · exact .inl (widened.queue earlier)
    · exact .inr ⟨insn, after, targets, Satisfied.mono (s := { s with queue })
        ⟨done.present, done.frame, done.execute, done.successors, done.next, done.handlers⟩
        widened queued⟩

end InferenceContext

/-- The frame before a node, unless it cannot be reached. -/
def MethodFrames.frameAt (frames : MethodFrames) (i : Nat) : Option TypeFrame :=
  frames.frames[i]?.join

/-- Wherever control can go, the types that it brings are assignable to the frame there. -/
structure MethodFrames.Sound (frames : MethodFrames) (h : Hierarchy) (owner : String) (m : Method) :
    Prop where
  entry : m.body.isEmpty = false → ∃ descriptor f, m.parseDescriptor = .ok descriptor ∧
    frames.frameAt 0 = some f ∧
    (m.entryFrame owner descriptor.arguments frames.maxLocals).Assignable h f
  next : ∀ i before, frames.frameAt i = some before → ∃ insn after targets,
    m.body[i]? = some insn ∧ before.execute m.body owner i insn.node = .ok after ∧
    m.body.successors m.body.lastLabels (· == .always) i insn.node = .ok targets ∧
    ∀ j ∈ targets, ∃ f, frames.frameAt j = some f ∧ after.Assignable h f
  handlers : ∀ r ∈ m.exceptions, ∀ range, CoveredRange.of m.body.lastLabels r = some range →
    ∀ i before, frames.frameAt i = some before → range.covers i = true →
      ∃ f, frames.frameAt range.handler = some f ∧
        (InferenceContext.handlerFrame before range).Assignable h f

theorem Method.length_entryFrame (m : Method) (owner : String) (arguments : List Descriptor)
    (n : Nat) : (m.entryFrame owner arguments n).locals.length = n := by
  rw [entryFrame]
  simp only [List.length_append, List.length_take, List.length_replicate]
  omega

/-- The frames that are inferred for a method are sound. -/
theorem inferFrames_sound {h : Hierarchy} {owner : String} {m : Method} {frames : MethodFrames}
    (rooted : h.Rooted) (ran : inferFrames h owner m = .ok frames) : frames.Sound h owner m := by
  cases some_ : m.body.isEmpty with
  | true =>
    -- Without a body there are no frames.
    have none_ (i : Nat) : frames.frameAt i = none := by
      rw [inferFrames] at ran
      obtain ⟨descriptor, -, ran⟩ := ok_of_bind ran
      simp only [some_, if_true] at ran
      cases ran
      rfl
    refine ⟨by simp [some_], fun i before here => ?_, fun r _ range _ i before here => ?_⟩
    · rw [none_] at here
      cases here
    · rw [none_] at here
      cases here
  | false =>
    obtain ⟨descriptor, ranges, fuel, final, parsed, covered, loop, idle, same, -⟩ :=
      run_of_inferFrames some_ ran
    let entry := m.entryFrame owner descriptor.arguments frames.maxLocals
    have entered (i : Nat) := InferenceContext.entered m.body.size i entry (Body.size_pos some_)
    let ctx : InferenceContext := ⟨h, owner, m.signature, m.body, m.body.lastLabels, ranges⟩
    have begun : ctx.Sound frames.maxLocals entry
        { frames := (Array.replicate m.body.size none).setIfInBounds 0 (some entry)
          queue := [0] } := by
      refine ⟨by simp [ctx], fun i f here => ?_, ⟨entry, entered 0, .refl h entry⟩,
        fun i before here => .inl ?_⟩
      · rw [InferenceState.frameAt, entered] at here
        split at here
        · cases here
          exact m.length_entryFrame _ _ _
        · cases here
      · rw [InferenceState.frameAt, entered] at here
        split at here
        · rename_i zero
          rw [zero]
          exact List.mem_singleton_self 0
        · cases here
    have sound := InferenceContext.run_induction (I := ctx.Sound frames.maxLocals entry)
      (InferenceContext.visit_sound rooted) begun loop
    have done (i : Nat) (before : TypeFrame) (here : frames.frameAt i = some before) :
        ∃ insn after targets, ctx.Satisfied final i insn before after targets := by
      rw [MethodFrames.frameAt, same] at here
      exact (sound.settled i before here).resolve_left (by rw [idle]; exact List.not_mem_nil)
    have size : final.frames.size = m.body.size := sound.size
    refine ⟨fun _ => ?_, fun i before here => ?_, fun r member range known i before here covers => ?_⟩
    · obtain ⟨f, found, bound⟩ := sound.entry
      exact ⟨descriptor, f, parsed, by rw [MethodFrames.frameAt, same]; exact found, bound⟩
    · obtain ⟨insn, after, targets, satisfied⟩ := done i before here
      have goes := InferenceContext.of_successors satisfied.successors
      refine ⟨insn, after, targets, satisfied.present, satisfied.execute, goes, fun j target => ?_⟩
      rw [MethodFrames.frameAt, same]
      exact satisfied.next j target (size ▸ Body.successors_lt goes j target)
    · obtain ⟨insn, after, targets, satisfied⟩ := done i before here
      obtain ⟨range', listed, there⟩ := exists_of_mem_elements (mapM_eq_some.mp covered) member
      rw [known] at there
      cases there
      rw [MethodFrames.frameAt, same]
      obtain ⟨start, -, there⟩ := Option.bind_eq_some_iff.mp known
      obtain ⟨stop, -, there⟩ := Option.bind_eq_some_iff.mp there
      obtain ⟨handler, handles, there⟩ := Option.bind_eq_some_iff.mp there
      cases there
      exact satisfied.handlers _ listed covers (size ▸ Body.lastLabels_lt handles)

/-- A method with a loop that is entered with a null reference and repeated with a string. -/
def Method.looping : Method where
  id := ⟨0⟩
  access := 8
  name := "A"
  descriptor := "()V"
  maxLocals := 1
  body := #[⟨⟨0⟩, .simple 0x01⟩, ⟨⟨1⟩, .var Opcode.astore 0⟩, ⟨⟨2⟩, .label ⟨0⟩⟩,
    ⟨⟨3⟩, .constant (.string "a")⟩, ⟨⟨4⟩, .var Opcode.astore 0⟩, ⟨⟨5⟩, .jump Opcode.goto ⟨0⟩⟩]

theorem inferFrames_sound_looping : Hierarchy.Rooted (fun _ => none) ∧
    ∃ frames, inferFrames (fun _ => none) "A" Method.looping = .ok frames ∧
      frames.frameAt 2 = some ⟨[.object "java/lang/String"], []⟩ ∧
      frames.Sound (fun _ => none) "A" Method.looping := by
  have found : ((inferFrames (fun _ => none) "A" Method.looping).toOption.any fun frames =>
      frames.frameAt 2 == some ⟨[.object "java/lang/String"], []⟩) = true := by
    rw [inferFrames, Body.ofTable_labelTable]
    decide +kernel
  cases ran : inferFrames (fun _ => none) "A" Method.looping with
  | error cause => rw [ran] at found; cases found
  | ok frames =>
    rw [ran] at found
    exact ⟨rfl, frames, rfl, beq_iff_eq.mp found, inferFrames_sound rfl ran⟩
end Bytecode
