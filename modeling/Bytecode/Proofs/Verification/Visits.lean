import Bytecode.Proofs.Analysis.Visits
import Bytecode.Proofs.Verification.Locals
import Bytecode.Proofs.Verification.Soundness

/-!
# The steps of an inference

The lemmas here take a successful visit apart: `visit_eq_ok` says of which simulation and which
carryings it consists, and `mergeInto_cases` what carrying a frame to a position does. An invariant
that does not look at the queue is then proved for one carrying at a time.

The first such invariant is the room of inferred frames: each of them has as many local variable slots
as the method, and neither these nor the words on the stack are more than 16 bits can count
(`inferFrames_room`).
-/

namespace Bytecode.InferenceContext

variable {ctx : InferenceContext} {s s' : InferenceState} {i target : Nat} {incoming : TypeFrame}

/-- The simulation and the carryings of a visit of a position with a frame. -/
structure Visited (ctx : InferenceContext) (s s' : InferenceState) (i : Nat) (insn : Insn)
    (before after : TypeFrame) (targets : List Nat) (between : InferenceState) : Prop where
  present : ctx.body[i]? = some insn
  frame : s.frameAt i = some before
  execute : before.execute ctx.body ctx.owner i insn.node = .ok after
  successors : ctx.body.successors ctx.positions (· == .always) i insn.node = .ok targets
  onward : targets.foldlM (fun s target => ctx.mergeInto s target after)
    { s with maxStack := max s.maxStack (max before.stack.length after.stack.length) } = .ok between
  handlers : (ctx.ranges.filter (·.covers i)).foldlM
    (fun s range => ctx.mergeInto s range.handler (handlerFrame before range)) between = .ok s'

/-- A visit looks at a position with a frame, or does nothing. -/
theorem visit_eq_ok (ran : ctx.visit i s = .ok s') :
    (∃ insn before after targets between, ctx.Visited s s' i insn before after targets between) ∨
      s' = s ∧ (ctx.body[i]? = none ∨ s.frameAt i = none) := by
  cases present : ctx.body[i]? with
  | none =>
    rw [visit, present] at ran
    cases ran
    exact .inr ⟨rfl, .inl rfl⟩
  | some insn =>
    cases here : s.frames[i]?.join with
    | none =>
      rw [visit, present, here] at ran
      cases ran
      exact .inr ⟨rfl, .inr here⟩
    | some before =>
      rw [visit, present, here] at ran
      obtain ⟨after, executed, ran⟩ := ok_of_bind ran
      obtain ⟨targets, next, ran⟩ := ok_of_bind ran
      obtain ⟨between, onward, ran⟩ := ok_of_bind ran
      exact .inl ⟨insn, before, after, targets, between, present, here, ok_of_mapError executed,
        of_successors next, onward, ran⟩

/-- A frame behind an update was there before, or it is the one that was put there. -/
theorem frameAt_update {frame f : TypeFrame} {j : Nat}
    (found : (update s target frame).frameAt j = some f) :
    s.frameAt j = some f ∨ j = target ∧ f = frame := by
  change (s.frames.setIfInBounds target (some frame))[j]?.join = some f at found
  rw [Array.getElem?_setIfInBounds] at found
  split at found
  · next same =>
    split at found
    · cases found
      exact .inr ⟨same.symm, rfl⟩
    · cases found
  · exact .inl found

/-- A frame that is carried to a position becomes the frame there, or it is joined with the one that is
there; the position is queued unless that leaves the frame as it was. -/
theorem mergeInto_eq_ok (ran : ctx.mergeInto s target incoming = .ok s') :
    s.frameAt target = none ∧ s' = update s target incoming ∨
      ∃ existing merged, s.frameAt target = some existing ∧
        existing.merge ctx.hierarchy incoming = .ok merged ∧
        (merged = existing ∧ s' = s ∨ merged ≠ existing ∧ s' = update s target merged) := by
  rw [mergeInto] at ran
  cases here : s.frames[target]?.join with
  | none =>
    rw [here] at ran
    cases ran
    exact .inl ⟨here, rfl⟩
  | some existing =>
    rw [here] at ran
    obtain ⟨merged, joined, ran⟩ := ok_of_bind ran
    refine .inr ⟨existing, merged, here, ok_of_mapError joined, ?_⟩
    by_cases same : merged = existing
    · rw [if_pos same] at ran
      cases ran
      exact .inl ⟨same, rfl⟩
    · rw [if_neg same] at ran
      cases ran
      exact .inr ⟨same, rfl⟩

/-- A frame that is there after a frame was carried to a position was there before, or it stands at
the position and is the carried frame or its join with the frame that was there. -/
theorem mergeInto_cases (ran : ctx.mergeInto s target incoming = .ok s') :
    s'.maxStack = s.maxStack ∧ ∀ j f, s'.frameAt j = some f → s.frameAt j = some f ∨
      j = target ∧ (f = incoming ∨ ∃ existing, s.frameAt target = some existing ∧
        existing.merge ctx.hierarchy incoming = .ok f) := by
  rcases mergeInto_eq_ok ran with
    ⟨-, rfl⟩ | ⟨existing, merged, here, joined, ⟨-, rfl⟩ | ⟨-, rfl⟩⟩
  · exact ⟨rfl, fun j f found => (frameAt_update found).imp_right (And.imp_right .inl)⟩
  · exact ⟨rfl, fun j f found => .inl found⟩
  · refine ⟨rfl, fun j f found => (frameAt_update found).imp_right (And.imp_right fun same => ?_)⟩
    exact .inr ⟨existing, here, same ▸ joined⟩

/-- A visit keeps what the carrying of a frame to a successor and the carrying of a frame to a handler
keep. -/
theorem Visited.invariant {I : InferenceState → Prop} {insn : Insn} {before after : TypeFrame}
    {targets : List Nat} {between : InferenceState}
    (visited : ctx.Visited s s' i insn before after targets between)
    (start : I { s with maxStack := max s.maxStack (max before.stack.length after.stack.length) })
    (onward : ∀ target ∈ targets, ∀ s s', I s → ctx.mergeInto s target after = .ok s' → I s')
    (handled : ∀ range ∈ ctx.ranges, range.covers i = true → ∀ s s', I s →
      ctx.mergeInto s range.handler (handlerFrame before range) = .ok s' → I s') : I s' := by
  have between_ := Analysis.foldlM_invariant onward start visited.onward
  refine Analysis.foldlM_invariant (fun range member => ?_) between_ visited.handlers
  obtain ⟨listed, covers⟩ := List.mem_filter.mp member
  exact handled range listed covers

/-- A visit makes room for the frames around an instruction. -/
theorem Visited.maxStack {insn : Insn} {before after : TypeFrame} {targets : List Nat}
    {between : InferenceState} (visited : ctx.Visited s s' i insn before after targets between) :
    s'.maxStack = max s.maxStack (max before.stack.length after.stack.length) :=
  visited.invariant (I := fun t => t.maxStack = max s.maxStack _) rfl
    (fun _ _ _ _ same carried => (mergeInto_cases carried).1.trans same)
    (fun _ _ _ _ _ same carried => (mergeInto_cases carried).1.trans same)

/-- The room never shrinks. -/
theorem maxStack_le_of_visit (ran : ctx.visit i s = .ok s') : s.maxStack ≤ s'.maxStack := by
  rcases visit_eq_ok ran with ⟨insn, before, after, targets, between, visited⟩ | ⟨rfl, -⟩
  · rw [visited.maxStack]
    exact Nat.le_max_left _ _
  · exact Nat.le_refl _

/-- GOTO_W is not simulated, so that both analyses see the same control flow behind what is. -/
theorem successors_eq_of_execute {before after : TypeFrame} {body : Body} {owner : String}
    {node : Node} (positions : LabelPositions)
    (executed : before.execute body owner i node = .ok after) :
    body.successors positions (· == .always) i node =
      body.successors positions Analysis.Flow.always i node := by
  have same : node.fallsThrough (· == .always) = node.fallsThrough Analysis.Flow.always := by
    cases node with
    | jump op target =>
      change before.executeJump op = .ok after at executed
      rw [TypeFrame.executeJump] at executed
      rw [Node.fallsThrough, Node.fallsThrough]
      cases form : JumpForm.ofOpcode op with
      | alwaysWide => rw [form] at executed; cases executed
      | _ => rfl
    | _ => rfl
  rw [Body.successors, Body.successors, same]

end Bytecode.InferenceContext

/-! ## The room of inferred frames -/

namespace Bytecode

theorem TypeFrame.length_mergeSlots (h : Hierarchy) (old incoming : List VerificationType) :
    (mergeSlots h old incoming).length = old.length := by
  rw [mergeSlots, List.length_append, List.length_map, List.length_zip, List.length_drop]
  omega

/-- Joining another frame into a frame changes the types in it, but not how many there are. -/
theorem TypeFrame.room_of_merge {h : Hierarchy} {f incoming merged : TypeFrame}
    (ran : f.merge h incoming = .ok merged) :
    merged.locals.length = f.locals.length ∧ merged.stack.length = f.stack.length := by
  rw [TypeFrame.merge] at ran
  split at ran
  · cases ran
  · cases ran
    exact ⟨length_mergeSlots h _ _, length_mergeSlots h _ _⟩

/-- A node needs no more slots than 16 bits can count. -/
theorem Node.slotsNeeded_le (node : Node) : node.slotsNeeded ≤ 65535 := by
  cases node with
  | var op slot => exact Nat.min_le_right _ _
  | increment slot amount => exact Nat.min_le_right _ _
  | _ => exact Nat.zero_le _

theorem Body.slotsNeeded_le (body : Body) : body.slotsNeeded ≤ 65535 := by
  rw [Body.slotsNeeded, ← Array.foldl_toList]
  suffices most : ∀ (insns : List Insn) (n : Nat), n ≤ 65535 →
      insns.foldl (fun n insn => max n insn.node.slotsNeeded) n ≤ 65535 from
    most _ 0 (Nat.zero_le _)
  intro insns
  induction insns with
  | nil => exact fun n small => small
  | cons insn insns ih => exact fun n small => ih _ (Nat.max_le.mpr ⟨small, insn.node.slotsNeeded_le⟩)

namespace InferenceContext

variable {ctx : InferenceContext} {s s' : InferenceState} {i slots : Nat}

/-- The frames of an inference have a number of local variable slots, and their stacks are as deep as
has been noted. The stack at the entry of a handler is not noted. -/
def Roomy (slots : Nat) (s : InferenceState) : Prop :=
  ∀ j f, s.frameAt j = some f → f.locals.length = slots ∧ f.stack.length ≤ max 1 s.maxStack

theorem Roomy.mergeInto {target : Nat} {incoming : TypeFrame} (roomy : Roomy slots s)
    (locals_ : incoming.locals.length = slots) (stack : incoming.stack.length ≤ max 1 s.maxStack)
    (ran : ctx.mergeInto s target incoming = .ok s') : Roomy slots s' := by
  obtain ⟨same, frames⟩ := mergeInto_cases ran
  intro j f found
  rw [same]
  rcases frames j f found with before | ⟨-, rfl | ⟨existing, here, joined⟩⟩
  · exact roomy j f before
  · exact ⟨locals_, stack⟩
  · obtain ⟨locals', stack'⟩ := TypeFrame.room_of_merge joined
    rw [locals', stack']
    exact roomy target existing here

/-- A visit makes room for the frames that it carries. -/
theorem Roomy.visit (roomy : Roomy slots s) (ran : ctx.visit i s = .ok s') : Roomy slots s' := by
  rcases visit_eq_ok ran with ⟨insn, before, after, targets, between, visited⟩ | ⟨rfl, -⟩
  · obtain ⟨locals_, -⟩ := roomy i before visited.frame
    have kept := (TypeFrame.keeps_execute before _ _ _ _ after visited.execute).trans locals_
    -- All carryings of the visit come behind the one place where the room is noted.
    let noted := max s.maxStack (max before.stack.length after.stack.length)
    have deep : after.stack.length ≤ noted :=
      Nat.le_trans (Nat.le_max_right _ _) (Nat.le_max_right _ _)
    refine (visited.invariant (I := fun t => Roomy slots t ∧ t.maxStack = noted)
      ⟨fun j f found => ?_, rfl⟩ (fun target _ t t' both carried => ?_)
      fun range _ _ t t' both carried => ?_).1
    · obtain ⟨locals', stack'⟩ := roomy j f found
      refine ⟨locals', Nat.le_trans stack' ?_⟩
      show max 1 s.maxStack ≤ max 1 noted
      omega
    · refine ⟨both.1.mergeInto kept ?_ carried, (mergeInto_cases carried).1.trans both.2⟩
      rw [both.2]
      exact Nat.le_trans deep (Nat.le_max_right _ _)
    · have handled : (handlerFrame before range).locals.length = slots := locals_
      exact ⟨both.1.mergeInto handled (Nat.le_max_left 1 _) carried,
        (mergeInto_cases carried).1.trans both.2⟩
  · exact roomy

end InferenceContext

theorem maxLocals_of_inferFrames {h : Hierarchy} {owner : String} {m : Method} {frames : MethodFrames}
    (ran : inferFrames h owner m = .ok frames) : frames.maxLocals ≤ 65535 := by
  have bound (descriptor : MethodDescriptor) :
      max (max m.maxLocals.toNat (descriptor.slots m.isStatic).toNat) m.body.slotsNeeded ≤ 65535 := by
    have := m.maxLocals.toNat_lt
    have := (descriptor.slots m.isStatic).toNat_lt
    have := m.body.slotsNeeded_le
    omega
  rw [inferFrames] at ran
  obtain ⟨descriptor, -, ran⟩ := ok_of_bind ran
  dsimp only at ran
  split at ran
  · cases ran
    exact bound descriptor
  · split at ran
    · cases ran
    · obtain ⟨final, -, ran⟩ := ok_of_bind ran
      split at ran
      · cases ran
      · split at ran
        · cases ran
        · cases ran
          exact bound descriptor

/-- What is in the frames that are inferred for a method can be counted with 16 bits. -/
theorem inferFrames_room {h : Hierarchy} {owner : String} {m : Method} {frames : MethodFrames}
    (ran : inferFrames h owner m = .ok frames) {i : Nat} {f : TypeFrame}
    (here : frames.frames[i]?.join = some f) : f.locals.length ≤ 65535 ∧ f.stack.length ≤ 65535 := by
  have most := maxLocals_of_inferFrames ran
  cases some_ : m.body.isEmpty with
  | true =>
    rw [inferFrames] at ran
    obtain ⟨descriptor, -, ran⟩ := ok_of_bind ran
    simp only [some_, if_true] at ran
    cases ran
    cases here
  | false =>
    obtain ⟨descriptor, ranges, fuel, final, -, -, loop, -, same, -, short⟩ :=
      run_of_inferFrames some_ ran
    have begun : InferenceContext.Roomy frames.maxLocals
        { frames := (Array.replicate m.body.size none).setIfInBounds 0
            (some (m.entryFrame owner descriptor.arguments frames.maxLocals)), queue := [0] } := by
      intro j g found
      rw [InferenceState.frameAt, InferenceContext.entered _ _ _ (Body.size_pos some_)] at found
      split at found
      · cases found
        exact ⟨m.length_entryFrame _ _ _, Nat.zero_le _⟩
      · cases found
    have roomy := InferenceContext.run_induction (I := InferenceContext.Roomy frames.maxLocals)
      (fun {s} {_} {_} {queue} kept _ visited =>
        have waiting : InferenceContext.Roomy frames.maxLocals { s with queue } := kept
        waiting.visit visited) begun loop
    rw [same] at here
    obtain ⟨locals_, stack⟩ := roomy i f here
    omega

end Bytecode
