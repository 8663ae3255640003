import Bytecode.Proofs.Analysis.Paths
import Bytecode.Proofs.Verification.Visits

/-!
# Both computations of frames follow the control flow

The dataflow analysis and the inference of type frames give a frame to the same positions: to those
that control reaches from the first one along the edges of the control flow and into handlers
(`frameAt_iff_reached` and `inferredAt_iff_reached`).

That reached positions have frames is read off the finished frames, which are closed under control
flow. For the other direction every frame that a loop has at any time stands at a reached position,
which a visit keeps because it carries frames along edges only.
-/

namespace Bytecode

open Machine (Code codeOf?)
open Tokens (Edge)

/-- The positions that control reaches from the first one. -/
inductive Reachable (code : Code) : Nat → Prop
  | first (nonempty : 0 < code.body.size) : Reachable code 0
  | edge {i target : Nat} {insn : Insn} (before : Reachable code i)
      (at_position : code.body[i]? = some insn) (edge : Edge code i insn.node target) :
      Reachable code target
  | handler {i : Nat} {range : CoveredRange} (before : Reachable code i) (member : range ∈ code.ranges)
      (covers : range.covers i = true) : Reachable code range.handler

/-- Control reaches a position of a method. -/
def Method.Reaches (m : Method) (i : Nat) : Prop :=
  ∃ code, codeOf? m = some code ∧ Reachable code i

/-- A set of positions that has the first one and is closed under control flow has all that control
reaches. -/
theorem Reachable.closed {code : Code} {P : Nat → Prop} (first : 0 < code.body.size → P 0)
    (edge : ∀ i target insn, P i → code.body[i]? = some insn → Edge code i insn.node target → P target)
    (handler : ∀ i range, P i → range ∈ code.ranges → range.covers i = true → P range.handler)
    {i : Nat} (h : Reachable code i) : P i := by
  induction h with
  | first nonempty => exact first nonempty
  | edge _ at_position goes ih => exact edge _ _ _ ih at_position goes
  | handler _ member covers ih => exact handler _ _ ih member covers

/-- A method without nodes has no code that control could reach. -/
theorem Method.not_reaches_of_isEmpty {m : Method} (empty : m.body.isEmpty = true) (i : Nat) :
    ¬m.Reaches i := by
  rintro ⟨code, found, reachable⟩
  obtain ⟨ranges, -, rfl⟩ := Option.map_eq_some_iff.mp found
  have none_ : m.body = #[] := by simpa using empty
  refine Reachable.closed (P := fun _ => False) (fun nonempty => ?_) (fun _ _ _ h _ _ => h)
    (fun _ _ h _ _ => h) reachable
  simp [none_] at nonempty

namespace Analysis

section

variable {code : Code} {flow flow' : Flow}

/-- Every frame of a flow stands at a reached position. -/
def Flow.Reached (code : Code) (flow : Flow) : Prop :=
  ∀ i f, flow.at i = some f → Reachable code i

/-- Carrying a frame to a reached position. -/
theorem Flow.Reached.mergeInto {target : Nat} {incoming : Frame} (h : flow.Reached code)
    (reached : Reachable code target) (run : Flow.mergeInto flow target incoming = .ok flow') :
    flow'.Reached code := by
  obtain ⟨g, frames, -⟩ := Flow.mergeInto_cases run
  intro i f found
  rcases Flow.at_of_set frames found with ⟨rfl, -⟩ | old
  · exact reached
  · exact h i f old

/-- A visit carries frames along edges. -/
theorem Flow.Reached.visit {i : Nat} (h : flow.Reached code)
    (run : Flow.visit (contextOf code) i flow = .ok flow') : flow'.Reached code := by
  rcases Flow.visit_eq_ok run with ⟨insn, before, at_position, there, run⟩ | ⟨rfl, -⟩
  · obtain ⟨after, store, targets, between, fail, -, successors, onward, handled⟩ :=
      Flow.visitNode_eq_ok run
    have here := h i before there
    have onward' : between.Reached code := by
      refine foldlM_invariant (I := Flow.Reached code) ?_ (by exact h) onward
      intro target member flow flow' reached carried
      have edge := (mem_successors_iff successors target).mp member
      exact reached.mergeInto (here.edge at_position edge) carried
    refine foldlM_invariant (I := Flow.Reached code) ?_ onward' handled
    intro range member flow flow' reached carried
    obtain ⟨listed, covers⟩ := List.mem_filter.mp member
    obtain ⟨entry, store, -, carried⟩ := Flow.visitHandler_eq_ok carried
    have reached : Flow.Reached code { flow with store } := reached
    exact reached.mergeInto (here.handler listed covers) carried
  · exact h

/-- The whole loop carries frames along edges. -/
theorem Flow.Reached.run {fuel : Nat} (h : flow.Reached code)
    (run : Flow.run (contextOf code) fuel flow = .ok flow') : flow'.Reached code := by
  induction fuel generalizing flow with
  | zero =>
    cases run
    exact h
  | succ fuel ih =>
    rw [Flow.run] at run
    split at run
    · cases run
      exact h
    · next i queue waiting =>
      obtain ⟨next, visited, rest⟩ := ok_of_bind run
      have h : Flow.Reached code { flow with queue } := h
      exact ih (h.visit visited) rest

end

/-- **The analysis has a frame exactly where control reaches.** -/
theorem frameAt_iff_reached {owner : String} {m : Method} {r : Frames}
    (analyzed : analyze owner m = .ok r) (i : Nat) : (r.frameAt i).isSome ↔ m.Reaches i := by
  by_cases nonempty : 0 < m.body.size
  · obtain ⟨d, ranges, made, fuel, flow, parsed, covered, closed, valid, run, done, frames, -⟩ :=
      loop_of_analyze analyzed nonempty fun _ _ _ => True.intro
    let code : Code := ⟨m.body, m.body.lastLabels, ranges⟩
    have found : codeOf? m = some code := by rw [codeOf?, covered]; rfl
    obtain ⟨made', valid'⟩ := Flow.run_valid closed valid run
    have fixpoint := frames ▸ valid'.postFixpoint done
    constructor
    · intro live
      obtain ⟨f, there⟩ := Option.isSome_iff_exists.mp live
      have begun : (Flow.start m.body (entryOf owner m d)).Reached code := by
        intro j g there
        rw [(Flow.at_start nonempty there).1]
        exact .first nonempty
      exact ⟨code, found, begun.run run i f (frames ▸ there)⟩
    · rintro ⟨code', found', reached⟩
      obtain rfl : code = code' := Option.some.inj (found.symm.trans found')
      refine Reachable.closed (P := fun i => (r.frameAt i).isSome) ?_ ?_ ?_ reached
      · intro _
        obtain ⟨f, there, -⟩ := fixpoint.entry
        rw [there]
        rfl
      · intro j target insn live at_position edge
        obtain ⟨f, there⟩ := Option.isSome_iff_exists.mp live
        obtain @⟨insn', _, _, _, _, _, at_position', -, -, -, successors, arrives, -, -⟩ :=
          fixpoint.settled j f there
        obtain rfl : insn = insn' := Option.some.inj (at_position.symm.trans at_position')
        have member := (mem_successors_iff (show code.body.successors code.positions _ j insn.node =
          .ok _ from successors) target).mpr edge
        obtain ⟨g, there, -⟩ := arrives target member
        rw [there]
        rfl
      · intro j range live member covers
        obtain ⟨f, there⟩ := Option.isSome_iff_exists.mp live
        obtain @⟨_, _, _, _, _, _, -, -, -, -, -, -, handled, -⟩ := fixpoint.settled j f there
        obtain ⟨_, _, _, -, g, there, -⟩ := handled range member covers
        rw [there]
        rfl
  · have empty : m.body.isEmpty = true := by simpa using nonempty
    refine iff_of_false ?_ (m.not_reaches_of_isEmpty empty i)
    rw [analyze] at analyzed
    obtain ⟨d, -, analyzed⟩ := ok_of_bind analyzed
    simp only [empty, if_true] at analyzed
    cases analyzed
    simp [Frames.frameAt]

/-- A property that frames pass on to larger ones holds of all frames of an analysis if the frame at the entry
has it, and if it goes from a frame before an instruction to the one behind it and to the entries of handlers. -/
theorem frameAt_inherits {owner : String} {m : Method} {r : Frames} {d : MethodDescriptor} {P : Frame → Prop}
    (analyzed : analyze owner m = .ok r) (parsed : MethodDescriptor.parse m.descriptor = .ok d)
    (mono : ∀ {f g : Frame}, P f → f.Le g → P g) (entry : P (entryOf owner m d).1)
    (executes : ∀ {i : Nat} {insn : Insn} {f g : Frame} {s s' : Store}, m.body[i]? = some insn →
      r.frameAt i = some f → P f → f.execute m.body i insn s = .ok (g, s') → P g)
    (handles : ∀ {f : Frame} {v : Value}, P f → P { f with stack := [v] }) {i : Nat} {f : Frame}
    (here : r.frameAt i = some f) : P f := by
  obtain ⟨code, found, reached⟩ := (frameAt_iff_reached analyzed i).mp (by rw [here]; rfl)
  have nonempty : 0 < m.body.size := by
    by_contra empty
    exact m.not_reaches_of_isEmpty (by simpa using empty) i ⟨code, found, reached⟩
  obtain ⟨d', ranges, made, fuel, flow, parsed', covered, closed, valid, run, done, frames, -⟩ :=
    loop_of_analyze analyzed nonempty fun _ _ _ => True.intro
  obtain rfl : d = d' := Except.ok.inj (parsed.symm.trans parsed')
  obtain rfl : (⟨m.body, m.body.lastLabels, ranges⟩ : Code) = code := by
    rw [codeOf?, covered] at found
    exact Option.some.inj found
  obtain ⟨made', valid'⟩ := Flow.run_valid closed valid run
  have fixpoint := frames ▸ valid'.postFixpoint done
  have arrived {i : Nat} {f : Frame} (holds : P f) (arrives : Arrives r.frameAt i f) :
      ∃ g, r.frameAt i = some g ∧ P g := by
    obtain ⟨g, there, below⟩ := arrives
    exact ⟨g, there, mono holds below⟩
  obtain ⟨g, there, holds⟩ : ∃ g, r.frameAt i = some g ∧ P g := by
    refine Reachable.closed (P := fun i => ∃ g, r.frameAt i = some g ∧ P g)
      (fun _ => arrived entry fixpoint.entry) ?_ ?_ reached
    · rintro j target insn ⟨f, there, holds⟩ at_position edge
      obtain @⟨insn', _, _, after, _, _, at_position', -, -, executed, successors, arrives, -, -⟩ :=
        fixpoint.settled j f there
      obtain rfl : insn = insn' := Option.some.inj (at_position.symm.trans at_position')
      exact arrived (executes at_position there holds executed)
        (arrives target ((mem_successors_iff successors target).mpr edge))
    · rintro j range ⟨f, there, holds⟩ member covers
      obtain @⟨_, _, _, _, _, _, -, -, -, -, -, -, handled, -⟩ := fixpoint.settled j f there
      obtain ⟨_, entry, _, entered, arrives⟩ := handled range member covers
      obtain ⟨v, -, -, rfl⟩ := handlerFrame_eq_ok entered
      exact arrived (handles holds) arrives
  obtain rfl : g = f := Option.some.inj (there.symm.trans here)
  exact holds

end Analysis

namespace InferenceContext

/-- The context in which frames are inferred for a code. -/
def ofCode (h : Hierarchy) (owner signature : String) (code : Code) : InferenceContext :=
  ⟨h, owner, signature, code.body, code.positions, code.ranges⟩

variable {code : Code} {h : Hierarchy} {owner signature : String} {s s' : InferenceState}

/-- Every frame of an inference stands at a reached position. -/
def Reached (code : Code) (s : InferenceState) : Prop :=
  ∀ i f, s.frameAt i = some f → Reachable code i

/-- A visit carries frames along edges. -/
theorem visit_reached {i : Nat} (reached : Reached code s)
    (ran : (ofCode h owner signature code).visit i s = .ok s') : Reached code s' := by
  have carry {target : Nat} {incoming : TypeFrame} {s s' : InferenceState}
      (reachable : Reachable code target) (reached : Reached code s)
      (ran : (ofCode h owner signature code).mergeInto s target incoming = .ok s') :
      Reached code s' := by
    intro j f found
    rcases (mergeInto_cases ran).2 j f found with old | ⟨rfl, -⟩
    · exact reached j f old
    · exact reachable
  rcases visit_eq_ok ran with ⟨insn, before, after, targets, between, visited⟩ | ⟨rfl, -⟩
  · have here := reached i before visited.frame
    refine visited.invariant (I := Reached code) reached ?_ ?_
    · intro target member s s' reached carried
      have successors : code.body.successors code.positions Analysis.Flow.always i insn.node =
          .ok targets := successors_eq_of_execute _ visited.execute ▸ visited.successors
      have edge := (Analysis.mem_successors_iff successors target).mp member
      exact carry (here.edge visited.present edge) reached carried
    · intro range member covers s s' reached carried
      exact carry (here.handler member covers) reached carried
  · exact reached

end InferenceContext

/-- Where control goes on although all jumps are known that always jump, it goes on where fewer are. -/
theorem Node.fallsThrough_mono {node : Node}
    (h : node.fallsThrough Analysis.Flow.always = true) :
    node.fallsThrough (· == .always) = true := by
  cases node with
  | jump op target =>
    rw [fallsThrough, Bool.not_eq_true'] at h
    rw [fallsThrough, Bool.not_eq_true']
    cases form : JumpForm.ofOpcode op with
    | always => rw [form] at h; cases h
    | _ => rfl
  | _ => exact h

/-- **The inference has a frame exactly where control reaches.** -/
theorem inferredAt_iff_reached {h : Hierarchy} {owner : String} {m : Method} {frames : MethodFrames}
    (inferred : inferFrames h owner m = .ok frames) (i : Nat) :
    (frames.frameAt i).isSome ↔ m.Reaches i := by
  cases empty : m.body.isEmpty with
  | true =>
    refine iff_of_false ?_ (m.not_reaches_of_isEmpty empty i)
    rw [inferFrames] at inferred
    obtain ⟨descriptor, -, inferred⟩ := ok_of_bind inferred
    simp only [empty, if_true] at inferred
    cases inferred
    simp [MethodFrames.frameAt]
  | false =>
    have positive := Body.size_pos empty
    have closed := inferFrames_closed empty inferred
    obtain ⟨descriptor, ranges, fuel, final, -, covered, loop, -, same, -⟩ :=
      run_of_inferFrames empty inferred
    let code : Code := ⟨m.body, m.body.lastLabels, ranges⟩
    have found : codeOf? m = some code := by rw [codeOf?, covered]; rfl
    constructor
    · intro live
      obtain ⟨f, there⟩ := Option.isSome_iff_exists.mp live
      rw [MethodFrames.frameAt, same] at there
      have step {s s' : InferenceState} {i : Nat} {queue : List Nat}
          (reached : InferenceContext.Reached code s) (_ : s.queue = i :: queue)
          (visited : (InferenceContext.ofCode h owner m.signature code).visit i { s with queue } = .ok s') :
          InferenceContext.Reached code s' :=
        InferenceContext.visit_reached (s := { s with queue }) reached visited
      refine ⟨code, found, InferenceContext.run_induction step ?_ loop i f there⟩
      intro j g there
      rw [InferenceState.frameAt, InferenceContext.entered _ _ _ positive] at there
      split at there
      · next zero =>
        rw [zero]
        exact .first positive
      · cases there
    · rintro ⟨code', found', reached⟩
      obtain rfl : code = code' := Option.some.inj (found.symm.trans found')
      refine Reachable.closed (P := fun i => frames.isLive i = true) ?_ ?_ ?_ reached
      · intro _
        exact closed.first
      · intro j target insn live at_position edge
        obtain ⟨insn', targets, at_position', successors, each⟩ := closed.next j live
        obtain rfl : insn = insn' := Option.some.inj (at_position.symm.trans at_position')
        obtain ⟨jumps, results, jumps_subset, next, -⟩ := Body.of_successors successors
        cases edge with
        | jump label goes =>
          obtain ⟨t, jump, goes'⟩ := exists_of_mem_elements (mapM_eq_some.mp results) label
          obtain rfl : target = t := Option.some.inj (goes.symm.trans goes')
          exact each target (jumps_subset jump)
        | next falls => exact each (j + 1) (next (Node.fallsThrough_mono falls))
      · intro j range live member covers
        obtain ⟨r, listed, there⟩ := exists_of_mem_results (mapM_eq_some.mp covered) member
        obtain ⟨start, stop, handler, starts, stops, handles, each⟩ := closed.ranges r listed
        rw [CoveredRange.of, starts, stops, handles] at there
        cases there
        simp only [CoveredRange.covers, Bool.and_eq_true, decide_eq_true_eq] at covers
        exact each j live covers.1 covers.2

end Bytecode
