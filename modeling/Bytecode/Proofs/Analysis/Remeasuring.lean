import Bytecode.Proofs.Analysis.Limits
import Bytecode.Proofs.Analysis.Rebuilding
import Bytecode.Proofs.Engine.Changes
import Bytecode.Proofs.Verification.Heights

/-!
# Analyzing a measured method again

After its passes the engine records in each method the room that an analysis without a limit has found. The
analysis of the measured method then works under that limit. It finds the same frames, unless an instruction is
simulated with more words on the stack than any frame has in the end (`analyze_measured`).

That can happen because joins lose words: an entry that is joined with an entry of another kind counts as one
word, and so does the frame from which the room is computed. Where no value of two words is lost in this way, and
no stack is higher than can be recorded, the measured method is accepted (`after_le_of_keeps`).
-/

namespace Bytecode

open Analysis
open Machine (Code codeOf?)
open Tokens (Edge)

namespace Analysis

/-- The frames with a limit. -/
def Frames.limited (r : Frames) (bound : Nat) : Frames :=
  { r with frames := r.frames.map (Option.map fun f => { f with limit := some bound }) }

/-- No value of two words that an instruction leaves on the stack is lost where control goes on. -/
def KeepsWide (owner : String) (m : Method) (r : Frames) : Prop :=
  ∀ v ∈ visitsOf owner m, ∀ code insn target f, codeOf? m = some code → m.body[v.position]? = some insn →
    Edge code v.position insn.node target → r.frameAt target = some f →
    ∀ (k : Nat) x y, v.after.stack[k]? = some x → f.stack[k]? = some y → x.isWide = true → y.isWide = true

/-! ## Visits and finished frames -/

namespace Flow

variable {builders : Prop} {flow flow' : Flow} {ctx : Context} {entry : Frame} {width : Nat} {made : List Value}
  {log : List Visit}

/-- What a visit carries around has arrived when the loop ends. -/
theorem arrives_of_visits (closed : ctx.Closed builders) {fuel : Nat}
    (valid : flow.Valid builders ctx log entry width made) (ran : run ctx fuel flow = .ok flow') {v : Visit}
    (member : v ∈ visits ctx fuel flow) :
    Arrives flow'.at v.position v.before ∧ Settled builders ctx [v] flow'.at v.position v.before := by
  induction fuel generalizing flow made log with
  | zero => cases member
  | succ fuel ih =>
    rw [run] at ran
    rw [visits] at member
    split at ran
    · next empty =>
      rw [empty] at member
      cases member
    · next i queue first =>
      rw [first] at member
      cases visited : visit ctx i { flow with queue } with
      | error e =>
        rw [visited] at ran
        cases ran
      | ok next =>
        rw [visited] at ran
        simp only [visited, List.mem_append, Option.mem_toList] at member
        obtain ⟨made', valid'⟩ := visit_valid closed valid first visited
        rcases member with here | later
        · have larger := run_larger closed valid' ran
          rcases visit_eq_ok visited with ⟨insn, before, at_position, there, node⟩ | ⟨-, none_⟩
          · have sound : Flow.Sound builders made width { flow with queue } :=
              ⟨valid.sound.recorded, valid.sound.frames, valid.sound.width⟩
            obtain ⟨-, -, -, grows, settled⟩ :=
              visitNode_advances closed sound valid.size at_position there next node
            have here' : visitOf? ctx i { flow with queue } = some v := here
            rw [here', Option.toList_some] at settled
            obtain ⟨rfl, rfl⟩ : i = v.position ∧ before = v.before := by
              obtain @⟨_, _, _, _, _, _, -, -, -, -, -, -, -, visited⟩ := settled
              obtain rfl := List.mem_singleton.mp visited
              exact ⟨rfl, rfl⟩
            obtain ⟨g, there', below⟩ := grows.larger _ _ there
            exact ⟨Arrives.mono ⟨g, there', below⟩ larger, settled.mono (fun _ h => h) larger⟩
          · rw [show visitOf? ctx i flow = none from none_] at here
            cases here
        · exact ih valid' ran later

end Flow

section

variable {owner : String} {m : Method} {r : Frames} {v : Visit}

/-- Nothing is visited in a method without nodes. -/
theorem visitsOf_of_isEmpty (owner : String) (empty : ¬0 < m.body.size) : visitsOf owner m = [] := by
  have none_ : m.body = #[] := Array.size_eq_zero_iff.mp (Nat.eq_zero_of_not_pos empty)
  unfold visitsOf
  split
  · rw [none_, show (#[] : Body).size = 0 from rfl, visitBound, Nat.zero_mul]
    rfl
  · rfl

/-- What the visits of an analysis carry around has arrived at the frames that it finds. -/
theorem settled_of_mem_visitsOf {ranges : List CoveredRange} (analyzed : analyze owner m = .ok r)
    (covered : m.coveredRanges m.body.lastLabels = some ranges) (member : v ∈ visitsOf owner m) :
    Arrives r.frameAt v.position v.before ∧
      Settled True ⟨m.body, m.body.lastLabels, ranges⟩ [v] r.frameAt v.position v.before := by
  by_cases nonempty : 0 < m.body.size
  · obtain ⟨d, ranges', flow, parsed, covered', ran, -, frames, -⟩ := analyze_eq_ok analyzed nonempty
    obtain rfl := Option.some.inj (covered.symm.trans covered')
    obtain ⟨made, recorded, hentry, -⟩ := entryOf_records True owner m d
    have same : flow.at = r.frameAt := by
      funext i
      rw [Frames.frameAt, frames, Flow.at]
    rw [visitsOf, parsed, covered] at member
    exact same ▸ Flow.arrives_of_visits (closed_of_coveredRanges covered fun _ _ _ => trivial)
      (Flow.start_valid nonempty recorded hentry) ran member
  · rw [visitsOf_of_isEmpty owner nonempty] at member
    cases member

end

/-! ## The loop of a measured method -/

section

variable {owner : String} {m : Method} {r : Frames} {d : MethodDescriptor}

/-- The room for the stack can be recorded with 16 bits. -/
theorem maxStack_le (analyzed : analyze owner m = .ok r) : r.maxStack ≤ 65535 := by
  obtain ⟨d, flow, -, rfl⟩ := exists_result analyzed
  exact Nat.min_le_right _ _

/-- A measured method has the slots that the method had, and a limit. -/
theorem entryOf_measured (analyzed : analyze owner m = .ok r)
    (parsed : MethodDescriptor.parse m.descriptor = .ok d) :
    slotsOf (m.measured r) d = slotsOf m d ∧
      entryOf owner (m.measured r) d =
        ({ (entryOf owner m d).1 with limit := some r.maxStack }, (entryOf owner m d).2) := by
  have count : (UInt16.ofNat r.maxLocals).toNat = slotsOf m d := by
    rw [maxLocals_of_analyze analyzed parsed, UInt16.toNat_ofNat_of_lt']
    exact Nat.lt_succ_of_le (slotsOf_le m d)
  have height : (UInt16.ofNat r.maxStack).toNat = r.maxStack :=
    UInt16.toNat_ofNat_of_lt' (Nat.lt_succ_of_le (maxStack_le analyzed))
  have slots : slotsOf (m.measured r) d = slotsOf m d := by
    have enough : (d.slots m.isStatic).toNat ≤ slotsOf m d := Nat.le_max_right _ _
    show max (UInt16.ofNat r.maxLocals).toNat (d.slots m.isStatic).toNat = _
    rw [count, max_eq_left enough]
  refine ⟨slots, ?_⟩
  unfold entryOf
  rw [slots]
  show (({ locals := _, limit := some (UInt16.ofNat r.maxStack).toNat } : Frame), _) = _
  rw [height]
  rfl

/-- A larger frame has as many words on the stack if all values of two words have two words in it. -/
theorem words_le_of_le {f g : Frame} (below : g.Le f)
    (keeps : ∀ (k : Nat) x y, g.stack[k]? = some x → f.stack[k]? = some y → x.isWide = true → y.isWide = true) :
    g.stackWords ≤ f.stackWords :=
  total_mono (forall₂_of_getElem? below.stack.length_eq fun k x y hx hy => Value.size_mono (keeps k x y hx hy))

/-- A frame with an entry on the stack tells that there is room for a word. -/
theorem one_le_maxStack {i : Nat} {f : Frame} (analyzed : analyze owner m = .ok r) (here : r.frameAt i = some f)
    (filled : f.stack ≠ []) : 1 ≤ r.maxStack := by
  obtain ⟨words, reported, least⟩ := maxStack_of_analyze analyzed
  have enough := (least words).mp le_rfl i f here
  obtain ⟨v, rest, stack⟩ := List.exists_cons_of_ne_nil filled
  have one : 1 ≤ v.size := by rw [Value.size, Kind.size_eq]; split <;> omega
  rw [Frame.stackWords, stack, total_cons] at enough
  omega

/-- Where a visit enters a handler, there is room for the exception. -/
theorem one_le_of_covers {ranges : List CoveredRange} {v : Visit} (analyzed : analyze owner m = .ok r)
    (covered : m.coveredRanges m.body.lastLabels = some ranges) (member : v ∈ visitsOf owner m)
    (handled : ∃ range ∈ ranges, range.covers v.position = true) : 1 ≤ r.maxStack := by
  obtain ⟨range, listed, covers⟩ := handled
  obtain ⟨-, @⟨_, _, _, _, _, _, -, -, -, -, -, -, handles, -⟩⟩ := settled_of_mem_visitsOf analyzed covered member
  obtain ⟨_, entry, _, entered, g, there, below⟩ := handles range listed covers
  obtain ⟨x, -, -, rfl⟩ := handlerFrame_eq_ok entered
  refine one_le_maxStack analyzed there fun empty => ?_
  have height := below.stack.length_eq
  rw [empty] at height
  cases height

end

namespace Flow

variable {bound : Nat} {body : Body} {entry : Frame} {store : Store} {flow : Flow}

theorem start_unlimited (unlimited : entry.limit = none) :
    (start body ({ entry with limit := some bound }, store)).unlimited = start body (entry, store) := by
  obtain ⟨locals, stack, limit⟩ := entry
  cases unlimited
  simp [start, Flow.unlimited, Array.map_setIfInBounds, Frame.unlimited]

theorem start_limited (nonempty : 0 < body.size) (limited : entry.Limited bound) :
    (start body (entry, store)).Limited bound := by
  intro i f found
  obtain ⟨-, rfl⟩ := at_start nonempty found
  exact limited

/-- The result of a loop under a limit, in terms of the result of the loop without one. -/
theorem result_limited {m : Method} {d : MethodDescriptor} {r : Frames} (limited : flow.Limited bound)
    (slots : slotsOf (m.measured r) d = slotsOf m d) :
    flow.result (m.measured r) d = (flow.unlimited.result m d).limited bound := by
  have frames : flow.frames =
      flow.unlimited.frames.map (Option.map fun f => ({ f with limit := some bound } : Frame)) := by
    refine Array.ext_getElem? fun i => ?_
    rw [Array.getElem?_map, unlimited, Array.getElem?_map]
    cases here : flow.frames[i]? with
    | none => rfl
    | some o =>
      cases o with
      | none => rfl
      | some f =>
        have limit := (limited i f (by rw [Flow.at, here]; rfl)).limit
        obtain ⟨locals, stack, _⟩ := f
        cases limit
        rfl
  have words : flow.frames.foldl (fun n f => max n (f.elim 0 Frame.stackWords)) 0 =
      flow.unlimited.frames.foldl (fun n f => max n (f.elim 0 Frame.stackWords)) 0 := by
    rw [unlimited, Array.foldl_map]
    congr 1
    funext n f
    cases f <;> rfl
  unfold result Frames.limited
  rw [slots, words]
  congr 1

end Flow

section

variable {owner : String} {m : Method} {r : Frames} {d : MethodDescriptor}

/-- **The second analysis of a method.** A measured method is accepted with the frames that the first analysis
has found if no stack was too high before and behind an instruction while these were computed. Otherwise the
first instruction behind which the stack was too high is reported. -/
theorem analyze_measured_cases (analyzed : analyze owner m = .ok r) (undeclared : m.maxStack = none) :
    (analyze owner (m.measured r) = .ok (r.limited r.maxStack) ∧ ∀ v ∈ visitsOf owner m,
      v.before.stackWords ≤ r.maxStack ∧ v.after.stackWords ≤ r.maxStack) ∨
    ∃ v ∈ visitsOf owner m, ∃ insn ∈ m.body[v.position]?, v.before.stackWords ≤ r.maxStack ∧
      r.maxStack < v.after.stackWords ∧ analyze owner (m.measured r) =
        .error (.analysis owner m.signature (.instruction insn.node.describe v.position (.overflow r.maxStack))) := by
  by_cases nonempty : 0 < m.body.size
  · obtain ⟨d, ranges, flow, parsed, covered, ran, done, same⟩ := result_of_analyze analyzed nonempty
    obtain ⟨slots, entered⟩ := entryOf_measured analyzed parsed
    have again : analyze owner (m.measured r) = _ := analyze_eq nonempty parsed covered
    have undeclared : (entryOf owner m d).1.limit = none := by
      show m.maxStack.map UInt16.toNat = none
      rw [undeclared]
      rfl
    have limited : (Flow.start m.body (entryOf owner (m.measured r) d)).Limited r.maxStack := by
      rw [entered]
      exact Flow.start_limited nonempty ⟨rfl, Nat.zero_le _⟩
    have unlimited : (Flow.start m.body (entryOf owner (m.measured r) d)).unlimited =
        Flow.start m.body (entryOf owner m d) := by
      rw [entered]
      exact Flow.start_unlimited undeclared
    have log : visitsOf owner m = Flow.visits ⟨m.body, m.body.lastLabels, ranges⟩
        (visitBound m.body.size (entryOf owner m d).1.locals.length) (Flow.start m.body (entryOf owner m d)) := by
      rw [visitsOf, parsed, covered]
    have room (v : Visit) (member : v ∈ visitsOf owner m) := one_le_of_covers analyzed covered member
    rw [log, ← unlimited] at room ⊢
    have steps : visitBound m.body.size (entryOf owner (m.measured r) d).1.locals.length =
        visitBound m.body.size (entryOf owner m d).1.locals.length := by rw [entered]
    change analyze owner (m.measured r) = ((Flow.run ⟨m.body, m.body.lastLabels, ranges⟩
      (visitBound m.body.size _) (Flow.start m.body (entryOf owner (m.measured r) d))).mapError
        (Failure.analysis owner m.signature)).bind _ at again
    rw [steps] at again
    rcases Flow.run_capped limited room (unlimited ▸ ran) with
      ⟨last, ran', kept, rfl, low⟩ | ⟨v, member, insn, at_position, low, high, ran'⟩
    · refine .inl ⟨?_, low⟩
      rw [again, ran']
      refine (if_pos (List.isEmpty_iff.mpr done)).trans ?_
      rw [Flow.result_limited kept slots, same]
    · refine .inr ⟨v, member, insn, at_position, low, high, ?_⟩
      rw [again, ran']
      rfl
  · obtain ⟨d, parsed⟩ := parse_of_analyze analyzed
    have result := Except.ok.inj (analyzed.symm.trans (analyze_of_isEmpty nonempty parsed))
    refine .inl ⟨?_, by simp [visitsOf_of_isEmpty owner nonempty]⟩
    have nothing : Flow.Limited r.maxStack ⟨#[], [], {}⟩ := fun i f found => by cases found
    have same : (⟨#[], [], {}⟩ : Flow).unlimited = ⟨#[], [], {}⟩ := by simp [Flow.unlimited]
    rw [analyze_of_isEmpty (m := m.measured r) nonempty parsed,
      Flow.result_limited nothing (entryOf_measured analyzed parsed).1, same, ← result]

/-- Where control goes on with all values of two words, and no stack is higher than can be recorded, no stack is too
high before an instruction only if it is not behind it. -/
theorem after_le_of_keeps {v : Visit} (analyzed : analyze owner m = .ok r) (keeps : KeepsWide owner m r)
    (short : ∀ i f, r.frameAt i = some f → f.stackWords ≤ 65535) (member : v ∈ visitsOf owner m)
    (before : v.before.stackWords ≤ r.maxStack) : v.after.stackWords ≤ r.maxStack := by
  obtain ⟨words, reported, least⟩ := maxStack_of_analyze analyzed
  have room (i : Nat) (f : Frame) (here : r.frameAt i = some f) : f.stackWords ≤ r.maxStack := by
    have := (least words).mp le_rfl i f here
    have := short i f here
    omega
  cases covered : m.coveredRanges m.body.lastLabels with
  | none =>
    obtain ⟨d, parsed⟩ := parse_of_analyze analyzed
    rw [visitsOf, parsed, covered] at member
    cases member
  | some ranges =>
    obtain ⟨-, @⟨insn, _, _, after, _, targets, at_position, -, -, executed, successors, arrives, -, visited⟩⟩ :=
      settled_of_mem_visitsOf analyzed covered member
    obtain rfl : after = v.after := congrArg Visit.after (List.mem_singleton.mp visited)
    have found : codeOf? m = some ⟨m.body, m.body.lastLabels, ranges⟩ := by rw [codeOf?, covered]; rfl
    cases targets with
    | cons target _ =>
      have edge : Edge ⟨m.body, m.body.lastLabels, ranges⟩ v.position insn.node target :=
        (mem_successors_iff successors target).mp List.mem_cons_self
      obtain ⟨f, there, below⟩ := arrives target List.mem_cons_self
      exact (words_le_of_le below (keeps v member _ insn target f found at_position edge there)).trans
        (room target f there)
    | nil =>
      -- Control ends here, so the values on the stack are some of those before.
      obtain ⟨stops, nowhere⟩ := ends_of_successors successors
      have plain : PlainReturn insn.node := by
        intro text d described
        cases node : insn.node with
        | call | dynamicCall =>
          rw [node] at stops
          cases stops
        | _ =>
          rw [node] at described
          cases described
      obtain ⟨movement, x, moves⟩ := moves_of_execute plain executed
      obtain ⟨count, left⟩ := moves.leaves stops nowhere
      have all := total_append Kind.size (v.before.kinds.take count) (v.before.kinds.drop count)
      rw [List.take_append_drop] at all
      rw [Frame.stackWords_eq, left]
      rw [Frame.stackWords_eq] at before
      omega

/-- **Measured methods.** The analysis of a measured method finds the frames that the first analysis has found,
or it fails. It succeeds exactly if the room for the stack was enough before and behind each simulated
instruction, and fails at one behind which it was not. It is enough if no value of two words on a stack is lost
where control flow joins, and no stack is higher than can be recorded. -/
theorem analyze_measured (analyzed : analyze owner m = .ok r) (undeclared : m.maxStack = none) :
    (∀ r', analyze owner (m.measured r) = .ok r' → r' = r.limited r.maxStack) ∧
    ((∃ r', analyze owner (m.measured r) = .ok r') ↔ ∀ v ∈ visitsOf owner m,
      v.before.stackWords ≤ r.maxStack ∧ v.after.stackWords ≤ r.maxStack) ∧
    (∀ e, analyze owner (m.measured r) = .error e → ∃ v ∈ visitsOf owner m, ∃ insn, m.body[v.position]? = some insn ∧
      r.maxStack < v.after.stackWords ∧
      e = .analysis owner m.signature (.instruction insn.node.describe v.position (.overflow r.maxStack))) ∧
    (KeepsWide owner m r → (∀ i f, r.frameAt i = some f → f.stackWords ≤ 65535) →
      ∃ r', analyze owner (m.measured r) = .ok r') := by
  rcases analyze_measured_cases analyzed undeclared with
    ⟨accepted, low⟩ | ⟨v, member, insn, at_position, low, high, rejected⟩
  · refine ⟨fun r' again => Except.ok.inj (again.symm.trans accepted), ⟨fun _ => low, fun _ => ⟨_, accepted⟩⟩,
      fun e failed => ?_, fun _ _ => ⟨_, accepted⟩⟩
    cases accepted.symm.trans failed
  · refine ⟨fun r' again => ?_, ⟨?_, fun all => ?_⟩, fun e failed => ?_, fun keeps short => ?_⟩
    · cases again.symm.trans rejected
    · rintro ⟨r', again⟩
      cases again.symm.trans rejected
    · exact absurd (all v member).2 (Nat.not_le_of_lt high)
    · exact ⟨v, member, insn, at_position, high, (Except.error.inj (rejected.symm.trans failed)).symm⟩
    · exact absurd (after_le_of_keeps analyzed keeps short member low) (Nat.not_le_of_lt high)

end

/-- A method in which two ways with a long on the stack meet. -/
def meetingMethod : Method where
  id := ⟨0⟩
  access := 9
  name := "m"
  descriptor := "(Z)V"
  body := numbered [.var Opcode.iload 0, .jump Opcode.ifeq ⟨0⟩, .simple 9, .jump Opcode.goto ⟨1⟩, .label ⟨0⟩,
    .simple 10, .label ⟨1⟩, .simple 0x58, .simple Opcode.vreturn]

/-- The room for one long is enough for both ways. -/
theorem analyze_measured_meeting : ∃ r, analyze "A" meetingMethod = .ok r ∧ meetingMethod.maxStack = none ∧
    r.maxStack = 2 ∧ analyze "A" (meetingMethod.measured r) = .ok (r.limited 2) := by
  have evaluated : (analyze "A" meetingMethod).toOption.any (fun r => decide (r.maxStack = 2 ∧
      ∀ v ∈ visitsOf "A" meetingMethod, v.before.stackWords ≤ 2 ∧ v.after.stackWords ≤ 2)) = true := by
    unfold analyze
    rw [Body.ofTable_labelTable]
    decide +kernel
  obtain ⟨r, analyzed, holds⟩ := exists_of_any evaluated
  obtain ⟨two, low⟩ := of_decide_eq_true holds
  obtain ⟨same, accepted, -⟩ := analyze_measured analyzed rfl
  rw [two] at same accepted
  obtain ⟨r', again⟩ := accepted.mpr low
  exact ⟨r, analyzed, rfl, two, (same r' again) ▸ again⟩

/-- A long that is joined with an int counts as one word, so that there is no room for it any more. -/
theorem measured_joining : ∃ r, analyze "A" joiningMethod = .ok r ∧ joiningMethod.maxStack = none ∧
    (∃ v ∈ visitsOf "A" joiningMethod, r.maxStack < v.after.stackWords) ∧
    ∀ r', analyze "A" (joiningMethod.measured r) ≠ .ok r' := by
  have evaluated : (analyze "A" joiningMethod).toOption.any (fun r =>
      decide (∃ v ∈ visitsOf "A" joiningMethod, r.maxStack < v.after.stackWords)) = true := by
    unfold analyze
    rw [Body.ofTable_labelTable]
    decide +kernel
  obtain ⟨r, analyzed, holds⟩ := exists_of_any evaluated
  have high := of_decide_eq_true holds
  refine ⟨r, analyzed, rfl, high, fun r' again => ?_⟩
  rcases analyze_measured_cases analyzed rfl with ⟨-, low⟩ | ⟨_, -, _, -, -, -, rejected⟩
  · obtain ⟨v, member, above⟩ := high
    exact absurd (low v member).2 (Nat.not_le_of_lt above)
  · cases again.symm.trans rejected

end Analysis

end Bytecode
