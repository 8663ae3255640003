import Bytecode.Proofs.Verification.Agreement

/-!
# Both computations of frames find the same heights

Where the operands of all instructions are as their opcodes require and the analysis knows the kinds on
the stack, the inference has as many words at a position as the analysis counts, and both need the same
room (`frames_agree`).

The invariant compares the inference at any time with the finished analysis: every type frame agrees
with the frame at its position, because that lies above what arrives there.
-/

namespace Bytecode

open Analysis (Frame Frames KnownKinds PlainReturn PostFixpoint analyze contextOf)
open Machine (Code codeOf?)

namespace TypeFrame

variable {f g : Frame} {w w' joined : TypeFrame} {h : Hierarchy}

/-- What agrees with a frame agrees with one that claims less, if that still knows its kinds. -/
theorem Agrees.mono (agrees : Agrees f w) (below : f.Le g) (known : g.Known) : Agrees g w where
  words := below.kinds known ▸ agrees.words
  locals := by
    intro k type kind found wide slot
    by_cases unknown : kind = .uninitialized
    · exact .inr unknown
    · exact agrees.locals k type kind found wide (below.slotKind slot unknown)

/-- A local variable that is wide behind a join was wide before. -/
theorem isWide_of_mergeSlots {old incoming : List VerificationType} {k : Nat} {type : VerificationType}
    (found : (mergeSlots h old incoming)[k]? = some type) (wide : type.isWide = true) :
    ∃ earlier, old[k]? = some earlier ∧ earlier.isWide = true := by
  induction old generalizing incoming k with
  | nil => simp [mergeSlots] at found
  | cons a old ih =>
    cases incoming with
    | nil => exact ⟨type, by simpa [mergeSlots] using found, wide⟩
    | cons b incoming =>
      cases k with
      | zero =>
        cases found
        refine ⟨a, rfl, ?_⟩
        by_contra narrow
        rw [h.isWide_merge (Bool.not_eq_true _ ▸ narrow)] at wide
        cases wide
      | succ k => exact ih found

/-- A join of frames that agree with a frame agrees with it. -/
theorem Agrees.merge (agrees : Agrees f w) (agrees' : Agrees f w')
    (ran : w.merge h w' = .ok joined) : Agrees f joined := by
  rw [TypeFrame.merge] at ran
  split at ran
  · cases ran
  · cases ran
    refine ⟨agrees.words.merge h agrees'.words, fun k type kind found wide slot => ?_⟩
    obtain ⟨earlier, there, wide'⟩ := isWide_of_mergeSlots found wide
    exact agrees.locals k earlier kind there wide' slot

/-- The frames at the entry of a handler agree. -/
theorem Agrees.caught {entry : Frame} {caught : String} {s s' : Analysis.Store} {range : CoveredRange}
    (agrees : Agrees f w) (run : Analysis.Flow.handlerFrame f caught s = .ok (entry, s')) :
    Agrees entry (InferenceContext.handlerFrame w range) := by
  obtain ⟨v, kind, -, rfl⟩ := Analysis.handlerFrame_eq_ok run
  refine ⟨?_, agrees.locals⟩
  have words : Words [v.kind] [.object range.caught] := .narrow (by rw [kind]; rfl) rfl .nil
  exact words

/-- The types of the arguments of a method stand in the slots of their kinds. -/
theorem entry_agrees {arguments : List Descriptor}
    (values : ∀ type ∈ arguments, type ≠ .void) :
    List.Forall₂ (fun (type : VerificationType) (kind : Kind) => type.isWide = true →
        kind.isWide = true ∨ kind = .uninitialized)
      ((arguments.filterMap VerificationType.ofDescriptor).flatMap fun type =>
        if type.isWide then [type, .top] else [type])
      (Analysis.entryKinds true arguments) := by
  induction arguments with
  | nil => exact .nil
  | cons type arguments ih =>
    obtain ⟨value, others⟩ := List.forall_mem_cons.mp values
    have rest := ih others
    cases type with
    | void => exact absurd rfl value
    | long | double => exact .cons (fun _ => .inl rfl) (.cons nofun rest)
    | _ => exact .cons nofun rest

/-- A wide slot at the entry of a method is one of an argument: the slots behind the arguments are empty.
-/
theorem passed_of_wide {types : List VerificationType} {n count k : Nat} {type : VerificationType}
    (found : (types.take n ++ List.replicate count .top)[k]? = some type)
    (wide : type.isWide = true) : types[k]? = some type := by
  rw [List.getElem?_append] at found
  split at found
  · rw [List.getElem?_take] at found
    split at found
    · exact found
    · cases found
  · rw [List.eq_of_mem_replicate (List.mem_of_getElem? found)] at wide
    cases wide

/-- The frames at the entry of a method agree. -/
theorem agrees_entryFrame {m : Method} {owner : String} {d : MethodDescriptor} {entry : Frame}
    {count n : Nat} (parsed : MethodDescriptor.parse m.descriptor = .ok d)
    (kinds : entry.locals.map Analysis.Value.kind =
      Analysis.entryKinds m.isStatic d.arguments ++ List.replicate count .uninitialized)
    (empty : entry.stack = []) : Agrees entry (m.entryFrame owner d.arguments n) where
  words := by
    rw [Frame.kinds, empty]
    exact .nil
  locals := by
    intro k type kind found wide slot
    have passed := entry_agrees (MethodDescriptor.chars_of_parse parsed).2
    have both : List.Forall₂ (fun (type : VerificationType) (kind : Kind) => type.isWide = true →
        kind.isWide = true ∨ kind = .uninitialized)
        ((if m.isStatic then []
          else if m.name = "<init>" ∧ owner ≠ objectClass then [.uninitializedThis]
          else [.object owner]) ++
          (d.arguments.filterMap VerificationType.ofDescriptor).flatMap fun type =>
            if type.isWide then [type, .top] else [type])
        (Analysis.entryKinds m.isStatic d.arguments) := by
      cases m.isStatic with
      | true => exact passed
      | false =>
        by_cases making : m.name = "<init>" ∧ owner ≠ objectClass
        · rw [if_neg Bool.false_ne_true, if_pos making]
          exact .cons (fun wide => absurd wide Bool.false_ne_true) passed
        · rw [if_neg Bool.false_ne_true, if_neg making]
          exact .cons (fun wide => absurd wide Bool.false_ne_true) passed
    obtain ⟨kind', there, wider⟩ := Analysis.getElem?_of_forall₂ both.flip (passed_of_wide found wide)
    have same : (entry.locals.map Analysis.Value.kind)[k]? = some kind' := by
      rw [kinds, List.getElem?_append_left (List.getElem?_eq_some_iff.mp there).1, there]
    rw [List.getElem?_map] at same
    obtain rfl : kind = kind' := Option.some.inj (slot.symm.trans same)
    exact wider wide

end TypeFrame

namespace Analysis

/-- Control ends at a node without successors. -/
theorem ends_of_successors {body : Body} {positions : LabelPositions} {i : Nat} {node : Node}
    (h : body.successors positions Flow.always i node = .ok []) :
    node.fallsThrough Flow.always = false ∧ node.targets = [] := by
  obtain ⟨jumps, results, subset, next, -⟩ := Body.of_successors h
  refine ⟨?_, List.eq_nil_iff_forall_not_mem.mpr fun label member => ?_⟩
  · by_contra falls
    exact List.not_mem_nil (next (eq_true_of_ne_false falls))
  · obtain ⟨target, jump, -⟩ := exists_of_mem_elements (mapM_eq_some.mp results) member
    exact List.not_mem_nil (subset jump)

/-- Where control ends, values only leave the stack. -/
theorem Moves.leaves {used : Value → Prop} {insn : Insn} {f g : Frame} {m : Tokens.Movement}
    {x : Tokens.Exchange} (moves : Moves used insn f g m x)
    (stops : insn.node.fallsThrough Flow.always = false) (nowhere : insn.node.targets = []) :
    ∃ count, g.kinds = f.kinds.drop count := by
  have taken {count : Nat} (same : m = .operate count none) : g.kinds = f.kinds.drop count := by
    subst same
    exact moves.kinds_operate
  have movement := moves.movement
  cases node : insn.node with
  | simple op =>
    rw [node] at stops movement
    change Tokens.operationMovement (.ofOpcode op) = some m at movement
    rw [Node.fallsThrough, Bool.not_eq_false', Bool.or_eq_true] at stops
    rcases stops with returns | throws
    · obtain ⟨kind, leaves⟩ := leaves_of_isReturn returns
      rw [leaves] at movement
      cases kind with
      | none => exact ⟨0, taken (Option.some.inj movement).symm⟩
      | some kind => exact ⟨1, taken (Option.some.inj movement).symm⟩
    · rw [beq_iff_eq.mp throws] at movement
      exact ⟨1, taken (Option.some.inj movement).symm⟩
  | jump | tableSwitch | lookupSwitch =>
    rw [node] at nowhere
    cases nowhere
  | _ =>
    rw [node] at stops
    cases stops

end Analysis

/-- Finished frames of an analysis that knows all kinds, for instructions whose operands are as their
opcodes require. -/
structure Typed (builders : Prop) (code : Code) (visits : List Analysis.Visit) (entry : Frame)
    (frames : Nat → Option Frame) : Prop where
  fixpoint : PostFixpoint builders (contextOf code) visits entry frames
  plain : ∀ insn ∈ code.body, PlainReturn insn.node
  known : KnownKinds frames
  supplied : ∀ (i : Nat) insn f, code.body[i]? = some insn → frames i = some f → f.Supplies insn.node

/-- No more words than some frame has on its stack. -/
def Attained (frames : Nat → Option Frame) (n : Nat) : Prop :=
  ∃ i f, frames i = some f ∧ n ≤ f.stackWords

theorem Attained.max {frames : Nat → Option Frame} {n k : Nat} (h : Attained frames n)
    (h' : Attained frames k) : Attained frames (max n k) := by
  rcases le_total n k with le | le
  · rwa [max_eq_right le]
  · rwa [max_eq_left le]

/-- Every type frame of an inference agrees with the frame at its position. -/
def InferenceState.Agrees (frames : Nat → Option Frame) (s : InferenceState) : Prop :=
  ∀ i w, s.frameAt i = some w → ∃ f, frames i = some f ∧ TypeFrame.Agrees f w

namespace Typed

open InferenceContext (ofCode)
open TypeFrame (Agrees)

variable {builders : Prop} {code : Code} {visits : List Analysis.Visit} {entry : Frame}
  {frames : Nat → Option Frame} {h : Hierarchy} {owner signature : String} {s s' : InferenceState}
  {i : Nat} {f : Frame} {before after : TypeFrame} {insn : Insn}

/-- The type frame behind an instruction agrees with the frames at its successors, and needs no more
room than frames of the analysis do. -/
theorem onward (typed : Typed builders code visits entry frames) (there : frames i = some f)
    (agrees : Agrees f before) (at_position : code.body[i]? = some insn)
    (short : before.stack.length ≤ 65535)
    (ran : before.execute code.body owner i insn.node = .ok after) :
    (∀ target, Tokens.Edge code i insn.node target → ∃ g, frames target = some g ∧ Agrees g after) ∧
      Attained frames after.stack.length := by
  obtain @⟨insn', _, _, g, _, targets, at_position', -, -, executed, successors, arrives, -, -⟩ :=
    typed.fixpoint.settled i f there
  obtain rfl : insn = insn' := Option.some.inj (at_position.symm.trans at_position')
  obtain ⟨m, x, moves⟩ :=
    Analysis.moves_of_execute (typed.plain _ (Array.mem_of_getElem? at_position)) executed
  have supplied := typed.supplied i insn f at_position there
  have edges := Analysis.mem_successors_iff
    (show code.body.successors code.positions _ i insn.node = .ok targets from successors)
  have arrived (target : Nat) (edge : Tokens.Edge code i insn.node target) :
      ∃ g, frames target = some g ∧ Agrees g after := by
    have arrives := arrives target ((edges target).mpr edge)
    have agrees' := agrees.execute moves supplied (arrives.known typed.known) short ran
    obtain ⟨g', there', below⟩ := arrives
    exact ⟨g', there', agrees'.mono below (typed.known _ g' there')⟩
  refine ⟨arrived, ?_⟩
  cases targets with
  | cons target _ =>
    obtain ⟨g', there', agrees'⟩ := arrived target ((edges target).mp List.mem_cons_self)
    exact ⟨target, g', there', agrees'.height.le⟩
  | nil =>
    -- Control ends here, so the values on the stack are some of those before.
    obtain ⟨stops, nowhere⟩ := Analysis.ends_of_successors successors
    obtain ⟨count, left⟩ := moves.leaves stops nowhere
    have known : g.Known := by
      intro v member
      have kept : v.kind ∈ f.kinds.drop count := left ▸ List.mem_map_of_mem member
      obtain ⟨u, earlier, same⟩ := List.mem_map.mp (List.mem_of_mem_drop kept)
      exact same ▸ typed.known i f there u earlier
    refine ⟨i, f, there, ?_⟩
    have all := total_append Kind.size (f.kinds.take count) (f.kinds.drop count)
    rw [List.take_append_drop] at all
    rw [(agrees.execute moves supplied known short ran).height, g.stackWords_eq, left,
      f.stackWords_eq]
    omega

/-- The type frame at the entry of a handler agrees with the frame there. -/
theorem handled (typed : Typed builders code visits entry frames) (there : frames i = some f)
    (agrees : Agrees f before) {range : CoveredRange} (member : range ∈ code.ranges)
    (covers : range.covers i = true) : ∃ g, frames range.handler = some g ∧
      Agrees g (InferenceContext.handlerFrame before range) := by
  obtain @⟨_, _, _, _, _, _, -, -, -, -, -, -, handled, -⟩ := typed.fixpoint.settled i f there
  obtain ⟨_, caught, _, run, g, there', below⟩ := handled range member covers
  exact ⟨g, there', (agrees.caught run).mono below (typed.known _ g there')⟩

/-- Carrying a type frame to a position where it agrees. -/
theorem mergeInto {target n : Nat} {incoming : TypeFrame}
    (arrives : ∃ g, frames target = some g ∧ Agrees g incoming)
    (kept : s.Agrees frames ∧ s.maxStack = n)
    (ran : (ofCode h owner signature code).mergeInto s target incoming = .ok s') :
    s'.Agrees frames ∧ s'.maxStack = n := by
  obtain ⟨room, cases⟩ := InferenceContext.mergeInto_cases ran
  refine ⟨fun j w found => ?_, room.trans kept.2⟩
  rcases cases j w found with old | ⟨rfl, rfl | ⟨existing, before, joined⟩⟩
  · exact kept.1 j w old
  · exact arrives
  · obtain ⟨g, there, agrees⟩ := arrives
    obtain ⟨g', there', agrees'⟩ := kept.1 j existing before
    obtain rfl : g = g' := Option.some.inj (there.symm.trans there')
    exact ⟨g, there, agrees'.merge agrees joined⟩

/-- A visit keeps the agreement. It finds no more room than is needed, and enough for the frame that it
looks at. -/
theorem visit (typed : Typed builders code visits entry frames) (kept : s.Agrees frames)
    (ran : (ofCode h owner signature code).visit i s = .ok s') (short : s'.maxStack ≤ 65535) :
    s'.Agrees frames ∧ (Attained frames s.maxStack → Attained frames s'.maxStack) ∧
      ∀ w, s.frameAt i = some w → ∃ f, frames i = some f ∧ f.stackWords ≤ s'.maxStack := by
  rcases InferenceContext.visit_eq_ok ran with
    ⟨insn, before, after, targets, between, visited⟩ | ⟨rfl, nothing⟩
  · obtain ⟨f, there, agrees⟩ := kept i before visited.frame
    have room := visited.maxStack
    have height := agrees.height
    obtain ⟨onward, needed⟩ :=
      typed.onward there agrees visited.present (by omega) visited.execute
    refine ⟨?_, fun attained => ?_, fun w found => ⟨f, there, by omega⟩⟩
    · refine (visited.invariant (I := fun t => t.Agrees frames ∧ t.maxStack = s'.maxStack)
        ⟨kept, room.symm⟩ ?_ ?_).1
      · intro target member t t' kept carried
        have successors : code.body.successors code.positions Analysis.Flow.always i insn.node =
            .ok targets :=
          InferenceContext.successors_eq_of_execute _ visited.execute ▸ visited.successors
        have edge := (Analysis.mem_successors_iff successors target).mp member
        exact mergeInto (onward target edge) kept carried
      · intro range member covers t t' kept carried
        exact mergeInto (typed.handled there agrees member covers) kept carried
    · rw [room]
      exact attained.max (.max ⟨i, f, there, height.le⟩ needed)
  · -- A position with a frame has an instruction.
    refine ⟨kept, id, fun w found => ?_⟩
    obtain ⟨f, there, -⟩ := kept i w found
    obtain @⟨_, _, _, _, _, _, present, -, -, -, -, -, -, -⟩ := typed.fixpoint.settled i f there
    rcases nothing with missing | missing
    · cases present.symm.trans missing
    · cases found.symm.trans missing

/-- The state of an inference compared with the finished frames of the analysis: the frames agree, no
more room was found than is needed, and positions that do not wait have been taken into account. -/
structure Compared (code : Code) (frames : Nat → Option Frame) (s : InferenceState) : Prop where
  size : s.frames.size = code.body.size
  agrees : s.Agrees frames
  attained : Attained frames s.maxStack
  noted : ∀ i, s.Live i → i ∈ s.queue ∨ ∃ f, frames i = some f ∧ f.stackWords ≤ s.maxStack

/-- A visit of the first position in the queue keeps the comparison. -/
theorem step {queue : List Nat} (typed : Typed builders code visits entry frames)
    (compared : Compared code frames s) (waiting : s.queue = i :: queue)
    (ran : (ofCode h owner signature code).visit i { s with queue } = .ok s')
    (short : s'.maxStack ≤ 65535) : Compared code frames s' := by
  have sized : ({ s with queue } : InferenceState).frames.size = code.body.size := compared.size
  obtain ⟨grown, -⟩ := InferenceContext.visit_grows sized ran
  obtain ⟨agrees, attained, looked⟩ := typed.visit (s := { s with queue }) compared.agrees ran short
  have more := InferenceContext.maxStack_le_of_visit ran
  refine ⟨grown.size.trans compared.size, agrees, attained compared.attained, fun j live => ?_⟩
  rcases grown.new j live with old | queued
  · rcases compared.noted j old with waits | ⟨f, there, fits⟩
    · rw [waiting] at waits
      rcases List.mem_cons.mp waits with rfl | later
      · obtain ⟨w, found⟩ := Option.isSome_iff_exists.mp old
        exact .inr (looked w found)
      · exact .inl (grown.queue later)
    · exact .inr ⟨f, there, fits.trans more⟩
  · exact .inl queued

/-- The whole loop keeps the comparison. -/
theorem run {fuel : Nat} (typed : Typed builders code visits entry frames)
    (compared : Compared code frames s)
    (ran : (ofCode h owner signature code).run fuel s = .ok s') (short : s'.maxStack ≤ 65535) :
    Compared code frames s' := by
  refine InferenceContext.run_induction (I := fun t => t.maxStack ≤ 65535 → Compared code frames t)
    ?_ (fun _ => compared) ran short
  intro t t' j queue kept waiting visited short
  exact typed.step (kept ((InferenceContext.maxStack_le_of_visit visited).trans short)) waiting visited
    short

end Typed

/-! ## The room that an analysis reports -/

/-- The most words on the stack of a frame. -/
theorem foldl_stackWords_le {fs : List (Option Frame)} {n k : Nat} :
    fs.foldl (fun n f => max n (f.elim 0 Frame.stackWords)) n ≤ k ↔
      n ≤ k ∧ ∀ f, some f ∈ fs → f.stackWords ≤ k := by
  induction fs generalizing n with
  | nil => simp
  | cons f fs ih =>
    rw [List.foldl_cons, ih]
    cases f <;> simp [and_assoc]

/-- The analysis reports the most words on the stack of a frame, but no more than a class file can. -/
theorem maxStack_of_analyze {owner : String} {m : Method} {r : Frames}
    (analyzed : analyze owner m = .ok r) : ∃ words, r.maxStack = min words 65535 ∧
      ∀ k, words ≤ k ↔ ∀ i f, r.frameAt i = some f → f.stackWords ≤ k := by
  refine ⟨r.frames.toList.foldl (fun n f => max n (f.elim 0 Frame.stackWords)) 0, ?_, fun k => ?_⟩
  · obtain ⟨d, flow, -, rfl⟩ := Analysis.exists_result analyzed
    rw [Array.foldl_toList]
    rfl
  · rw [foldl_stackWords_le, and_iff_right (Nat.zero_le k)]
    constructor
    · intro every i f there
      obtain ⟨o, at_position, rfl⟩ : ∃ o, r.frames[i]? = some o ∧ o = some f := by
        simpa [Frames.frameAt, Option.join_eq_some_iff] using there
      exact every f (Array.mem_toList_iff.mpr (Array.mem_of_getElem? at_position))
    · intro every f member
      obtain ⟨i, at_position⟩ := List.mem_iff_getElem?.mp member
      refine every i f ?_
      rw [Array.getElem?_toList] at at_position
      rw [Frames.frameAt, at_position]
      rfl

/-- Finished frames of an analysis, and the frames of an inference: where the kinds are known and the
operands are as the opcodes require, both find the same heights and the same room. -/
theorem heights_agree {h : Hierarchy} {owner : String} {m : Method} {r : Frames}
    {frames : MethodFrames} (analyzed : analyze owner m = .ok r)
    (inferred : inferFrames h owner m = .ok frames) (nonempty : m.body.isEmpty = false)
    (plain : ∀ insn ∈ m.body, PlainReturn insn.node) (known : KnownKinds r.frameAt)
    (supplied : r.Supply m.body) :
    (∀ i f w, r.frameAt i = some f → frames.frameAt i = some w → w.stack.length = f.stackWords) ∧
      frames.maxStack = r.maxStack := by
  have positive := Body.size_pos nonempty
  obtain ⟨d, ranges, made, entry, count, parsed, covered, unknown, empty, fixpoint⟩ :=
    Analysis.postFixpoint_of_analyze analyzed positive fun _ _ _ => True.intro
  obtain ⟨d', ranges', fuel, final, parsed', covered', loop, done, same, room, short⟩ :=
    run_of_inferFrames nonempty inferred
  obtain rfl : ranges = ranges' := Option.some.inj (covered.symm.trans covered')
  obtain rfl : d = d' := by
    rw [Method.parseDescriptor, parsed] at parsed'
    cases parsed'
    rfl
  let code : Code := ⟨m.body, m.body.lastLabels, ranges⟩
  have typed : Typed True code _ entry r.frameAt := ⟨fixpoint, plain, known, supplied⟩
  obtain ⟨g, there, below⟩ := fixpoint.entry
  have begun : Typed.Compared code r.frameAt
      { frames := (Array.replicate m.body.size none).setIfInBounds 0
          (some (m.entryFrame owner d.arguments frames.maxLocals)), queue := [0] } := by
    have only {i : Nat} {w : TypeFrame} (found : ((Array.replicate m.body.size none).setIfInBounds 0
        (some (m.entryFrame owner d.arguments frames.maxLocals)))[i]?.join = some w) :
        i = 0 ∧ w = m.entryFrame owner d.arguments frames.maxLocals := by
      rw [InferenceContext.entered _ _ _ positive] at found
      split at found
      · next first => exact ⟨first, (Option.some.inj found).symm⟩
      · cases found
    refine ⟨by simp [code], fun i w found => ?_, ⟨0, g, there, Nat.zero_le _⟩, fun i live => ?_⟩
    · obtain ⟨rfl, rfl⟩ := only found
      exact ⟨g, there, (TypeFrame.agrees_entryFrame parsed unknown.2 empty).mono below
        (known 0 g there)⟩
    · obtain ⟨w, found⟩ := Option.isSome_iff_exists.mp live
      exact .inl (List.mem_singleton.mpr (only found).1)
  have compared : Typed.Compared code r.frameAt final := typed.run begun
    (show (InferenceContext.ofCode h owner m.signature code).run fuel _ = .ok final from loop) short
  have at_ (i : Nat) : frames.frameAt i = final.frameAt i := by
    rw [MethodFrames.frameAt, same]
    rfl
  refine ⟨fun i f w there inferred => ?_, ?_⟩
  · obtain ⟨f', there', agrees⟩ := compared.agrees i w (at_ i ▸ inferred)
    obtain rfl : f = f' := Option.some.inj (there.symm.trans there')
    exact agrees.height
  · obtain ⟨words, reported, least⟩ := maxStack_of_analyze analyzed
    obtain ⟨i, f, there, needed⟩ := compared.attained
    have enough := (least words).mp le_rfl i f there
    have most : words ≤ final.maxStack := by
      refine (least _).mpr fun i f there => ?_
      have live : final.Live i := by
        rw [InferenceState.Live, ← InferenceState.frameAt, ← at_ i, inferredAt_iff_reached inferred,
          ← Analysis.frameAt_iff_reached analyzed, there]
        rfl
      rcases compared.noted i live with waits | ⟨f', there', fits⟩
      · rw [done] at waits
        cases waits
      · obtain rfl : f = f' := Option.some.inj (there.symm.trans there')
        exact fits
    omega

/-- **The analysis and the inference agree.** Both have frames exactly at the positions that control
reaches. Where the analysis knows the kinds of all stack entries and the operands are as the opcodes
require, the words on the stacks are as many, and both report the same room, unless the name of a class
that a call returns contains a closing parenthesis. -/
theorem frames_agree {h : Hierarchy} {owner : String} {m : Method} {r : Frames}
    {frames : MethodFrames} (analyzed : analyze owner m = .ok r)
    (inferred : inferFrames h owner m = .ok frames) :
    (∀ i, ((r.frameAt i).isSome ↔ m.Reaches i) ∧ ((frames.frameAt i).isSome ↔ m.Reaches i)) ∧
      ((∀ insn ∈ m.body, PlainReturn insn.node) → KnownKinds r.frameAt →
        r.Supply m.body →
        (∀ i f w, r.frameAt i = some f → frames.frameAt i = some w →
          w.stack.length = f.stackWords) ∧ frames.maxStack = r.maxStack) := by
  refine ⟨fun i => ⟨Analysis.frameAt_iff_reached analyzed i, inferredAt_iff_reached inferred i⟩,
    fun plain known supplied => ?_⟩
  cases nonempty : m.body.isEmpty with
  | false => exact heights_agree analyzed inferred nonempty plain known supplied
  | true =>
    have nowhere (i : Nat) (f : Frame) (there : r.frameAt i = some f) : False :=
      m.not_reaches_of_isEmpty nonempty i
        ((Analysis.frameAt_iff_reached analyzed i).mp (Option.isSome_of_eq_some there))
    obtain ⟨words, reported, least⟩ := maxStack_of_analyze analyzed
    have none_ := (least 0).mpr fun i f there => (nowhere i f there).elim
    have room : frames.maxStack = 0 := by
      rw [inferFrames] at inferred
      obtain ⟨descriptor, -, inferred⟩ := ok_of_bind inferred
      simp only [nonempty, if_true] at inferred
      cases inferred
      rfl
    exact ⟨fun i f w there _ => (nowhere i f there).elim, by omega⟩

/-- A static method that adds a long to its copy. -/
def Method.doublingLong : Method where
  id := ⟨0⟩
  access := 9
  name := "double"
  descriptor := "()J"
  maxLocals := 0
  body := Analysis.numbered [.simple 0x0a, .simple 0x5c, .simple 0x61, .simple 0xad]

/-- Both copies of the long count twice. -/
theorem frames_agree_doublingLong : ∃ r frames f w,
    analyze "A" Method.doublingLong = .ok r ∧
    inferFrames (fun _ => none) "A" Method.doublingLong = .ok frames ∧ KnownKinds r.frameAt ∧
    r.Supply Method.doublingLong.body ∧ Method.doublingLong.Reaches 2 ∧ r.frameAt 2 = some f ∧
    frames.frameAt 2 = some w ∧ f.stackWords = 4 ∧ w.stack.length = 4 ∧
    r.maxStack = 4 ∧ frames.maxStack = 4 := by
  have evaluated : (analyze "A" Method.doublingLong).toOption.any (fun r =>
      decide (KnownKinds r.frameAt) && (decide (r.Supply Method.doublingLong.body) &&
        ((r.frameAt 2).map Frame.stackWords == some 4 && r.maxStack == 4))) = true := by
    unfold analyze
    rw [Body.ofTable_labelTable]
    decide +kernel
  have accepted : (inferFrames (fun _ => none) "A" Method.doublingLong).toOption.any
      (fun _ => true) = true := by
    rw [inferFrames, Body.ofTable_labelTable]
    decide +kernel
  obtain ⟨r, analyzed, holds⟩ := Analysis.exists_of_any evaluated
  obtain ⟨frames, inferred, -⟩ := Analysis.exists_of_any accepted
  simp only [Bool.and_eq_true, decide_eq_true_eq, beq_iff_eq] at holds
  obtain ⟨known, supply, height, room⟩ := holds
  obtain ⟨f, there, words⟩ := Option.map_eq_some_iff.mp height
  have plain : ∀ insn ∈ Method.doublingLong.body, PlainReturn insn.node := by
    simp [Method.doublingLong, Analysis.numbered, PlainReturn, Analysis.callDescriptor?]
  obtain ⟨both, same⟩ := frames_agree analyzed inferred
  obtain ⟨heights, rooms⟩ := same plain known supply
  have reached := (both 2).1.mp (Option.isSome_of_eq_some there)
  obtain ⟨w, inferredThere⟩ := Option.isSome_iff_exists.mp ((both 2).2.mpr reached)
  exact ⟨r, frames, f, w, analyzed, inferred, known, supply, reached, there, inferredThere, words,
    (heights 2 f w there inferredThere).trans words, room, rooms.trans room⟩

/-- A static method that calls a method whose return type has a closing parenthesis in its name. -/
def Method.callingUnplain : Method where
  id := ⟨0⟩
  access := 9
  name := "m"
  descriptor := "()V"
  maxLocals := 0
  body := Analysis.numbered [.call Opcode.invokestatic "X" "f" "()La)b;" false, .simple Opcode.vreturn]

/-- The analysis misses the result of the call, which the inference has on the stack. -/
theorem heights_differ_callingUnplain : ∃ r frames f w,
    analyze "A" Method.callingUnplain = .ok r ∧
    inferFrames (fun _ => none) "A" Method.callingUnplain = .ok frames ∧ KnownKinds r.frameAt ∧
    r.Supply Method.callingUnplain.body ∧ r.frameAt 1 = some f ∧ frames.frameAt 1 = some w ∧
    f.stackWords = 0 ∧ w.stack.length = 1 ∧ r.maxStack = 0 ∧ frames.maxStack = 1 := by
  have evaluated : (analyze "A" Method.callingUnplain).toOption.any (fun r =>
      decide (KnownKinds r.frameAt) && (decide (r.Supply Method.callingUnplain.body) &&
        ((r.frameAt 1).map Frame.stackWords == some 0 && r.maxStack == 0))) = true := by
    unfold analyze
    rw [Body.ofTable_labelTable]
    decide +kernel
  have evaluated' : (inferFrames (fun _ => none) "A" Method.callingUnplain).toOption.any
      (fun frames => (frames.frameAt 1).map (·.stack.length) == some 1 && frames.maxStack == 1) =
      true := by
    rw [inferFrames, Body.ofTable_labelTable]
    decide +kernel
  obtain ⟨r, analyzed, holds⟩ := Analysis.exists_of_any evaluated
  obtain ⟨frames, inferred, holds'⟩ := Analysis.exists_of_any evaluated'
  simp only [Bool.and_eq_true, decide_eq_true_eq, beq_iff_eq] at holds holds'
  obtain ⟨known, supply, height, room⟩ := holds
  obtain ⟨f, there, words⟩ := Option.map_eq_some_iff.mp height
  obtain ⟨w, there', words'⟩ := Option.map_eq_some_iff.mp holds'.1
  exact ⟨r, frames, f, w, analyzed, inferred, known, supply, there, there', words, words', room,
    holds'.2⟩

end Bytecode
