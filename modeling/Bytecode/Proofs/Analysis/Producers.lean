import Bytecode.Proofs.Analysis.Paths
import Bytecode.Proofs.Analysis.Visits

/-!
# Sources are the producers that reach an instruction

`sources_exact` compares the sources of a stack entry with the paths of a method: an instruction is
among them if and only if some path leads to the entry with a token that the instruction made.

One direction is that a frame fits every path. For the other one, every frame that the loop has at any
time is `Justified`: to each source of a stack entry there is a path. A visit keeps that, because the
path to the position of the visit can be continued. The kinds that decide how it continues are those
of the final frame, which fits the path and lies above the visited one.

The analysis reads the return type of a call behind the last closing parenthesis of its descriptor, so
that a class name with a closing parenthesis hides the result: `sources_exact` excludes such calls, and
`misread_return` shows what happens otherwise.
-/

namespace Bytecode.Analysis

open Tokens
open Machine (Code codeOf? parameterKinds)

/-- Paths lead to a position, and to every source of a stack entry there. -/
structure Justified (code : Code) (origin : Point) (i : Nat) (f : Frame) : Prop where
  reached : ∃ p, Reaches code origin p ∧ p.position = i
  sources : ∀ (k : Nat) v id, f.stack[k]? = some v → id ∈ v.sources →
    ∃ p t, Reaches code origin p ∧ p.position = i ∧ p.stack[k]? = some t ∧ t.producer = some id

section

variable {code : Code} {origin : Point} {flow flow' : Flow} {f g : Frame} {i target : Nat}

/-- All frames of a flow are justified. -/
def JustifiedFlow (code : Code) (origin : Point) (flow : Flow) : Prop :=
  ∀ i f, flow.at i = some f → Justified code origin i f

/-- Carrying a justified frame to its position keeps all frames justified. -/
theorem mergeInto_justified (h : JustifiedFlow code origin flow)
    (incoming : Justified code origin target f) (run : Flow.mergeInto flow target f = .ok flow') :
    JustifiedFlow code origin flow' := by
  obtain ⟨g, frames, cases⟩ := Flow.mergeInto_cases run
  intro i f' found
  rcases Flow.at_of_set frames found with ⟨rfl, rfl⟩ | old
  · rcases cases with ⟨-, rfl, -⟩ | ⟨existing, changed, there, joined, -⟩
    · exact incoming
    · obtain ⟨-, _, _, _, -, below, -⟩ := frameMerge_eq_ok joined
      refine ⟨incoming.reached, fun k v id found source => ?_⟩
      obtain ⟨old, hold, -, sources⟩ := mergeSlots_slot below found
      rcases sources id source with before | ⟨new, hnew, after⟩
      · exact (h _ existing there).sources k old id hold before
      · exact incoming.sources k new id hnew after
  · exact h i f' old

/-- Under a frame that knows its kinds there are the same kinds. -/
theorem Frame.Le.kinds (below : f.Le g) (known : g.Known) : f.kinds = g.kinds := by
  have equal : List.Forall₂ (· = ·) (f.stack.map Value.kind) (g.stack.map Value.kind) := by
    rw [List.forall₂_map_left_iff, List.forall₂_map_right_iff]
    refine forall₂_of_getElem? below.stack.length_eq fun k u v hu hv => ?_
    obtain ⟨u', hu', le⟩ := getElem?_of_forall₂ below.stack hv
    obtain rfl : u = u' := Option.some.inj (hu.symm.trans hu')
    exact (le.kind.resolve_right (known v (List.mem_of_getElem? hv))).symm
  exact List.forall₂_eq_eq_eq ▸ equal

theorem Frame.Le.slotKind {k : Nat} {kind : Kind} (below : f.Le g) (found : g.slotKind k = some kind)
    (known : kind ≠ .uninitialized) : f.slotKind k = some kind := by
  obtain ⟨v, there, rfl⟩ := Option.map_eq_some_iff.mp found
  obtain ⟨u, hu, le⟩ := getElem?_of_forall₂ below.locals there
  rw [Frame.slotKind, hu, Option.map_some, le.kind.resolve_right known]

variable {frames : Nat → Option Frame} {visits : List Visit} {entry : Frame} {builders : Prop}

/-- The frame behind an instruction is justified at every successor. -/
theorem justified_after (fixpoint : PostFixpoint builders (contextOf code) visits entry frames)
    (plain : ∀ insn ∈ code.body, PlainReturn insn.node) (known : KnownKinds frames)
    (fits : ∀ p, Reaches code origin p → ∃ f, frames p.position = some f ∧ f.Fits p)
    {final : Frame} {insn : Insn} {s s' : Store} (there : frames i = some final) (below : f.Le final)
    (justified : Justified code origin i f) (at_position : code.body[i]? = some insn)
    (executed : f.execute code.body i insn s = .ok (g, s')) (edge : Edge code i insn.node target) :
    Justified code origin target g := by
  obtain ⟨m, x, moves⟩ := moves_of_execute (plain _ (Array.mem_of_getElem? at_position)) executed
  -- what the last visit of the position has found decides how a path goes on
  obtain @⟨insn', _, _, after, _, _, at_position', -, -, executed', successors, arrives, -, -⟩ :=
    fixpoint.settled _ final there
  obtain rfl : insn = insn' := Option.some.inj (at_position.symm.trans at_position')
  obtain ⟨m', x', moves'⟩ := moves_of_execute (plain _ (Array.mem_of_getElem? at_position)) executed'
  obtain rfl : m = m' := Option.some.inj (moves.movement.symm.trans moves'.movement)
  have behind := (arrives target ((mem_successors_iff successors target).mpr edge)).known known
  have goesOn (p : Point) (reaches : Reaches code origin p) (here : p.position = i) :
      ∃ q, Reaches code origin q ∧ q.position = target ∧ p.Advanced insn m x q := by
    obtain ⟨f', there', hfits⟩ := fits p reaches
    obtain rfl : final = f' := Option.some.inj (there.symm.trans (here ▸ there'))
    have kinds : p.kinds = f.kinds := hfits.kinds.trans (below.kinds (known i final there)).symm
    have slots (slot : UInt16) (load : m = .load slot) :
        p.slotKind slot.toNat = f.slotKind slot.toNat := by
      subst load
      obtain ⟨kind, found, isKnown⟩ := moves'.loaded behind
      rw [hfits.slotKind found isKnown, below.slotKind found isKnown]
    obtain ⟨q, advances, position, advanced⟩ := moves.advance kinds slots target
    exact ⟨q, .tail reaches (.edge (here ▸ at_position) (here ▸ edge) advances), position, advanced⟩
  refine ⟨?_, fun k v id found source => ?_⟩
  · obtain ⟨p, reaches, here⟩ := justified.reached
    obtain ⟨q, reaches', position, -⟩ := goesOn p reaches here
    exact ⟨q, reaches', position⟩
  · have comes := moves.entry found
    cases origin : x.origin k with
    | kept depth =>
      rw [origin] at comes
      obtain ⟨p, t, reaches, here, ht, producer⟩ := justified.sources depth v id comes source
      obtain ⟨q, reaches', position, advanced⟩ := goesOn p reaches here
      refine ⟨q, t, reaches', position, ?_, producer⟩
      rw [advanced.entries, origin]
      exact ht
    | made kind =>
      rw [origin] at comes
      rw [comes.2, List.mem_singleton] at source
      subst source
      obtain ⟨p, reaches, here⟩ := justified.reached
      obtain ⟨q, reaches', position, advanced⟩ := goesOn p reaches here
      exact ⟨q, _, reaches', position, by rw [advanced.entries, origin]; rfl, rfl⟩

/-- The entry of a handler is justified there: the exception has no source. -/
theorem justified_caught {range : CoveredRange} {s s' : Store} (justified : Justified code origin i f)
    (member : range ∈ code.ranges) (covers : range.covers i = true)
    (run : Flow.handlerFrame f range.caught s = .ok (g, s')) :
    Justified code origin range.handler g := by
  obtain ⟨p, reaches, here⟩ := justified.reached
  refine ⟨⟨p.caught range.handler, .tail reaches (.handler member (here ▸ covers)), rfl⟩,
    fun k v id found source => ?_⟩
  obtain ⟨u, -, ⟨nothing, -⟩, rfl⟩ := handlerFrame_eq_ok run
  obtain rfl := List.mem_singleton.mp (List.mem_of_getElem? found)
  rw [nothing] at source
  cases source

/-- A visit keeps all frames justified. -/
theorem visit_justified (fixpoint : PostFixpoint builders (contextOf code) visits entry frames)
    (plain : ∀ insn ∈ code.body, PlainReturn insn.node) (known : KnownKinds frames)
    (fits : ∀ p, Reaches code origin p → ∃ f, frames p.position = some f ∧ f.Fits p)
    (below : ∀ i f, flow.at i = some f → ∃ g, frames i = some g ∧ f.Le g)
    (h : JustifiedFlow code origin flow) (run : Flow.visit (contextOf code) i flow = .ok flow') :
    JustifiedFlow code origin flow' := by
  rcases Flow.visit_eq_ok run with ⟨insn, before, at_position, there, run⟩ | ⟨rfl, -⟩
  · obtain ⟨after, store, targets, flow₁, fail, executed, successors, carried, handled⟩ :=
      Flow.visitNode_eq_ok run
    obtain ⟨final, there', le⟩ := below i before there
    have justified := h i before there
    have first : JustifiedFlow code origin flow₁ := by
      refine foldlM_invariant (I := JustifiedFlow code origin) (s := { flow with store })
        (fun t member s s' hs step => ?_) h carried
      exact mergeInto_justified hs (justified_after fixpoint plain known fits there' le justified
        at_position executed ((mem_successors_iff successors t).mp member)) step
    refine foldlM_invariant (I := JustifiedFlow code origin) (fun r member s s' hs step => ?_) first handled
    obtain ⟨inside, covers⟩ := List.mem_filter.mp member
    obtain ⟨entry, store, made, step⟩ := Flow.visitHandler_eq_ok step
    have hs : JustifiedFlow code origin { s with store } := hs
    exact mergeInto_justified hs (justified_caught justified inside covers made) step
  · exact h

/-- The loop keeps all frames justified. -/
theorem run_justified (fixpoint : PostFixpoint builders (contextOf code) visits entry frames)
    (plain : ∀ insn ∈ code.body, PlainReturn insn.node) (known : KnownKinds frames)
    (fits : ∀ p, Reaches code origin p → ∃ f, frames p.position = some f ∧ f.Fits p)
    (closed : (contextOf code).Closed builders) {fuel width : Nat} {made : List Value}
    {log : List Visit} (valid : flow.Valid builders (contextOf code) log entry width made)
    (run : Flow.run (contextOf code) fuel flow = .ok flow') (final : flow'.at = frames)
    (h : JustifiedFlow code origin flow) : JustifiedFlow code origin flow' := by
  induction fuel generalizing flow made log with
  | zero =>
    cases run
    exact h
  | succ fuel ih =>
    have below := Flow.run_larger closed valid run
    rw [Flow.Below, final] at below
    rw [Flow.run] at run
    split at run
    · cases run
      exact h
    · next i queue first =>
      cases visited : Flow.visit (contextOf code) i { flow with queue } with
      | error e =>
        rw [visited] at run
        cases run
      | ok next =>
        rw [visited] at run
        obtain ⟨made', valid'⟩ := Flow.visit_valid closed valid first visited
        refine ih valid' run (visit_justified fixpoint plain known fits ?_ ?_ visited)
        · exact below
        · exact h

end

/-- **Sources are the producers that reach an instruction.** There is a frame before an instruction if
and only if a path of the method leads there. All these paths find a stack of the height of the frame,
and an instruction is a source of an entry if and only if one of them finds a token there that the
instruction made. -/
theorem sources_exact {owner : String} {m : Method} {r : Frames} {i : Nat} {insn : Insn}
    (analyzed : analyze owner m = .ok r) (plain : ∀ insn ∈ m.body, PlainReturn insn.node)
    (known : KnownKinds r.frameAt) (at_position : m.body[i]? = some insn) :
    ((r.frameAt i).isSome ↔ ∃ p, OnPath m p ∧ p.position = i) ∧
    ∀ f, r.frameAt i = some f →
      (∀ p, OnPath m p → p.position = i → p.stack.length = f.stack.length) ∧
      ∀ (k : Nat) v id, f.stack[k]? = some v →
        (id ∈ v.sources ↔ ∃ p t, OnPath m p ∧ p.position = i ∧ p.stack[k]? = some t ∧
          t.producer = some id) := by
  have nonempty : 0 < m.body.size := Nat.zero_lt_of_lt (Array.getElem?_eq_some_iff.mp at_position).1
  have fits (p : Point) (path : OnPath m p) := fits_of_onPath analyzed nonempty plain known path
  have justified (f : Frame) (there : r.frameAt i = some f) :
      ∃ code kinds, codeOf? m = some code ∧ parameterKinds m = some kinds ∧
        Justified code (start kinds) i f := by
    obtain ⟨d, ranges, made, fuel, flow, parsed, covered, closed, valid, run, done, final, -⟩ :=
      loop_of_analyze analyzed nonempty fun _ _ _ => True.intro
    let code : Code := ⟨m.body, m.body.lastLabels, ranges⟩
    have executed : codeOf? m = some code := by rw [codeOf?, covered]; rfl
    refine ⟨code, _, executed, by rw [parameterKinds, parsed]; rfl, ?_⟩
    obtain ⟨made', valid'⟩ := Flow.run_valid closed valid run
    have fixpoint := valid'.postFixpoint done
    rw [final] at fixpoint
    have fixpoint : PostFixpoint True (contextOf code) _ _ r.frameAt := fixpoint
    refine run_justified fixpoint plain known (fun p reaches => ?_) closed valid run final
      (fun j g found => ?_) i f (by rw [final]; exact there)
    · exact fits p ⟨code, _, executed, by rw [parameterKinds, parsed]; rfl, reaches⟩
    · obtain ⟨rfl, rfl⟩ := Flow.at_start nonempty found
      exact ⟨⟨_, .refl, rfl⟩, fun k v id found => by simp [entryOf] at found⟩
  refine ⟨⟨fun there => ?_, fun led => ?_⟩, fun f there =>
    ⟨fun p path here => ?_, fun k v id found => ⟨fun source => ?_, fun led => ?_⟩⟩⟩
  · obtain ⟨f, there⟩ := Option.isSome_iff_exists.mp there
    obtain ⟨code, kinds, executed, passed, ⟨p, reaches, here⟩, -⟩ := justified f there
    exact ⟨p, ⟨code, kinds, executed, passed, reaches⟩, here⟩
  · obtain ⟨p, path, here⟩ := led
    obtain ⟨f, there, -⟩ := fits p path
    rw [← here, there]
    rfl
  · obtain ⟨f', there', hfits⟩ := fits p path
    obtain rfl : f = f' := Option.some.inj (there.symm.trans (here ▸ there'))
    exact hfits.stack.length_eq
  · obtain ⟨code, kinds, executed, passed, -, sources⟩ := justified f there
    obtain ⟨p, t, reaches, here, ht, producer⟩ := sources k v id found source
    exact ⟨p, t, ⟨code, kinds, executed, passed, reaches⟩, here, ht, producer⟩
  · obtain ⟨p, t, path, here, ht, producer⟩ := led
    obtain ⟨f', there', hfits⟩ := fits p path
    obtain rfl : f = f' := Option.some.inj (there.symm.trans (here ▸ there'))
    obtain ⟨t', ht', knows⟩ := getElem?_of_forall₂ hfits.stack found
    obtain rfl : t = t' := Option.some.inj (ht.symm.trans ht')
    exact knows.2 id producer

/-! ## Samples -/

instance (r : Frames) : Decidable (KnownKinds r.frameAt) :=
  decidable_of_iff (∀ i < r.frames.size, ∀ f ∈ r.frameAt i, ∀ v ∈ f.stack, v.kind ≠ .uninitialized)
    ⟨fun h i f there => h i (by
        by_contra outside
        rw [Frames.frameAt, Array.getElem?_eq_none (Nat.not_lt.mp outside)] at there
        cases there) f there,
      fun h i _ f there => h i f there⟩

/-- The sources of a stack entry in the frame at a position. -/
def Frames.sourcesAt (r : Frames) (i depth : Nat) : Option InsnSet :=
  (r.frameAt i).bind fun f => (f.stackAt? depth).map Value.sources

/-- A static method that adds a constant to its copy. -/
def doubleMethod : Method where
  id := ⟨0⟩
  access := 9
  name := "double"
  descriptor := "()I"
  maxLocals := 0
  body := numbered [.simple 0x04, .simple 0x59, .simple 0x60, .simple Opcode.ireturn]

/-- A path brings the copy to the top of the stack, and the original below it. -/
theorem sources_exact_double : ∃ r f v w, analyze "A" doubleMethod = .ok r ∧ KnownKinds r.frameAt ∧
    r.frameAt 2 = some f ∧ f.stack[0]? = some v ∧ f.stack[1]? = some w ∧
    v.sources = [⟨1⟩] ∧ w.sources = [⟨0⟩] ∧
    (∃ p t, OnPath doubleMethod p ∧ p.position = 2 ∧ p.stack[0]? = some t ∧ t.producer = some ⟨1⟩) ∧
    ∃ p t, OnPath doubleMethod p ∧ p.position = 2 ∧ p.stack[1]? = some t ∧ t.producer = some ⟨0⟩ := by
  have evaluated : (analyze "A" doubleMethod).toOption.any (fun r =>
      decide (KnownKinds r.frameAt) &&
        (r.sourcesAt 2 0 == some [⟨1⟩] && r.sourcesAt 2 1 == some [⟨0⟩])) = true := by
    unfold analyze
    rw [Body.ofTable_labelTable]
    decide +kernel
  obtain ⟨r, analyzed, holds⟩ := exists_of_any evaluated
  obtain ⟨known, sources⟩ := Bool.and_eq_true_iff.mp holds
  obtain ⟨top, below⟩ := Bool.and_eq_true_iff.mp sources
  have known : KnownKinds r.frameAt := of_decide_eq_true known
  obtain ⟨f, there, found⟩ := Option.bind_eq_some_iff.mp (beq_iff_eq.mp top)
  obtain ⟨f', there', found'⟩ := Option.bind_eq_some_iff.mp (beq_iff_eq.mp below)
  obtain rfl : f = f' := Option.some.inj (there.symm.trans there')
  obtain ⟨v, hv, vSources⟩ := Option.map_eq_some_iff.mp found
  obtain ⟨w, hw, wSources⟩ := Option.map_eq_some_iff.mp found'
  obtain ⟨-, exact⟩ := sources_exact analyzed
    (by simp [doubleMethod, numbered, PlainReturn, callDescriptor?]) known
    (show doubleMethod.body[2]? = some ⟨⟨2⟩, .simple 0x60⟩ from rfl)
  obtain ⟨-, reaching⟩ := exact f there
  exact ⟨r, f, v, w, analyzed, known, there, hv, hw, vSources, wSources,
    (reaching 0 v ⟨1⟩ hv).mp (by simp [vSources]), (reaching 1 w ⟨0⟩ hw).mp (by simp [wSources])⟩

/-- A static method that calls a method whose return type has a closing parenthesis in its name. -/
def misreadMethod : Method where
  id := ⟨0⟩
  access := 9
  name := "m"
  descriptor := "()V"
  maxLocals := 0
  body := numbered [.simple 0x04, .call Opcode.invokestatic "X" "f" "()La)b;" false, .simple 0x05,
    .simple Opcode.vreturn]

/-- The result of a call is missing if a class name hides it: before the last instruction a path has the
result below the top, where the frame has the value of another instruction. -/
theorem misread_return : ∃ r, analyze "A" misreadMethod = .ok r ∧ KnownKinds r.frameAt ∧
    r.sourcesAt 3 1 = some [⟨0⟩] ∧
    ∃ p t, OnPath misreadMethod p ∧ p.position = 3 ∧ p.stack[1]? = some t ∧ t.producer = some ⟨1⟩ := by
  have evaluated : (analyze "A" misreadMethod).toOption.any (fun r =>
      decide (KnownKinds r.frameAt) && r.sourcesAt 3 1 == some [⟨0⟩]) = true := by
    unfold analyze
    rw [Body.ofTable_labelTable]
    decide +kernel
  obtain ⟨r, analyzed, holds⟩ := exists_of_any evaluated
  obtain ⟨known, sources⟩ := Bool.and_eq_true_iff.mp holds
  have call : callMovement 0 "()La)b;" = some (.operate 0 (some .reference)) := by decide +kernel
  let code : Code := ⟨misreadMethod.body, misreadMethod.body.lastLabels, []⟩
  have first : Reaches code (start [])
      ⟨1, (start []).slots, [⟨0, .int, some ⟨0⟩⟩], 2⟩ :=
    .tail .refl (.edge rfl (.next rfl) rfl)
  have second : Reaches code (start [])
      ⟨2, (start []).slots, [⟨2, .reference, some ⟨1⟩⟩, ⟨0, .int, some ⟨0⟩⟩], 4⟩ := by
    have at_call : misreadMethod.body[1]? =
        some ⟨⟨1⟩, .call Opcode.invokestatic "X" "f" "()La)b;" false⟩ := rfl
    refine .tail first (.edge at_call (.next rfl) ?_)
    rw [Point.advance, movement?, if_pos rfl, call]
    rfl
  have third : Reaches code (start []) ⟨3, (start []).slots,
      [⟨4, .int, some ⟨2⟩⟩, ⟨2, .reference, some ⟨1⟩⟩, ⟨0, .int, some ⟨0⟩⟩], 6⟩ :=
    .tail second (.edge rfl (.next rfl) rfl)
  exact ⟨r, analyzed, of_decide_eq_true known, beq_iff_eq.mp sources, _, _,
    ⟨code, [], rfl, by decide +kernel, third⟩, rfl, rfl, rfl⟩

end Bytecode.Analysis
