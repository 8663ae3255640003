import Bytecode.Proofs.Analysis.UsageClasses
import Bytecode.Proofs.Analysis.Visits

/-!
# Keys that control flow links

Where a value can go, its usage class goes along. When the loop is done, the frame behind an
instruction and the frame before each of its successors have, slot by slot, keys of one class, and so
have the local variables before an instruction and at the handlers around it. Every instruction is
noted at its operands.

The invariant speaks of all visits of the loop: what a visit has left is linked to the frames at the
successors from then on (`Visit.Left`). It needs no account of the queue, because a slot of a frame
never changes its key (`Flow.Keeps`) and classes only grow. The last visit of a position is one of
them, and `linked_of_analyze` reads off what holds of the final frames.
-/

namespace Bytecode.Analysis

open Tokens

/-! ## Linked slots -/

/-- Slot by slot, values have known keys of one class. -/
def Linked (t : UsageTable) (vs ws : List Value) : Prop :=
  ∀ (k : Nat) v w, vs[k]? = some v → ws[k]? = some w →
    t.Knows v.key ∧ t.Knows w.key ∧ t.find v.key = t.find w.key

/-- The later slots have the keys of the earlier ones. -/
def SameKeys (vs ws : List Value) : Prop :=
  ∀ (k : Nat) w, ws[k]? = some w → ∃ v, vs[k]? = some v ∧ w.key = v.key

section

variable {t t' : UsageTable} {us vs ws : List Value}

theorem Linked.later (h : Linked t vs ws) (later : t.Later t') : Linked t' vs ws := by
  intro k v w hv hw
  obtain ⟨knowsV, knowsW, same⟩ := h k v w hv hw
  exact ⟨later.knows _ knowsV, later.knows _ knowsW, later.same _ _ knowsV knowsW same⟩

theorem Linked.keys (h : Linked t us vs) (same : SameKeys vs ws) : Linked t us ws := by
  intro k u w hu hw
  obtain ⟨v, hv, key⟩ := same k w hw
  rw [key]
  exact h k u v hu hv

/-- Values that the table knows are linked to themselves. -/
theorem linked_refl (h : ∀ v ∈ vs, t.Knows v.key) : Linked t vs vs := by
  intro k v w hv hw
  obtain rfl : v = w := Option.some.inj (hv.symm.trans hw)
  exact ⟨h v (List.mem_of_getElem? hv), h v (List.mem_of_getElem? hv), rfl⟩

theorem linked_nil : Linked t [] ws :=
  fun _ _ _ h => nomatch h

theorem SameKeys.refl (vs : List Value) : SameKeys vs vs :=
  fun _ w h => ⟨w, h, rfl⟩

theorem SameKeys.trans (first : SameKeys us vs) (second : SameKeys vs ws) : SameKeys us ws := by
  intro k w hw
  obtain ⟨v, hv, key⟩ := second k w hw
  obtain ⟨u, hu, key'⟩ := first k v hv
  exact ⟨u, hu, key.trans key'⟩

/-! ## Joins -/

/-- A join unites the classes of both values. -/
theorem merge_links {old incoming : Value} (hold : t.Knows old.key) (hincoming : t.Knows incoming.key) :
    usagePhases.Ensures t (Store.merge old incoming) fun t' joined =>
      t'.Knows joined.key ∧ t'.Knows incoming.key ∧ t'.find incoming.key = t'.find joined.key := by
  rintro s ⟨rfl, lists⟩
  have merged : Store.merge old incoming s =
    ((Store.merge old incoming s).1, (Store.merge old incoming s).2) := rfl
  obtain ⟨key, usages, -⟩ := merge_eq merged
  obtain ⟨lists', later, same⟩ := UsageTable.union_later lists hold hincoming
  refine ⟨_, later, ⟨usages, lists'⟩, ?_, later.knows _ hincoming, ?_⟩
  · rw [key]
    exact later.knows _ hold
  · rw [key]
    exact same.symm

/-- A join of slots links the incoming slots to the joined ones. -/
theorem mergeSlots_links {olds news : List Value} (holds : ∀ v ∈ olds, t.Knows v.key)
    (hnews : ∀ v ∈ news, t.Knows v.key) :
    usagePhases.Ensures t (Frame.mergeSlots olds news) fun t' result =>
      (∀ v ∈ result.1, t'.Knows v.key) ∧ Linked t' news result.1 := by
  induction olds generalizing t news with
  | nil => 
    cases news with
    | nil => exact .pure ⟨by simp, linked_nil⟩
    | cons => exact .pure ⟨by simp, fun _ _ _ _ h => nomatch h⟩
  | cons old olds ih =>
    cases news with
    | nil => exact .pure ⟨holds, linked_nil⟩
    | cons new news =>
      obtain ⟨hold, holds⟩ := List.forall_mem_cons.mp holds
      obtain ⟨hnew, hnews⟩ := List.forall_mem_cons.mp hnews
      refine .bind (merge_links hold hnew) fun t₁ joined later first => ?_
      refine .bind (ih (fun v member => later.knows _ (holds v member))
        fun v member => later.knows _ (hnews v member)) fun t₂ rest later' others => .pure ?_
      refine ⟨List.forall_mem_cons.mpr ⟨later'.knows _ first.1, others.1⟩, fun k v w hv hw => ?_⟩
      cases k with
      | zero =>
        cases hv
        cases hw
        exact ⟨later'.knows _ first.2.1, later'.knows _ first.1,
          later'.same _ _ first.2.1 first.1 first.2.2⟩
      | succ k => exact others.2 k v w hv hw

end

/-! ## Flows -/

/-- The table of a flow is in order, and knows the keys of all frames. -/
structure Flow.Tabled (ctx : Context) (flow : Flow) : Prop where
  lists : flow.store.usages.Lists
  size : flow.frames.size = ctx.body.size
  known : ∀ i f, flow.at i = some f → f.Every (usagePhases.good flow.store.usages)

/-- Classes grow, and no slot of a frame changes its key. -/
structure Flow.Keeps (flow flow' : Flow) : Prop where
  later : flow.store.usages.Later flow'.store.usages
  keys : ∀ i f, flow.at i = some f →
    ∃ g, flow'.at i = some g ∧ SameKeys f.locals g.locals ∧ SameKeys f.stack g.stack

/-- Slots are linked to those of the frame at a position. -/
def Flow.LinkedAt (flow : Flow) (i : Nat) (locals stack : List Value) : Prop :=
  ∃ g, flow.at i = some g ∧ Linked flow.store.usages locals g.locals ∧
    Linked flow.store.usages stack g.stack

namespace Flow

variable {ctx : Context} {flow flow' flow'' : Flow} {i target : Nat} {incoming : Frame}
  {locals stack : List Value}

theorem Keeps.refl (flow : Flow) : flow.Keeps flow :=
  ⟨.refl _, fun _ f h => ⟨f, h, .refl _, .refl _⟩⟩

theorem Keeps.trans (first : flow.Keeps flow') (second : flow'.Keeps flow'') : flow.Keeps flow'' where
  later := first.later.trans second.later
  keys := fun i f found => by
    obtain ⟨g, hg, locals, stack⟩ := first.keys i f found
    obtain ⟨g', hg', locals', stack'⟩ := second.keys i g hg
    exact ⟨g', hg', locals.trans locals', stack.trans stack'⟩

theorem LinkedAt.keeps (h : flow.LinkedAt i locals stack) (keeps : flow.Keeps flow') :
    flow'.LinkedAt i locals stack := by
  obtain ⟨f, found, linkedLocals, linkedStack⟩ := h
  obtain ⟨g, found', sameLocals, sameStack⟩ := keeps.keys i f found
  exact ⟨g, found', (linkedLocals.later keeps.later).keys sameLocals,
    (linkedStack.later keeps.later).keys sameStack⟩

/-- Carrying a frame to a position links it to the frame there. -/
theorem mergeInto_links (h : flow.Tabled ctx) (inside : target < ctx.body.size)
    (known : incoming.Every (usagePhases.good flow.store.usages))
    (run : mergeInto flow target incoming = .ok flow') :
    flow'.Tabled ctx ∧ flow.Keeps flow' ∧ flow'.LinkedAt target incoming.locals incoming.stack := by
  obtain ⟨g, frames, cases⟩ := mergeInto_cases run
  have size : flow'.frames.size = ctx.body.size := by
    rw [frames, Array.size_setIfInBounds, h.size]
  have there : flow'.at target = some g := by
    rw [Flow.at, frames, Array.getElem?_setIfInBounds, if_pos rfl, if_pos (h.size ▸ inside)]
    rfl
  have elsewhere (j : Nat) (other : j ≠ target) : flow'.at j = flow.at j := by
    rw [Flow.at, frames, Array.getElem?_setIfInBounds, if_neg other.symm]
    rfl
  rcases cases with ⟨empty, rfl, store, -⟩ | ⟨existing, changed, here, joined, -⟩
  · refine ⟨⟨store ▸ h.lists, size, fun j f found => ?_⟩, ⟨store ▸ .refl _, fun j f found => ?_⟩,
      g, there, store ▸ linked_refl known.locals, store ▸ linked_refl known.stack⟩
    · rw [store]
      rcases at_of_set frames found with ⟨-, rfl⟩ | old
      · exact known
      · exact h.known j f old
    · have other : j ≠ target := by
        rintro rfl
        rw [empty] at found
        cases found
      exact ⟨f, (elsewhere j other).trans found, .refl _, .refl _⟩
  · obtain ⟨-, localsChanged, stackChanged, s₁, first, second, -⟩ := frameMerge_eq_ok joined
    have hexisting := h.known target existing here
    have links := mergeSlots_links hexisting.locals known.locals flow.store ⟨rfl, h.lists⟩
    rw [first] at links
    obtain ⟨t₁, later₁, ⟨rfl, lists₁⟩, knownLocals, linkedLocals⟩ := links
    have links := mergeSlots_links (fun v member => later₁.knows _ (hexisting.stack v member))
      (fun v member => later₁.knows _ (known.stack v member)) s₁ ⟨rfl, lists₁⟩
    rw [second] at links
    obtain ⟨t₂, later₂, ⟨rfl, lists₂⟩, knownStack, linkedStack⟩ := links
    have later := later₁.trans later₂
    refine ⟨⟨lists₂, size, fun j f found => ?_⟩, ⟨later, fun j f found => ?_⟩,
      g, there, linkedLocals.later later₂, linkedStack⟩
    · rcases at_of_set frames found with ⟨-, rfl⟩ | old
      · exact ⟨fun v member => later₂.knows _ (knownLocals v member), knownStack⟩
      · exact (h.known j f old).mono fun v good => later.knows _ good
    · by_cases other : j = target
      · subst other
        obtain rfl : f = existing := Option.some.inj (found.symm.trans here)
        refine ⟨g, there, fun k w hw => ?_, fun k w hw => ?_⟩
        · obtain ⟨old, hold, key, -⟩ := mergeSlots_slot first hw
          exact ⟨old, hold, key⟩
        · obtain ⟨old, hold, key, -⟩ := mergeSlots_slot second hw
          exact ⟨old, hold, key⟩
      · exact ⟨f, (elsewhere j other).trans found, .refl _, .refl _⟩

end Flow

/-- What a visit has left: its instruction is noted at the operands, the frame behind it is linked to
the successors, and the local variables before it to the handlers around it. -/
structure Visit.Left (ctx : Context) (flow : Flow) (v : Visit) : Prop where
  moves : ∀ insn, ctx.body[v.position]? = some insn →
    ∃ m x, Moves (UsedIn flow.store.usages insn.id) insn v.before v.after m x
  successors : ∀ insn targets, ctx.body[v.position]? = some insn →
    ctx.body.successors ctx.positions Flow.always v.position insn.node = .ok targets →
    ∀ t ∈ targets, flow.LinkedAt t v.after.locals v.after.stack
  handlers : ∀ r ∈ ctx.ranges, r.covers v.position = true →
    flow.LinkedAt r.handler v.before.locals []

theorem Moves.mono {used used' : Value → Prop} {insn : Insn} {f g : Frame} {m : Movement}
    {x : Exchange} (h : Moves used insn f g m x) (weaker : ∀ v, used v → used' v) :
    Moves used' insn f g m x :=
  { h with
    operands := fun cell member => by
      obtain ⟨v, found, hused⟩ := h.operands cell member
      exact ⟨v, found, weaker v hused⟩ }

section

variable {builders : Prop} {ctx : Context} {flow flow' : Flow} {i : Nat}

theorem Visit.Left.keeps {v : Visit} (h : v.Left ctx flow) (keeps : flow.Keeps flow') :
    v.Left ctx flow' where
  moves := fun insn at_position => by
    obtain ⟨m, x, moves⟩ := h.moves insn at_position
    exact ⟨m, x, moves.mono fun _ hused => hused.later keeps.later⟩
  successors := fun insn targets at_position edges t member =>
    (h.successors insn targets at_position edges t member).keeps keeps
  handlers := fun r member covers => (h.handlers r member covers).keeps keeps

/-- The entry of a handler has the local variables of the covered instruction. -/
theorem handlerFrame_links {t : UsageTable} {before : Frame} {caught : String}
    (known : before.Every (usagePhases.good t)) :
    usagePhases.StepEnsures t (Flow.handlerFrame before caught) fun t' entry =>
      entry.Every (usagePhases.good t') ∧ entry.locals = before.locals := by
  refine .bind (.lift (usagePhases_bookkeeping.make t .reference [] none)) fun t' v later made => ?_
  refine .liftExcept fun entry pushed => ?_
  rw [Frame.push_eq_ok pushed]
  exact ⟨⟨fun u member => later.knows _ (known.locals u member), by simpa using made.1⟩, rfl⟩

/-- A visit leaves what it should, and keeps the table in order. -/
theorem visit_leaves (closed : ctx.Closed builders) (plain : ∀ insn ∈ ctx.body, PlainReturn insn.node)
    (h : flow.Tabled ctx) (run : Flow.visit ctx i flow = .ok flow') :
    flow'.Tabled ctx ∧ flow.Keeps flow' ∧ ∀ v ∈ Flow.visitOf? ctx i flow, v.Left ctx flow' := by
  rcases Flow.visit_eq_ok run with ⟨insn, before, at_position, there, run⟩ | ⟨rfl, nothing⟩
  · obtain ⟨after, store, targets, flow₁, fail, executed, edges, carried, handled⟩ :=
      Flow.visitNode_eq_ok run
    have hbefore := h.known i before there
    -- the simulation notes the instruction at its operands
    obtain ⟨_, later, ⟨rfl, lists⟩, known, m, x, moves⟩ :=
      execute_moves usagePhases_bookkeeping hbefore (plain insn (Array.mem_of_getElem? at_position))
        flow.store ⟨rfl, h.lists⟩ after store executed
    have simulated : Flow.Tabled ctx { flow with store } :=
      ⟨lists, h.size, fun j f found => (h.known j f found).mono fun v good => later.knows _ good⟩
    have keeps₀ : flow.Keeps { flow with store } := ⟨later, fun _ f found => ⟨f, found, .refl _, .refl _⟩⟩
    -- then the frame behind it is carried to the successors
    obtain ⟨⟨tabled₁, keeps₁⟩, -, linked₁⟩ := foldlM_establishes
      (I := fun fl => fl.Tabled ctx ∧ Flow.Keeps { flow with store } fl)
      (R := fun t fl => fl.LinkedAt t after.locals after.stack)
      (fun t member fl fl' holds step => by
        have inside : t < ctx.body.size := lt_of_mem_successors closed edges member
        obtain ⟨tabled, keeps, linked⟩ := Flow.mergeInto_links holds.1 inside
          (known.mono fun v good => holds.2.later.knows _ good) step
        exact ⟨⟨tabled, holds.2.trans keeps⟩, linked, fun _ linked => linked.keeps keeps⟩)
      ⟨simulated, .refl _⟩ carried
    -- and the local variables before it to the handlers
    obtain ⟨⟨tabled₂, keeps₂⟩, -, linked₂⟩ := foldlM_establishes
      (I := fun fl => fl.Tabled ctx ∧ flow₁.Keeps fl)
      (R := fun r fl => fl.LinkedAt r.handler before.locals [])
      (fun r member fl fl' holds step => by
        obtain ⟨entry, store', made, step⟩ := Flow.visitHandler_eq_ok step
        have later' := ((keeps₀.trans keeps₁).trans holds.2).later
        obtain ⟨_, later'', ⟨rfl, lists'⟩, knownEntry, sameLocals⟩ :=
          handlerFrame_links (hbefore.mono fun v good => later'.knows _ good) fl.store
            ⟨rfl, holds.1.lists⟩ entry store' made
        have tabled' : Flow.Tabled ctx { fl with store := store' } :=
          ⟨lists', holds.1.size, fun j f found => (holds.1.known j f found).mono fun v good =>
            later''.knows _ good⟩
        have keeps' : fl.Keeps { fl with store := store' } :=
          ⟨later'', fun _ f found => ⟨f, found, .refl _, .refl _⟩⟩
        obtain ⟨tabled, keeps, g, found, linked, -⟩ := Flow.mergeInto_links tabled'
          (closed.handlers r (List.mem_of_mem_filter member)) knownEntry step
        exact ⟨⟨tabled, holds.2.trans (keeps'.trans keeps)⟩,
          ⟨g, found, sameLocals ▸ linked, linked_nil⟩,
          fun _ linked => linked.keeps (keeps'.trans keeps)⟩)
      ⟨tabled₁, .refl _⟩ handled
    refine ⟨tabled₂, (keeps₀.trans keeps₁).trans keeps₂, fun v visited => ?_⟩
    have visit : Flow.visitOf? ctx i flow = some ⟨i, before, flow.store, after, store⟩ := by
      simp [Flow.visitOf?, at_position, there, executed, Except.toOption]
    rw [visit] at visited
    cases visited
    refine ⟨fun insn' here => ?_, fun insn' targets' here edges' t member => ?_, fun r member covers => ?_⟩
    · obtain rfl : insn = insn' := Option.some.inj (at_position.symm.trans here)
      exact ⟨m, x, moves.mono fun _ hused => hused.later (keeps₁.trans keeps₂).later⟩
    · obtain rfl : insn = insn' := Option.some.inj (at_position.symm.trans here)
      obtain rfl : targets = targets' := Except.ok.inj (edges.symm.trans edges')
      exact (linked₁ t member).keeps keeps₂
    · exact linked₂ r (List.mem_filter.mpr ⟨member, covers⟩)
  · exact ⟨h, .refl _, fun v visited => by rw [nothing] at visited; cases visited⟩

/-- The loop leaves what its visits should. -/
theorem run_leaves (closed : ctx.Closed builders) (plain : ∀ insn ∈ ctx.body, PlainReturn insn.node)
    {fuel : Nat} {log : List Visit} (h : flow.Tabled ctx) (left : ∀ v ∈ log, v.Left ctx flow)
    (run : Flow.run ctx fuel flow = .ok flow') :
    flow'.Tabled ctx ∧ ∀ v ∈ log ++ Flow.visits ctx fuel flow, v.Left ctx flow' := by
  induction fuel generalizing flow log with
  | zero =>
    cases run
    rw [Flow.visits, List.append_nil]
    exact ⟨h, left⟩
  | succ fuel ih =>
    rw [Flow.run] at run
    split at run
    · next empty =>
      cases run
      rw [Flow.visits, empty, List.append_nil]
      exact ⟨h, left⟩
    · next i queue first =>
      rw [Flow.visits, first]
      cases visited : Flow.visit ctx i { flow with queue } with
      | error e =>
        rw [visited] at run
        cases run
      | ok next =>
        rw [visited] at run
        have h' : Flow.Tabled ctx { flow with queue } := ⟨h.lists, h.size, h.known⟩
        obtain ⟨tabled, keeps, newest⟩ := visit_leaves closed plain h' visited
        have keeps : flow.Keeps next := ⟨keeps.later, keeps.keys⟩
        have left' : ∀ v ∈ log ++ (Flow.visitOf? ctx i flow).toList, v.Left ctx next := by
          intro v member
          rcases List.mem_append.mp member with old | new
          · exact (left v old).keeps keeps
          · exact newest v (Option.mem_toList.mp new)
        have tail := ih tabled left' run
        rw [List.append_assoc] at tail
        simp only [visited]
        exact tail

end

/-! ## The loop of an analysis -/

/-- When the loop is done, every visit has left what it should. -/
theorem leaves_of_analyze {owner : String} {m : Method} {r : Frames}
    (analyzed : analyze owner m = .ok r) (nonempty : 0 < m.body.size)
    (plain : ∀ insn ∈ m.body, PlainReturn insn.node) :
    ∃ ranges visits entry flow, m.coveredRanges m.body.lastLabels = some ranges ∧
      PostFixpoint True ⟨m.body, m.body.lastLabels, ranges⟩ visits entry r.frameAt ∧
      (∀ v ∈ visits, v.Left ⟨m.body, m.body.lastLabels, ranges⟩ flow) ∧
      flow.at = r.frameAt ∧ flow.store = r.store := by
  obtain ⟨d, ranges, made, fuel, flow, parsed, covered, closed, valid, run, done, final, store⟩ :=
    loop_of_analyze analyzed nonempty fun _ _ _ => True.intro
  obtain ⟨made', valid'⟩ := Flow.run_valid closed valid run
  have fixpoint := valid'.postFixpoint done
  rw [final] at fixpoint
  have unknown (t : UsageTable) (kind : Kind) :
      usagePhases.Ensures t (Store.make kind [] none) usagePhases.good :=
    (usagePhases_bookkeeping.make t kind [] none).mono fun _ _ _ made => made.1
  have entered := entryLocals_ensures unknown owner m.isStatic d.arguments (slotsOf m d) {} {}
    ⟨rfl, UsageTable.lists_empty⟩
  obtain ⟨t, later, ⟨same, lists⟩, known⟩ := entered
  have tabled : Flow.Tabled ⟨m.body, m.body.lastLabels, ranges⟩ (Flow.start m.body (entryOf owner m d)) := by
    refine ⟨?_, by simp [Flow.start], fun i f found => ?_⟩
    · show (entryOf owner m d).2.usages.Lists
      rw [show (entryOf owner m d).2.usages = t from same]
      exact lists
    · obtain ⟨-, rfl⟩ := Flow.at_start nonempty found
      refine ⟨fun v member => ?_, by simp [entryOf]⟩
      show (entryOf owner m d).2.usages.Knows v.key
      rw [show (entryOf owner m d).2.usages = t from same]
      exact known v member
  have unvisited : ∀ v ∈ ([] : List Visit), v.Left ⟨m.body, m.body.lastLabels, ranges⟩
      (Flow.start m.body (entryOf owner m d)) := by simp
  obtain ⟨-, left⟩ := run_leaves closed plain tabled unvisited run
  exact ⟨ranges, _, _, flow, covered, fixpoint, left, final, store⟩

end Bytecode.Analysis
