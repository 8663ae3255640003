import Bytecode.Proofs.Analysis.Constants
import Bytecode.Proofs.Analysis.Termination

/-!
# Why positions are queued again

A position that has a frame is queued again only when some slot of its frame forgets something: it
gains a source, or it loses its kind or its literal (`forgets_of_step`). The frames of a flow only
grow, so that what is forgotten is never remembered; how often this can happen is what the potential
of a flow counts.

`loop_finishes` speaks of the loop itself, as a sequence of visits without any bound on their number:
from the entry of a method it comes to a visit that fails or to an empty queue, whatever the control
flow is and whatever the visits append to the buffers of builders.
-/

namespace Bytecode.Analysis

/-! ## What is forgotten -/

/-- The second value has more sources than the first, or it has lost the kind or the literal. -/
inductive Value.Forgets (v w : Value) : Prop
  | sources (kept : v.sources ⊆ w.sources) {i : InsnId} (new : i ∈ w.sources) (other : i ∉ v.sources)
  | kind (known : v.kind ≠ .uninitialized) (lost : w.kind = .uninitialized)
  | literal (known : v.literal.isSome = true) (lost : w.literal = none)

/-- Some slot of a frame forgets something. -/
def Frame.Forgets (f g : Frame) : Prop :=
  ∃ (k : Nat) (v w : Value), v.Forgets w ∧
    (f.locals[k]? = some v ∧ g.locals[k]? = some w ∨ f.stack[k]? = some v ∧ g.stack[k]? = some w)

section

variable {ids : List InsnId}

/-- A value above another one in which less is left has forgotten something. -/
theorem forgets_of_slack {v w : Value} (below : v.Le w) (traced : w.Traced ids)
    (less : w.slack ids.length < v.slack ids.length) : v.Forgets w := by
  by_contra keeps
  have sources : w.sources ⊆ v.sources := fun i member => by
    by_contra other
    exact keeps (.sources below.sources member other)
  have kind : w.kind = v.kind := by
    rcases below.kind with same | lost
    · exact same
    · by_contra other
      exact keeps (.kind (fun unknown => other (lost.trans unknown.symm)) lost)
  have literal : v.literal.isSome.toNat ≤ w.literal.isSome.toNat := by
    cases known : v.literal with
    | none => exact Nat.zero_le _
    | some l =>
      cases kept : w.literal with
      | none => exact absurd (.literal (by rw [known]; rfl) kept) keeps
      | some l' => exact Nat.le_refl _
  have fewer := (List.subperm_of_subset traced.ascending.nodup sources).length_le
  unfold Value.slack at less
  rw [kind] at less
  omega

theorem exists_forgets {vs ws : List Value} (below : List.Forall₂ Value.Le vs ws)
    (traced : ∀ w ∈ ws, w.Traced ids) (less : slackOf ids.length ws < slackOf ids.length vs) :
    ∃ (k : Nat) (v w : Value), v.Forgets w ∧ vs[k]? = some v ∧ ws[k]? = some w := by
  induction below with
  | nil => exact absurd less (Nat.lt_irrefl _)
  | @cons v w vs ws first _ ih =>
    obtain ⟨here, rest⟩ := List.forall_mem_cons.mp traced
    by_cases lost : w.slack ids.length < v.slack ids.length
    · exact ⟨0, v, w, forgets_of_slack first here lost, rfl, rfl⟩
    · simp only [slackOf, total_cons] at less
      obtain ⟨k, v', w', forgets, old, new⟩ := ih rest (by simp only [slackOf]; omega)
      exact ⟨k + 1, v', w', forgets, old, new⟩

theorem frame_forgets {f g : Frame} (below : f.Le g) (traced : g.Every (Value.Traced ids))
    (less : g.slack ids.length < f.slack ids.length) : f.Forgets g := by
  unfold Frame.slack at less
  by_cases lost : slackOf ids.length g.locals < slackOf ids.length f.locals
  · obtain ⟨k, v, w, forgets, both⟩ := exists_forgets below.locals traced.locals lost
    exact ⟨k, v, w, forgets, .inl both⟩
  · obtain ⟨k, v, w, forgets, both⟩ := exists_forgets below.stack traced.stack (by omega)
    exact ⟨k, v, w, forgets, .inr both⟩

end

/-! ## The loop as a sequence of visits -/

namespace Flow

variable {ctx : Context} {flow flow' : Flow} {n : Nat}

/-- One step of the loop: the position that has waited longest is visited. -/
def Step (ctx : Context) (flow flow' : Flow) : Prop :=
  ∃ i queue, flow.queue = i :: queue ∧ visit ctx i { flow with queue } = .ok flow'

/-- A number of steps of the loop. -/
inductive Steps (ctx : Context) : Nat → Flow → Flow → Prop
  | none {flow : Flow} : Steps ctx 0 flow flow
  | more {n : Nat} {flow flow' flow'' : Flow} (first : Step ctx flow flow') (rest : Steps ctx n flow' flow'') :
      Steps ctx (n + 1) flow flow''

/-- The loop stops: no position waits, or the visit of the first one fails. -/
def Halts (ctx : Context) (flow : Flow) : Prop :=
  flow.queue = [] ∨ ∃ i queue e, flow.queue = i :: queue ∧ visit ctx i { flow with queue } = .error e

/-- What holds of the flow while the loop runs: its frames only grow, and its potential is finite. -/
structure Running (ctx : Context) (width : Nat) (flow : Flow) : Prop where
  valid : ∃ log entry made, flow.Valid True ctx log entry width made
  bounded : flow.Bounded (ctx.body.toList.map Insn.id) width

variable {width : Nat}

/-- A step keeps the loop running, takes something off the potential, and queues a position that has
a frame only if its frame forgets something. -/
theorem forgets_of_step (closed : ctx.Closed True) (running : flow.Running ctx width)
    (step : Step ctx flow flow') : flow'.Running ctx width ∧
      flow'.potential ctx.body.size width + 1 ≤ flow.potential ctx.body.size width ∧
      ∀ i ∈ flow'.queue, i ∈ flow.queue.tail ∨ flow.at i = none ∨
        ∃ f g, flow.at i = some f ∧ flow'.at i = some g ∧ f.Forgets g := by
  obtain ⟨i, queue, first, visited⟩ := step
  obtain ⟨log, entry, made, valid⟩ := running.valid
  obtain ⟨spends, spent⟩ := visit_spends closed running.bounded first visited
  obtain ⟨made', valid'⟩ := visit_valid closed valid first visited
  refine ⟨⟨⟨_, _, _, valid'⟩, spends.bounded⟩, spent, fun j queued => ?_⟩
  cases there : flow.at j with
  | none => exact .inr (.inl rfl)
  | some f =>
    obtain ⟨g, found, -, news⟩ := spends.frame j f there
    rcases news queued with old | less
    · exact .inl (by rw [first]; exact old)
    · obtain ⟨g', found', below⟩ := visit_larger closed valid visited j f there
      cases found.symm.trans found'
      exact .inr (.inr ⟨f, g, rfl, found, frame_forgets below (spends.bounded.traced j g found) less⟩)

theorem running_of_steps (closed : ctx.Closed True) (running : flow.Running ctx width)
    (steps : Steps ctx n flow flow') : flow'.Running ctx width ∧
      flow'.potential ctx.body.size width + n ≤ flow.potential ctx.body.size width := by
  induction steps with
  | none => exact ⟨running, Nat.le_refl _⟩
  | more first _ ih =>
    obtain ⟨running', spent, -⟩ := forgets_of_step closed running first
    obtain ⟨running'', spent'⟩ := ih running'
    exact ⟨running'', by omega⟩

/-- A loop that takes no more than some number of steps stops. -/
theorem exists_halts {bound : Nat} (few : ∀ n flow', Steps ctx n flow flow' → n ≤ bound) :
    ∃ n flow', Steps ctx n flow flow' ∧ flow'.Halts ctx := by
  by_contra endless
  -- a loop that never stops has sequences of every length
  have longer (n : Nat) : ∃ flow', Steps ctx n flow flow' := by
    induction n with
    | zero => exact ⟨flow, .none⟩
    | succ n ih =>
      have last {n : Nat} {flow flow' flow'' : Flow} (steps : Steps ctx n flow flow')
          (step : Step ctx flow' flow'') : Steps ctx (n + 1) flow flow'' := by
        induction steps with
        | none => exact .more step .none
        | more first _ ih => exact .more first (ih step)
      obtain ⟨flow', steps⟩ := ih
      cases first : flow'.queue with
      | nil => exact absurd ⟨n, flow', steps, .inl first⟩ endless
      | cons i queue =>
        cases visited : visit ctx i { flow' with queue } with
        | error e => exact absurd ⟨n, flow', steps, .inr ⟨i, queue, e, first, visited⟩⟩ endless
        | ok next => exact ⟨next, last steps ⟨i, queue, first, visited⟩⟩
  obtain ⟨flow', steps⟩ := longer (bound + 1)
  exact Nat.not_succ_le_self _ (few _ _ steps)

end Flow

/-- The loop of an analysis: what it knows about the method, and the flow with which it begins. There
is none for a method whose tables or descriptor cannot be read, or without a body. -/
def loopOf? (owner : String) (m : Method) : Option (Context × Flow) := do
  let d ← (MethodDescriptor.parse m.descriptor).toOption
  let ranges ← m.coveredRanges m.body.lastLabels
  if m.body.isEmpty then none
  else some (⟨m.body, m.body.lastLabels, ranges⟩, Flow.start m.body (entryOf owner m d))

/-- **The loop of an analysis stops.** From the entry of a method it comes to an end after a number of
visits that `visitBound` bounds, and there is no longer sequence of visits. A visit that puts a position
into the queue gives it its first frame, or lets a slot of its frame gain a source or lose its kind or
its literal. So no analysis is given up as endless. -/
theorem loop_finishes {owner : String} {m : Method} {ctx : Context} {start : Flow}
    (begins : loopOf? owner m = some (ctx, start)) :
    ∃ entry, start.at 0 = some entry ∧
      (∃ n flow, Flow.Steps ctx n start flow ∧ flow.Halts ctx) ∧
      (∀ n flow, Flow.Steps ctx n start flow → n ≤ visitBound ctx.body.size entry.locals.length) ∧
      (∀ n flow flow', Flow.Steps ctx n start flow → Flow.Step ctx flow flow' →
        ∀ i ∈ flow'.queue, i ∈ flow.queue.tail ∨ flow.at i = none ∨
          ∃ f g, flow.at i = some f ∧ flow'.at i = some g ∧ f.Forgets g) ∧
      analyze owner m ≠ .error .endless := by
  obtain ⟨d, -, begins⟩ := Option.bind_eq_some_iff.mp begins
  obtain ⟨ranges, covered, begins⟩ := Option.bind_eq_some_iff.mp begins
  split at begins
  · cases begins
  next filled =>
  cases begins
  have nonempty : 0 < m.body.size := by simpa [Nat.pos_iff_ne_zero] using filled
  have closed : Context.Closed True ⟨m.body, m.body.lastLabels, ranges⟩ :=
    closed_of_coveredRanges covered fun _ _ _ => trivial
  obtain ⟨made, recorded, hentry, -⟩ := entryOf_records True owner m d
  have running : (Flow.start m.body (entryOf owner m d)).Running ⟨m.body, m.body.lastLabels, ranges⟩
      (entryOf owner m d).1.locals.length :=
    ⟨⟨_, _, _, Flow.start_valid nonempty recorded hentry⟩,
      Flow.start_bounded nonempty (entryOf_traced owner m d _) rfl⟩
  have few (n : Nat) (flow : Flow)
      (steps : Flow.Steps ⟨m.body, m.body.lastLabels, ranges⟩ n (Flow.start m.body (entryOf owner m d)) flow) :
      n ≤ visitBound m.body.size (entryOf owner m d).1.locals.length := by
    have spent := (Flow.running_of_steps closed running steps).2
    exact (Nat.le_add_left _ _).trans (spent.trans (Flow.potential_start_le rfl))
  refine ⟨(entryOf owner m d).1, ?_, Flow.exists_halts few, few, fun n flow flow' steps step => ?_,
    analyze_ne_endless owner m⟩
  · have inside : 0 < (Array.replicate m.body.size (none : Option Frame)).size := by simpa using nonempty
    rw [Flow.start, Flow.at_set inside, if_pos rfl]
  · exact (Flow.forgets_of_step closed (Flow.running_of_steps closed running steps).1 step).2.2

/-- A static method that appends to a builder for ever. -/
def appendingMethod : Method where
  id := ⟨0⟩
  access := 9
  name := "m"
  descriptor := "()V"
  body := numbered [.type Opcode.new builderClass, .simple 0x59,
    .call 0xb7 builderClass "<init>" "()V" false, .label ⟨0⟩, .constant (.string "a"),
    .call 0xb6 builderClass "append" "(Ljava/lang/String;)Ljava/lang/StringBuilder;" false,
    .jump Opcode.goto ⟨0⟩]

/-- The analysis of a loop that appends to a builder stops. -/
theorem loop_finishes_appending : ∃ ctx start entry,
    loopOf? "A" appendingMethod = some (ctx, start) ∧ start.at 0 = some entry ∧
      (∃ n flow, n ≤ visitBound ctx.body.size entry.locals.length ∧ Flow.Steps ctx n start flow ∧
        flow.Halts ctx) ∧
      analyze "A" appendingMethod ≠ .error .endless := by
  have some_ : (loopOf? "A" appendingMethod).isSome = true := by
    have parsed : (MethodDescriptor.parse appendingMethod.descriptor).toOption = some ⟨[], .void⟩ := by
      decide +kernel
    rw [loopOf?, parsed]
    rfl
  obtain ⟨⟨ctx, start⟩, begins⟩ := Option.isSome_iff_exists.mp some_
  obtain ⟨entry, first, ⟨n, flow, steps, halts⟩, few, -, ends⟩ := loop_finishes begins
  exact ⟨ctx, start, entry, begins, first, ⟨n, flow, few n flow steps, steps, halts⟩, ends⟩

end Bytecode.Analysis
