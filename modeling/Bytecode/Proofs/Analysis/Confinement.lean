import Bytecode.Proofs.Analysis.Termination

/-!
# What holds in every order of visits

An analysis visits positions in an order of its own. What is said here about its frames does not depend
on that order: a property of frames, which may differ from position to position, holds of all frames of an
analysis if it holds at the entry and survives joins, instructions and the entry of handlers
(`analyze_confined`).

If nothing fails on frames with the property, then the analysis does not fail either. Both readings go
through `Leads`, with failures allowed for the first.
-/

namespace Bytecode.Analysis

/-- A result is as told, and there are failures only if they are allowed. -/
def Leads {ε α : Type} (failing : Prop) (x : Except ε α) (result : α → Prop) : Prop :=
  match x with
  | .ok a => result a
  | .error _ => failing

namespace Leads

variable {ε ε' α β : Type} {failing : Prop} {x : Except ε α} {result : α → Prop}

theorem of_eq_ok {a : α} (h : Leads failing x result) (same : x = .ok a) : result a := by
  subst same
  exact h

/-- Where failures are not allowed there is a result. -/
theorem exists_ok (h : Leads False x result) : ∃ a, x = .ok a ∧ result a := by
  cases x with
  | ok a => exact ⟨a, rfl, h⟩
  | error e => exact h.elim

/-- Where failures are allowed only results matter. -/
theorem of_results (h : ∀ a, x = .ok a → result a) : Leads True x result := by
  cases x with
  | ok a => exact h a rfl
  | error e => trivial

theorem mono {result' : α → Prop} (h : Leads failing x result) (weaker : ∀ a, result a → result' a) :
    Leads failing x result' := by
  cases x with
  | ok a => exact weaker a h
  | error e => exact h

theorem bind {f : α → Except ε β} {result' : β → Prop} (h : Leads failing x result)
    (next : ∀ a, result a → Leads failing (f a) result') : Leads failing (x >>= f) result' := by
  cases x with
  | ok a => exact next a h
  | error e => exact h

theorem mapError (h : Leads failing x result) (f : ε → ε') : Leads failing (x.mapError f) result := by
  cases x with
  | ok a => exact h
  | error e => exact h

/-- A sequence of steps that keep a property. -/
theorem foldlM {σ : Type} {step : σ → α → Except ε σ} {keeps : σ → Prop} {xs : List α} {s : σ}
    (start : keeps s) (each : ∀ a ∈ xs, ∀ s, keeps s → Leads failing (step s a) keeps) :
    Leads failing (xs.foldlM step s) keeps := by
  induction xs generalizing s with
  | nil => exact start
  | cons a xs ih =>
    obtain ⟨first, rest⟩ := List.forall_mem_cons.mp each
    rw [List.foldlM_cons]
    exact (first s start).bind fun s' kept => ih kept rest

end Leads

/-- A property of the frames at each position that an analysis does not leave: it survives joins, it goes
from an instruction to its successors, and from a covered position to the entry of its handler. -/
structure Confines (failing : Prop) (ctx : Context) (fits : Nat → Frame → Prop) : Prop where
  joins : ∀ i f g, fits i f → fits i g → ∀ s, Leads failing (f.merge g s) fun r => fits i r.1.1
  executes : ∀ i insn f, ctx.body[i]? = some insn → fits i f → ∀ s,
    Leads failing (f.execute ctx.body i insn s) fun r =>
      Leads failing (ctx.body.successors ctx.positions Flow.always i insn.node) fun targets =>
        ∀ t ∈ targets, fits t r.1
  handles : ∀ i f r, fits i f → r ∈ ctx.ranges → r.covers i = true → ∀ s,
    Leads failing (Flow.handlerFrame f r.caught s) fun e => fits r.handler e.1

namespace Flow

variable {failing : Prop} {ctx : Context} {fits : Nat → Frame → Prop} {flow : Flow}

/-- All frames of a flow have a property. -/
def Fits (fits : Nat → Frame → Prop) (flow : Flow) : Prop :=
  ∀ i f, flow.at i = some f → fits i f

/-- A flow in which one position has got a frame with the property. -/
theorem fits_of_set {target : Nat} {g : Frame} {queue : List Nat} {store : Store} (h : flow.Fits fits)
    (fitting : fits target g) : Fits fits ⟨flow.frames.setIfInBounds target (some g), queue, store⟩ := by
  intro i f found
  rcases at_of_set rfl found with ⟨rfl, rfl⟩ | same
  · exact fitting
  · exact h i f same

theorem mergeInto_fits (confines : Confines failing ctx fits) {target : Nat} {incoming : Frame}
    (h : flow.Fits fits) (fitting : fits target incoming) :
    Leads failing (mergeInto flow target incoming) (Fits fits) := by
  unfold mergeInto
  dsimp only
  split
  · exact fits_of_set h fitting
  · next existing there =>
    have joined := confines.joins target existing incoming (h target existing there) fitting flow.store
    split
    · next e failed =>
      rw [show existing.merge incoming flow.store = .error e from failed] at joined
      exact joined
    · next merged changed store run => exact fits_of_set h (joined.of_eq_ok run)

theorem visitHandler_fits (confines : Confines failing ctx fits) {i : Nat} {before : Frame}
    {fail : FlowError → AnalysisError} {r : CoveredRange} (fitting : fits i before) (member : r ∈ ctx.ranges)
    (covers : r.covers i = true) (h : flow.Fits fits) :
    Leads failing (visitHandler before fail flow r) (Fits fits) := by
  have entered := confines.handles i before r fitting member covers flow.store
  unfold visitHandler
  split
  · next e failed =>
    rw [show handlerFrame before r.caught flow.store = .error e from failed] at entered
    exact entered
  · next entry store run =>
    have h : Fits fits { flow with store } := h
    exact mergeInto_fits confines h (entered.of_eq_ok run)

/-- A visit of an instruction keeps the property. -/
theorem visitNode_fits (confines : Confines failing ctx fits) {i : Nat} {insn : Insn} {before : Frame}
    (at_position : ctx.body[i]? = some insn) (fitting : fits i before) (h : flow.Fits fits) :
    Leads failing (visitNode ctx i insn before flow) (Fits fits) := by
  unfold visitNode
  refine ((confines.executes i insn before at_position fitting flow.store).mapError _).bind
    fun executed leads => ?_
  refine (leads.mapError _).bind fun targets there => ?_
  have start : Fits fits { flow with store := executed.2 } := h
  refine (Leads.foldlM start fun t member flow fitted =>
    mergeInto_fits confines fitted (there t member)).bind fun flow fitted => ?_
  refine Leads.foldlM fitted fun r member flow fitted => ?_
  obtain ⟨member, covers⟩ := List.mem_filter.mp member
  exact visitHandler_fits confines fitting member covers fitted

theorem visit_fits (confines : Confines failing ctx fits) (i : Nat) (h : flow.Fits fits) :
    Leads failing (visit ctx i flow) (Fits fits) := by
  unfold visit
  split
  · next insn before at_position there =>
    exact visitNode_fits confines at_position (h i before there) h
  · exact h

/-- The loop of an analysis keeps the property. -/
theorem run_fits (confines : Confines failing ctx fits) (fuel : Nat) (h : flow.Fits fits) :
    Leads failing (run ctx fuel flow) (Fits fits) := by
  induction fuel generalizing flow with
  | zero => exact h
  | succ fuel ih =>
    rw [run]
    split
    · exact h
    · next i queue first =>
      have h : Fits fits { flow with queue } := h
      exact (visit_fits confines i h).bind fun flow fitted => ih fitted

end Flow

section

variable {owner : String} {m : Method} {d : MethodDescriptor} {ranges : List CoveredRange}
  {fits : Nat → Frame → Prop}

/-- The flow before the first visit has a property if the frame at the entry has it. -/
theorem Flow.start_fits {body : Body} {entered : Frame × Store} (nonempty : 0 < body.size)
    (entry : fits 0 entered.1) : (Flow.start body entered).Fits fits := by
  intro i f found
  obtain ⟨rfl, rfl⟩ := Flow.at_start nonempty found
  exact entry

/-- **Frames do not leave what confines them.** All frames of an analysis have a property that confines
it and that the frame at the entry has. -/
theorem analyze_confined {r : Frames} (analyzed : analyze owner m = .ok r) (nonempty : 0 < m.body.size)
    (parsed : MethodDescriptor.parse m.descriptor = .ok d)
    (covered : m.coveredRanges m.body.lastLabels = some ranges)
    (confines : Confines True ⟨m.body, m.body.lastLabels, ranges⟩ fits)
    (entry : fits 0 (entryOf owner m d).1) : ∀ i f, r.frameAt i = some f → fits i f := by
  obtain ⟨d', ranges', flow, parsed', covered', run, -, frames, -⟩ := analyze_eq_ok analyzed nonempty
  obtain rfl : d' = d := by simpa [parsed'] using parsed
  obtain rfl : ranges' = ranges := by simpa [covered'] using covered
  intro i f found
  refine (Flow.run_fits confines _ (Flow.start_fits nonempty entry)).of_eq_ok run i f ?_
  rw [Flow.at, ← frames]
  exact found

/-- **Analyses that cannot fail.** If nothing fails on frames with a property that confines an analysis,
and the frame at the entry has it, then the analysis has a result. -/
theorem analyze_of_confined (nonempty : 0 < m.body.size)
    (parsed : MethodDescriptor.parse m.descriptor = .ok d)
    (covered : m.coveredRanges m.body.lastLabels = some ranges)
    (confines : Confines False ⟨m.body, m.body.lastLabels, ranges⟩ fits)
    (entry : fits 0 (entryOf owner m d).1) : ∃ r, analyze owner m = .ok r := by
  obtain ⟨flow, run, -⟩ := (Flow.run_fits confines
    (visitBound m.body.size (entryOf owner m d).1.locals.length) (Flow.start_fits nonempty entry)).exists_ok
  have closed : Context.Closed True ⟨m.body, m.body.lastLabels, ranges⟩ :=
    closed_of_coveredRanges covered fun _ _ _ => trivial
  exact analyze_of_run nonempty parsed covered run
    (Flow.run_start_done closed nonempty (entryOf_traced owner m d _) rfl (Nat.le_refl _) run)

end

end Bytecode.Analysis
