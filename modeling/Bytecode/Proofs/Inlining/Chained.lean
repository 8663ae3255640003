import Bytecode.Proofs.Inlining.Rounds
import Mathlib.Data.Finset.Dedup

/-!
# The chain of targets that are being prepared

`expandCall` is handed the targets that are being prepared, so that nothing it does can leave them
changed. With one chain for all nested calls, a target is instead entered before its preparation and
has to be left behind it, however the preparation ends. This is how `Chained` inlines: its functions are
those of the same names without a chain, and differ from them only in `Chained.expandCall`.

`Keeps` compares the two, and goes through the steps of a computation. By induction on the depth, work
with a chain does what it does without, and the chain is then what it was (`keeps_expandCall`).
-/

namespace Bytecode.Inlining

/-- A session, and the targets that are being prepared. -/
abbrev ChainedSession := Session × Finset TargetKey

/-- Work that can fail, in a session with a chain. -/
abbrev InChain := ExceptT Failure (StateM ChainedSession)

/-! ## Inlining with a chain -/

namespace Chained

/-- Work that does not look at the chain. -/
def lift {α : Type} (x : InSession α) : InChain α :=
  fun (s, chain) => let (r, s') := x s; (r, s', chain)

/-- Enters a target into the chain. -/
def enter (key : TargetKey) : InChain Unit :=
  modify fun (s, chain) => (s, insert key chain)

/-- Takes a target out of the chain. -/
def leave (key : TargetKey) : InChain Unit :=
  modify fun (s, chain) => (s, chain.erase key)

/-- How some work ends. -/
def ended {α : Type} (x : InChain α) : InChain (Except Failure α) :=
  fun s => let (r, s') := x s; (.ok r, s')

/-- Work on a target that is in the chain for as long. -/
def within {α : Type} (key : TargetKey) (x : InChain α) : InChain α := do
  enter key
  let result ← ended x
  leave key
  MonadExcept.ofExcept result

/-- Requests the replacement of one node if it is a call that can be inlined. -/
def visit (expand : CallSite → InChain (Except Skip Method)) (a : Analysis.Inspection)
    (cursor : EditCursor) (insn : Insn) : StateT (List Splice) InChain EditCursor := do
  let some site := CallSite.ofNode? insn.node | return cursor
  match ← expand site with
  | .error _ => return cursor
  | .ok callee =>
    let returnSlot := UInt16.ofNat (a.nextFreeLocal insn.id)
    let s ← (lift (Session.tryFresh (splice site returnSlot callee)) : InChain Splice)
    let cursor ← (MonadExcept.ofExcept (cursor.replace s.block) : InChain EditCursor)
    modify fun splices => splices ++ [s]
    return cursor

/-- One round: replaces every call that can be inlined, and counts them. -/
def round (expand : CallSite → InChain (Except Skip Method)) (owner : String) (m : Method) :
    InChain (Nat × Method) := do
  if !hasCandidate (← get).1.inliner.policy m then return (0, m)
  let a ← lift (Session.analyse owner m)
  let (batch, splices) ← (EditBatch.collect m.body fun cursor insn _ => visit expand a cursor insn).run []
  if splices.isEmpty then return (0, m)
  let (_, body) ← (MonadExcept.ofExcept (batch.apply m.body) : InChain (Bool × Body))
  return (splices.length, withSplices m body splices)

/-- Rounds until one replaces nothing. -/
def rounds (expand : CallSite → InChain (Except Skip Method)) (owner : String) :
    Nat → Nat → Method → StateM ChainedSession (Attempt Method Nat)
  | 0, _, m => return ⟨m, .error .endless⟩
  | bound + 1, total, m => do
    match ← (round expand owner m).run with
    | .error e => return ⟨m, .error e⟩
    | .ok (0, _) => return ⟨m, .ok total⟩
    | .ok (count, m) => rounds expand owner bound (total + count) m

/-- The body by which calls of a target are replaced: the kept one, or a copy that has been inlined
into and is then kept. -/
def prepare (expand : CallSite → InChain (Except Skip Method)) (target : Target) : InChain Method := do
  match (← get).1.inliner.bodies[target.key]? with
  | some body => return body
  | none =>
    let body ← lift (Session.fresh target.method.copy)
    let bound := (← get).1.inliner.targetBound
    let attempt ← (rounds expand target.owner bound 0 body : StateM ChainedSession (Attempt Method Nat))
    lift (Session.forget body.id)
    let _ ← (MonadExcept.ofExcept attempt.result : InChain Nat)
    lift (Session.keep target.key attempt.value)
    return attempt.value

/-- A copy of the body by which a call can be replaced. The target is in the chain while it is
prepared, and no longer, also when its preparation has failed. -/
def expandCall : Nat → CallSite → InChain (Except Skip Method)
  | 0, _ => throw .endless
  | depth + 1, site => do
    let inliner := (← get).1.inliner
    if !inliner.policy.admits site.owner site.name then return .error .untrusted
    match ← lift (findTarget inliner.policy site (inliner.classPath.breadth + 1) site.owner) with
    | .error skip => return .error skip
    | .ok target =>
      let (s, chain) ← get
      if s.inliner.barred.contains target.key then return .error .barred
      if target.key ∈ chain then
        lift (Session.bar target.key)
        return .error .recursive
      let body ← within target.key (prepare (expandCall depth) target)
      return .ok (← lift (Session.fresh body.copy))

/-- Inlines calls in a method of a class with a chain of its own, and shows what is left of it. -/
def inlineMethod (owner : String) (m : Method) : StateM Session (Attempt Method Nat × Finset TargetKey) :=
  fun s =>
    let bound := s.inliner.targetBound
    let (attempt, s', chain) := rounds (expandCall bound) owner bound 0 m (s, ∅)
    ((attempt, chain), s')

end Chained

/-! ## What work with a chain does -/

/-- Work with a chain does what some work does without, and the chain is then what it was. -/
def Keeps {α : Type} (chain : Finset TargetKey) (x : StateM ChainedSession α) (y : StateM Session α) :
    Prop :=
  ∀ s, x (s, chain) = ((y s).1, (y s).2, chain)

section

variable {α β : Type} {chain : Finset TargetKey}

/-- Work that never fails. -/
theorem Keeps.andThen {x : StateM ChainedSession α} {y : StateM Session α}
    {f : α → StateM ChainedSession β} {g : α → StateM Session β} (hx : Keeps chain x y)
    (hf : ∀ a, Keeps chain (f a) (g a)) : Keeps chain (x >>= f) (y >>= g) := by
  intro s
  show (match x (s, chain) with | (a, s') => f a s') = _
  rw [hx s]
  exact hf _ _

theorem Keeps.pure (a : α) : Keeps chain (Pure.pure a : InChain α) (Pure.pure a : InSession α) :=
  fun _ => rfl

theorem Keeps.throw (e : Failure) : Keeps chain (throw e : InChain α) (throw e : InSession α) :=
  fun _ => rfl

theorem Keeps.lift (y : InSession α) : Keeps chain (Chained.lift y) y :=
  fun _ => rfl

theorem Keeps.ofExcept (r : Except Failure α) :
    Keeps chain (MonadExcept.ofExcept r : InChain α) (MonadExcept.ofExcept r : InSession α) := by
  cases r with
  | error e => exact .throw e
  | ok a => exact .pure a

theorem Keeps.bind {x : InChain α} {y : InSession α} {f : α → InChain β} {g : α → InSession β}
    (hx : Keeps chain x y) (hf : ∀ a, Keeps chain (f a) (g a)) :
    Keeps chain (x >>= f : InChain β) (y >>= g : InSession β) := by
  refine Keeps.andThen (f := ExceptT.bindCont f) (g := ExceptT.bindCont g) hx fun r => ?_
  cases r with
  | error e => exact fun _ => rfl
  | ok a => exact hf a

/-- Work that never fails is a step of work that can. -/
theorem Keeps.run {x : StateM ChainedSession α} {y : StateM Session α} (h : Keeps chain x y) :
    Keeps chain (liftM x : InChain α) (liftM y : InSession α) := by
  intro s
  show (match x (s, chain) with | (a, s') => (Except.ok a, s')) = _
  rw [h s]
  rfl

/-- Work may look at the session. -/
theorem Keeps.get {f : ChainedSession → InChain α} {g : Session → InSession α}
    (h : ∀ s, Keeps chain (f (s, chain)) (g s)) :
    Keeps chain (get >>= f : InChain α) (get >>= g : InSession α) :=
  fun s => h s s

end

section

variable {chain : Finset TargetKey} {expand : CallSite → InChain (Except Skip Method)}
  {expand' : CallSite → InSession (Except Skip Method)}

/-- A visit leaves the chain as it was if expansions do. -/
theorem keeps_visit (expands : ∀ site, Keeps chain (expand site) (expand' site)) (a : Analysis.Inspection)
    (cursor : EditCursor) (insn : Insn) (splices : List Splice) :
    Keeps chain ((Chained.visit expand a cursor insn).run splices)
      ((visit expand' a cursor insn).run splices) := by
  unfold Chained.visit visit
  cases CallSite.ofNode? insn.node with
  | none => exact .pure (cursor, splices)
  | some site =>
    simp only [StateT.run_bind, StateT.run_monadLift, monadLift_self, bind_assoc, pure_bind]
    refine (expands site).bind fun r => ?_
    cases r with
    | error skip => exact .pure (cursor, splices)
    | ok callee =>
      simp only [StateT.run_bind, StateT.run_monadLift, monadLift_self, bind_assoc, pure_bind]
      exact (Keeps.lift _).bind fun s => (Keeps.ofExcept _).bind fun cursor => .pure _

theorem keeps_collectFrom (expands : ∀ site, Keeps chain (expand site) (expand' site))
    (a : Analysis.Inspection) (i : Nat) (insns : List Insn) (b : EditBatch) (splices : List Splice) :
    Keeps chain
      ((EditBatch.collectFrom (fun cursor insn _ => Chained.visit expand a cursor insn) i insns b).run
        splices)
      ((EditBatch.collectFrom (fun cursor insn _ => visit expand' a cursor insn) i insns b).run splices) := by
  induction insns generalizing i b splices with
  | nil => exact .pure (b, splices)
  | cons insn insns ih =>
    rw [EditBatch.collectFrom, EditBatch.collectFrom, StateT.run_bind, StateT.run_bind]
    refine (keeps_visit expands a ⟨b, insn.id⟩ insn splices).bind fun result => ?_
    obtain ⟨cursor, splices⟩ := result
    dsimp only
    by_cases stopped : cursor.batch.stopped = true
    · rw [if_pos stopped, if_pos stopped]
      exact .pure (cursor.batch, splices)
    · rw [if_neg stopped, if_neg stopped]
      exact ih (i + 1) cursor.batch splices

theorem keeps_round (expands : ∀ site, Keeps chain (expand site) (expand' site)) (owner : String)
    (m : Method) : Keeps chain (Chained.round expand owner m) (round expand' owner m) := by
  refine .get fun s => ?_
  by_cases candidate : hasCandidate s.inliner.policy m = true
  · simp only [candidate]
    refine (Keeps.lift _).bind fun a => ?_
    refine (keeps_collectFrom expands a _ _ _ _).bind fun result => ?_
    obtain ⟨batch, splices⟩ := result
    dsimp only
    by_cases empty : splices.isEmpty = true
    · rw [if_pos empty, if_pos empty]
      exact .pure _
    · rw [if_neg empty, if_neg empty]
      exact (Keeps.ofExcept _).bind fun _ => .pure _
  · simp only [eq_false_of_ne_true candidate]
    exact .pure _

theorem keeps_rounds (expands : ∀ site, Keeps chain (expand site) (expand' site)) (owner : String)
    (bound total : Nat) (m : Method) :
    Keeps chain (Chained.rounds expand owner bound total m) (rounds expand' owner bound total m) := by
  induction bound generalizing total m with
  | zero => exact fun _ => rfl
  | succ bound ih =>
    refine (keeps_round expands owner m).andThen fun r => ?_
    match r with
    | .error e => exact fun _ => rfl
    | .ok (0, _) => exact fun _ => rfl
    | .ok (count + 1, m') => exact ih _ m'

theorem keeps_prepare (expands : ∀ site, Keeps chain (expand site) (expand' site)) (target : Target) :
    Keeps chain (Chained.prepare expand target) (prepare expand' target) := by
  refine .get fun s => ?_
  dsimp only
  cases s.inliner.bodies[target.key]? with
  | some body => exact .pure body
  | none =>
    refine (Keeps.lift _).bind fun body => .get fun s => ?_
    refine (keeps_rounds expands _ _ _ _).run.bind fun attempt => (Keeps.lift _).bind fun _ => ?_
    exact (Keeps.ofExcept _).bind fun _ => (Keeps.lift _).bind fun _ => .pure _

/-- Work on a target that is entered for as long leaves the chain as it was, also if the work fails. -/
theorem keeps_within {α : Type} {key : TargetKey} {x : InChain α} {y : InSession α} (new : key ∉ chain)
    (h : Keeps (insert key chain) x y) : Keeps chain (Chained.within key x) y := by
  intro s
  show (match x (s, insert key chain) with
    | (r, s', chain') => (MonadExcept.ofExcept r : InChain α) (s', chain'.erase key)) = _
  rw [h s]
  dsimp only
  rw [Finset.erase_insert new]
  cases (y s).1 <;> rfl

end

/-- **Expansions leave the chain as it was.** What is expanded with a chain is what is expanded with the
list of the same targets. -/
theorem keeps_expandCall (depth : Nat) (active : List TargetKey) (site : CallSite) :
    Keeps active.toFinset (Chained.expandCall depth site) (expandCall depth active site) := by
  induction depth generalizing active site with
  | zero => exact .throw .endless
  | succ depth ih =>
    refine .get fun s => ?_
    dsimp only
    by_cases admitted : s.inliner.policy.admits site.owner site.name = true
    · simp only [admitted]
      refine (Keeps.lift _).bind fun found => ?_
      cases found with
      | error skip => exact .pure _
      | ok target =>
        refine .get fun s => ?_
        dsimp only
        by_cases barred : s.inliner.barred.contains target.key = true
        · rw [if_pos barred, if_pos barred]
          exact .pure _
        · rw [if_neg barred, if_neg barred]
          by_cases reached : target.key ∈ active
          · rw [if_pos (List.mem_toFinset.mpr reached), if_pos (List.contains_iff_mem.mpr reached)]
            exact (Keeps.lift _).bind fun _ => .pure _
          · have new : target.key ∉ active.toFinset := fun member => reached (List.mem_toFinset.mp member)
            rw [if_neg new, if_neg fun member => reached (List.contains_iff_mem.mp member)]
            have nested (site : CallSite) : Keeps (insert target.key active.toFinset)
                (Chained.expandCall depth site) (expandCall depth (target.key :: active) site) := by
              rw [← List.toFinset_cons]
              exact ih (target.key :: active) site
            exact (keeps_within new (keeps_prepare nested target)).bind fun body =>
              (Keeps.lift _).bind fun copy => .pure _
    · simp only [eq_false_of_ne_true admitted]
      exact .pure _

/-! ## The chain behind nested calls -/

namespace Chained

/-- The chain is then what it was on entry, however the work ends. -/
def Restores {α : Type} (x : StateM ChainedSession α) : Prop :=
  ∀ s chain, (x (s, chain)).2.2 = chain

/-- All work that is nested to a depth restores the chain. -/
structure NestedRestores (depth : Nat) : Prop where
  expandCall (site : CallSite) : Restores (expandCall depth site)
  prepare (target : Target) : Restores (prepare (Chained.expandCall depth) target)
  round (owner : String) (m : Method) : Restores (round (Chained.expandCall depth) owner m)
  rounds (owner : String) (bound total : Nat) (m : Method) :
    Restores (rounds (Chained.expandCall depth) owner bound total m)

theorem nested_restores (depth : Nat) : NestedRestores depth := by
  -- every chain is that of some list
  have keeps (chain : Finset TargetKey) (site : CallSite) :
      Keeps chain (expandCall depth site) (Inlining.expandCall depth chain.toList site) := by
    have listed := keeps_expandCall depth chain.toList site
    rwa [Finset.toList_toFinset] at listed
  have restores {α : Type} {x : StateM ChainedSession α} {s : Session} {chain : Finset TargetKey}
      {y : StateM Session α} (h : Keeps chain x y) : (x (s, chain)).2.2 = chain := by
    rw [h s]
  exact ⟨fun site s chain => restores (keeps chain site),
    fun target s chain => restores (keeps_prepare (keeps chain) target),
    fun owner m s chain => restores (keeps_round (keeps chain) owner m),
    fun owner bound total m s chain => restores (keeps_rounds (keeps chain) owner bound total m)⟩

/-- Inlining with a chain is inlining, and nothing is left in the chain. -/
theorem inlineMethod_eq (owner : String) (m : Method) (s : Session) :
    Chained.inlineMethod owner m s =
      (((Inlining.inlineMethod owner m s).1, ∅), (Inlining.inlineMethod owner m s).2) := by
  have keeps := keeps_rounds (keeps_expandCall s.inliner.targetBound []) owner s.inliner.targetBound 0 m s
  show (match rounds (expandCall s.inliner.targetBound) owner s.inliner.targetBound 0 m (s, ∅) with
    | (attempt, s', chain) => ((attempt, chain), s')) = _
  rw [← List.toFinset_nil, keeps]
  rfl

end Chained

end Bytecode.Inlining
