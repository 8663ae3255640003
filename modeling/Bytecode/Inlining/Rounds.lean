import Bytecode.Edit
import Bytecode.Inlining.Session

/-!
# Inlining

Calls are inlined in rounds. A round replaces every call whose target can be inlined by the body of
the target, and rounds go on until one replaces nothing. The body of a target is itself inlined into
before it is used, and is then kept; a target that is met while its own body is being prepared
reaches itself and is barred.

Both the depth of the preparation and the number of rounds are bounded by a number of targets.
Chains of superclasses are followed as far as the class path has names; chains that lead back are
endless.
-/

namespace Bytecode.Inlining

/-- Looks for the method that a call leads to, in a class and its superclasses. Static calls and
calls of a given class do not go on to superclasses, and untrusted superclasses are not looked at.
-/
def findTarget (policy : TrustPolicy) (site : CallSite) :
    Nat → String → InSession (Except Skip Target)
  | 0, _ => throw .endless
  | steps + 1, className => do
    let some c ← Session.resolve className | return .error .unresolved
    match c.method? site.name site.descriptor with
    | some m => return if m.body.isEmpty then .error .noBody else .ok ⟨c.name, m⟩
    | none =>
      if site.op == Opcode.invokestatic || site.op == Opcode.invokespecial then
        return .error .unresolved
      match c.superName with
      | none => return .error .unresolved
      | some parent =>
        if policy.admits parent site.name then findTarget policy site steps parent
        else return .error .unresolved

/-- Whether a method has a call that its name admits to inlining. -/
def hasCandidate (policy : TrustPolicy) (m : Method) : Bool :=
  m.body.any fun insn =>
    (CallSite.ofNode? insn.node).any fun site => policy.admits site.owner site.name

/-- Requests the replacement of one node if it is a call that can be inlined. -/
def visit (expand : CallSite → InSession (Except Skip Method)) (a : Analysis.Inspection)
    (cursor : EditCursor) (insn : Insn) : StateT (List Splice) InSession EditCursor := do
  let some site := CallSite.ofNode? insn.node | return cursor
  match ← expand site with
  | .error _ => return cursor
  | .ok callee =>
    let returnSlot := UInt16.ofNat (a.nextFreeLocal insn.id)
    let s ← (Session.tryFresh (splice site returnSlot callee) : InSession Splice)
    let cursor ← (MonadExcept.ofExcept (cursor.replace s.block) : InSession EditCursor)
    modify fun splices => splices ++ [s]
    return cursor

/-- Puts the tables of splices beside a new body. The handlers of a callee lie inside those of the
caller and come first. -/
def withSplices (m : Method) (body : Body) (splices : List Splice) : Method :=
  Method.markModified
    { m with
      body
      exceptions := splices.flatMap Splice.exceptions ++ m.exceptions
      localVariables := m.localVariables ++ splices.flatMap Splice.localVariables }

/-- One round: replaces every call that can be inlined, and counts them. -/
def round (expand : CallSite → InSession (Except Skip Method)) (owner : String) (m : Method) :
    InSession (Nat × Method) := do
  if !hasCandidate (← get).inliner.policy m then return (0, m)
  let a ← Session.analyse owner m
  let (batch, splices) ← (EditBatch.collect m.body fun cursor insn _ => visit expand a cursor insn).run []
  if splices.isEmpty then return (0, m)
  let (_, body) ← (MonadExcept.ofExcept (batch.apply m.body) : InSession (Bool × Body))
  return (splices.length, withSplices m body splices)

/-- Rounds until one replaces nothing. A failing round leaves the method as it was before. -/
def rounds (expand : CallSite → InSession (Except Skip Method)) (owner : String) :
    Nat → Nat → Method → StateM Session (Attempt Method Nat)
  | 0, _, m => return ⟨m, .error .endless⟩
  | bound + 1, total, m => do
    match ← (round expand owner m).run with
    | .error e => return ⟨m, .error e⟩
    | .ok (0, _) => return ⟨m, .ok total⟩
    | .ok (count, m) => rounds expand owner bound (total + count) m

/-- The body by which calls of a target are replaced: the kept one, or a copy that has been inlined
into and is then kept. -/
def prepare (expand : CallSite → InSession (Except Skip Method)) (target : Target) :
    InSession Method := do
  match (← get).inliner.bodies[target.key]? with
  | some body => return body
  | none =>
    let body ← Session.fresh target.method.copy
    let bound := (← get).inliner.targetBound
    let attempt ← (rounds expand target.owner bound 0 body : StateM Session (Attempt Method Nat))
    Session.forget body.id
    let _ ← (MonadExcept.ofExcept attempt.result : InSession Nat)
    Session.keep target.key attempt.value
    return attempt.value

/-- A copy of the body by which a call can be replaced. The targets in `active` are being prepared.
-/
def expandCall : Nat → List TargetKey → CallSite → InSession (Except Skip Method)
  | 0, _, _ => throw .endless
  | depth + 1, active, site => do
    let inliner := (← get).inliner
    if !inliner.policy.admits site.owner site.name then return .error .untrusted
    match ← findTarget inliner.policy site (inliner.classPath.breadth + 1) site.owner with
    | .error skip => return .error skip
    | .ok target =>
      if (← get).inliner.barred.contains target.key then return .error .barred
      if active.contains target.key then
        Session.bar target.key
        return .error .recursive
      let body ← prepare (expandCall depth (target.key :: active)) target
      return .ok (← Session.fresh body.copy)

/-- Inlines calls in a method of a class until none is left that can be inlined, and counts them. -/
def inlineMethod (owner : String) (m : Method) : StateM Session (Attempt Method Nat) := do
  let bound := (← get).inliner.targetBound
  rounds (expandCall bound []) owner bound 0 m

end Bytecode.Inlining
