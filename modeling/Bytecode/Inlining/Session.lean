import Bytecode.Analysis.FrameCache
import Bytecode.Analysis.Inspection
import Bytecode.Inlining.Splice
import Bytecode.Resolution.ClassPath
import Std.Data.HashSet

/-!
# Inlining sessions

An `Inliner` keeps what it has found out about targets from one method to the next: the bodies that
calls of a target are replaced by, and the targets that are barred because they reach themselves.
Inlining runs in a `Session`, which adds the analyses of the class at hand and the supply of
identities. A failure leaves the session as far as it got.
-/

/-! ## Trust

A trust policy names, by prefixes of class names, the classes whose methods may be inlined.
Constructors and class initialisers, whose names start with `<`, never are.
-/

namespace Bytecode

/-- The classes whose methods may be inlined. -/
structure TrustPolicy where
  prefixes : List String
  deriving DecidableEq, Repr, Inhabited

namespace TrustPolicy

/-- The namespace of the surrogates: helpers that stand in for parts of a runtime library. -/
def surrogateNamespace : String := "dekotlin/surrogate/"

/-- The policy that is used when nothing else is said. -/
def standard : TrustPolicy :=
  ⟨["kotlin/", surrogateNamespace]⟩

/-- Whether a class is trusted. -/
def trusts (p : TrustPolicy) (className : String) : Bool :=
  p.prefixes.any fun start => className.startsWith start

/-- Whether calls of a method may be inlined, as far as its name tells. -/
def admits (p : TrustPolicy) (className methodName : String) : Bool :=
  !methodName.startsWith "<" && p.trusts className

end TrustPolicy

end Bytecode

/-! ## Sessions -/

namespace Bytecode.Inlining

/-- Why a call is left alone. -/
inductive Skip where
  | untrusted
  | unresolved
  | noBody
  | recursive
  | barred
  deriving DecidableEq, Repr

/-- The name under which things are kept about a method: the class that declares it, and its
signature. -/
abbrev TargetKey := String

/-- The key of a method. -/
def targetKey (owner name descriptor : String) : TargetKey :=
  owner ++ "." ++ name ++ descriptor

/-- A method that a call leads to, with the class that declares it. -/
structure Target where
  owner : String
  method : Method
  deriving Repr

/-- The key of a target. -/
def Target.key (t : Target) : TargetKey :=
  targetKey t.owner t.method.name t.method.descriptor

/-- The inliner between two methods. -/
structure Inliner where
  policy : TrustPolicy := TrustPolicy.standard
  classPath : ClassPath := {}
  bodies : Std.HashMap TargetKey Method := ∅
  barred : Std.HashSet TargetKey := ∅

namespace Inliner

/-- Whether a method is barred from being inlined. -/
def isBarred (inliner : Inliner) (owner name descriptor : String) : Bool :=
  inliner.barred.contains (targetKey owner name descriptor)

/-- Forgets what has been found out about targets. -/
def clear (inliner : Inliner) : Inliner :=
  { inliner with bodies := ∅, barred := ∅ }

/-- More than the number of targets there can be: those that the class path can show, and those
whose bodies are kept. -/
def targetBound (inliner : Inliner) : Nat :=
  inliner.classPath.methodBound + inliner.bodies.size + 2

end Inliner

/-- The state in which methods of a class are inlined into. -/
structure Session where
  inliner : Inliner
  analyses : Analysis.FrameCache := {}
  supply : Supply := {}

/-- Work in a session that can fail. -/
abbrev InSession := ExceptT Failure (StateM Session)

namespace Session

/-- Takes identities from the supply of the session. -/
def fresh {α : Type} (x : Fresh α) : InSession α :=
  modifyGet fun s => let (a, supply) := x.run s.supply; (a, { s with supply })

/-- Takes identities from the supply of the session, and may fail. -/
def tryFresh {α : Type} (x : TryFresh α) : InSession α := do
  match x.run (← get).supply with
  | .ok (a, supply) =>
    modify fun s => { s with supply }
    return a
  | .error e => throw e

/-- The class of a name. -/
def resolve (name : String) : InSession (Option Class) :=
  modifyGet fun s =>
    let (answer, classPath) := s.inliner.classPath.resolve name
    (answer.map CachedClass.found, { s with inliner := { s.inliner with classPath } })

/-- The analysis of a method. -/
def analyse (owner : String) (m : Method) : InSession Analysis.Inspection := do
  let answer ← modifyGet fun ⟨inliner, analyses, supply⟩ =>
    let (answer, analyses) := analyses.lookup owner m
    (answer, ⟨inliner, analyses, supply⟩)
  match answer with
  | .ok entry => return ⟨owner, m, entry.frames⟩
  | .error e => throw e

/-- Forgets the analysis of a method. -/
def forget (m : MethodId) : InSession Unit :=
  modify fun s => { s with analyses := s.analyses.invalidate m }

/-- Bars a target. -/
def bar (key : TargetKey) : InSession Unit :=
  modify fun s => { s with inliner := { s.inliner with barred := s.inliner.barred.insert key } }

/-- Keeps the body by which calls of a target are replaced. -/
def keep (key : TargetKey) (body : Method) : InSession Unit :=
  modify fun s => { s with inliner := { s.inliner with bodies := s.inliner.bodies.insert key body } }

end Session

end Bytecode.Inlining
