import Bytecode.Proofs.Labels
import Bytecode.Proofs.Machine.Effect
import Mathlib.Logic.Relation

/-!
# Runs of the reference machine

A run starts a method with its arguments and carries out one instruction after the other. What an
instruction asks for is answered by an `Environment`, which has a state of its own: the same rules
describe a machine with a heap, one that writes down what it asks, and one that runs the called
methods itself.

A run is observed at any time. What it comes to is an `Outcome`: a result, an exception that no
handler takes, nothing yet, or an instruction that is stuck.
-/

namespace Bytecode.Machine

/-- What the machine executes: a body, the positions of its labels, and its handlers. -/
structure Code where
  body : Body
  positions : LabelPositions
  ranges : List CoveredRange

/-- The code of a method, unless a label of a handler is missing. -/
def codeOf? (m : Method) : Option Code :=
  (m.coveredRanges m.body.lastLabels).map fun ranges => ⟨m.body, m.body.lastLabels, ranges⟩

/-- What a run has come to when it is observed. -/
inductive Outcome where
  | returned (value : Option Datum)
  | threw (exception : Ref)
  | unfinished
  | stuck
  deriving DecidableEq, Repr

/-- What surrounds a running method: the answers to what it asks, the exceptions that may interrupt
it at any time, and the classes of exceptions. -/
structure Environment (W : Type) where
  answers : Node → List Datum → W → Outcome → W → Prop
  interrupts : W → Ref → W → Prop
  catches : Ref → String → Bool

/-- A point of a run: the next instruction, the activation, and the state of the surroundings. -/
structure Config (W : Type) where
  pc : Nat
  activation : Activation
  world : W

/-- The handler of an exception at a position: that of the first range which covers the position and
takes exceptions of the class. -/
def Code.handler? (code : Code) (catches : Ref → String → Bool) (pc : Nat) (e : Ref) : Option Nat :=
  (code.ranges.find? fun r => r.covers pc && r.catchType.elim true (catches e)).map (·.handler)

section Rules

variable {W : Type} (env : Environment W) (code : Code)

/-- The exceptions that can occur at a point. -/
inductive Raises : Config W → Ref → W → Prop
  | effect {pc a w insn e} (at_pc : code.body[pc]? = some insn)
      (raises : effect insn.node a = some (.raise e)) : Raises ⟨pc, a, w⟩ e w
  | answer {pc a w insn taken reply b e w'} (at_pc : code.body[pc]? = some insn)
      (asks : effect insn.node a = some (.ask taken reply b))
      (answer : env.answers insn.node taken w (.threw e) w') : Raises ⟨pc, a, w⟩ e w'
  | interrupt {pc a w e w'} (interrupts : env.interrupts w e w') : Raises ⟨pc, a, w⟩ e w'

/-- One step of a run inside a method. -/
inductive Step : Config W → Config W → Prop
  | next {pc a w insn b} (at_pc : code.body[pc]? = some insn)
      (goes : effect insn.node a = some (.next b)) : Step ⟨pc, a, w⟩ ⟨pc + 1, b, w⟩
  | jump {pc a w insn l b target} (at_pc : code.body[pc]? = some insn)
      (jumps : effect insn.node a = some (.jump l b)) (found : code.positions l = some target) :
      Step ⟨pc, a, w⟩ ⟨target, b, w⟩
  | answered {pc a w insn taken reply b v d w'} (at_pc : code.body[pc]? = some insn)
      (asks : effect insn.node a = some (.ask taken reply b))
      (answer : env.answers insn.node taken w (.returned v) w')
      (pushed : reply.pushed v = some d) : Step ⟨pc, a, w⟩ ⟨pc + 1, b.push? d, w'⟩
  | caught {pc a w e w' handler} (raised : Raises env code ⟨pc, a, w⟩ e w')
      (taken : code.handler? env.catches pc e = some handler) :
      Step ⟨pc, a, w⟩ ⟨handler, ⟨a.locals, [.ref e]⟩, w'⟩

/-- The points that a run reaches. -/
def Reaches : Config W → Config W → Prop :=
  Relation.ReflTransGen (Step env code)

/-- Whether the next instruction cannot be carried out: there is none, it has no effect, its target
is missing, or it cannot use the answer. -/
inductive Stuck : Config W → W → Prop
  | outside {pc a w} (outside : code.body[pc]? = none) : Stuck ⟨pc, a, w⟩ w
  | noEffect {pc a w insn} (at_pc : code.body[pc]? = some insn)
      (stuck : effect insn.node a = none) : Stuck ⟨pc, a, w⟩ w
  | noTarget {pc a w insn l b} (at_pc : code.body[pc]? = some insn)
      (jumps : effect insn.node a = some (.jump l b)) (missing : code.positions l = none) :
      Stuck ⟨pc, a, w⟩ w
  | answer {pc a w insn taken reply b v w'} (at_pc : code.body[pc]? = some insn)
      (asks : effect insn.node a = some (.ask taken reply b))
      (answer : env.answers insn.node taken w (.returned v) w') (useless : reply.pushed v = none) :
      Stuck ⟨pc, a, w⟩ w'

/-- What a run has come to at a point. A run whose call is unfinished or stuck is so itself. -/
inductive Ends : Config W → Outcome → W → Prop
  | leave {pc a w insn v} (at_pc : code.body[pc]? = some insn)
      (leaves : effect insn.node a = some (.leave v)) : Ends ⟨pc, a, w⟩ (.returned v) w
  | uncaught {pc a w e w'} (raised : Raises env code ⟨pc, a, w⟩ e w')
      (free : code.handler? env.catches pc e = none) : Ends ⟨pc, a, w⟩ (.threw e) w'
  | observed {pc a w} : Ends ⟨pc, a, w⟩ .unfinished w
  | stuck {pc a w w'} (stuck : Stuck env code ⟨pc, a, w⟩ w') : Ends ⟨pc, a, w⟩ .stuck w'
  | inside {pc a w insn taken reply b o w'} (at_pc : code.body[pc]? = some insn)
      (asks : effect insn.node a = some (.ask taken reply b))
      (answer : env.answers insn.node taken w o w') (open_ : o = .unfinished ∨ o = .stuck) :
      Ends ⟨pc, a, w⟩ o w'

/-- What a run from a point can come to. -/
def Runs (c : Config W) (o : Outcome) (w : W) : Prop :=
  ∃ d, Reaches env code c d ∧ Ends env code d o w

end Rules

/-- The kinds of the arguments that a method takes, the receiver first. -/
def parameterKinds (m : Method) : Option (List Kind) :=
  (MethodDescriptor.parse m.descriptor).toOption.map fun d =>
    (if m.isStatic then [] else [.reference]) ++ argumentKinds d

end Bytecode.Machine
