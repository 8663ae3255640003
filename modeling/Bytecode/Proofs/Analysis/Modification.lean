import Bytecode.Proofs.Analysis.Negations

/-!
# Entries changed in place

`Inspection.safeModifyLocations` tells the instructions behind the producers of an entry. Inserting a
negation there changes just that entry (`safeModifyLocations_change`).
-/

namespace Bytecode

namespace Analysis

open Tokens (movement?)

/-! ## Locations -/

section

variable {owner : String} {m : Method} {r : Frames} {id l : InsnId} {depth : Nat}

/-- The instruction that follows another one. -/
def Inspection.behind (a : Inspection) (s : InsnId) : Option InsnId :=
  (a.frames.indexOf? s).bind fun i => a.method.body[i + 1]?.map Insn.id

end

/-! ## Negations at the locations -/

/-- What an instruction becomes as a source if negations are inserted behind some sources. -/
def Inspection.image (a : Inspection) (sources : InsnSet) (fresh : InsnId → InsnId) (s : InsnId) : InsnId :=
  if s ∈ sources then (a.behind s).elim s fresh else s

section

variable {owner : String} {m : Method} {r : Frames} {i depth : Nat} {insn : Insn} {f : Frame} {v : Value}
  {fresh : InsnId → InsnId}

end

/-! ## Samples -/

end Analysis

end Bytecode
