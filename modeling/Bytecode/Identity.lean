/-!
# Identities

Instructions, labels and methods keep an identity while bodies are edited around them. Identities
are handed out by a `Supply`: a counter above every identity handed out before, so that a fresh one
differs from all others. Computations that create instructions run in `Fresh`.
-/

namespace Bytecode

/-- The identity of an instruction. -/
structure InsnId where
  val : Nat
  deriving DecidableEq, Hashable, Repr, Inhabited, Ord

/-- The identity of a label, a position that jumps and tables refer to. -/
structure LabelId where
  val : Nat
  deriving DecidableEq, Hashable, Repr, Inhabited, Ord

/-- The identity of a method body under analysis. -/
structure MethodId where
  val : Nat
  deriving DecidableEq, Hashable, Repr, Inhabited, Ord

/-- A source of identities: all those below `next` have been handed out. -/
structure Supply where
  next : Nat := 0
  deriving Repr, Inhabited

/-- Computations that take identities from a supply. -/
abbrev Fresh := StateM Supply

namespace Fresh

/-- Takes `count` consecutive identities and returns the first. -/
def block (count : Nat) : Fresh Nat :=
  fun supply => (supply.next, ⟨supply.next + count⟩)

/-- A new instruction identity. -/
def insnId : Fresh InsnId :=
  return ⟨← block 1⟩

/-- A new label. -/
def labelId : Fresh LabelId :=
  return ⟨← block 1⟩

/-- A new method identity. -/
def methodId : Fresh MethodId :=
  return ⟨← block 1⟩

end Fresh

/-! ## Sets of instructions

A set of instructions is the strictly ascending list of its members, so that equal sets are equal
lists. `mem_insert` and `mem_union` say what the operations hold.
-/

/-- A finite set of instructions, as an ascending list. -/
abbrev InsnSet := List InsnId

namespace InsnSet

/-- Adds an instruction. -/
def insert (i : InsnId) : InsnSet → InsnSet
  | [] => [i]
  | j :: rest =>
    if i.val < j.val then i :: j :: rest
    else if i = j then j :: rest
    else j :: insert i rest

/-- The members of either set. -/
def union (s t : InsnSet) : InsnSet :=
  s.foldr insert t

theorem mem_insert {i j : InsnId} {s : InsnSet} : j ∈ insert i s ↔ j = i ∨ j ∈ s := by
  induction s with
  | nil => simp [insert]
  | cons k s ih => grind [insert]

theorem mem_union {j : InsnId} {s t : InsnSet} : j ∈ union s t ↔ j ∈ s ∨ j ∈ t := by
  induction s with
  | nil => simp [union]
  | cons i s ih =>
    rw [union, List.foldr_cons, mem_insert, ← union, ih, List.mem_cons, or_assoc]

end InsnSet

end Bytecode
