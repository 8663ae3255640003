import Bytecode.Proofs.Analysis.Producers
import Bytecode.Proofs.Verification.Reachability
import Bytecode.Proofs.Verification.Words

/-!
# Frames and type frames agree

A frame of the analysis and a type frame agree if the words of the type frame are those of the values
on the stack, and no local variable is wide that the analysis knows to be narrow. `Agrees.execute` is
the simulation: where the operands of an instruction are as its opcode requires, it leads from frames
that agree to frames that agree. Joins keep the agreement as well.

The analysis counts a value of unknown kind as one word. The frames therefore agree only as long as the
kinds on the stack are known.
-/

namespace Bytecode

open Analysis (Frame Frames Moves PlainReturn)
open Tokens (Exchange Movement Origin movement?)
open Machine (operands operationOperands)

/-- The entries that fill some words have that size. -/
theorem Tokens.total_of_cut {words count : Nat} {kinds : List Kind}
    (h : Tokens.cut words kinds = some count) :
    count ≤ kinds.length ∧ total Kind.size (kinds.take count) = words := by
  fun_induction Tokens.cut words kinds generalizing count with
  | case1 =>
    cases h
    simp
  | case2 => cases h
  | case3 words kind rest fits ih =>
    obtain ⟨more, below, rfl⟩ := Option.map_eq_some_iff.mp h
    obtain ⟨enough, size⟩ := ih below
    refine ⟨Nat.succ_le_succ enough, ?_⟩
    rw [List.take_succ_cons, total_cons, size]
    omega
  | case4 => cases h

/-- One word is filled by one value. -/
theorem Tokens.cut_one {kinds : List Kind} {count : Nat} (h : Tokens.cut 1 kinds = some count) :
    ∃ kind rest, kinds = kind :: rest ∧ kind.size = 1 ∧ count = 1 := by
  cases kinds with
  | nil => cases h
  | cons kind rest =>
    have size : kind.size = 1 ∨ kind.size = 2 := by cases kind <;> first | exact .inl rfl | exact .inr rfl
    rw [Tokens.cut] at h
    split at h
    · next fits =>
      have single : kind.size = 1 := size.resolve_right (by omega)
      obtain ⟨more, below, rfl⟩ := Option.map_eq_some_iff.mp h
      obtain rfl : more = 0 := by simpa [single, Tokens.cut] using below.symm
      exact ⟨kind, rest, rfl, single, rfl⟩
    · cases h

namespace Analysis

/-! ## Kinds behind a simulated instruction -/

/-- The kind of an entry that comes onto a stack of the given kinds. -/
def originKind? (kinds : List Kind) : Origin → Option Kind
  | .kept depth => kinds[depth]?
  | .made kind => some kind

theorem originKind?_copies (kinds made : List Kind) :
    (Tokens.copies made).map (originKind? kinds) = made.map some := by
  rw [Tokens.copies, List.map_map]
  rfl

theorem originKind?_keep {kinds : List Kind} {count : Nat} (enough : count ≤ kinds.length) :
    (Tokens.keep count).map (originKind? kinds) = (kinds.take count).map some := by
  apply List.ext_getElem?
  intro k
  simp only [Tokens.keep, List.map_map, List.getElem?_map, List.getElem?_take]
  by_cases inside : k < count
  · rw [List.getElem?_range inside, if_pos inside]
    simp [originKind?, List.getElem?_eq_getElem (Nat.lt_of_lt_of_le inside enough)]
  · rw [List.getElem?_eq_none (by simpa using inside), if_neg inside]
    rfl

section

variable {used : Value → Prop} {insn : Insn} {f g : Frame} {x : Exchange}

/-- The kinds of the stack behind an instruction. -/
theorem Moves.kinds {m : Movement} (h : Moves used insn f g m x) :
    g.kinds.map some = x.pushed.map (originKind? f.kinds) ++ (f.kinds.drop x.taken).map some := by
  obtain ⟨values, comes, stack⟩ := h.stack
  have pushed : values.map (some ∘ Value.kind) = x.pushed.map (originKind? f.kinds) := by
    refine List.ext_getElem (by simp [comes.length_eq]) fun k inside _ => ?_
    rw [List.length_map] at inside
    obtain ⟨o, found, from_⟩ := getElem?_of_forall₂ comes (List.getElem?_eq_getElem inside)
    obtain ⟨_, same⟩ := List.getElem?_eq_some_iff.mp found
    rw [List.getElem_map, List.getElem_map, same, Function.comp]
    cases o with
    | kept depth =>
      change f.stack[depth]? = some values[k] at from_
      rw [originKind?, Frame.kinds, List.getElem?_map, from_]
      rfl
    | made kind => exact congrArg some from_.1
  rw [Frame.kinds, stack, List.map_append, List.map_append, List.map_map, pushed, Frame.kinds,
    List.map_drop]

/-- The stack behind an instruction with operands: they leave it, and the result comes there. -/
theorem Moves.kinds_operate {count : Nat} {result : Option Kind}
    (h : Moves used insn f g (.operate count result) x) :
    g.kinds = result.toList ++ f.kinds.drop count := by
  have exchange := h.exchange
  rw [Movement.exchange] at exchange
  split at exchange
  · cases exchange
    apply List.map_injective_iff.mpr (Option.some_injective Kind)
    rw [h.kinds, originKind?_copies, List.map_append]
  · cases exchange

/-- The stack behind a load: the variable comes onto it. -/
theorem Moves.kinds_load {slot : UInt16} (h : Moves used insn f g (.load slot) x) :
    ∃ kind, f.slotKind slot.toNat = some kind ∧ g.kinds = kind :: f.kinds := by
  obtain ⟨kind, found, rfl⟩ := Option.map_eq_some_iff.mp h.exchange
  refine ⟨kind, found, ?_⟩
  apply List.map_injective_iff.mpr (Option.some_injective Kind)
  rw [h.kinds, originKind?_copies]
  rfl

/-- The stack behind a store: the topmost value has left it. -/
theorem Moves.kinds_store {slot : UInt16} (h : Moves used insn f g (.store slot) x) :
    g.kinds = f.kinds.drop 1 := by
  have exchange := h.exchange
  rw [Movement.exchange] at exchange
  split at exchange
  · cases exchange
    apply List.map_injective_iff.mpr (Option.some_injective Kind)
    rw [h.kinds]
    rfl
  · cases exchange

/-- An increment leaves the stack alone. -/
theorem Moves.kinds_increment {slot : UInt16} (h : Moves used insn f g (.increment slot) x) :
    g.kinds = f.kinds := by
  have exchange := h.exchange
  cases exchange
  apply List.map_injective_iff.mpr (Option.some_injective Kind)
  rw [h.kinds]
  rfl

/-- The stack behind the dropping of words. -/
theorem Moves.kinds_drop {words : Nat} (h : Moves used insn f g (.drop words) x) :
    ∃ count, Tokens.cut words f.kinds = some count ∧ g.kinds = f.kinds.drop count := by
  obtain ⟨count, fits, rfl⟩ := Option.map_eq_some_iff.mp h.exchange
  refine ⟨count, fits, ?_⟩
  apply List.map_injective_iff.mpr (Option.some_injective Kind)
  rw [h.kinds]
  rfl

/-- The stack behind a shuffle other than SWAP: the words on top are copied. -/
theorem Moves.kinds_shuffle {form : Shuffle} (h : Moves used insn f g (.shuffle form) x)
    (other : form ≠ .swap) : ∃ top middle, Tokens.cut (Tokens.shuffledWords form).1 f.kinds = some top ∧
      Tokens.cut (Tokens.shuffledWords form).2 (f.kinds.drop top) = some middle ∧
      g.kinds = f.kinds.take (top + middle) ++ (f.kinds.take top ++ f.kinds.drop (top + middle)) := by
  obtain ⟨top, above, exchange⟩ := Option.bind_eq_some_iff.mp h.exchange
  obtain ⟨middle, below, exchange⟩ := Option.bind_eq_some_iff.mp exchange
  refine ⟨top, middle, above, below, ?_⟩
  apply List.map_injective_iff.mpr (Option.some_injective Kind)
  have enough : top ≤ f.kinds.length := (Tokens.total_of_cut above).1
  have enough' : top + middle ≤ f.kinds.length := by
    have := (Tokens.total_of_cut below).1
    rw [List.length_drop] at this
    omega
  cases form with
  | swap => exact absurd rfl other
  | dup | dup2 =>
    obtain rfl : middle = 0 := by simpa [Tokens.shuffledWords, Tokens.cut] using below.symm
    cases exchange
    rw [h.kinds, List.map_append, originKind?_copies, originKind?_keep enough]
    simp [List.map_take, List.map_drop]
  | _ =>
    cases exchange
    rw [h.kinds, List.map_append, originKind?_copies, originKind?_keep enough']
    simp

/-- The stack behind SWAP. -/
theorem Moves.kinds_swap (h : Moves used insn f g (.shuffle .swap) x) :
    ∃ top next rest, f.kinds = top :: next :: rest ∧ top.size = 1 ∧ next.size = 1 ∧
      g.kinds = next :: top :: rest := by
  obtain ⟨one, above, exchange⟩ := Option.bind_eq_some_iff.mp h.exchange
  obtain ⟨two, below, exchange⟩ := Option.bind_eq_some_iff.mp exchange
  obtain ⟨top, others, shape, single, rfl⟩ := Tokens.cut_one above
  rw [shape] at below
  obtain ⟨next, rest, shape', single', rfl⟩ := Tokens.cut_one below
  obtain rfl : others = next :: rest := shape'
  refine ⟨top, next, rest, shape, single, single', ?_⟩
  apply List.map_injective_iff.mpr (Option.some_injective Kind)
  cases exchange
  rw [h.kinds, originKind?_copies, shape]
  rfl

end

/-- The words on the stack are those of the kinds there. -/
theorem Frame.stackWords_eq (f : Frame) : f.stackWords = total Kind.size f.kinds := by
  rw [stackWords, kinds]
  induction f.stack with
  | nil => rfl
  | cons v rest ih => rw [List.map_cons, total_cons, total_cons, ih]; rfl

/-- The value that an access to a local variable loads or stores has the kind of the access. -/
def Frame.SuppliesAccess (f : Frame) (slot : UInt16) : SlotAccess → Prop
  | .load kind => f.slotKind slot.toNat = some kind
  | .store kind => f.kinds.head? = some kind
  | .other => False

/-- The operands of an instruction are as its opcode requires: those on the stack have the kinds that
it takes, and a local variable that it reads has the kind that it reads. Words may be dropped and
rearranged whatever they are of. No operands suit an opcode that does not belong to its node. -/
def Frame.Supplies (f : Frame) (node : Node) : Prop :=
  match operands node, node with
  | some required, _ => f.kinds.take required.length = required.reverse
  | none, .simple _ => True
  | none, .var op slot => f.SuppliesAccess slot (.ofOpcode op)
  | none, .increment slot _ => f.slotKind slot.toNat = some .int
  | none, _ => False

instance (f : Frame) (slot : UInt16) : ∀ access, Decidable (f.SuppliesAccess slot access)
  | .load kind => inferInstanceAs (Decidable (f.slotKind slot.toNat = some kind))
  | .store kind => inferInstanceAs (Decidable (f.kinds.head? = some kind))
  | .other => inferInstanceAs (Decidable False)

instance (f : Frame) (node : Node) : Decidable (f.Supplies node) := by
  unfold Frame.Supplies
  split <;> infer_instance

/-- The operands of all instructions of a body that control reaches are as their opcodes require. -/
def Frames.Supply (r : Frames) (body : Body) : Prop :=
  ∀ (i : Nat) insn f, body[i]? = some insn → r.frameAt i = some f → f.Supplies insn.node

instance (r : Frames) (body : Body) : Decidable (r.Supply body) :=
  decidable_of_iff (∀ i < body.size, ∀ insn ∈ body[i]?, ∀ f ∈ r.frameAt i, f.Supplies insn.node)
    ⟨fun h i insn f at_position there =>
        h i (Array.getElem?_eq_some_iff.mp at_position).1 insn at_position f there,
      fun h i _ insn at_position f there => h i insn f at_position there⟩

end Analysis

open TypeFrame

/-- A type frame agrees with a frame of the analysis: its words are those of the values on the stack,
and a local variable that is wide holds a wide value, if anything is known about it. -/
structure TypeFrame.Agrees (f : Frame) (w : TypeFrame) : Prop where
  words : Words f.kinds w.stack
  locals : ∀ (k : Nat) type kind, w.locals[k]? = some type → type.isWide = true →
    f.slotKind k = some kind → kind.isWide = true ∨ kind = .uninitialized

namespace TypeFrame

section

variable {used : Analysis.Value → Prop} {insn : Insn} {f g : Frame} {m : Movement} {x : Exchange}
  {w w' : TypeFrame} {kinds : List Kind}

/-- The words on the stack are those that the analysis counts. -/
theorem Agrees.height (h : Agrees f w) : w.stack.length = f.stackWords := by
  rw [h.words.length_eq, f.stackWords_eq]

/-- A local variable behind an instruction that stores nothing into it. -/
theorem Agrees.kept (h : Agrees f w) (moves : Moves used insn f g m x)
    (others : ∀ k kind, m.change f.slotKind f.kinds k = .filled kind →
      ∀ type, w'.locals[k]? = some type → type.isWide = true → kind.isWide = true)
    (wide : ∀ k, m.change f.slotKind f.kinds k = .kept → ∀ type, w'.locals[k]? = some type →
      type.isWide = true → ∃ earlier, w.locals[k]? = some earlier ∧ earlier.isWide = true)
    (k : Nat) (type : VerificationType) (kind : Kind) (found : w'.locals[k]? = some type)
    (double : type.isWide = true) (slot : g.slotKind k = some kind) :
    kind.isWide = true ∨ kind = .uninitialized := by
  obtain ⟨v, there, rfl⟩ := Option.map_eq_some_iff.mp slot
  have remains := moves.locals k v there
  cases change : m.change f.slotKind f.kinds k with
  | kept =>
    rw [change] at remains
    obtain ⟨earlier, before, double'⟩ := wide k change type found double
    refine h.locals k earlier _ before double' ?_
    rw [Frame.slotKind, remains, Option.map_some]
  | emptied =>
    rw [change] at remains
    exact .inr remains
  | filled kind =>
    rw [change] at remains
    rw [remains.1]
    exact .inl (others k kind change type found double)

/-- An instruction with operands on the stack. -/
theorem Agrees.operate {count : Nat} {result : Option Kind} (h : Agrees f w)
    (moves : Moves used insn f g (.operate count result) x)
    (operated : Operated f.kinds w w' count result) : Agrees g w' where
  words := by
    rw [moves.kinds_operate]
    exact operated.words
  locals := by
    refine h.kept moves (fun k kind filled => ?_) fun k _ => operated.locals k
    cases filled

/-- A load. -/
theorem Agrees.load {slot : UInt16} {kind : Kind} {type : VerificationType} (h : Agrees f w)
    (moves : Moves used insn f g (.load slot) x) (slotKind : f.slotKind slot.toNat = some kind)
    (suits : Suits kind type) : Agrees g (w.push type) where
  words := by
    obtain ⟨kind', found, kinds⟩ := moves.kinds_load
    obtain rfl : kind = kind' := Option.some.inj (slotKind.symm.trans found)
    rw [kinds]
    exact h.words.cons suits
  locals := by
    refine h.kept moves (fun k kind filled => ?_) fun k _ type found wide => ⟨type, found, wide⟩
    cases filled

/-- An increment of an int. -/
theorem Agrees.increment {slot : UInt16} (h : Agrees f w)
    (moves : Moves used insn f g (.increment slot) x) (slotKind : f.slotKind slot.toNat = some .int) :
    Agrees g w where
  words := by
    rw [moves.kinds_increment]
    exact h.words
  locals := by
    refine h.kept moves (fun k kind filled type found wide => ?_)
      fun k _ type found wide => ⟨type, found, wide⟩
    have at_slot : k = slot.toNat := by
      rw [Movement.change] at filled
      split at filled
      · assumption
      · cases filled
    subst at_slot
    rcases h.locals _ type .int found wide slotKind with double | unknown
    · cases double
    · cases unknown

/-- A local variable behind a store. -/
theorem setLocal_eq_ok {slot : Nat} {type : VerificationType} (ran : w.setLocal slot type = .ok w') :
    w'.stack = w.stack ∧ w'.locals[slot]? = some type ∧
      ∀ k t, k ≠ slot → w'.locals[k]? = some t → t.isWide = true → w.locals[k]? = some t := by
  have invalidated (k : Nat) (t : VerificationType)
      (found : (invalidateBefore w.locals slot)[k]? = some t) (wide : t.isWide = true) :
      w.locals[k]? = some t := by
    cases slot with
    | zero => exact found
    | succ before =>
      rw [invalidateBefore] at found
      split at found
      · rw [List.getElem?_set] at found
        split at found
        · split at found <;> cases found
          cases wide
        · exact found
      · exact found
  have length : (invalidateBefore w.locals slot).length = w.locals.length := by
    cases slot with
    | zero => rfl
    | succ before =>
      rw [invalidateBefore]
      split
      · exact List.length_set
      · rfl
  rw [setLocal] at ran
  by_cases outside : w.locals.length < slot + if type.isWide then 2 else 1
  · rw [if_pos outside] at ran
    cases ran
  · rw [if_neg outside] at ran
    cases ran
    refine ⟨rfl, ?_, fun k t other found wide => ?_⟩
    · apply List.getElem?_set_self
      split at outside
      · rw [if_pos (by assumption), List.length_set, length]
        omega
      · rw [if_neg (by assumption), length]
        omega
    · rw [List.getElem?_set_ne (Ne.symm other)] at found
      split at found
      · by_cases next : slot + 1 = k
        · rw [next, List.getElem?_set] at found
          simp only [if_true] at found
          split at found <;> cases found
          cases wide
        · rw [List.getElem?_set_ne next] at found
          exact invalidated k t found wide
      · exact invalidated k t found wide

/-- A store of the topmost value. -/
theorem Agrees.store {slot : UInt16} {kind : Kind} {type : VerificationType} {popped : TypeFrame}
    (h : Agrees f w) (moves : Moves used insn f g (.store slot) x) (head : f.kinds.head? = some kind)
    (suits : Suits kind type) (locals : popped.locals = w.locals)
    (words : Words (f.kinds.drop 1) popped.stack)
    (ran : popped.setLocal slot.toNat type = .ok w') : Agrees g w' := by
  obtain ⟨stack, here, elsewhere⟩ := setLocal_eq_ok ran
  have stored (k : Nat) : Movement.change f.slotKind f.kinds k (.store slot) =
      Tokens.storeChange f.slotKind kind slot k := by
    rw [Movement.change, head]
    rfl
  refine ⟨by rw [moves.kinds_store, stack]; exact words,
    h.kept moves (fun k kind' filled t found wide => ?_) fun k kept t found wide => ?_⟩
  · -- only the slot of the store is filled, with the stored value
    rw [stored, Tokens.storeChange] at filled
    by_cases at_slot : k = slot.toNat
    · rw [if_pos at_slot] at filled
      cases filled
      rw [at_slot, here] at found
      cases found
      by_contra single
      rw [Suits, if_neg single] at suits
      rw [suits] at wide
      cases wide
    · rw [if_neg at_slot] at filled
      split at filled
      · cases filled
      · split at filled <;> cases filled
  · have other : k ≠ slot.toNat := by
      rintro rfl
      rw [stored, Tokens.storeChange, if_pos rfl] at kept
      cases kept
    exact ⟨t, locals ▸ elsewhere k t other found wide, wide⟩

/-- The dropping of words. -/
theorem Agrees.drop {words : Nat} (h : Agrees f w) (moves : Moves used insn f g (.drop words) x)
    (ran : w.pop words = .ok w') : Agrees g w' := by
  obtain ⟨count, fits, kinds⟩ := moves.kinds_drop
  obtain ⟨-, rfl⟩ := pop_eq_ok ran
  refine ⟨?_, h.kept moves (fun k kind filled => ?_) fun k _ type found wide => ⟨type, found, wide⟩⟩
  · have below := (h.words.split count).2
    rw [(Tokens.total_of_cut fits).2] at below
    rw [kinds]
    exact below
  · cases filled

/-- The copying of words. -/
theorem words_dup {take under top middle : Nat} (h : Words kinds w.stack)
    (above : Tokens.cut take kinds = some top) (below : Tokens.cut under (kinds.drop top) = some middle)
    (ran : w.dup take under = .ok w') : w'.locals = w.locals ∧
      Words (kinds.take (top + middle) ++ (kinds.take top ++ kinds.drop (top + middle))) w'.stack := by
  have size : total Kind.size (kinds.take (top + middle)) = take + under := by
    rw [List.take_add, total_append, (Tokens.total_of_cut above).2, (Tokens.total_of_cut below).2]
  rw [dup] at ran
  split at ran
  · cases ran
  · cases ran
    have parts := h.split (top + middle)
    have copied := (h.split top).1
    rw [size] at parts
    rw [(Tokens.total_of_cut above).2] at copied
    refine ⟨rfl, ?_⟩
    rw [List.append_assoc]
    exact parts.1.append (copied.append parts.2)

/-- The exchange of two words. -/
theorem words_swap {top next : Kind} {types : List VerificationType}
    (h : Words (top :: next :: kinds) types) (single : top.size = 1) (single' : next.size = 1) :
    ∃ a b others, types = a :: b :: others ∧ Words (next :: top :: kinds) (b :: a :: others) := by
  cases h with
  | wide double => rw [Kind.isWide, single] at double; cases double
  | narrow narrow type rest =>
    cases rest with
    | wide double => rw [Kind.isWide, single'] at double; cases double
    | narrow narrow' type' rest => exact ⟨_, _, _, rfl, .narrow narrow' type' (.narrow narrow type rest)⟩

/-- A shuffle. -/
theorem Agrees.shuffle {form : Shuffle} (h : Agrees f w)
    (moves : Moves used insn f g (.shuffle form) x) (ran : w.shuffle form = .ok w') : Agrees g w' := by
  have locals (same : w'.locals = w.locals) (k : Nat) (type : VerificationType) (kind : Kind)
      (found : w'.locals[k]? = some type) (wide : type.isWide = true)
      (slot : g.slotKind k = some kind) : kind.isWide = true ∨ kind = .uninitialized :=
    h.kept moves (fun k kind filled => by cases filled)
      (fun k _ type found wide => ⟨type, same ▸ found, wide⟩) k type kind found wide slot
  by_cases swap : form = .swap
  · subst swap
    obtain ⟨top, next, rest, kinds, single, single', kinds'⟩ := moves.kinds_swap
    obtain ⟨a, b, others, stack, words⟩ := words_swap (kinds ▸ h.words) single single'
    change w.swap = .ok w' at ran
    rw [TypeFrame.swap, stack] at ran
    cases ran
    exact ⟨kinds' ▸ words, locals rfl⟩
  · obtain ⟨top, middle, above, below, kinds⟩ := moves.kinds_shuffle swap
    have copied : w.dup (Tokens.shuffledWords form).1 (Tokens.shuffledWords form).2 = .ok w' := by
      cases form with
      | swap => exact absurd rfl swap
      | _ => exact ran
    obtain ⟨same, words⟩ := words_dup h.words above below copied
    exact ⟨kinds ▸ words, locals same⟩

/-- Nodes with operands on the stack only take them and push a result. -/
theorem operate_of_operands {node : Node} {required : List Kind} (known : operands node = some required)
    (moves : movement? node = some m) : ∃ count result, m = .operate count result := by
  cases node with
  | simple op =>
    simp only [operands, movement?] at known moves
    cases operation : Operation.ofOpcode op with
    | leave kind =>
      rw [operation] at moves
      cases kind <;> cases moves <;> exact ⟨_, _, rfl⟩
    | pop | pop2 | shuffle | other =>
      rw [operation] at known
      cases known
    | _ =>
      rw [operation] at moves
      cases moves
      exact ⟨_, _, rfl⟩
  | label | line | constant | tableSwitch | lookupSwitch | newArrays =>
    cases moves
    exact ⟨_, _, rfl⟩
  | int op operand =>
    simp only [movement?, Option.some.injEq] at moves
    split at moves <;> exact ⟨_, _, moves.symm⟩
  | type op name =>
    simp only [movement?, Tokens.typeMovement, Option.some.injEq] at moves
    repeat' split at moves
    all_goals exact ⟨_, _, moves.symm⟩
  | field op owner name descriptor =>
    simp only [movement?, Tokens.fieldMovement, Option.some.injEq] at moves
    repeat' split at moves
    all_goals exact ⟨_, _, moves.symm⟩
  | call | dynamicCall =>
    obtain ⟨d, -, rfl⟩ := Option.map_eq_some_iff.mp moves
    exact ⟨_, _, rfl⟩
  | jump op target =>
    simp only [movement?] at moves
    cases form : JumpForm.ofOpcode op <;> rw [form] at moves <;> cases moves <;> exact ⟨_, _, rfl⟩
  | var | increment => cases known

/-- A load of a local variable of the kind that the opcode loads. -/
theorem Agrees.executeLoad {op : Opcode} {slot : UInt16} {kind : Kind} (h : Agrees f w)
    (access : SlotAccess.ofOpcode op = .load kind) (moves : Moves used insn f g (.load slot) x)
    (supplied : f.slotKind slot.toNat = some kind) (ran : w.executeVar op slot.toNat = .ok w') :
    Agrees g w' := by
  rw [executeVar, access] at ran
  by_cases reference : kind = .reference
  · subst reference
    obtain ⟨type, found, ran⟩ := ok_of_bind ran
    cases ran
    have there : w.locals[slot.toNat]? = some type := by
      rw [getLocal] at found
      split at found
      · next there => rw [there, Except.ok.inj found]
      · cases found
    refine h.load moves supplied (suits_of_narrow rfl ?_)
    by_contra wide
    rcases h.locals _ type _ there (Bool.not_eq_false _ ▸ wide) supplied with double | unknown
    · cases double
    · cases unknown
  · have pushed : .ok (w.push (typeOf kind)) = Except.ok (ε := InferenceError) w' := by
      cases kind with
      | reference => exact absurd rfl reference
      | _ => exact ran
    cases pushed
    exact h.load moves supplied (suits_typeOf kind)

/-- The topmost word of a value that takes one word. -/
theorem Words.head_narrow {kind : Kind} {type : VerificationType} {types : List VerificationType}
    (h : Words (kind :: kinds) (type :: types)) (single : kind.isWide = false) :
    type.isWide = false := by
  cases h with
  | narrow _ narrow => exact narrow
  | wide double => rw [single] at double; cases double

/-- A store of a value of the kind that the opcode stores. -/
theorem Agrees.executeStore {op : Opcode} {slot : UInt16} {kind : Kind} (h : Agrees f w)
    (access : SlotAccess.ofOpcode op = .store kind) (moves : Moves used insn f g (.store slot) x)
    (supplied : f.kinds.head? = some kind) (ran : w.executeVar op slot.toNat = .ok w') :
    Agrees g w' := by
  obtain ⟨rest, kinds⟩ : ∃ rest, f.kinds = kind :: rest := by
    cases shape : f.kinds with
    | nil => rw [shape] at supplied; cases supplied
    | cons top rest =>
      rw [shape] at supplied
      cases supplied
      exact ⟨rest, rfl⟩
  have below := (h.words.split 1).2
  rw [kinds, List.take_succ_cons, List.take_zero, total_cons, total_nil, size_of_isWide] at below
  rw [executeVar, access] at ran
  dsimp only at ran
  by_cases wide : kind.isWide = true
  · rw [if_pos wide] at ran below
    obtain ⟨popped, taken, ran⟩ := ok_of_bind ran
    obtain ⟨-, rfl⟩ := pop_eq_ok taken
    refine h.store moves supplied (suits_typeOf kind) ?_ ?_ ran
    · rfl
    · rw [kinds]
      exact below
  · rw [if_neg wide] at ran below
    obtain ⟨⟨type, popped⟩, taken, ran⟩ := ok_of_bind ran
    obtain ⟨shape, rfl⟩ := popWord_eq_ok taken
    have words := h.words
    rw [kinds, shape] at words
    have single : kind.isWide = false := Bool.not_eq_true _ ▸ wide
    refine h.store moves supplied (suits_of_narrow single (words.head_narrow single)) ?_ ?_ ran
    · rfl
    · rw [kinds]
      exact below

/-- An operation that drops or rearranges words. -/
theorem Agrees.rearrange {op : Opcode} (h : Agrees f w) (moves : Moves used insn f g m x)
    (other : operationOperands (.ofOpcode op) = none)
    (movement : Tokens.operationMovement (.ofOpcode op) = some m)
    (ran : w.executeSimple op = .ok w') : Agrees g w' := by
  rw [executeSimple] at ran
  cases operation : Operation.ofOpcode op <;> rw [operation] at other movement ran
  case pop =>
    cases movement
    exact h.drop moves ran
  case pop2 =>
    cases movement
    exact h.drop moves ran
  case shuffle form =>
    cases movement
    exact h.shuffle moves ran
  case leave kind => cases kind <;> cases other
  case other => cases movement
  all_goals cases other

/-- **The simulation.** An instruction whose operands are as its opcode requires leads from frames that
agree to frames that agree. -/
theorem Agrees.execute {body : Body} {owner : String} {index : Nat} (h : Agrees f w)
    (moves : Moves used insn f g m x) (supplied : f.Supplies insn.node) (known : g.Known)
    (short : w.stack.length ≤ 65535) (ran : w.execute body owner index insn.node = .ok w') :
    Agrees g w' := by
  have described (kind : Kind) (member : kind ∈ g.kinds) : kind ≠ .uninitialized := by
    obtain ⟨v, there, rfl⟩ := List.mem_map.mp member
    exact known v there
  unfold Frame.Supplies at supplied
  cases required : operands insn.node with
  | some kinds =>
    rw [required] at supplied
    obtain ⟨count, result, rfl⟩ := operate_of_operands required moves.movement
    refine h.operate moves (execute_operates h.words short required supplied moves.movement ?_ ran)
    intro kind made
    refine described kind ?_
    rw [moves.kinds_operate, made]
    exact List.mem_cons_self
  | none =>
    rw [required] at supplied
    have movement := moves.movement
    cases node : insn.node <;> rw [node] at required supplied movement ran
    case simple op => exact h.rearrange moves required movement ran
    case var op slot =>
      have supplied : f.SuppliesAccess slot (.ofOpcode op) := supplied
      rw [movement?] at movement
      cases access : SlotAccess.ofOpcode op <;> rw [access] at movement supplied <;> cases movement
      case load kind => exact h.executeLoad access moves supplied ran
      case store kind => exact h.executeStore access moves supplied ran
    case increment slot amount =>
      cases movement
      cases ran
      exact h.increment moves supplied
    all_goals exact supplied.elim

end

end TypeFrame

end Bytecode
