import Bytecode.Proofs.Analysis.Meaning
import Bytecode.Proofs.Coding.Results
import Bytecode.Proofs.Machine.Tokens
import Bytecode.Verification.Inference

/-!
# Type frames as words of values

The inference of type frames works on words: a wide value is its type beneath a `top`. `Words` relates
the kinds of the values on a stack to the types of its words, and `WideFrom` says that no local
variable has become wide.

`execute_operates` is the simulation for the instructions that take operands of fixed kinds:
the words behind such an instruction are those of the values that its `Movement` leaves. Its parts
follow the nodes. The instructions that drop or rearrange words and those that access local variables
come after it.
-/

namespace Bytecode

open Tokens (Movement movement?)
open Machine (operands operationOperands)

/-- Types that are not wide have no wide join. -/
theorem Hierarchy.isWide_merge (h : Hierarchy) {a b : VerificationType} (left : a.isWide = false) :
    (h.merge a b).isWide = false := by
  unfold Hierarchy.merge
  split
  · exact left
  · cases a <;> cases b <;> rfl

/-- Whether an operation pushes a number, if it pushes a constant. -/
def Operation.isNumeric : Operation → Bool
  | .constant (.int _) | .constant (.long _) | .constant (.float _) | .constant (.double _) => true
  | .constant _ => false
  | _ => true

private theorem isNumeric_ofOpcode :
    ∀ code : Fin 256, (Operation.ofOpcode (UInt8.ofNat code)).isNumeric = true := by
  decide +kernel

namespace TypeFrame

/-! ## Words -/

/-- A type of values of a kind. The type of a wide value is known exactly. -/
def Suits (kind : Kind) (type : VerificationType) : Prop :=
  if kind.isWide then type = typeOf kind else type.isWide = false

/-- The types of the words of values of the given kinds, the topmost first. -/
inductive Words : List Kind → List VerificationType → Prop
  | nil : Words [] []
  | narrow {kind : Kind} {type : VerificationType} {kinds : List Kind} {types : List VerificationType}
      (single : kind.isWide = false) (narrow : type.isWide = false) (rest : Words kinds types) :
      Words (kind :: kinds) (type :: types)
  | wide {kind : Kind} {kinds : List Kind} {types : List VerificationType}
      (double : kind.isWide = true) (rest : Words kinds types) :
      Words (kind :: kinds) (.top :: typeOf kind :: types)

theorem isWide_typeOf (kind : Kind) : (typeOf kind).isWide = kind.isWide := by
  cases kind <;> rfl

theorem suits_typeOf (kind : Kind) : Suits kind (typeOf kind) := by
  unfold Suits
  split
  · rfl
  · next narrow =>
    rw [isWide_typeOf]
    exact Bool.not_eq_true _ ▸ narrow

theorem suits_of_narrow {kind : Kind} {type : VerificationType} (single : kind.isWide = false)
    (narrow : type.isWide = false) : Suits kind type := by
  rw [Suits, if_neg (by rw [single]; exact Bool.false_ne_true)]
  exact narrow

/-- A descriptor has a kind and a type for its values, or neither. -/
theorem suits_ofDescriptor (d : Descriptor) :
    Option.Rel Suits (Kind.ofDescriptor d) (VerificationType.ofDescriptor d) := by
  cases d <;> first | exact .none | exact .some rfl

theorem size_of_isWide (kind : Kind) : kind.size = if kind.isWide then 2 else 1 := by
  cases kind <;> rfl

theorem total_reverse {α : Type} (measure : α → Nat) (as : List α) :
    total measure as.reverse = total measure as := by
  induction as with
  | nil => rfl
  | cons a rest ih =>
    rw [List.reverse_cons, total_append, ih]
    simp [Nat.add_comm]

namespace Words

variable {kinds kinds' : List Kind} {types types' : List VerificationType}

theorem length_eq (h : Words kinds types) : types.length = total Kind.size kinds := by
  induction h with
  | nil => rfl
  | narrow single _ _ ih => simp [size_of_isWide, single, ih, Nat.add_comm]
  | wide double _ ih =>
    simp only [List.length_cons, total_cons, size_of_isWide, double, if_true, ih]
    omega

theorem append (h : Words kinds types) (h' : Words kinds' types') :
    Words (kinds ++ kinds') (types ++ types') := by
  induction h with
  | nil => exact h'
  | narrow single narrow _ ih => exact .narrow single narrow ih
  | wide double _ ih => exact .wide double ih

/-- The words of the topmost values, and those of the others. -/
theorem split (h : Words kinds types) (count : Nat) :
    Words (kinds.take count) (types.take (total Kind.size (kinds.take count))) ∧
      Words (kinds.drop count) (types.drop (total Kind.size (kinds.take count))) := by
  induction h generalizing count with
  | nil => simp [Words.nil]
  | narrow single narrow rest ih =>
    cases count with
    | zero => exact ⟨.nil, .narrow single narrow rest⟩
    | succ count =>
      obtain ⟨above, below⟩ := ih count
      simp only [List.take_succ_cons, total_cons, size_of_isWide, single, Bool.false_eq_true, if_false,
        List.drop_succ_cons, Nat.add_comm 1]
      exact ⟨.narrow single narrow above, below⟩
  | wide double rest ih =>
    cases count with
    | zero => exact ⟨.nil, .wide double rest⟩
    | succ count =>
      obtain ⟨above, below⟩ := ih count
      simp only [List.take_succ_cons, total_cons, size_of_isWide, double, if_true,
        List.drop_succ_cons, Nat.add_comm 2]
      exact ⟨.wide double above, below⟩

/-- A value is pushed. -/
theorem cons {kind : Kind} {type : VerificationType} (suits : Suits kind type)
    (h : Words kinds types) :
    Words (kind :: kinds) (if type.isWide then .top :: type :: types else type :: types) := by
  unfold Suits at suits
  split at suits
  · next double =>
    subst suits
    rw [isWide_typeOf, if_pos double]
    exact .wide double h
  · next single =>
    rw [suits]
    exact .narrow (Bool.not_eq_true _ ▸ single) suits h

/-- A change of the types that leaves wide ones alone, and makes no others wide. -/
theorem map {change : VerificationType → VerificationType} (top : change .top = .top)
    (same : ∀ type, type.isWide = true → change type = type)
    (narrow : ∀ type, type.isWide = false → (change type).isWide = false) (h : Words kinds types) :
    Words kinds (types.map change) := by
  induction h with
  | nil => exact .nil
  | narrow single type _ ih => exact .narrow single (narrow _ type) ih
  | wide double _ ih =>
    rw [List.map_cons, List.map_cons, top, same _ (by rw [isWide_typeOf, double])]
    exact .wide double ih

/-- Words of the same values are joined. -/
theorem merge (h : Hierarchy) (left : Words kinds types) (right : Words kinds types') :
    Words kinds (mergeSlots h types types') := by
  induction left generalizing types' with
  | nil =>
    cases right
    exact .nil
  | narrow single narrow _ ih =>
    cases right with
    | narrow _ _ rest => exact .narrow single (h.isWide_merge narrow) (ih rest)
    | wide double => rw [single] at double; cases double
  | wide double _ ih =>
    cases right with
    | narrow single => rw [double] at single; cases single
    | wide _ rest =>
      have joined := Words.wide double (ih rest)
      rw [← h.merge_self (typeOf _)] at joined
      exact joined

end Words

/-! ## Steps on a frame -/

variable {f g : TypeFrame} {kinds required : List Kind} {count words : Nat} {kind : Kind}
  {type : VerificationType} {result : Option Kind}

/-- Whatever is wide in the second list of local variables was wide in the first one. -/
def WideFrom (before after : List VerificationType) : Prop :=
  ∀ (k : Nat) (type : VerificationType), after[k]? = some type → type.isWide = true →
    ∃ earlier, before[k]? = some earlier ∧ earlier.isWide = true

theorem WideFrom.refl (locals : List VerificationType) : WideFrom locals locals :=
  fun _ type found wide => ⟨type, found, wide⟩

/-- What an instruction does that takes some values and pushes at most one. -/
structure Operated (kinds : List Kind) (f g : TypeFrame) (count : Nat) (result : Option Kind) : Prop where
  locals : WideFrom f.locals g.locals
  words : Words (result.toList ++ kinds.drop count) g.stack

theorem pop_eq_ok (ran : f.pop words = .ok g) :
    words ≤ f.stack.length ∧ g = { f with stack := f.stack.drop words } := by
  rw [pop] at ran
  split at ran
  · cases ran
  · next enough =>
    cases ran
    exact ⟨Nat.le_of_not_lt enough, rfl⟩

theorem popWord_eq_ok (ran : f.popWord = .ok (type, g)) :
    f.stack = type :: g.stack ∧ g = { f with stack := f.stack.drop 1 } := by
  rw [popWord] at ran
  split at ran
  · cases ran
  · next shape =>
    cases ran
    exact ⟨shape, by rw [shape]; rfl⟩

/-- Nothing happens. -/
theorem operated_idle (h : Words kinds f.stack) : Operated kinds f f 0 none :=
  ⟨.refl _, h⟩

/-- The words of the operands leave the stack. -/
theorem operated_of_drop (h : Words kinds f.stack)
    (supplied : kinds.take required.length = required.reverse)
    (stack : g.stack = f.stack.drop (total Kind.size required)) (locals : g.locals = f.locals) :
    Operated kinds f g required.length none := by
  refine ⟨locals ▸ .refl _, ?_⟩
  have below := (h.split required.length).2
  rw [supplied, total_reverse, ← stack] at below
  exact below

/-- The words of the operands are popped. -/
theorem operated_pop (h : Words kinds f.stack)
    (supplied : kinds.take required.length = required.reverse)
    (popped : f.pop (total Kind.size required) = .ok g) : Operated kinds f g required.length none := by
  obtain ⟨-, rfl⟩ := pop_eq_ok popped
  exact operated_of_drop h supplied rfl rfl

/-- A value is pushed behind the operands. -/
theorem Operated.push (h : Operated kinds f g count none) (suits : Suits kind type) :
    Operated kinds f (g.push type) count (some kind) :=
  ⟨h.locals, h.words.cons suits⟩

/-- A value that may be missing is pushed behind the operands. -/
theorem Operated.push? {type : Option VerificationType} (h : Operated kinds f g count none)
    (suits : Option.Rel Suits result type) : Operated kinds f (g.push? type) count result := by
  cases suits with
  | none => exact h
  | some suits => exact h.push suits

/-- The operands are popped, and a value is pushed. -/
theorem operated_popPush (h : Words kinds f.stack)
    (supplied : kinds.take required.length = required.reverse) (suits : Suits kind type)
    (ran : f.popPush (total Kind.size required) type = .ok g) :
    Operated kinds f g required.length (some kind) := by
  obtain ⟨f', popped, ran⟩ := ok_of_bind ran
  cases ran
  exact (operated_pop h supplied popped).push suits

/-- The operands are popped, and a value is pushed that a descriptor describes. -/
theorem operated_pushDescribed {descriptor : String} {f' : TypeFrame}
    (h : Operated kinds f f' count none) (ran : f'.pushDescribed descriptor = .ok g)
    (known : Kind.ofText descriptor ≠ .uninitialized) :
    Operated kinds f g count (some (.ofText descriptor)) := by
  obtain ⟨d, parsed, ran⟩ := ok_of_bind ran
  cases ran
  have parsed := ok_of_mapError parsed
  have suits := suits_ofDescriptor d
  rw [Kind.ofText, parsed] at known ⊢
  change (Kind.ofDescriptor d).getD .uninitialized ≠ _ at known
  change Operated kinds f _ count (some ((Kind.ofDescriptor d).getD .uninitialized))
  cases kind : Kind.ofDescriptor d with
  | none => rw [kind] at known; exact absurd rfl known
  | some kind' => exact h.push? (kind ▸ suits)

/-! ## Instructions with operands -/

/-- The constants that have an opcode of their own are numbers. -/
theorem executeSimple_constant {op : Opcode} {c : Constant} (h : Operation.ofOpcode op = .constant c) :
    f.executeSimple op = .ok (f.push (typeOf (Tokens.constantKind c))) := by
  have numeric := isNumeric_ofOpcode ⟨op.toNat, op.toNat_lt⟩
  rw [UInt8.ofNat_toNat, h] at numeric
  rw [executeSimple, h]
  cases c with
  | int | long | float | double => rfl
  | _ => cases numeric

theorem isWide_elementType (array : VerificationType) : (elementType array).isWide = false := by
  unfold elementType
  split
  · split <;> rfl
  · rfl
  · rfl

/-- A load from an array takes the array and the position. -/
theorem executeSimple_arrayLoad {op : Opcode} {kind : Kind} (h : Words kinds f.stack)
    (operation : Operation.ofOpcode op = .arrayLoad kind)
    (supplied : kinds.take 2 = [.int, .reference]) (ran : f.executeSimple op = .ok g) :
    Operated kinds f g 2 (some kind) := by
  have both : kinds.take [Kind.reference, .int].length = [Kind.reference, .int].reverse := supplied
  rw [executeSimple, operation] at ran
  cases kind with
  | reference =>
    obtain ⟨f', popped, ran⟩ := ok_of_bind ran
    obtain ⟨⟨array, f''⟩, taken, ran⟩ := ok_of_bind ran
    cases ran
    obtain ⟨-, rfl⟩ := pop_eq_ok popped
    obtain ⟨-, rfl⟩ := popWord_eq_ok taken
    have suits : Suits .reference (elementType array) :=
      suits_of_narrow rfl (isWide_elementType array)
    have taken_ := operated_of_drop (g := ⟨f.locals, (f.stack.drop 1).drop 1⟩) h both List.drop_drop rfl
    exact taken_.push suits
  | _ => exact operated_popPush h both (suits_typeOf _) ran

/-- An operation takes the words of its operands and pushes those of its result. -/
theorem executeSimple_operates {op : Opcode} (h : Words kinds f.stack)
    (moves : Tokens.operationMovement (.ofOpcode op) = some (.operate count result))
    (known : operationOperands (.ofOpcode op) = some required)
    (supplied : kinds.take required.length = required.reverse)
    (ran : f.executeSimple op = .ok g) : Operated kinds f g count result := by
  cases operation : Operation.ofOpcode op with
  | constant value =>
    rw [operation] at moves
    cases moves
    rw [executeSimple_constant operation] at ran
    cases ran
    exact (operated_idle h).push (suits_typeOf _)
  | arrayLoad kind =>
    rw [operation] at moves known
    cases moves
    cases known
    exact executeSimple_arrayLoad h operation supplied ran
  | nop =>
    rw [executeSimple, operation] at ran
    rw [operation] at moves
    cases moves
    cases ran
    exact operated_idle h
  | null =>
    rw [executeSimple, operation] at ran
    rw [operation] at moves
    cases moves
    cases ran
    exact (operated_idle h).push rfl
  | leave kind =>
    rw [executeSimple, operation] at ran
    rw [operation] at moves known
    cases kind with
    | none =>
      cases moves
      cases ran
      exact operated_idle h
    | some kind =>
      cases moves
      cases known
      exact operated_pop h supplied ran
  | arrayStore kind =>
    rw [executeSimple, operation] at ran
    rw [operation] at moves known
    cases moves
    cases known
    have words : total Kind.size [.reference, .int, kind] = 2 + kind.size := by
      simp only [total_cons, total_nil, Kind.size]
      omega
    exact operated_pop h supplied (words ▸ ran)
  | pop | pop2 | shuffle | other =>
    rw [operation] at known
    cases known
  | binary operator | unary operator | arrayLength =>
    rw [executeSimple, operation] at ran
    rw [operation] at moves known
    cases moves
    cases known
    exact operated_popPush h supplied (suits_typeOf _) ran
  | throw | monitor =>
    rw [executeSimple, operation] at ran
    rw [operation] at moves known
    cases moves
    cases known
    exact operated_pop h supplied ran

theorem executeConstant_operates {value : Constant} (h : Words kinds f.stack)
    (known : Tokens.constantKind value ≠ .uninitialized) (ran : f.executeConstant value = .ok g) :
    Operated kinds f g 0 (some (Tokens.constantKind value)) := by
  cases value with
  | dynamic name descriptor bootstrap arguments =>
    exact operated_pushDescribed (operated_idle h) ran known
  | _ =>
    cases ran
    exact (operated_idle h).push rfl

theorem executeType_operates {op : Opcode} {index : Nat} {name : String} (h : Words kinds f.stack)
    (known : Machine.typeOperands op = some required)
    (supplied : kinds.take required.length = required.reverse)
    (moves : Tokens.typeMovement op = .operate count result)
    (ran : f.executeType index op name = .ok g) : Operated kinds f g count result := by
  unfold Machine.typeOperands at known
  split at known
  · cases known
    cases moves
    cases ran
    exact (operated_idle h).push rfl
  · cases known
    cases moves
    exact operated_popPush h supplied (suits_of_narrow (by rfl) (by rfl)) ran
  · cases known
    cases moves
    exact operated_popPush h supplied (suits_of_narrow (by rfl) (by rfl)) ran
  · cases known
    cases moves
    exact operated_popPush h supplied (suits_of_narrow (by rfl) (by rfl)) ran
  · cases known

/-- The operands of an access to a field are those of its opcode. -/
theorem executeField_operates {op : Opcode} {descriptor : String} (h : Words kinds f.stack)
    (known : (Machine.kindOf? descriptor).bind (Machine.fieldOperands op) = some required)
    (supplied : kinds.take required.length = required.reverse)
    (moves : Tokens.fieldMovement op (.ofText descriptor) = .operate count result)
    (ran : f.executeField op descriptor = .ok g) : Operated kinds f g count result := by
  obtain ⟨kind, described, known⟩ := Option.bind_eq_some_iff.mp known
  have text := Analysis.ofText_of_kindOf described
  obtain ⟨d, parsed, kindOf⟩ := Option.bind_eq_some_iff.mp described
  have parsed := Analysis.toOption_eq_some.mp parsed
  have size : d.size = kind.size := by
    cases d <;> cases kindOf <;> rfl
  have known_ : Kind.ofText descriptor ≠ .uninitialized := by
    rw [text]
    rintro rfl
    cases d <;> cases kindOf
  obtain ⟨d', parsed', ran⟩ := ok_of_bind ran
  obtain rfl : d = d' := Except.ok.inj (parsed.symm.trans (ok_of_mapError parsed'))
  unfold Machine.fieldOperands at known
  split at known
  · cases known
    cases moves
    exact operated_pushDescribed (operated_idle h) ran known_
  · cases known
    cases moves
    exact operated_pop h supplied (by rw [total_cons, total_nil, ← size]; exact ran)
  · cases known
    cases moves
    obtain ⟨f', popped, ran⟩ := ok_of_bind ran
    exact operated_pushDescribed (operated_pop h supplied popped) ran known_
  · cases known
    cases moves
    have words : total Kind.size [.reference, kind] = d.size + 1 := by
      simp only [total_cons, total_nil, size, Kind.size]
      omega
    exact operated_pop h supplied (words ▸ ran)
  · cases known

theorem executeJump_operates {op : Opcode} (h : Words kinds f.stack)
    (known : Machine.jumpOperands op = some required)
    (supplied : kinds.take required.length = required.reverse)
    (moves : Tokens.jumpMovement (.ofOpcode op) = some (.operate count result))
    (ran : f.executeJump op = .ok g) : Operated kinds f g count result := by
  unfold Machine.jumpOperands at known
  rw [executeJump] at ran
  cases form : JumpForm.ofOpcode op with
  | always =>
    rw [form] at known moves ran
    cases moves
    cases ran
    exact operated_idle h
  | compare =>
    rw [form] at known moves ran
    cases moves
    cases known
    by_cases references : Machine.comparesReferences op = true
    · rw [if_pos references] at supplied
      exact operated_pop h supplied ran
    · rw [if_neg references] at supplied
      exact operated_pop h supplied ran
  | test =>
    rw [form] at known moves ran
    cases moves
    cases known
    by_cases reference : Machine.testsReference op = true
    · rw [if_pos reference] at supplied
      exact operated_pop h supplied ran
    · rw [if_neg reference] at supplied
      exact operated_pop h supplied ran
  | alwaysWide | subroutine | other =>
    rw [form] at ran
    cases ran

theorem size_of_kind {d : Descriptor} {kind : Kind} (h : Kind.ofDescriptor d = some kind) :
    kind.size = d.size := by
  cases d <;> cases h <;> rfl

/-- The arguments of a call take the words that its descriptor counts. -/
theorem total_argumentKinds (d : MethodDescriptor) :
    total Kind.size (Machine.argumentKinds d) = total Descriptor.size d.arguments := by
  rw [Machine.argumentKinds]
  induction d.arguments with
  | nil => rfl
  | cons type types ih =>
    cases kind : Kind.ofDescriptor type with
    | none =>
      have nothing : type.size = 0 := by cases type <;> first | rfl | cases kind
      rw [List.filterMap_cons_none kind, ih, total_cons, nothing, Nat.zero_add]
    | some kind' =>
      rw [List.filterMap_cons_some kind, total_cons, ih, total_cons, size_of_kind kind]

/-- The words of the arguments of a call leave the stack. The number of these words has 16 bits, which
is enough for a stack that is not too deep. -/
theorem popArguments_eq_ok {descriptor : String} {type : Option VerificationType}
    {d : MethodDescriptor} (parsed : MethodDescriptor.parse descriptor = .ok d)
    (h : Words kinds f.stack) (short : f.stack.length ≤ 65535)
    (supplied : kinds.take (Machine.argumentKinds d).length = (Machine.argumentKinds d).reverse)
    (ran : f.popArguments descriptor = .ok (type, g)) :
    type = VerificationType.ofDescriptor d.returnType ∧
      g = { f with stack := f.stack.drop (total Kind.size (Machine.argumentKinds d)) } := by
  obtain ⟨d', parsed', ran⟩ := ok_of_bind ran
  obtain rfl : d = d' := Except.ok.inj (parsed.symm.trans (ok_of_mapError parsed'))
  obtain ⟨g', popped, ran⟩ := ok_of_bind ran
  cases ran
  obtain ⟨-, rfl⟩ := pop_eq_ok popped
  have room : total Kind.size (Machine.argumentKinds d) ≤ f.stack.length := by
    rw [h.length_eq, ← List.take_append_drop (Machine.argumentKinds d).length kinds, total_append,
      supplied, total_reverse]
    exact Nat.le_add_right _ _
  have slots : (d.slots true).toNat = total Kind.size (Machine.argumentKinds d) := by
    rw [MethodDescriptor.slots, MethodDescriptor.words, ← total_argumentKinds]
    simp only [if_true, Nat.zero_add, UInt16.toNat_ofNat']
    omega
  exact ⟨rfl, by rw [slots]⟩

/-- An object that is initialized is narrow before and afterwards. -/
theorem isWide_constructedType {body : Body} {owner callOwner : String}
    {receiver constructed : VerificationType}
    (ran : constructedType body owner callOwner receiver = .ok constructed) :
    receiver.isWide = false ∧ receiver ≠ .top ∧ constructed.isWide = false := by
  unfold constructedType at ran
  split at ran
  · cases ran
    exact ⟨rfl, nofun, rfl⟩
  · split at ran <;> cases ran <;> exact ⟨rfl, nofun, rfl⟩
  · cases ran

/-- The construction of an object changes no words. -/
theorem Operated.replace {receiver constructed : VerificationType} {body : Body}
    {owner callOwner : String} (h : Operated kinds f g count none)
    (ran : constructedType body owner callOwner receiver = .ok constructed) :
    Operated kinds f (g.replace receiver constructed) count none := by
  obtain ⟨narrow, known, narrow'⟩ := isWide_constructedType ran
  constructor
  · intro k type found wide
    obtain ⟨earlier, there, rfl⟩ := Option.map_eq_some_iff.mp ((List.getElem?_map ..).symm.trans found)
    by_cases same : earlier = receiver
    · rw [if_pos same, narrow'] at wide
      cases wide
    · rw [if_neg same] at wide
      exact h.locals k earlier there wide
  · refine h.words.map (if_neg known.symm) (fun type wide => if_neg ?_) fun type single => ?_
    · rintro rfl
      rw [narrow] at wide
      cases wide
    · split
      · exact narrow'
      · exact single

/-- Every call but a static one has a receiver. -/
theorem callOperands_eq_some {op : Opcode} {d : MethodDescriptor}
    (h : Machine.callOperands op d = some required) :
    required = if op = Opcode.invokestatic then Machine.argumentKinds d
      else .reference :: Machine.argumentKinds d := by
  unfold Machine.callOperands at h
  split at h
  · exact (Option.some.inj h).symm
  · exact (Option.some.inj h).symm
  · exact (Option.some.inj h).symm
  · exact (Option.some.inj h).symm
  · cases h

/-- A call takes the words of its receiver and its arguments and pushes those of its result. -/
theorem executeCall_operates {body : Body} {owner callOwner name descriptor : String} {op : Opcode}
    (h : Words kinds f.stack) (short : f.stack.length ≤ 65535)
    (known : (MethodDescriptor.parse descriptor).toOption.bind (Machine.callOperands op) = some required)
    (supplied : kinds.take required.length = required.reverse)
    (moves : Tokens.callMovement (if op = Opcode.invokestatic then 0 else 1) descriptor =
      some (.operate count result))
    (ran : f.executeCall body owner op callOwner name descriptor = .ok g) :
    Operated kinds f g count result := by
  obtain ⟨d, parsed, known⟩ := Option.bind_eq_some_iff.mp known
  rw [Tokens.callMovement, parsed] at moves
  have parsed := Analysis.toOption_eq_some.mp parsed
  have length := Analysis.length_argumentKinds parsed
  have suits := suits_ofDescriptor d.returnType
  have operands := callOperands_eq_some known
  cases moves
  obtain ⟨⟨type, f'⟩, popped, ran⟩ := ok_of_bind ran
  dsimp only at ran
  by_cases static : op = Opcode.invokestatic
  · rw [if_pos static] at operands ran
    rw [if_pos static, Nat.add_zero, ← length]
    subst operands
    obtain ⟨rfl, rfl⟩ := popArguments_eq_ok parsed h short supplied popped
    cases ran
    have operated := operated_of_drop (g := ⟨f.locals, f.stack.drop _⟩) h supplied rfl rfl
    exact operated.push? suits
  · rw [if_neg static] at operands ran
    rw [if_neg static, ← length]
    subst operands
    -- the arguments lie above the receiver
    have above : kinds.take (Machine.argumentKinds d).length = (Machine.argumentKinds d).reverse := by
      have both := congrArg (List.take (Machine.argumentKinds d).length) supplied
      rw [List.take_take, List.length_cons, Nat.min_eq_left (Nat.le_succ _), List.reverse_cons,
        List.take_append_of_le_length (by rw [List.length_reverse])] at both
      exact both.trans (List.take_of_length_le (by rw [List.length_reverse]))
    obtain ⟨rfl, rfl⟩ := popArguments_eq_ok parsed h short above popped
    obtain ⟨⟨receiver, f''⟩, taken, ran⟩ := ok_of_bind ran
    obtain ⟨-, rfl⟩ := popWord_eq_ok taken
    dsimp only at ran
    have operated := operated_of_drop (g := ⟨f.locals, (f.stack.drop _).drop 1⟩) h supplied
      (by rw [List.drop_drop, total_cons, Nat.add_comm]; rfl) rfl
    by_cases construction : op = Opcode.invokespecial ∧ name = "<init>"
    · rw [if_pos construction] at ran
      obtain ⟨constructed, initialized, ran⟩ := ok_of_bind ran
      cases ran
      exact (operated.replace initialized).push? suits
    · rw [if_neg construction] at ran
      cases ran
      exact operated.push? suits

/-- **Instructions that take operands of fixed kinds.** If these lie on the stack, their words leave it,
and those of the result come there. -/
theorem execute_operates {body : Body} {owner : String} {index : Nat} {node : Node}
    (h : Words kinds f.stack) (short : f.stack.length ≤ 65535) (known : operands node = some required)
    (supplied : kinds.take required.length = required.reverse)
    (moves : movement? node = some (.operate count result))
    (described : ∀ kind ∈ result, kind ≠ .uninitialized)
    (ran : f.execute body owner index node = .ok g) : Operated kinds f g count result := by
  cases node with
  | label | line =>
    cases moves
    cases ran
    exact operated_idle h
  | simple op => exact executeSimple_operates h moves known supplied ran
  | constant value =>
    cases moves
    exact executeConstant_operates h (described _ rfl) ran
  | int op operand =>
    simp only [operands] at known
    simp only [movement?, Option.some.injEq] at moves
    by_cases array : op = Opcode.newarray
    · rw [if_pos array] at moves known
      cases moves
      cases known
      simp only [execute, if_pos array] at ran
      obtain ⟨f', popped, ran⟩ := ok_of_bind ran
      obtain ⟨type, created, ran⟩ := ok_of_bind ran
      cases ran
      refine (operated_pop h supplied popped).push (suits_of_narrow (by rfl) ?_)
      unfold primitiveArray at created
      split at created <;> cases created <;> rfl
    · rw [if_neg array] at moves known
      cases moves
      simp only [execute, if_neg array] at ran
      cases ran
      exact (operated_idle h).push (suits_of_narrow (by rfl) (by rfl))
  | type op name =>
    exact executeType_operates h known supplied (Option.some.inj moves) ran
  | field op owner' name descriptor =>
    exact executeField_operates h known supplied (Option.some.inj moves) ran
  | call op callOwner name descriptor isInterface =>
    exact executeCall_operates h short known supplied moves ran
  | dynamicCall name descriptor bootstrap arguments =>
    obtain ⟨d, parsed, rfl⟩ := Option.map_eq_some_iff.mp known
    simp only [movement?] at moves
    rw [Tokens.callMovement, parsed] at moves
    have parsed := Analysis.toOption_eq_some.mp parsed
    cases moves
    obtain ⟨⟨type, f'⟩, popped, ran⟩ := ok_of_bind ran
    obtain ⟨rfl, rfl⟩ := popArguments_eq_ok parsed h short supplied popped
    cases ran
    rw [Nat.add_zero, ← Analysis.length_argumentKinds parsed]
    have operated := operated_of_drop (g := ⟨f.locals, f.stack.drop _⟩) h supplied rfl rfl
    exact operated.push? (suits_ofDescriptor d.returnType)
  | jump op target => exact executeJump_operates h known supplied moves ran
  | tableSwitch | lookupSwitch =>
    cases moves
    cases known
    exact operated_pop h supplied ran
  | newArrays descriptor dimensions =>
    cases moves
    cases known
    have words (n : Nat) : total Kind.size (List.replicate n .int) = n := by
      induction n with
      | zero => rfl
      | succ n ih =>
        rw [List.replicate_succ, total_cons, ih, Nat.add_comm]
        rfl
    have suits : Suits .reference (.object descriptor) := suits_of_narrow rfl rfl
    have operated := operated_popPush h supplied suits (by rw [words]; exact ran)
    rw [List.length_replicate] at operated
    exact operated
  | var | increment => cases known

end TypeFrame
end Bytecode
