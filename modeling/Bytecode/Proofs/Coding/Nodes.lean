import Bytecode.ClassFile.Code.Decoding
import Bytecode.Proofs.Coding.Constants
import Bytecode.Proofs.Coding.Tiling

/-!
# What decoded instructions are like

`Node.Decoded` says what a node is like that has been decoded: its opcode has the operands of its
shape, and these are in their range. Nodes that are made by hand need not be so.
-/

namespace Bytecode

namespace OperandLayout

/-- The opcode and the layout that a layout with an opcode of its own stands for. -/
def standsFor : OperandLayout → Option (Opcode × OperandLayout)
  | impliedSlot op _ => some (op, slot)
  | wideBranch op => some (op, branch)
  | _ => Option.none

private theorem ofOpcode_standsFor :
    ∀ code : Fin 256, ∀ p ∈ (ofOpcode (UInt8.ofNat code)).standsFor, ofOpcode p.1 = p.2 := by
  decide +kernel

/-- An opcode that implies its slot, or has a distance of 32 bits, stands for one with the layout
of the others. -/
theorem ofOpcode_of_standsFor {op other : Opcode} {layout : OperandLayout}
    (h : (ofOpcode op).standsFor = some (other, layout)) : ofOpcode other = layout := by
  have each := ofOpcode_standsFor ⟨op.toNat, op.toNat_lt⟩
  rw [UInt8.ofNat_toNat] at each
  exact each _ h

end OperandLayout

namespace Node

open OperandLayout

/-- Whether a node has an opcode with the operands of its shape, and operands in their range. -/
def Decoded : Node → Prop
  | simple op => ofOpcode op = .none
  | int op operand =>
    (ofOpcode op = .byte ∧ ∃ b : Int8, operand = Int32.ofInt b.toInt) ∨
      (ofOpcode op = .short ∧ ∃ s : Int16, operand = Int32.ofInt s.toInt) ∨
      (ofOpcode op = .arrayType ∧ ∃ b : UInt8, operand = Int32.ofNat b.toNat)
  | var op _ => ofOpcode op = .slot
  | type op _ => ofOpcode op = .type
  | field op _ _ _ => ofOpcode op = .field
  | call op _ _ _ _ => ofOpcode op = .call ∨ ofOpcode op = .interfaceCall
  | dynamicCall _ _ _ arguments =>
    arguments.length < 65536 ∧ ∀ c ∈ arguments, c.Within maxConstantNesting
  | jump op _ => ofOpcode op = .branch
  | constant value => value.Within (maxConstantNesting + 1)
  | increment _ _ | newArrays _ _ => True
  | tableSwitch low high _ targets =>
    low ≤ high ∧ targets.length = (high.toInt - low.toInt + 1).toNat
  | lookupSwitch _ keys targets => keys.length = targets.length
  | label _ | line _ _ => False

/-- Whether a node refers to a bootstrap method. -/
def isDynamic : Node → Bool
  | constant (.dynamic ..) | dynamicCall .. => true
  | _ => false

/-- Whether a node is a line marker. -/
def isLine : Node → Bool
  | line _ _ => true
  | _ => false

theorem isLine_of_real {node : Node} (real : node.isPseudo = false) : node.isLine = false := by
  cases node <;> first
    | rfl
    | cases real

/-- The handles that a node mentions. -/
def Mentions (h : Handle) : Node → Prop
  | constant value => value.Mentions h
  | dynamicCall _ _ bootstrap arguments => h = bootstrap ∨ ∃ c ∈ arguments, c.Mentions h
  | _ => False

/-- What a node is read back as: its handles as they are stored. -/
def stored : Node → Node
  | constant value => constant value.stored
  | dynamicCall name descriptor bootstrap arguments =>
    dynamicCall name descriptor bootstrap.stored (arguments.map Constant.stored)
  | node => node

/-- A node is read back as it is if its handles are. -/
theorem stored_of_storable {n : Node} (handles : ∀ h, n.Mentions h → h.Storable) : n.stored = n := by
  cases n
  case constant value => rw [stored, Constant.stored_of_storable value handles]
  case dynamicCall name descriptor bootstrap arguments =>
    have same : arguments.map Constant.stored = arguments := by
      rw [← Constant.storedAll_eq]
      exact Constant.storedAll_of_storable arguments fun c member h mentions =>
        handles h (.inr ⟨c, member, mentions⟩)
    rw [stored, Handle.stored_of_storable (handles bootstrap (.inl rfl)), same]
  all_goals rfl

theorem targets_stored (n : Node) : n.stored.targets = n.targets := by
  cases n <;> rfl

theorem stored_mapLabels (f : LabelId → LabelId) (n : Node) :
    (n.mapLabels f).stored = n.stored.mapLabels f := by
  cases n <;> rfl

end Node

namespace CodeContext

open Reader

variable {ctx : CodeContext} {start : Nat} {op : Opcode} {c c' : Cursor} {n : Node}

theorem length_of_replicate {α : Type} {item : Reader α} {count : Nat} {l : List α}
    (ran : Reader.replicate item count c = .ok (l, c')) : l.length = count := by
  induction count generalizing l c with
  | zero =>
    obtain ⟨rfl, -⟩ := pure_eq_ok ran
    rfl
  | succ count ih =>
    obtain ⟨_, _, -, ran⟩ := bind_eq_ok ran
    obtain ⟨_, _, rest, ran⟩ := bind_eq_ok ran
    obtain ⟨rfl, rfl⟩ := pure_eq_ok ran
    rw [List.length_cons, ih rest]

theorem resolve_eq_ok {α : Type} {lookup : Except FormatError α} {value : α}
    (ran : resolve lookup c = .ok (value, c')) : lookup = .ok value := by
  cases lookup with
  | error cause => cases ran
  | ok found =>
    obtain ⟨rfl, -⟩ := pure_eq_ok ran
    rfl

private theorem wideOperands_decoded (ran : wideOperands start c = .ok (n, c')) :
    n.Decoded ∧ n.isDynamic = false := by
  obtain ⟨access, _, -, ran⟩ := bind_eq_ok ran
  obtain ⟨slot, _, -, ran⟩ := bind_eq_ok ran
  cases layout : OperandLayout.ofOpcode access
  case increment =>
    rw [layout] at ran
    obtain ⟨_, _, -, ran⟩ := bind_eq_ok ran
    obtain ⟨rfl, -⟩ := pure_eq_ok ran
    exact ⟨trivial, rfl⟩
  case slot =>
    rw [layout] at ran
    obtain ⟨rfl, -⟩ := pure_eq_ok ran
    exact ⟨layout, rfl⟩
  all_goals
    rw [layout] at ran
    cases ran

private theorem tableSwitch_decoded (ran : ctx.tableSwitch start c = .ok (n, c')) :
    n.Decoded ∧ n.isDynamic = false := by
  obtain ⟨-, _, -, ran⟩ := bind_eq_ok ran
  obtain ⟨default, _, -, ran⟩ := bind_eq_ok ran
  obtain ⟨low, _, -, ran⟩ := bind_eq_ok ran
  obtain ⟨high, _, -, ran⟩ := bind_eq_ok ran
  obtain ⟨ordered, ran⟩ := guard_eq_ok ran
  obtain ⟨-, ran⟩ := guard_eq_ok ran
  obtain ⟨targets, _, read, ran⟩ := bind_eq_ok ran
  obtain ⟨rfl, -⟩ := pure_eq_ok ran
  exact ⟨⟨Int32.not_lt.mp ordered, length_of_replicate read⟩, rfl⟩

private theorem lookupSwitch_decoded (ran : ctx.lookupSwitch start c = .ok (n, c')) :
    n.Decoded ∧ n.isDynamic = false := by
  obtain ⟨-, _, -, ran⟩ := bind_eq_ok ran
  obtain ⟨default, _, -, ran⟩ := bind_eq_ok ran
  obtain ⟨count, _, -, ran⟩ := bind_eq_ok ran
  obtain ⟨-, ran⟩ := guard_eq_ok ran
  obtain ⟨-, ran⟩ := guard_eq_ok ran
  obtain ⟨cases_, _, -, ran⟩ := bind_eq_ok ran
  obtain ⟨rfl, -⟩ := pure_eq_ok ran
  refine ⟨?_, rfl⟩
  show (cases_.map Prod.fst).length = (cases_.map Prod.snd).length
  rw [List.length_map, List.length_map]

/-- A bootstrap method has been found in a table that is not empty. -/
private theorem bootstraps_ne_nil {pool : ConstantPool} {bootstraps : Array BootstrapMethod}
    {find : UInt16 → Except FormatError Constant} {i : UInt16} {r : Handle × List Constant}
    (found : pool.bootstrapWith bootstraps find i = .ok r) : bootstraps ≠ #[] := by
  rintro rfl
  cases found

private theorem dynamic_of_loadable {pool : ConstantPool} {bootstraps : Array BootstrapMethod}
    {slot : UInt16} {value : Constant} (found : pool.loadable bootstraps slot = .ok value)
    (dynamic : (Node.constant value).isDynamic = true) : bootstraps ≠ #[] := by
  cases value with
  | dynamic name descriptor h arguments =>
    rw [ConstantPool.loadable, ConstantPool.loadableNested] at found
    obtain ⟨e, -, found⟩ := ok_of_bind found
    cases e
    case dynamic index pair =>
      obtain ⟨named, -, found⟩ := ok_of_bind found
      obtain ⟨method, there, -⟩ := ok_of_bind found
      exact bootstraps_ne_nil there
    case string | classRef | methodType | methodHandle =>
      obtain ⟨_, -, found⟩ := ok_of_bind found
      cases found
    all_goals cases found
  | _ => cases dynamic

/-- What is read as an instruction has the operands of its opcode, and refers to bootstrap methods
only if there are any. -/
theorem node_decoded (storable : ∀ m ∈ ctx.bootstraps, m.Storable)
    (ran : ctx.node start op c = .ok (n, c')) :
    n.Decoded ∧ (n.isDynamic = true → ctx.bootstraps ≠ #[]) := by
  have static {node : Node} (plain : node.isDynamic = false) (dynamic : node.isDynamic = true) :
      ctx.bootstraps ≠ #[] := absurd (plain.symm.trans dynamic) Bool.false_ne_true
  rw [node] at ran
  cases layout : OperandLayout.ofOpcode op
  all_goals rw [layout] at ran
  case none =>
    obtain ⟨rfl, -⟩ := pure_eq_ok ran
    exact ⟨layout, static rfl⟩
  case byte =>
    obtain ⟨b, _, -, ran⟩ := bind_eq_ok ran
    obtain ⟨rfl, -⟩ := pure_eq_ok ran
    exact ⟨.inl ⟨layout, b, rfl⟩, static rfl⟩
  case short =>
    obtain ⟨s, _, -, ran⟩ := bind_eq_ok ran
    obtain ⟨rfl, -⟩ := pure_eq_ok ran
    exact ⟨.inr (.inl ⟨layout, s, rfl⟩), static rfl⟩
  case arrayType =>
    obtain ⟨b, _, -, ran⟩ := bind_eq_ok ran
    obtain ⟨rfl, -⟩ := pure_eq_ok ran
    exact ⟨.inr (.inr ⟨layout, b, rfl⟩), static rfl⟩
  case constant =>
    obtain ⟨_, _, -, ran⟩ := bind_eq_ok ran
    obtain ⟨value, _, found, ran⟩ := bind_eq_ok ran
    obtain ⟨rfl, -⟩ := pure_eq_ok ran
    have here := resolve_eq_ok found
    exact ⟨ConstantPool.within_of_loadableNested storable here, fun dynamic =>
      dynamic_of_loadable here dynamic⟩
  case wideConstant =>
    obtain ⟨value, _, looked, ran⟩ := bind_eq_ok ran
    obtain ⟨_, _, -, found⟩ := bind_eq_ok looked
    obtain ⟨rfl, -⟩ := pure_eq_ok ran
    have here := resolve_eq_ok found
    exact ⟨ConstantPool.within_of_loadableNested storable here, fun dynamic =>
      dynamic_of_loadable here dynamic⟩
  case slot =>
    obtain ⟨_, _, -, ran⟩ := bind_eq_ok ran
    obtain ⟨rfl, -⟩ := pure_eq_ok ran
    exact ⟨layout, static rfl⟩
  case impliedSlot access slot =>
    obtain ⟨rfl, -⟩ := pure_eq_ok ran
    exact ⟨OperandLayout.ofOpcode_of_standsFor (congrArg OperandLayout.standsFor layout), static rfl⟩
  case increment =>
    obtain ⟨_, _, -, ran⟩ := bind_eq_ok ran
    obtain ⟨_, _, -, ran⟩ := bind_eq_ok ran
    obtain ⟨rfl, -⟩ := pure_eq_ok ran
    exact ⟨trivial, static rfl⟩
  case wide =>
    obtain ⟨decoded, plain⟩ := wideOperands_decoded ran
    exact ⟨decoded, static plain⟩
  case branch =>
    obtain ⟨_, _, -, ran⟩ := bind_eq_ok ran
    obtain ⟨rfl, -⟩ := pure_eq_ok ran
    exact ⟨layout, static rfl⟩
  case wideBranch jump =>
    obtain ⟨_, _, -, ran⟩ := bind_eq_ok ran
    obtain ⟨rfl, -⟩ := pure_eq_ok ran
    exact ⟨OperandLayout.ofOpcode_of_standsFor (congrArg OperandLayout.standsFor layout), static rfl⟩
  case tableSwitch =>
    obtain ⟨decoded, plain⟩ := tableSwitch_decoded ran
    exact ⟨decoded, static plain⟩
  case lookupSwitch =>
    obtain ⟨decoded, plain⟩ := lookupSwitch_decoded ran
    exact ⟨decoded, static plain⟩
  case field =>
    obtain ⟨_, _, -, ran⟩ := bind_eq_ok ran
    obtain ⟨rfl, -⟩ := pure_eq_ok ran
    exact ⟨layout, static rfl⟩
  case call =>
    obtain ⟨_, _, -, ran⟩ := bind_eq_ok ran
    obtain ⟨rfl, -⟩ := pure_eq_ok ran
    exact ⟨.inl layout, static rfl⟩
  case interfaceCall =>
    obtain ⟨_, _, -, ran⟩ := bind_eq_ok ran
    obtain ⟨_, _, -, ran⟩ := bind_eq_ok ran
    obtain ⟨rfl, -⟩ := pure_eq_ok ran
    exact ⟨.inr layout, static rfl⟩
  case dynamicCall =>
    obtain ⟨_, _, -, ran⟩ := bind_eq_ok ran
    obtain ⟨_, _, -, ran⟩ := bind_eq_ok ran
    obtain ⟨_, _, found, ran⟩ := bind_eq_ok ran
    obtain ⟨rfl, -⟩ := pure_eq_ok ran
    obtain ⟨few, each⟩ := ConstantPool.of_bootstrapWith storable (resolve_eq_ok found)
    refine ⟨⟨few, fun c member => ?_⟩, fun _ => bootstraps_ne_nil (resolve_eq_ok found)⟩
    obtain ⟨slot, there⟩ := each c member
    exact ConstantPool.within_of_loadableNested storable there
  case type =>
    obtain ⟨_, _, -, ran⟩ := bind_eq_ok ran
    obtain ⟨rfl, -⟩ := pure_eq_ok ran
    exact ⟨layout, static rfl⟩
  case newArrays =>
    obtain ⟨_, _, -, ran⟩ := bind_eq_ok ran
    obtain ⟨_, _, -, ran⟩ := bind_eq_ok ran
    obtain ⟨rfl, -⟩ := pure_eq_ok ran
    exact ⟨trivial, static rfl⟩
  case undefined => cases ran

/-- Decoded code consists of such instructions. -/
theorem nodes_decoded (storable : ∀ m ∈ ctx.bootstraps, m.Storable) {fuel : Nat}
    {decoded : List (Nat × Node)} (ran : ctx.nodes fuel c = .ok (decoded, c')) :
    ∀ p ∈ decoded, p.2.Decoded ∧ (p.2.isDynamic = true → ctx.bootstraps ≠ #[]) := by
  induction fuel generalizing c decoded with
  | zero =>
    obtain ⟨rfl, -⟩ := pure_eq_ok ran
    intro p member
    cases member
  | succ fuel ih =>
    obtain ⟨_, _, -, ran⟩ := bind_eq_ok ran
    split at ran
    · obtain ⟨rfl, -⟩ := pure_eq_ok ran
      intro p member
      cases member
    · obtain ⟨at_, _, -, ran⟩ := bind_eq_ok ran
      obtain ⟨op, _, -, ran⟩ := bind_eq_ok ran
      obtain ⟨n, _, first, ran⟩ := bind_eq_ok ran
      obtain ⟨others, _, rest, ran⟩ := bind_eq_ok ran
      obtain ⟨rfl, rfl⟩ := pure_eq_ok ran
      intro p member
      rcases List.mem_cons.mp member with rfl | member
      · exact node_decoded storable first
      · exact ih rest p member

/-- Code with an octet has an instruction. -/
theorem nodes_ne_nil {fuel : Nat} {decoded : List (Nat × Node)} (more : c.hasMore = true)
    (ran : ctx.nodes (fuel + 1) c = .ok (decoded, c')) : decoded ≠ [] := by
  obtain ⟨c₀, c₁, got, ran⟩ := bind_eq_ok ran
  obtain ⟨rfl, rfl⟩ : c = c₀ ∧ c = c₁ := pure_eq_ok got
  rw [more] at ran
  obtain ⟨_, _, -, ran⟩ := bind_eq_ok ran
  obtain ⟨_, _, -, ran⟩ := bind_eq_ok ran
  obtain ⟨_, _, -, ran⟩ := bind_eq_ok ran
  obtain ⟨_, _, -, ran⟩ := bind_eq_ok ran
  obtain ⟨rfl, rfl⟩ := pure_eq_ok ran
  exact List.cons_ne_nil _ _

end CodeContext

/-- What the instructions of code are like: their offsets ascend up to the length of the code. -/
structure DecodedNodes (decoded : List (Nat × Node)) (length : Nat) : Prop where
  ascending : decoded.Pairwise fun p q => p.1 < q.1
  inside : ∀ p ∈ decoded, p.1 < length
  decoded : ∀ p ∈ decoded, p.2.Decoded

namespace DecodedNodes

variable {ctx : CodeContext} {code : Bytes} {decoded : List (Nat × Node)}

theorem of_decodeNodes (storable : ∀ m ∈ ctx.bootstraps, m.Storable)
    (ran : decodeNodes ctx code = .ok decoded) : DecodedNodes decoded code.length := by
  cases read : (ctx.nodes code.length).run (Cursor.ofBytes code) with
  | error cause =>
    rw [decodeNodes, read] at ran
    cases ran
  | ok result =>
    obtain ⟨insns, tiles, shown, -⟩ := tiles_of_decodeNodes ran
    obtain ⟨ascending, bounds⟩ := tiles.ascending
    obtain ⟨nodes, behind⟩ := result
    rw [decodeNodes, read] at ran
    cases ran
    refine ⟨?_, fun p member => ?_, fun p member =>
      (CodeContext.nodes_decoded storable read p member).1⟩
    · rw [shown]
      exact ascending.map _ fun i j => id
    · rw [shown] at member
      obtain ⟨i, known, rfl⟩ := List.mem_map.mp member
      simpa using (bounds i known).2

/-- Without bootstrap methods no instruction refers to one. -/
theorem static (none_ : ctx.bootstraps = #[]) (ran : decodeNodes ctx code = .ok decoded) :
    ∀ p ∈ decoded, p.2.isDynamic = false := by
  rw [decodeNodes] at ran
  cases read : (ctx.nodes code.length).run (Cursor.ofBytes code) with
  | error cause => rw [read] at ran; cases ran
  | ok result =>
    rw [read] at ran
    cases ran
    intro p member
    by_contra dynamic
    have storable : ∀ m ∈ ctx.bootstraps, m.Storable := by simp [none_]
    exact (CodeContext.nodes_decoded storable read p member).2 (by simpa using dynamic) none_

theorem ne_nil (some_ : code ≠ []) (ran : decodeNodes ctx code = .ok decoded) : decoded ≠ [] := by
  rw [decodeNodes] at ran
  cases read : (ctx.nodes code.length).run (Cursor.ofBytes code) with
  | error cause => rw [read] at ran; cases ran
  | ok result =>
    obtain ⟨nodes, behind⟩ := result
    rw [read] at ran
    cases ran
    cases code with
    | nil => exact absurd rfl some_
    | cons b code => exact CodeContext.nodes_ne_nil rfl read

variable {length : Nat}

theorem real (h : DecodedNodes decoded length) {p : Nat × Node} (member : p ∈ decoded) :
    p.2.isPseudo = false := by
  have := h.decoded p member
  cases node : p.2 <;> first
    | rfl
    | (rw [node] at this; exact this.elim)

end DecodedNodes

end Bytecode
