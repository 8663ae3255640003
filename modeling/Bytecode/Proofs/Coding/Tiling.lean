import Bytecode.ClassFile.Code.Decoding
import Bytecode.Proofs.Coding.Reads
import Bytecode.Proofs.Coding.Results

/-!
# How instructions tile their code

Straight decoding reads one instruction behind the other. `Tiles` says what this comes to: the
octets of code are those of its instructions, each instruction stands where the one before it ends,
and each is read from its own octets alone (`tiles_of_decodeNodes`).

The octets of an instruction also give the distances to its targets. `StoredInsn.distances` takes
them from their places behind the opcode, and `targets_of_node` shows that the labels of a decoded
instruction are those of the offsets at these distances.
-/

namespace Bytecode

/-- An instruction with its offset and its octets. -/
structure StoredInsn where
  start : Nat
  op : Opcode
  operands : Bytes
  node : Node

namespace StoredInsn

/-- The octets of an instruction. -/
def octets (i : StoredInsn) : Bytes :=
  i.op :: i.operands

/-- The numbers of 32 bits that stand one behind the other. -/
def wideWords : Bytes → List Int32
  | a :: b :: c :: d :: rest => Word.decode [a, b, c, d] :: wideWords rest
  | _ => []

/-- Every other element of a list, from the second on. -/
def everySecond {α : Type} : List α → List α
  | _ :: b :: rest => b :: everySecond rest
  | _ => []

/-- The distances to the targets of an instruction, that to the default of a switch first. Between
this and the others stand the range of the keys or their number, and keys in front of each. -/
def distances (i : StoredInsn) : List Int :=
  let words := wideWords (i.operands.drop ((4 - (i.start + 1) % 4) % 4))
  match OperandLayout.ofOpcode i.op with
  | .branch => [(Word.decode i.operands : Int16).toInt]
  | .wideBranch _ => [(Word.decode i.operands : Int32).toInt]
  | .tableSwitch => (words.take 1 ++ words.drop 3).map Int32.toInt
  | .lookupSwitch => (words.take 1 ++ everySecond (words.drop 2)).map Int32.toInt
  | _ => []

theorem wideWords_append {taken : Bytes} (size : taken.length = 4) (rest : Bytes) :
    wideWords (taken ++ rest) = Word.decode taken :: wideWords rest := by
  match taken, size with
  | [a, b, c, d], _ => rfl

end StoredInsn

namespace CodeContext

open Reader StoredInsn

variable {ctx : CodeContext} {start : Nat} {op : Opcode} {c c' : Cursor} {n : Node}

/-! ## What an instruction is read from -/

theorem resolve_placed {α : Type} (lookup : Except FormatError α) : Placed (resolve lookup) :=
  .lift _

theorem pooled_placed {α : Type} (lookup : UInt16 → Except FormatError α) :
    Placed (pooled lookup) :=
  Placed.u16.bind fun _ => resolve_placed _

theorem branch_placed (ctx : CodeContext) (start : Nat) : Placed (ctx.branch start) :=
  (Placed.word Int16).bind fun _ => .lift _

theorem wideBranch_placed (ctx : CodeContext) (start : Nat) : Placed (ctx.wideBranch start) :=
  (Placed.word Int32).bind fun _ => .lift _

/-- An instruction is read from its own octets alone. -/
theorem node_placed (ctx : CodeContext) (start : Nat) (op : Opcode) :
    Placed (ctx.node start op) := by
  have wide : Placed (wideOperands start) := by
    refine Placed.u8.bind fun _ => Placed.u16.bind fun _ => ?_
    split
    · exact (Placed.word Int16).bind fun _ => .pure _
    · exact .pure _
    · exact .fail _
  have table : Placed (ctx.tableSwitch start) :=
    (Placed.align 4).bind fun _ => (ctx.wideBranch_placed start).bind fun _ =>
      (Placed.word Int32).bind fun _ => (Placed.word Int32).bind fun _ =>
      .guard (.guard ((Placed.replicate (ctx.wideBranch_placed start) _).bind fun _ => .pure _))
  have choices : Placed (ctx.lookupSwitch start) :=
    (Placed.align 4).bind fun _ => (ctx.wideBranch_placed start).bind fun _ =>
      (Placed.word Int32).bind fun _ => .guard (.guard ((Placed.replicate
        ((Placed.word Int32).bind fun _ => (ctx.wideBranch_placed start).bind fun _ => .pure _)
        _).bind fun _ => .pure _))
  rw [node]
  cases OperandLayout.ofOpcode op with
  | none => exact .pure _
  | byte => exact (Placed.word Int8).bind fun _ => .pure _
  | short => exact (Placed.word Int16).bind fun _ => .pure _
  | arrayType => exact Placed.u8.bind fun _ => .pure _
  | constant => exact Placed.u8.bind fun _ => (resolve_placed _).bind fun _ => .pure _
  | wideConstant => exact (pooled_placed _).bind fun _ => .pure _
  | slot => exact Placed.u8.bind fun _ => .pure _
  | impliedSlot access slot => exact .pure _
  | increment => exact Placed.u8.bind fun _ => (Placed.word Int8).bind fun _ => .pure _
  | wide => exact wide
  | branch => exact (ctx.branch_placed start).bind fun _ => .pure _
  | wideBranch jump => exact (ctx.wideBranch_placed start).bind fun _ => .pure _
  | tableSwitch => exact table
  | lookupSwitch => exact choices
  | field => exact (pooled_placed _).bind fun _ => .pure _
  | call => exact (pooled_placed _).bind fun _ => .pure _
  | interfaceCall =>
    exact (pooled_placed _).bind fun _ => (Placed.advance 2).bind fun _ => .pure _
  | dynamicCall =>
    exact (pooled_placed _).bind fun _ => (Placed.advance 2).bind fun _ =>
      (resolve_placed _).bind fun _ => .pure _
  | type => exact (pooled_placed _).bind fun _ => .pure _
  | newArrays => exact (pooled_placed _).bind fun _ => Placed.u8.bind fun _ => .pure _
  | undefined => exact .fail _

/-! ## The targets of an instruction -/

/-- The labels of some distances from the instruction at `start`. -/
def Targets (ctx : CodeContext) (start : Nat) (labels : List LabelId) (distances : List Int) : Prop :=
  List.Forall₂ (fun l d => ctx.target start d = .ok l) labels distances

theorem target_eq_ok {distance : Int} {l : LabelId} (found : ctx.target start distance = .ok l) :
    ∃ offset, l = labelAt offset ∧ (offset : Int) = start + distance ∧ offset < ctx.length := by
  rw [target] at found
  split at found
  · rename_i inside
    refine ⟨(start + distance).toNat, (Except.ok.inj found).symm, ?_, ?_⟩ <;> omega
  · cases found

theorem branch_eq_ok {l : LabelId} (ran : ctx.branch start c = .ok (l, c')) :
    ∃ taken, c.rest = taken ++ c'.rest ∧
      ctx.target start (Word.decode taken : Int16).toInt = .ok l := by
  obtain ⟨distance, c₁, read, ran⟩ := bind_eq_ok ran
  obtain ⟨found, rfl⟩ := lift_eq_ok ran
  obtain ⟨taken, shows, -, -, rfl⟩ := word_eq_ok read
  exact ⟨taken, shows, found⟩

theorem wideBranch_eq_ok {l : LabelId} (ran : ctx.wideBranch start c = .ok (l, c')) :
    ∃ taken, c.rest = taken ++ c'.rest ∧ taken.length = 4 ∧
      ctx.target start (Word.decode taken : Int32).toInt = .ok l := by
  obtain ⟨distance, c₁, read, ran⟩ := bind_eq_ok ran
  obtain ⟨found, rfl⟩ := lift_eq_ok ran
  obtain ⟨taken, shows, size, -, rfl⟩ := word_eq_ok read
  exact ⟨taken, shows, size, found⟩

theorem targets_of_wideBranches {count : Nat} {labels : List LabelId}
    (ran : Reader.replicate (ctx.wideBranch start) count c = .ok (labels, c')) :
    ∃ taken, c.rest = taken ++ c'.rest ∧
      ctx.Targets start labels ((wideWords taken).map Int32.toInt) := by
  induction count generalizing c labels with
  | zero =>
    obtain ⟨rfl, rfl⟩ := pure_eq_ok ran
    exact ⟨[], rfl, .nil⟩
  | succ count ih =>
    obtain ⟨l, c₁, first, ran⟩ := bind_eq_ok ran
    obtain ⟨others, c₂, rest, ran⟩ := bind_eq_ok ran
    obtain ⟨rfl, rfl⟩ := pure_eq_ok ran
    obtain ⟨taken, shows, size, found⟩ := wideBranch_eq_ok first
    obtain ⟨more, shows', all⟩ := ih rest
    refine ⟨taken ++ more, by rw [shows, shows', List.append_assoc], ?_⟩
    rw [wideWords_append size]
    exact .cons found all

theorem targets_of_switchCases {count : Nat} {choices : List (Int32 × LabelId)}
    (ran : Reader.replicate (ctx.switchCase start) count c = .ok (choices, c')) :
    ∃ taken, c.rest = taken ++ c'.rest ∧
      ctx.Targets start (choices.map Prod.snd)
        ((everySecond (wideWords taken)).map Int32.toInt) := by
  induction count generalizing c choices with
  | zero =>
    obtain ⟨rfl, rfl⟩ := pure_eq_ok ran
    exact ⟨[], rfl, .nil⟩
  | succ count ih =>
    obtain ⟨choice, c₁, first, ran⟩ := bind_eq_ok ran
    obtain ⟨others, c₂, rest, ran⟩ := bind_eq_ok ran
    obtain ⟨rfl, rfl⟩ := pure_eq_ok ran
    obtain ⟨key, c₃, read, first⟩ := bind_eq_ok first
    obtain ⟨l, c₄, branch, first⟩ := bind_eq_ok first
    obtain ⟨rfl, rfl⟩ := pure_eq_ok first
    obtain ⟨keyOctets, shows₁, size₁, -, -⟩ := word_eq_ok read
    obtain ⟨taken, shows₂, size₂, found⟩ := wideBranch_eq_ok branch
    obtain ⟨more, shows₃, all⟩ := ih rest
    refine ⟨keyOctets ++ (taken ++ more), by simp [shows₁, shows₂, shows₃], ?_⟩
    rw [wideWords_append size₁, wideWords_append size₂]
    exact .cons found all

/-- The octets in front of the operands of a switch. -/
theorem align_eq_ok {alignment : Nat} {u : Unit} (ran : Reader.align alignment c = .ok (u, c')) :
    ∃ padding, c.rest = padding ++ c'.rest ∧
      padding.length = (alignment - c.position % alignment) % alignment := by
  change Reader.advance _ c = _ at ran
  rw [Reader.advance] at ran
  split at ran
  · rename_i enough
    cases ran
    exact ⟨_, (List.take_append_drop ..).symm, enough⟩
  · cases ran

theorem tableSwitch_targets (ran : ctx.tableSwitch start c = .ok (n, c')) :
    ∃ padding taken, c.rest = padding ++ (taken ++ c'.rest) ∧
      padding.length = (4 - c.position % 4) % 4 ∧ n.isPseudo = false ∧
      ctx.Targets start n.targets
        (((wideWords taken).take 1 ++ (wideWords taken).drop 3).map Int32.toInt) := by
  obtain ⟨u, c₁, aligned, ran⟩ := bind_eq_ok ran
  obtain ⟨default, c₂, branch, ran⟩ := bind_eq_ok ran
  obtain ⟨low, c₃, lowest, ran⟩ := bind_eq_ok ran
  obtain ⟨high, c₄, highest, ran⟩ := bind_eq_ok ran
  obtain ⟨-, ran⟩ := guard_eq_ok ran
  obtain ⟨-, ran⟩ := guard_eq_ok ran
  obtain ⟨targets, c₅, read, ran⟩ := bind_eq_ok ran
  obtain ⟨rfl, rfl⟩ := pure_eq_ok ran
  obtain ⟨padding, shows, gap⟩ := align_eq_ok aligned
  obtain ⟨first, shows₁, size₁, found⟩ := wideBranch_eq_ok branch
  obtain ⟨lowOctets, shows₂, size₂, -, -⟩ := word_eq_ok lowest
  obtain ⟨highOctets, shows₃, size₃, -, -⟩ := word_eq_ok highest
  obtain ⟨others, shows₄, all⟩ := targets_of_wideBranches read
  refine ⟨padding, first ++ (lowOctets ++ (highOctets ++ others)), ?_, gap, rfl, ?_⟩
  · simp [shows, shows₁, shows₂, shows₃, shows₄]
  · rw [wideWords_append size₁, wideWords_append size₂, wideWords_append size₃]
    exact .cons found all

theorem lookupSwitch_targets (ran : ctx.lookupSwitch start c = .ok (n, c')) :
    ∃ padding taken, c.rest = padding ++ (taken ++ c'.rest) ∧
      padding.length = (4 - c.position % 4) % 4 ∧ n.isPseudo = false ∧
      ctx.Targets start n.targets
        (((wideWords taken).take 1 ++ everySecond ((wideWords taken).drop 2)).map Int32.toInt) := by
  obtain ⟨u, c₁, aligned, ran⟩ := bind_eq_ok ran
  obtain ⟨default, c₂, branch, ran⟩ := bind_eq_ok ran
  obtain ⟨count, c₃, counted, ran⟩ := bind_eq_ok ran
  obtain ⟨-, ran⟩ := guard_eq_ok ran
  obtain ⟨-, ran⟩ := guard_eq_ok ran
  obtain ⟨choices, c₄, read, ran⟩ := bind_eq_ok ran
  obtain ⟨rfl, rfl⟩ := pure_eq_ok ran
  obtain ⟨padding, shows, gap⟩ := align_eq_ok aligned
  obtain ⟨first, shows₁, size₁, found⟩ := wideBranch_eq_ok branch
  obtain ⟨countOctets, shows₂, size₂, -, -⟩ := word_eq_ok counted
  obtain ⟨others, shows₃, all⟩ := targets_of_switchCases read
  refine ⟨padding, first ++ (countOctets ++ others), ?_, gap, rfl, ?_⟩
  · simp [shows, shows₁, shows₂, shows₃]
  · rw [wideWords_append size₁, wideWords_append size₂]
    exact .cons found all

theorem wideOperands_targets (ran : wideOperands start c = .ok (n, c')) :
    n.isPseudo = false ∧ n.targets = [] := by
  obtain ⟨access, _, -, ran⟩ := bind_eq_ok ran
  obtain ⟨slot, _, -, ran⟩ := bind_eq_ok ran
  cases layout : OperandLayout.ofOpcode access
  all_goals rw [layout] at ran
  case increment =>
    obtain ⟨amount, _, -, ran⟩ := bind_eq_ok ran
    obtain ⟨rfl, -⟩ := pure_eq_ok ran
    exact ⟨rfl, rfl⟩
  case slot =>
    obtain ⟨rfl, -⟩ := pure_eq_ok ran
    exact ⟨rfl, rfl⟩
  all_goals cases ran

/-- The labels of an instruction are those of the offsets at the distances in its octets. -/
theorem targets_of_node (ran : ctx.node start op c = .ok (n, c')) (stands : c.position = start + 1)
    {operands : Bytes} (shows : c.rest = operands ++ c'.rest) :
    n.isPseudo = false ∧ ctx.Targets start n.targets (distances ⟨start, op, operands, n⟩) := by
  rw [node] at ran
  rw [distances]
  cases layout : OperandLayout.ofOpcode op
  all_goals
    rw [layout] at ran
    dsimp only at ran ⊢
  case branch =>
    obtain ⟨l, c₁, branch, ran⟩ := bind_eq_ok ran
    obtain ⟨rfl, rfl⟩ := pure_eq_ok ran
    obtain ⟨taken, shows', found⟩ := branch_eq_ok branch
    obtain rfl : operands = taken := List.append_cancel_right (shows.symm.trans shows')
    exact ⟨rfl, .cons found .nil⟩
  case wideBranch jump =>
    obtain ⟨l, c₁, branch, ran⟩ := bind_eq_ok ran
    obtain ⟨rfl, rfl⟩ := pure_eq_ok ran
    obtain ⟨taken, shows', -, found⟩ := wideBranch_eq_ok branch
    obtain rfl : operands = taken := List.append_cancel_right (shows.symm.trans shows')
    exact ⟨rfl, .cons found .nil⟩
  case tableSwitch =>
    obtain ⟨padding, taken, shows', gap, real, all⟩ := tableSwitch_targets ran
    rw [← List.append_assoc] at shows'
    obtain rfl : operands = padding ++ taken := List.append_cancel_right (shows.symm.trans shows')
    rw [stands] at gap
    rw [List.drop_left' gap]
    exact ⟨real, all⟩
  case lookupSwitch =>
    obtain ⟨padding, taken, shows', gap, real, all⟩ := lookupSwitch_targets ran
    rw [← List.append_assoc] at shows'
    obtain rfl : operands = padding ++ taken := List.append_cancel_right (shows.symm.trans shows')
    rw [stands] at gap
    rw [List.drop_left' gap]
    exact ⟨real, all⟩
  case wide =>
    obtain ⟨real, none_⟩ := wideOperands_targets ran
    rw [none_]
    exact ⟨real, .nil⟩
  case undefined => cases ran
  -- No other instruction has targets, whatever its operands are.
  case none | impliedSlot =>
    obtain ⟨rfl, -⟩ := pure_eq_ok ran
    exact ⟨rfl, .nil⟩
  case byte | short | arrayType | wideConstant | slot | field | call | type =>
    obtain ⟨_, _, -, ran⟩ := bind_eq_ok ran
    obtain ⟨rfl, -⟩ := pure_eq_ok ran
    exact ⟨rfl, .nil⟩
  case constant | increment | interfaceCall | newArrays =>
    obtain ⟨_, _, -, ran⟩ := bind_eq_ok ran
    obtain ⟨_, _, -, ran⟩ := bind_eq_ok ran
    obtain ⟨rfl, -⟩ := pure_eq_ok ran
    exact ⟨rfl, .nil⟩
  case dynamicCall =>
    obtain ⟨_, _, -, ran⟩ := bind_eq_ok ran
    obtain ⟨_, _, -, ran⟩ := bind_eq_ok ran
    obtain ⟨_, _, -, ran⟩ := bind_eq_ok ran
    obtain ⟨rfl, -⟩ := pure_eq_ok ran
    exact ⟨rfl, .nil⟩

/-! ## Instructions one behind the other -/

/-- The octets from an offset on are those of instructions one behind the other, each of which is
read from its own octets, whatever follows them. -/
inductive Tiles (ctx : CodeContext) : Nat → Bytes → List StoredInsn → Prop
  | done (start : Nat) : Tiles ctx start [] []
  | step {i : StoredInsn} {code : Bytes} {insns : List StoredInsn}
      (reads : Reads (ctx.node i.start i.op) (i.start + 1) i.operands i.node)
      (rest : Tiles ctx (i.start + i.octets.length) code insns) :
      Tiles ctx i.start (i.octets ++ code) (i :: insns)

namespace Tiles

variable {code : Bytes} {insns : List StoredInsn}

theorem octets (h : ctx.Tiles start code insns) : insns.flatMap StoredInsn.octets = code := by
  induction h with
  | done start => rfl
  | step reads rest ih => rw [List.flatMap_cons, ih]

/-- Every instruction stands behind the ones before it and in front of the end of the code. -/
theorem ascending (h : ctx.Tiles start code insns) :
    (insns.Pairwise fun i j => i.start < j.start) ∧
      ∀ i ∈ insns, start ≤ i.start ∧ i.start < start + code.length := by
  induction h with
  | done start => exact ⟨.nil, fun i member => absurd member List.not_mem_nil⟩
  | @step i code insns reads rest ih =>
    obtain ⟨ascending, bounds⟩ := ih
    have some_ : 0 < i.octets.length := Nat.succ_pos _
    constructor
    · refine .cons (fun j member => ?_) ascending
      have := (bounds j member).1
      omega
    · intro j member
      rw [List.length_append]
      rcases List.mem_cons.mp member with rfl | later
      · omega
      · have := bounds j later
        omega

end Tiles

theorem u8_eq_ok {b : UInt8} (ran : Reader.u8 c = .ok (b, c')) :
    c.rest = b :: c'.rest ∧ c'.position = c.position + 1 := by
  obtain ⟨taken, shows, size, moved, rfl⟩ := word_eq_ok ran
  match taken, size with
  | [b], _ =>
    have : (Word.decode [b] : UInt8) = b := by
      show UInt8.ofNat (0 * 256 + b.toNat) = b
      rw [Nat.zero_mul, Nat.zero_add, UInt8.ofNat_toNat]
    exact ⟨by rw [shows, this]; rfl, moved⟩

/-- Decoding to the end of the code tiles it. -/
theorem tiles_of_nodes {fuel : Nat} {decoded : List (Nat × Node)} (enough : c.rest.length ≤ fuel)
    (ran : ctx.nodes fuel c = .ok (decoded, c')) :
    ∃ insns, ctx.Tiles c.position c.rest insns ∧
      decoded = insns.map (fun i => (i.start, i.node)) ∧
      ∀ i ∈ insns, i.node.isPseudo = false ∧ ctx.Targets i.start i.node.targets i.distances := by
  induction fuel generalizing c decoded with
  | zero =>
    obtain ⟨rfl, -⟩ := pure_eq_ok ran
    rw [List.eq_nil_of_length_eq_zero (Nat.le_zero.mp enough)]
    exact ⟨[], .done _, rfl, fun i member => absurd member List.not_mem_nil⟩
  | succ fuel ih =>
    obtain ⟨c₀, c₁, got, ran⟩ := bind_eq_ok ran
    obtain ⟨rfl, rfl⟩ : c = c₀ ∧ c = c₁ := pure_eq_ok got
    split at ran
    · rename_i spent
      obtain ⟨rfl, -⟩ := pure_eq_ok ran
      have nothing : c.rest = [] := by simpa [Cursor.hasMore] using spent
      rw [nothing]
      exact ⟨[], .done _, rfl, fun i member => absurd member List.not_mem_nil⟩
    · obtain ⟨at_, c₁, stands, ran⟩ := bind_eq_ok ran
      obtain ⟨rfl, rfl⟩ : c.position = at_ ∧ c = c₁ := pure_eq_ok stands
      obtain ⟨op, c₂, code, ran⟩ := bind_eq_ok ran
      obtain ⟨n, c₃, first, ran⟩ := bind_eq_ok ran
      obtain ⟨others, c₄, rest, ran⟩ := bind_eq_ok ran
      obtain ⟨rfl, rfl⟩ := pure_eq_ok ran
      obtain ⟨shows, moved⟩ := u8_eq_ok code
      obtain ⟨-, operands, shows', moved', reads⟩ := ctx.node_placed _ op c₂ n c₃ first
      rw [moved] at reads moved'
      let i : StoredInsn := ⟨c.position, op, operands, n⟩
      have split : c.rest = i.octets ++ c₃.rest := by
        rw [shows, shows']
        rfl
      have next : c₃.position = i.start + i.octets.length := by
        rw [moved']
        show c.position + 1 + operands.length = c.position + (operands.length + 1)
        omega
      obtain ⟨insns, tiles, rfl, each⟩ := ih (by
        rw [split, List.length_append] at enough
        have : 0 < i.octets.length := Nat.succ_pos _
        omega) rest
      rw [next] at tiles
      refine ⟨i :: insns, split ▸ .step reads tiles, rfl, fun j member => ?_⟩
      rcases List.mem_cons.mp member with rfl | later
      · exact targets_of_node first moved shows'
      · exact each j later

end CodeContext

/-- The instructions of code tile it. -/
theorem tiles_of_decodeNodes {ctx : CodeContext} {code : Bytes} {decoded : List (Nat × Node)}
    (ran : decodeNodes ctx code = .ok decoded) :
    ∃ insns, ctx.Tiles 0 code insns ∧ decoded = insns.map (fun i => (i.start, i.node)) ∧
      ∀ i ∈ insns, i.node.isPseudo = false ∧ ctx.Targets i.start i.node.targets i.distances := by
  rw [decodeNodes] at ran
  cases read : (ctx.nodes code.length).run (Cursor.ofBytes code) with
  | error cause =>
    rw [read] at ran
    cases ran
  | ok result =>
    obtain ⟨nodes, behind⟩ := result
    rw [read] at ran
    cases ran
    exact CodeContext.tiles_of_nodes (c := Cursor.ofBytes code) (Nat.le_refl _) read

end Bytecode
