import Bytecode.Proofs.Analysis.Buffers
import Bytecode.Proofs.Analysis.Execution
import Bytecode.Proofs.Analysis.Folding
import Bytecode.Proofs.Analysis.Order
import Bytecode.Proofs.Analysis.Recording
import Bytecode.Proofs.Analysis.Rendering
import Bytecode.Proofs.Machine.Library

/-!
# What an abstract value says about a run

A value describes what a running method holds in a slot: if it has a literal, the slot holds a datum
that the literal stands for, and if it has a kind, a datum in the slot is of that kind. A value
without a literal also describes an empty slot.

The main result is `resultOf_describes`: if the operands of an instruction are described, then so is
what it pushes. An answer of the surroundings has to be `Expected`: a new object is what the new
buffer stands for, and a call returns what its folded literal means. `expected_of_plainly` says when a
faithful environment answers so.
-/

namespace Bytecode.Analysis

open Machine

/-- What a builder literal stands for is told by a relation between buffers and references, and what
any other literal stands for by the literal itself. -/
inductive Means (stands : BufferId → Ref → Prop) : Literal → Datum → Prop
  | plain {l : Literal} {d : Datum} (denotes : Denotes l d) : Means stands l d
  | builder {b : BufferId} {r : Ref} (holds : stands b r) : Means stands (.builder b) (.ref r)

/-- Nothing is said about builders: a builder literal stands for every reference. -/
def Free (stands : BufferId → Ref → Prop) : Prop :=
  ∀ b r, stands b r

/-- A value describes the contents of a slot. -/
structure Value.Describes (stands : BufferId → Ref → Prop) (v : Value) (o : Option Datum) : Prop where
  literal : ∀ l, v.literal = some l → ∃ d, o = some d ∧ Means stands l d
  kind : ∀ d, o = some d → v.kind = .uninitialized ∨ v.kind = d.kind

/-- What an instruction pushes describes what the machine pushes. -/
def PushedDescribes (stands : BufferId → Ref → Prop) (o : Option Value) (d : Option Datum) : Prop :=
  Option.Rel (fun v d => v.Describes stands (some d)) o d

/-- Values describe a list of data. -/
def DescribeAll (stands : BufferId → Ref → Prop) (vs : List Value) (ds : List Datum) : Prop :=
  List.Forall₂ (fun v d => v.Describes stands (some d)) vs ds

variable {stands : BufferId → Ref → Prop}

/-- A value without a kind and a literal describes everything. -/
theorem Value.Blank.describes {v : Value} (h : v.Blank) (o : Option Datum) : v.Describes stands o := by
  refine ⟨fun l known => ?_, fun _ _ => .inl h.1⟩
  rw [h.2] at known
  cases known

/-- A value of a kind without a literal describes every datum of the kind. -/
theorem Value.describes_of_kind {v : Value} {d : Datum} (kind : v.kind = d.kind)
    (literal : v.literal = none) : v.Describes stands (some d) := by
  refine ⟨fun l known => ?_, fun e same => ?_⟩
  · rw [literal] at known
    cases known
  · cases same
    exact .inr kind

/-- A value of a kind describes a datum of the kind that its literal means. -/
theorem Value.describes_of_means {v : Value} {d : Datum} (kind : v.kind = d.kind)
    (literal : ∀ l, v.literal = some l → Means stands l d) : v.Describes stands (some d) := by
  refine ⟨fun l known => ⟨d, rfl, literal l known⟩, fun e same => ?_⟩
  cases same
  exact .inr kind

/-- Where builders stand for nothing, a literal denotes what it means. -/
theorem Means.denotes_of_none {l : Literal} {d : Datum} (h : Means (fun _ _ => False) l d) :
    Denotes l d := by
  cases h with
  | plain denotes => exact denotes
  | builder holds => exact holds.elim

/-- A literal has the kind of the datum that it means. -/
theorem Means.kind {l : Literal} {d : Datum} (h : Means stands l d) : l.kind = d.kind := by
  cases h with
  | plain denotes => cases denotes <;> rfl
  | builder => rfl

/-- A value that claims no more describes what the other one describes, if a builder in it is the same
in the other. -/
theorem Value.Describes.mono {v w : Value} {o : Option Datum} (h : v.Describes stands o) (below : v.Le w)
    (kept : ∀ b, w.literal = some (.builder b) → v.literal = some (.builder b)) :
    w.Describes stands o := by
  refine ⟨fun l known => ?_, fun d holds => ?_⟩
  · rcases below.literal l known with same | ⟨builder, -⟩
    · exact h.literal l same
    · cases l with
      | builder b => exact h.literal _ (kept b known)
      | _ => cases builder
  · rcases below.kind with same | unknown
    · rw [same]
      exact h.kind d holds
    · exact .inl unknown

/-- An exact copy describes what the original describes. -/
theorem Value.Describes.copy {v w : Value} {o : Option Datum} (h : v.Describes stands o)
    (kind : w.kind = v.kind) (literal : w.literal = v.literal) : w.Describes stands o :=
  ⟨fun l known => h.literal l (literal ▸ known), fun d holds => kind ▸ h.kind d holds⟩

/-! ## Results of the transfer functions -/

section

variable {i : Insn} {s s' : Store} {o : Option Value} {u v w : Value}

/-- A new value is as told. -/
theorem produce_eq {kind : Kind} {literal : Option Literal} {id : InsnId}
    (h : Transfer.produce id kind literal s = (v, s')) : v.kind = kind ∧ v.literal = literal := by
  cases h
  exact ⟨rfl, rfl⟩

/-- What an instruction makes of one value. -/
theorem unary_eq (h : Transfer.unary i v s = (o, s')) :
    match Transfer.unaryKind i.node with
    | none => o = none
    | some kind => ∃ w, o = some w ∧ w.kind = kind ∧
        w.literal = v.literal.bind (Transfer.unaryLiteral i.node) := by
  unfold Transfer.unary at h
  cases known : Transfer.unaryKind i.node with
  | none =>
    rw [known] at h
    cases h
    rfl
  | some kind =>
    rw [known] at h
    cases h
    exact ⟨_, rfl, rfl, rfl⟩

/-- What an operation makes of two values. -/
theorem binary_eq {id : InsnId} {op : Opcode}
    (h : Transfer.binary ⟨id, .simple op⟩ v w s = (o, s')) :
    match Operation.ofOpcode op with
    | .binary b => ∃ u, o = some u ∧ u.kind = b.kind ∧
        u.literal = v.literal.bind fun l => w.literal.bind fun m => Fold.binary b l m
    | .arrayLoad kind => ∃ u, o = some u ∧ u.kind = kind ∧ u.literal = none
    | _ => o = none := by
  unfold Transfer.binary at h
  dsimp only at h
  cases operation : Operation.ofOpcode op <;> rw [operation] at h <;> cases h
  case binary | arrayLoad => exact ⟨_, rfl, rfl, rfl⟩
  all_goals rfl

/-- Only an operation makes something of two values. -/
theorem binary_eq_none (h : Transfer.binary i v w s = (o, s'))
    (other : ∀ op, i.node ≠ .simple op) : o = none := by
  obtain ⟨id, node⟩ := i
  cases node with
  | simple op => exact absurd rfl (other op)
  | _ =>
    cases h
    rfl

/-- Consuming values returns nothing. -/
theorem consumeAll_eq {id : InsnId} {taken : List Value}
    (h : (do taken.forM (Store.consume id); return none : StoreM (Option Value)) s = (o, s')) :
    o = none := by
  cases h
  rfl

/-- Literals of described values that are no builders denote the data. -/
theorem denotes_of_mapM {vs : List Value} {ds : List Datum} {ls : List Literal}
    (described : DescribeAll stands vs ds) (unbuilt : ∀ v ∈ vs, v.Unbuilt)
    (h : vs.mapM Value.literal = some ls) : List.Forall₂ Denotes ls ds := by
  have literals := forall₂_of_mapM h
  clear h
  induction described generalizing ls with
  | nil =>
    cases literals
    exact .nil
  | cons first _ ih =>
    obtain ⟨plain, others⟩ := List.forall_mem_cons.mp unbuilt
    cases literals with
    | cons known rest =>
      obtain ⟨d, same, means⟩ := first.literal _ known
      cases same
      cases means with
      | plain denotes => exact .cons denotes (ih others rest)
      | builder => exact absurd known (plain _)

end

/-- A folded unary operation takes no builder. -/
theorem Means.unary {op : UnaryOp} {l m : Literal} {d e : Datum} (h : Means stands l d)
    (folded : Fold.unary op l = some m) (computed : d.unary op = some e) : Denotes m e := by
  cases h with
  | plain denotes => exact denotes_unary denotes folded computed
  | builder =>
    cases op with
    | neg kind => cases kind <;> cases folded
    | convert source target => simp [Fold.unary, Fold.convert, Fold.numericKind?] at folded
    | narrow target => cases folded

/-- A folded binary operation takes no builder. -/
theorem Means.binary {op : BinaryOp} {l m n : Literal} {d e : Datum} {r : Except String Datum}
    (left : Means stands l d) (right : Means stands m e) (folded : Fold.binary op l m = some n)
    (computed : d.binary op e = some r) : ∃ f, r = .ok f ∧ Denotes n f := by
  unfold Fold.binary at folded
  cases left with
  | plain left =>
    cases right with
    | plain right => exact denotes_binary left right folded computed
    | builder => split at folded <;> contradiction
  | builder => split at folded <;> contradiction

/-! ## Results of instructions -/

/-- What the abstract result of an instruction has to be for an action: it describes what the action
pushes if the surroundings give an answer, and there is none where the action jumps. -/
def ResultDescribes (stands : BufferId → Ref → Prop) (node : Node) (answer : Option Datum)
    (o : Option Value) : Action → Prop
  | .push d => PushedDescribes stands o d
  | .jump l => o = none ∧ l ∈ node.targets
  | .ask reply => ∀ d, reply.pushed answer = some d → PushedDescribes stands o d
  | .leave _ | .raise _ => True

/-- An answer is what the analysis makes of an instruction that takes some values: a new builder
stands for the object, and a literal that a call is folded to means the result. -/
structure Expected (stands : BufferId → Ref → Prop) (node : Node) (vs : List Value) (b : Buffers)
    (answer : Option Datum) : Prop where
  allocated : node = .type Opcode.new builderClass → ∀ r, answer = some (.ref r) →
    ∀ i : BufferId, b.texts.size ≤ i.val → stands i r
  folded : ∀ ls s l s', vs.mapM Value.literal = some ls → s.buffers = b →
    Transfer.callLiteral node ls s = (some l, s') → ∀ d, answer = some d →
      Transfer.resultKind node = some d.kind → Means stands l d

theorem pushed_nothing {answer d : Option Datum} (h : Reply.nothing.pushed answer = some d) :
    d = none := by
  cases answer <;> cases h
  rfl

theorem pushed_value {kind : Kind} {answer d : Option Datum}
    (h : (Reply.value kind).pushed answer = some d) : ∃ e, answer = some e ∧ d = some e ∧ e.kind = kind := by
  cases answer with
  | none => cases h
  | some e =>
    simp only [Reply.pushed] at h
    split at h
    · next same =>
      cases h
      exact ⟨e, rfl, rfl, same⟩
    · cases h

section

variable {node : Node} {answer : Option Datum} {w : Value} {kind : Kind}

/-- Nothing is pushed without an answer. -/
theorem resultDescribes_nothing : ResultDescribes stands node answer none (.ask .nothing) := by
  intro d pushed
  rw [pushed_nothing pushed]
  exact .none

/-- An answer of a kind is described by a value of the kind without a literal. -/
theorem resultDescribes_value (hkind : w.kind = kind) (literal : w.literal = none) :
    ResultDescribes stands node answer (some w) (.ask (.value kind)) := by
  intro d pushed
  obtain ⟨e, -, rfl, same⟩ := pushed_value pushed
  exact .some (Value.describes_of_kind (hkind.trans same.symm) literal)

/-- A constant is described by its literal. -/
theorem describes_ofConstant {c : Constant} {d : Datum} (known : ofConstant c = some d)
    (hkind : w.kind = (Literal.ofConstant c).1) (literal : w.literal = (Literal.ofConstant c).2) :
    w.Describes stands (some d) := by
  refine Value.describes_of_means ?_ fun l hl => ?_
  · rw [hkind]
    cases c <;> cases known <;> rfl
  · obtain ⟨e, same, denotes⟩ := denotes_ofConstant (literal.symm.trans hl)
    rw [known] at same
    cases same
    exact .plain denotes

end

/-- The machine's result of a unary operation has its kind. -/
theorem kind_of_datum_unary {op : UnaryOp} {d e : Datum} (h : d.unary op = some e) :
    e.kind = op.kind := by
  cases op with
  | neg kind => cases kind <;> cases d <;> cases h <;> rfl
  | convert source target =>
    cases source <;> cases target <;> cases d <;> cases h <;> rfl
  | narrow target =>
    cases d <;> cases h
    rfl

/-- The machine's result of a binary operation has its kind. -/
theorem kind_of_datum_binary {op : BinaryOp} {d e f : Datum} (h : d.binary op e = some (.ok f)) :
    f.kind = op.kind := by
  unfold Datum.binary at h
  split at h
  case h_1 op a b =>
    cases result : integral op a.toInt b.toInt with
    | error name =>
      rw [result] at h
      cases h
    | ok n =>
      rw [result] at h
      cases h
      rfl
  case h_2 op a b =>
    cases result : integral op a.toInt b.toInt with
    | error name =>
      rw [result] at h
      cases h
    | ok n =>
      rw [result] at h
      cases h
      rfl
  all_goals cases h
  all_goals rfl

section

variable {s s' : Store} {o : Option Value} {vs : List Value} {ds : List Datum} {act : Action}
  {answer : Option Datum}

/-- No operand. -/
theorem DescribeAll.none (described : DescribeAll stands vs ds) (kinds : some [] = some (ds.map Datum.kind)) :
    vs = [] ∧ ds = [] := by
  obtain rfl : ds = [] := List.map_eq_nil_iff.mp (Option.some.inj kinds).symm
  cases described
  exact ⟨rfl, rfl⟩

/-- One operand. -/
theorem DescribeAll.one {kind : Kind} (described : DescribeAll stands vs ds)
    (kinds : some [kind] = some (ds.map Datum.kind)) :
    ∃ v d, vs = [v] ∧ ds = [d] ∧ d.kind = kind ∧ v.Describes stands (some d) := by
  obtain ⟨d, rest, rfl, same, nil⟩ := List.map_eq_cons_iff.mp (Option.some.inj kinds).symm
  obtain rfl := List.map_eq_nil_iff.mp nil
  obtain _ | ⟨first, _ | _⟩ := described
  exact ⟨_, d, rfl, rfl, same, first⟩

/-- Two operands. -/
theorem DescribeAll.two {kind kind' : Kind} (described : DescribeAll stands vs ds)
    (kinds : some [kind, kind'] = some (ds.map Datum.kind)) :
    ∃ v w d e, vs = [v, w] ∧ ds = [d, e] ∧ v.Describes stands (some d) ∧ w.Describes stands (some e) := by
  obtain ⟨d, rest, rfl, -, rest_kinds⟩ := List.map_eq_cons_iff.mp (Option.some.inj kinds).symm
  obtain _ | ⟨first, others⟩ := described
  obtain ⟨w, e, rfl, rfl, -, second⟩ := DescribeAll.one others (congrArg some rest_kinds.symm)
  exact ⟨_, w, d, e, rfl, rfl, first, second⟩

/-- The results of operations. -/
theorem operation_describes {id : InsnId} {op : Opcode} (described : DescribeAll stands vs ds)
    (kinds : operationOperands (Operation.ofOpcode op) = some (ds.map Datum.kind))
    (acts : operationAction (Operation.ofOpcode op) ds = some act)
    (run : resultOf ⟨id, .simple op⟩ vs s = (o, s')) : ResultDescribes stands (.simple op) answer o act := by
  have unaryLiteral : Transfer.unaryLiteral (.simple op) =
      fun l => unaryFold l (Operation.ofOpcode op) := rfl
  have unaryKind : Transfer.unaryKind (.simple op) = unaryResult (Operation.ofOpcode op) := rfl
  have pushesOf : pushes (.simple op) = pushesValue (Operation.ofOpcode op) := rfl
  have ofUnary {v : Value} (run : resultOf ⟨id, .simple op⟩ [v] s = (o, s')) := unary_eq run
  have ofBinary {v w : Value} (run : resultOf ⟨id, .simple op⟩ [v, w] s = (o, s')) := binary_eq run
  cases operation : Operation.ofOpcode op <;>
    rw [operation] at kinds acts unaryLiteral unaryKind pushesOf <;>
    simp only [operation, unaryKind, unaryLiteral] at ofUnary ofBinary
  case nop =>
    obtain ⟨rfl, rfl⟩ := described.none kinds
    cases acts
    simp only [resultOf, pushesOf] at run
    cases run
    exact .none
  case null =>
    obtain ⟨rfl, rfl⟩ := described.none kinds
    cases acts
    simp only [resultOf, pushesOf, Transfer.push, operation] at run
    cases run
    refine .some (Value.describes_of_means rfl fun l known => ?_)
    cases known
    exact .plain .null
  case constant c =>
    obtain ⟨rfl, rfl⟩ := described.none kinds
    obtain ⟨d, known, rfl⟩ := Option.map_eq_some_iff.mp acts
    simp only [resultOf, pushesOf, Transfer.push, operation] at run
    cases run
    exact .some (describes_ofConstant known rfl rfl)
  case arrayLoad kind =>
    obtain ⟨v, w, d, e, rfl, rfl, -, -⟩ := described.two kinds
    cases acts
    obtain ⟨u, rfl, hkind, literal⟩ := ofBinary run
    exact resultDescribes_value hkind literal
  case arrayStore kind =>
    obtain ⟨d, rest, rfl, -, rest_kinds⟩ := List.map_eq_cons_iff.mp (Option.some.inj kinds).symm
    obtain _ | ⟨first, others⟩ := described
    obtain ⟨v, w, d, e, rfl, rfl, -, -⟩ := DescribeAll.two others (congrArg some rest_kinds.symm)
    cases acts
    obtain rfl := consumeAll_eq run
    exact resultDescribes_nothing
  case unary u =>
    obtain ⟨v, d, rfl, rfl, -, hv⟩ := described.one kinds
    obtain ⟨e, computed, rfl⟩ := Option.map_eq_some_iff.mp acts
    obtain ⟨w, rfl, hkind, literal⟩ := ofUnary run
    refine .some (Value.describes_of_means (hkind.trans (kind_of_datum_unary computed).symm)
      fun m known => ?_)
    obtain ⟨l, hl, folded⟩ := Option.bind_eq_some_iff.mp (literal.symm.trans known)
    obtain ⟨d', same, means⟩ := hv.literal l hl
    cases same
    exact .plain (means.unary folded computed)
  case binary b =>
    obtain ⟨v, w, d, e, rfl, rfl, hv, hw⟩ := described.two kinds
    obtain ⟨r, computed, rfl⟩ := Option.map_eq_some_iff.mp acts
    cases r with
    | error name => trivial
    | ok f =>
      obtain ⟨u, rfl, hkind, literal⟩ := ofBinary run
      refine .some (Value.describes_of_means (hkind.trans (kind_of_datum_binary computed).symm)
        fun n known => ?_)
      obtain ⟨l, hl, known⟩ := Option.bind_eq_some_iff.mp (literal.symm.trans known)
      obtain ⟨m, hm, folded⟩ := Option.bind_eq_some_iff.mp known
      obtain ⟨d', same, left⟩ := hv.literal l hl
      cases same
      obtain ⟨e', same, right⟩ := hw.literal m hm
      cases same
      obtain ⟨f', same, denotes⟩ := left.binary right folded computed
      cases same
      exact .plain denotes
  case arrayLength =>
    obtain ⟨v, d, rfl, rfl, -, -⟩ := described.one kinds
    cases acts
    obtain ⟨w, rfl, hkind, literal⟩ := ofUnary run
    refine resultDescribes_value hkind (literal.trans ?_)
    cases v.literal <;> rfl
  case leave value =>
    cases acts
    trivial
  case throw =>
    obtain ⟨v, d, rfl, rfl, -, -⟩ := described.one kinds
    cases d with
    | ref r => cases r <;> cases acts <;> trivial
    | _ => cases acts
  case monitor =>
    obtain ⟨v, d, rfl, rfl, -, -⟩ := described.one kinds
    cases acts
    obtain rfl := ofUnary run
    exact resultDescribes_nothing
  all_goals cases kinds

/-- The results of instructions about a class. An allocated builder stands for the new object. -/
theorem type_describes {id : InsnId} {op : Opcode} {name : String}
    (expected : Expected stands (.type op name) vs s.buffers answer) (described : DescribeAll stands vs ds)
    (kinds : typeOperands op = some (ds.map Datum.kind)) (acts : typeAction op ds = some act)
    (run : resultOf ⟨id, .type op name⟩ vs s = (o, s')) :
    ResultDescribes stands (.type op name) answer o act := by
  have ofUnary {v : Value} (run : resultOf ⟨id, .type op name⟩ [v] s = (o, s')) := unary_eq run
  unfold typeOperands at kinds
  split at kinds
  · obtain ⟨rfl, rfl⟩ := described.none kinds
    cases acts
    by_cases builds : name = builderClass
    · simp only [resultOf, pushes, Transfer.push, if_pos builds] at run
      cases run
      intro d pushed
      obtain ⟨e, rfl, rfl, same⟩ := pushed_value pushed
      refine .some (Value.describes_of_means same.symm fun l known => ?_)
      cases known
      cases e with
      | ref r => exact .builder (expected.allocated (congrArg _ builds) r rfl _ (Nat.le_refl _))
      | _ => cases same
    · simp only [resultOf, pushes, Transfer.push, if_neg builds] at run
      cases run
      exact resultDescribes_value rfl rfl
  · obtain ⟨v, d, rfl, rfl, -, -⟩ := described.one kinds
    cases acts
    obtain ⟨w, rfl, hkind, literal⟩ := ofUnary run
    exact resultDescribes_value hkind (literal.trans (by cases v.literal <;> rfl))
  · obtain ⟨v, d, rfl, rfl, same, hv⟩ := described.one kinds
    cases acts
    obtain ⟨w, rfl, hkind, literal⟩ := ofUnary run
    intro e pushed
    cases answer <;> cases pushed
    exact .some (Value.describes_of_kind (hkind.trans same.symm)
      (literal.trans (by cases v.literal <;> rfl)))
  · obtain ⟨v, d, rfl, rfl, -, -⟩ := described.one kinds
    cases acts
    obtain ⟨w, rfl, hkind, literal⟩ := ofUnary run
    exact resultDescribes_value hkind (literal.trans (by cases v.literal <;> rfl))
  · cases kinds

/-- The kind that a text describes is the kind of values of its type. -/
theorem ofText_of_kindOf {descriptor : String} {kind : Kind} (h : kindOf? descriptor = some kind) :
    Kind.ofText descriptor = kind := by
  rw [Kind.ofText, ← kindOf?, h, Option.getD_some]

/-- The results of accesses to fields. -/
theorem field_describes {id : InsnId} {op : Opcode} {owner name descriptor : String} {kind : Kind}
    (known : kindOf? descriptor = some kind) (described : DescribeAll stands vs ds)
    (kinds : fieldOperands op kind = some (ds.map Datum.kind))
    (run : resultOf ⟨id, .field op owner name descriptor⟩ vs s = (o, s')) :
    ResultDescribes stands (.field op owner name descriptor) answer o (fieldAction op kind) := by
  unfold fieldOperands at kinds
  split at kinds
  · obtain ⟨rfl, rfl⟩ := described.none kinds
    cases run
    exact resultDescribes_value (ofText_of_kindOf known) rfl
  · obtain ⟨v, d, rfl, rfl, -, -⟩ := described.one kinds
    obtain rfl : o = none := unary_eq (i := ⟨id, .field Opcode.putstatic owner name descriptor⟩) run
    exact resultDescribes_nothing
  · obtain ⟨v, d, rfl, rfl, -, -⟩ := described.one kinds
    obtain ⟨w, rfl, hkind, literal⟩ :=
      unary_eq (i := ⟨id, .field Opcode.getfield owner name descriptor⟩) run
    exact resultDescribes_value (hkind.trans (ofText_of_kindOf known))
      (literal.trans (by cases v.literal <;> rfl))
  · obtain ⟨v, w, d, e, rfl, rfl, -, -⟩ := described.two kinds
    obtain rfl := binary_eq_none (i := ⟨id, .field Opcode.putfield owner name descriptor⟩) run
      fun _ other => nomatch other
    exact resultDescribes_nothing
  · cases kinds

theorem resultKind_of_call {op : Opcode} {owner name descriptor : String} {isInterface : Bool} :
    Transfer.resultKind (.call op owner name descriptor isInterface) =
      (Descriptor.parse (Transfer.returnText descriptor)).toOption.bind Kind.ofDescriptor :=
  rfl

/-- A method that adds to a builder returns a reference. -/
theorem resultKind_of_builder {node : Node} {ls : List Literal} {s s' : Store} {b : BufferId}
    (h : Transfer.callLiteral node ls s = (some (.builder b), s')) :
    Transfer.resultKind node = some .reference := by
  rcases callLiteral_cases h with ⟨op, name, descriptor, isInterface, rfl, folds⟩ | ⟨-, -, plain⟩
  · generalize s'.buffers = b' at folds
    cases folds with
    | add named known =>
      unfold Transfer.appendedText at known
      split at known
      case h_11 => cases known
      all_goals
        rw [resultKind_of_call]
        decide +kernel
  · exact absurd rfl (plain b)

/-- A folded call either takes no builder, or it returns one and nothing is said about builders. -/
def FoldsPlainly (stands : BufferId → Ref → Prop) (node : Node) (vs : List Value) (b : Buffers) : Prop :=
  ∀ ls s l s', vs.mapM Value.literal = some ls → s.buffers = b →
    Transfer.callLiteral node ls s = (some l, s') →
      (∀ v ∈ vs, v.Unbuilt) ∨ l.isBuilder = true ∧ Free stands

/-- Nothing is expected where there is no answer. -/
theorem expected_none {node : Node} {b : Buffers} : Expected stands node vs b none :=
  ⟨nofun, nofun⟩

/-- A call is answered as the analysis folds it if it is folded plainly, and answered with the text
that its operands determine. -/
theorem expected_of_plainly {node : Node} {b : Buffers}
    (ordinary : node = .type Opcode.new builderClass → Free stands) (described : DescribeAll stands vs ds)
    (plainly : FoldsPlainly stands node vs b)
    (faithful : ∀ units, expectedText node ds = some units →
      ∃ identity, answer = some (.ref (.text identity units))) : Expected stands node vs b answer where
  allocated := fun allocates r _ i _ => ordinary allocates i r
  folded := fun ls s l s' literals same folds d answered kind => by
    rcases plainly ls s l s' literals same folds with unbuilt | ⟨builder, free⟩
    · -- a folded call returns the text that its operands determine
      obtain ⟨text, rfl, units⟩ :=
        expectedText_of_callLiteral (denotes_of_mapM described unbuilt literals) folds
      obtain ⟨identity, told⟩ := faithful _ units
      cases answered.symm.trans told
      exact .plain (.string text identity)
    · cases l with
      | builder i =>
        -- a method that returns a builder returns a reference
        have reference : d.kind = .reference :=
          Option.some.inj (kind.symm.trans (resultKind_of_builder folds))
        cases d with
        | ref r => exact .builder (free i r)
        | _ => cases reference
      | _ => cases builder

/-- The results of calls, with a return type that the descriptor names without ambiguity. -/
theorem call_describes {insn : Insn} {d : MethodDescriptor}
    (expected : Expected stands insn.node vs s.buffers answer)
    (returns : Transfer.resultKind insn.node = Kind.ofDescriptor d.returnType)
    (run : Transfer.call insn vs s = (o, s')) :
    ResultDescribes stands insn.node answer o (.ask (callReply d)) := by
  obtain ⟨s₁, s₂, literal, same, -, folds, result⟩ := call_eq run
  rw [returns] at result
  cases kind : Kind.ofDescriptor d.returnType with
  | none =>
    rw [kind] at result
    obtain rfl := result
    rw [callReply, kind]
    exact resultDescribes_nothing
  | some k =>
    rw [kind] at result
    obtain ⟨v, rfl, hkind, hliteral⟩ := result
    rw [callReply, kind]
    intro e pushed
    obtain ⟨e, rfl, rfl, sameKind⟩ := pushed_value pushed
    refine .some (Value.describes_of_means (hkind.trans sameKind.symm) fun l known => ?_)
    obtain rfl : literal = some l := hliteral.symm.trans known
    cases literals : vs.mapM Value.literal with
    | none =>
      rw [literals] at folds
      cases folds.1
    | some ls =>
      rw [literals] at folds
      exact expected.folded ls s₁ l s₂ literals same folds e rfl
        (returns.trans (kind.trans (congrArg some sameKind.symm)))

/-- A loaded constant is described. -/
theorem constant_describes {id : InsnId} {c : Constant} (acts : constantAction c = some act)
    (run : resultOf ⟨id, .constant c⟩ [] s = (o, s')) :
    ResultDescribes stands (.constant c) answer o act := by
  cases run
  cases known : ofConstant c with
  | some d =>
    simp only [constantAction, known] at acts
    cases acts
    exact .some (describes_ofConstant known rfl rfl)
  | none =>
    simp only [constantAction, known] at acts
    cases c with
    | dynamic name descriptor bootstrap arguments =>
      obtain ⟨kind, known, rfl⟩ := Option.map_eq_some_iff.mp acts
      exact resultDescribes_value (ofText_of_kindOf known) rfl
    | methodType | handle =>
      cases acts
      exact resultDescribes_value rfl rfl
    | _ => cases known

/-- Jumps push nothing, and go to targets of theirs. -/
theorem jump_describes {insn : Insn} {op : Opcode} {target : LabelId} (described : DescribeAll stands vs ds)
    (node : insn.node = .jump op target) (kinds : jumpOperands op = some (ds.map Datum.kind))
    (acts : action insn.node ds = some act) (run : resultOf insn vs s = (o, s')) :
    ResultDescribes stands insn.node answer o act := by
  obtain ⟨id, _⟩ := insn
  subst node
  have nothing : o = none := by
    unfold jumpOperands at kinds
    split at kinds
    · obtain ⟨rfl, rfl⟩ := described.none kinds
      cases run
      rfl
    · obtain ⟨rfl, rfl⟩ := described.none kinds
      cases run
      rfl
    · split at kinds <;>
        obtain ⟨v, w, d, e, rfl, rfl, -, -⟩ := described.two kinds <;>
        exact binary_eq_none (i := ⟨id, .jump op target⟩) run fun _ other => nomatch other
    · split at kinds <;>
        obtain ⟨v, d, rfl, rfl, -, -⟩ := described.one kinds <;>
        exact unary_eq (i := ⟨id, .jump op target⟩) run
    · cases kinds
    · cases kinds
  subst nothing
  obtain ⟨taken, -, rfl⟩ := Option.map_eq_some_iff.mp acts
  cases taken with
  | true => exact ⟨rfl, List.mem_singleton.mpr rfl⟩
  | false => exact .none

theorem tableTarget_mem {low high v : Int32} {default : LabelId} {targets : List LabelId} :
    tableTarget low high default targets v ∈ default :: targets := by
  unfold tableTarget
  split
  · cases found : targets[(v.toInt - low.toInt).toNat]? with
    | none => exact List.mem_cons_self
    | some target => exact List.mem_cons_of_mem _ (List.mem_of_getElem? found)
  · exact List.mem_cons_self

theorem lookupTarget_mem {v : Int32} {default : LabelId} {keys : List Int32} {targets : List LabelId} :
    lookupTarget default keys targets v ∈ default :: targets := by
  unfold lookupTarget
  cases found : (keys.zip targets).lookup v with
  | none => exact List.mem_cons_self
  | some target =>
    obtain ⟨before, after, pairs, -⟩ := List.lookup_eq_some_iff.mp found
    have member : (v, target) ∈ keys.zip targets := pairs ▸ by simp
    exact List.mem_cons_of_mem _ (List.of_mem_zip member).2

end

/-- The text of the descriptor of a call. -/
def callDescriptor? : Node → Option String
  | .call _ _ _ descriptor _ | .dynamicCall _ descriptor _ _ => some descriptor
  | _ => none

/-- The name of the class that a call returns contains no closing parenthesis. -/
def PlainReturn (node : Node) : Prop :=
  ∀ text d, callDescriptor? node = some text → MethodDescriptor.parse text = .ok d →
    ')' ∉ d.returnType.chars

/-- What an instruction pushes is described if its operands are and it is answered as expected. -/
theorem resultOf_describes {insn : Insn} {s s' : Store} {o : Option Value} {vs : List Value}
    {ds : List Datum} {act : Action} {answer : Option Datum}
    (plain : PlainReturn insn.node) (expected : Expected stands insn.node vs s.buffers answer)
    (described : DescribeAll stands vs ds)
    (kinds : operands insn.node = some (ds.map Datum.kind)) (acts : action insn.node ds = some act)
    (run : resultOf insn vs s = (o, s')) : ResultDescribes stands insn.node answer o act := by
  obtain ⟨id, node⟩ := insn
  cases node with
  | simple op => exact operation_describes described kinds acts run
  | int op operand =>
    simp only [operands] at kinds
    by_cases array : op = Opcode.newarray
    · rw [if_pos array] at kinds
      obtain ⟨v, d, rfl, rfl, -, -⟩ := described.one kinds
      have result := unary_eq (i := ⟨id, .int op operand⟩) run
      simp only [action, if_pos array, Option.some.injEq] at acts
      simp only [Transfer.unaryKind, if_pos array] at result
      obtain ⟨w, rfl, hkind, literal⟩ := result
      subst acts
      exact resultDescribes_value hkind (literal.trans (by cases v.literal <;> rfl))
    · rw [if_neg array] at kinds
      split at kinds
      · obtain ⟨rfl, rfl⟩ := described.none kinds
        simp only [action, if_neg array, Option.some.injEq] at acts
        subst acts
        cases run
        refine .some (Value.describes_of_means rfl fun l known => ?_)
        cases known
        exact .plain (.int _)
      · cases kinds
  | var | increment => cases kinds
  | type op name =>
    exact type_describes expected described kinds acts run
  | field op owner name descriptor =>
    obtain ⟨kind, known, kinds⟩ := Option.bind_eq_some_iff.mp kinds
    obtain ⟨kind', known', rfl⟩ := Option.map_eq_some_iff.mp acts
    obtain rfl : kind = kind' := Option.some.inj (known.symm.trans known')
    exact field_describes known described kinds run
  | call op owner name descriptor isInterface =>
    obtain ⟨d, parsed, rfl⟩ := Option.map_eq_some_iff.mp acts
    have parsed := toOption_eq_some.mp parsed
    exact call_describes expected
      (Transfer.resultKind_of_parse parsed (plain descriptor d rfl parsed)) run
  | dynamicCall name descriptor bootstrap arguments =>
    obtain ⟨d, parsed, rfl⟩ := Option.map_eq_some_iff.mp acts
    have parsed := toOption_eq_some.mp parsed
    exact call_describes expected
      (Transfer.resultKind_of_parse parsed (plain descriptor d rfl parsed)) run
  | jump op target => exact jump_describes described rfl kinds acts run
  | tableSwitch low high default targets =>
    obtain ⟨v, d, rfl, rfl, -, -⟩ := described.one kinds
    obtain rfl := unary_eq (i := ⟨id, .tableSwitch low high default targets⟩) run
    cases d <;> cases acts
    exact ⟨rfl, tableTarget_mem⟩
  | lookupSwitch default keys targets =>
    obtain ⟨v, d, rfl, rfl, -, -⟩ := described.one kinds
    obtain rfl := unary_eq (i := ⟨id, .lookupSwitch default keys targets⟩) run
    cases d <;> cases acts
    exact ⟨rfl, lookupTarget_mem⟩
  | label | line =>
    obtain ⟨rfl, rfl⟩ := described.none kinds
    cases acts
    cases run
    exact .none
  | constant value =>
    obtain ⟨rfl, rfl⟩ := described.none kinds
    exact constant_describes acts run
  | newArrays descriptor dimensions =>
    cases acts
    obtain ⟨s₁, s₂, literal, -, -, folds, result⟩ :=
      call_eq (i := ⟨id, .newArrays descriptor dimensions⟩) run
    obtain ⟨w, rfl, hkind, hliteral⟩ := result
    refine resultDescribes_value hkind (hliteral.trans ?_)
    split at folds
    · cases folds
      rfl
    · exact folds.1

end Bytecode.Analysis
