import Bytecode.Proofs.Analysis.Phases
import Bytecode.Proofs.Descriptors
import Bytecode.Proofs.Machine.Effect

/-!
# The simulation of one instruction

Most instructions take as many values from the abstract stack as the reference machine takes data,
and push at most one: `execute_eq_apply` brings their simulation into that one form, with
`resultOf` for what is pushed. The others access a local variable or rearrange the stack, and keep
the form that they have.

Everything that later modules say about a simulated instruction goes through these forms, and
through the laws of the single steps on a frame at the end of this module.
-/

namespace Bytecode.Analysis

open Machine (operands operationOperands)

/-! ## The common form -/

/-- The nodes without operands that push a value. -/
def pushes : Node → Bool
  | .simple op =>
    match Operation.ofOpcode op with
    | .null | .constant _ => true
    | _ => false
  | .int .. | .constant _ | .field .. | .type .. => true
  | _ => false

/-- Whether an operation puts a value on the stack that it does not compute from others. -/
def pushesValue : Operation → Bool
  | .null | .constant _ => true
  | _ => false

/-- The kind of what an operation makes of one value. -/
def unaryResult : Operation → Option Kind
  | .unary u => some u.kind
  | .arrayLength => some .int
  | _ => none

/-- The literal that an operation makes of one literal. -/
def unaryFold (l : Literal) : Operation → Option Literal
  | .unary u => Fold.unary u l
  | _ => none

/-- What a call puts on the stack. -/
def returned (insn : Insn) (literal : Option Literal) : StoreM (Option Value) :=
  match Transfer.resultKind insn.node with
  | none => return none
  | some kind => some <$> Transfer.produce insn.id kind literal

/-- What an instruction makes of the values that it takes, the lowest first. -/
def resultOf (insn : Insn) (taken : List Value) : StoreM (Option Value) :=
  match insn.node with
  | .call .. | .dynamicCall .. | .newArrays .. => Transfer.call insn taken
  | node =>
    match taken with
    | [] => if pushes node then some <$> Transfer.push insn else return none
    | [v] => Transfer.unary insn v
    | [v, w] => Transfer.binary insn v w
    | taken => do
      taken.forM (Store.consume insn.id)
      return none

/-- Takes values from the stack and pushes what an instruction makes of them. -/
def Frame.apply (f : Frame) (insn : Insn) (count : Nat) : Step Frame := do
  let (taken, f) ← f.popMany count
  f.push? (← resultOf insn taken)

/-- A computation has the result that it is known to have. -/
theorem toOption_eq_some {ε α : Type} {x : Except ε α} {a : α} :
    x.toOption = some a ↔ x = .ok a := by
  cases x <;> simp [Except.toOption]

/-- A parsed descriptor tells the number of arguments. -/
theorem argumentCount_of_parse {text : String} {d : MethodDescriptor}
    (h : (MethodDescriptor.parse text).toOption = some d) :
    Frame.argumentCount text = .ok d.arguments.length := by
  rw [Frame.argumentCount, toOption_eq_some.mp h]

/-- Every argument has a kind. -/
theorem length_argumentKinds {text : String} {d : MethodDescriptor}
    (h : MethodDescriptor.parse text = .ok d) :
    (Machine.argumentKinds d).length = d.arguments.length := by
  have kinds : ∀ types : List Descriptor, (∀ type ∈ types, (Kind.ofDescriptor type).isSome) →
      (types.filterMap Kind.ofDescriptor).length = types.length := by
    intro types every
    induction types with
    | nil => rfl
    | cons type types ih =>
      obtain ⟨first, rest⟩ := List.forall_mem_cons.mp every
      obtain ⟨kind, known⟩ := Option.isSome_iff_exists.mp first
      rw [List.filterMap_cons_some known, List.length_cons, ih rest, List.length_cons]
  exact kinds _ fun _ member => MethodDescriptor.kind_of_argument h member

/-- A lifted success changes nothing. -/
@[simp]
theorem liftM_ok {α : Type} (a : α) : (liftM (Except.ok a : Except FlowError α) : Step α) = pure a :=
  rfl

/-- A lifted failure fails. -/
@[simp]
theorem liftM_error {α : Type} (e : FlowError) :
    (liftM (Except.error e : Except FlowError α) : Step α) = throw e :=
  rfl

@[simp]
theorem throw_bind {α β : Type} (e : FlowError) (f : α → Step β) : (throw e >>= f) = throw e :=
  rfl

/-- A lifted computation that returns a constant changes nothing. -/
@[simp]
theorem liftM_pure {α : Type} (a : α) : (liftM (pure a : StoreM α) : Step α) = pure a :=
  rfl

namespace Frame

variable {f : Frame} {insn : Insn} {body : Body} {index : Nat} {kinds : List Kind}

/-- Nothing is taken and nothing is pushed. -/
theorem apply_idle (h : resultOf insn [] = return none) : f.apply insn 0 = return f := by
  simp [apply, popMany, h, push?]

/-- Nothing is taken and a value is pushed. -/
theorem apply_push (h : resultOf insn [] = some <$> Transfer.push insn) :
    f.apply insn 0 = (do f.push (← Transfer.push insn)) := by
  simp only [apply, popMany, Nat.not_lt_zero, if_false, List.take_zero, List.reverse_nil,
    List.drop_zero, liftM_ok, pure_bind, h]
  rfl

theorem apply_unary (h : ∀ v, resultOf insn [v] = Transfer.unary insn v) :
    f.apply insn 1 = f.applyUnary insn := by
  obtain ⟨locals, stack, limit⟩ := f
  cases stack with
  | nil => rfl
  | cons v rest => simp [applyUnary, apply, pop, popMany, h]

theorem apply_discard (h : ∀ v, resultOf insn [v] = Transfer.unary insn v)
    (consumer : Transfer.unaryKind insn.node = none) : f.apply insn 1 = f.discard insn := by
  rw [apply_unary h]
  obtain ⟨locals, stack, limit⟩ := f
  cases stack with
  | nil => rfl
  | cons v rest =>
    simp only [applyUnary, discard, pop, Transfer.unary, consumer, liftM_ok, pure_bind]
    rfl

theorem apply_binary (h : ∀ v w, resultOf insn [v, w] = Transfer.binary insn v w) :
    f.apply insn 2 = f.applyBinary insn := by
  obtain ⟨locals, stack, limit⟩ := f
  rcases stack with _ | ⟨w, _ | ⟨v, rest⟩⟩
  · rfl
  · rfl
  · have enough : ¬rest.length + 1 + 1 < 2 := by omega
    simp [applyBinary, apply, pop, popMany, h, enough]

theorem apply_call (h : ∀ taken, resultOf insn taken = Transfer.call insn taken) (count : Nat) :
    f.apply insn count = f.applyCall insn count := by
  simp only [apply, applyCall, h]

/-- An array store takes three values. -/
theorem apply_store (h : ∀ u v w, resultOf insn [u, v, w] = do
      [u, v, w].forM (Store.consume insn.id)
      return none) :
    f.apply insn 3 = (do
      let (value, f) ← f.pop
      let (position, f) ← f.pop
      let (array, f) ← f.pop
      [array, position, value].forM fun v => Step.lift (Store.consume insn.id v)
      return f) := by
  obtain ⟨locals, stack, limit⟩ := f
  rcases stack with _ | ⟨w, _ | ⟨v, _ | ⟨u, rest⟩⟩⟩
  · rfl
  · rfl
  · rfl
  · have enough : ¬rest.length + 1 + 1 + 1 < 3 := by omega
    simp [apply, pop, popMany, h, enough]
    rfl

/-- The simulation of an operation that takes operands of fixed kinds has the common form. -/
theorem executeSimple_eq_apply {id : InsnId} {op : Opcode}
    (h : operationOperands (Operation.ofOpcode op) = some kinds) :
    f.executeSimple body index ⟨id, .simple op⟩ op = f.apply ⟨id, .simple op⟩ kinds.length := by
  have unary (v : Value) :
      resultOf ⟨id, .simple op⟩ [v] = Transfer.unary ⟨id, .simple op⟩ v := rfl
  have binary (v w : Value) :
      resultOf ⟨id, .simple op⟩ [v, w] = Transfer.binary ⟨id, .simple op⟩ v w := rfl
  have kindOf : Transfer.unaryKind (.simple op) = unaryResult (Operation.ofOpcode op) := rfl
  unfold executeSimple
  cases operation : Operation.ofOpcode op <;> rw [operation] at h kindOf
  case nop =>
    cases h
    exact (apply_idle (by simp [resultOf, pushes, operation])).symm
  case null | constant =>
    cases h
    exact (apply_push (by simp [resultOf, pushes, operation])).symm
  case arrayLoad | binary =>
    cases h
    exact (apply_binary binary).symm
  case arrayStore =>
    cases h
    exact (apply_store fun _ _ _ => rfl).symm
  case unary | arrayLength =>
    cases h
    exact (apply_unary unary).symm
  case throw | monitor =>
    cases h
    exact (apply_discard unary kindOf).symm
  case leave value =>
    cases value <;> cases h
    · exact (apply_idle (by simp [resultOf, pushes, operation])).symm
    · exact (apply_discard unary kindOf).symm
  all_goals cases h

/-- The simulation of an instruction that takes operands of fixed kinds has the common form. -/
theorem execute_eq_apply (h : operands insn.node = some kinds) :
    f.execute body index insn = f.apply insn kinds.length := by
  obtain ⟨id, node⟩ := insn
  cases node with
  | simple op => exact executeSimple_eq_apply h
  | int op operand =>
    simp only [operands] at h
    unfold execute
    by_cases array : op = Opcode.newarray
    · rw [if_pos array] at h
      cases h
      simp only [if_pos array]
      exact (apply_unary fun _ => rfl).symm
    · rw [if_neg array] at h
      simp only [if_neg array]
      split at h
      · cases h
        exact (apply_push rfl).symm
      · cases h
  | var | increment => cases h
  | type op name =>
    simp only [operands, Machine.typeOperands] at h
    split at h <;> cases h
    · exact (apply_push rfl).symm
    all_goals exact (apply_unary fun _ => rfl).symm
  | field op owner name descriptor =>
    obtain ⟨kind, -, h⟩ := Option.bind_eq_some_iff.mp h
    simp only [Machine.fieldOperands] at h
    split at h <;> cases h
    · exact (apply_push rfl).symm
    · exact (apply_discard (fun _ => rfl) rfl).symm
    · exact (apply_unary fun _ => rfl).symm
    · exact (apply_binary fun _ _ => rfl).symm
  | call op owner name descriptor isInterface =>
    obtain ⟨d, parsed, h⟩ := Option.bind_eq_some_iff.mp h
    have count : argumentCount descriptor = .ok d.arguments.length := argumentCount_of_parse parsed
    simp only [execute, count, liftM_ok, pure_bind]
    have common (taken : List Value) : resultOf ⟨id, .call op owner name descriptor isInterface⟩ taken =
        Transfer.call ⟨id, .call op owner name descriptor isInterface⟩ taken := rfl
    simp only [Machine.callOperands] at h
    split at h <;> cases h <;>
      simp only [List.length_cons, length_argumentKinds (toOption_eq_some.mp parsed)] <;>
      exact (apply_call common _).symm
  | dynamicCall name descriptor bootstrap arguments =>
    obtain ⟨d, parsed, rfl⟩ := Option.map_eq_some_iff.mp h
    have count : argumentCount descriptor = .ok d.arguments.length := argumentCount_of_parse parsed
    simp only [execute, count, liftM_ok, pure_bind,
      length_argumentKinds (toOption_eq_some.mp parsed)]
    exact (apply_call (fun _ => rfl) _).symm
  | jump op target =>
    have unary (v : Value) : resultOf ⟨id, .jump op target⟩ [v] =
        Transfer.unary ⟨id, .jump op target⟩ v := rfl
    have binary (v w : Value) : resultOf ⟨id, .jump op target⟩ [v, w] =
        Transfer.binary ⟨id, .jump op target⟩ v w := rfl
    simp only [operands, Machine.jumpOperands] at h
    simp only [execute]
    cases form : JumpForm.ofOpcode op <;> rw [form] at h
    case always | alwaysWide =>
      cases h
      exact (apply_idle rfl).symm
    case compare =>
      obtain rfl := Option.some.inj h
      show f.applyBinary _ = _
      split <;> exact (apply_binary binary).symm
    case test =>
      obtain rfl := Option.some.inj h
      show f.discard _ = _
      split <;> exact (apply_discard unary rfl).symm
    all_goals cases h
  | tableSwitch | lookupSwitch =>
    cases h
    exact (apply_discard (fun _ => rfl) rfl).symm
  | label | line =>
    cases h
    exact (apply_idle rfl).symm
  | constant value =>
    cases h
    exact (apply_push rfl).symm
  | newArrays descriptor dimensions =>
    cases h
    rw [List.length_replicate]
    exact (apply_call (fun _ => rfl) _).symm

end Frame

/-! ## Steps on a frame -/

namespace Frame

variable {f g : Frame} {v : Value}

/-- A pushed value lies on top, and nothing else changes. -/
theorem push_eq_ok (h : f.push v = .ok g) : g = { f with stack := v :: f.stack } := by
  unfold push at h
  split at h
  · split at h
    · cases h
    · exact (Except.ok.inj h).symm
  · exact (Except.ok.inj h).symm

/-- A value that may be missing is pushed if it is there. -/
theorem push?_eq_ok {o : Option Value} (h : f.push? o = .ok g) :
    g = { f with stack := o.toList ++ f.stack } := by
  cases o with
  | none => exact (Except.ok.inj h).symm
  | some v => exact push_eq_ok h

theorem pop_eq_ok (h : f.pop = .ok (v, g)) :
    f.stack = v :: g.stack ∧ g = { f with stack := g.stack } := by
  unfold pop at h
  split at h
  · cases h
  · next stack =>
    cases h
    exact ⟨stack, rfl⟩

theorem popMany_eq_ok {count : Nat} {taken : List Value} (h : f.popMany count = .ok (taken, g)) :
    count ≤ f.stack.length ∧ taken = (f.stack.take count).reverse ∧
      g = { f with stack := f.stack.drop count } := by
  unfold popMany at h
  split at h
  · cases h
  · next enough =>
    cases h
    exact ⟨Nat.not_lt.mp enough, rfl, rfl⟩

/-- The common form takes values from the stack and pushes the result. -/
theorem apply_eq_ok {insn : Insn} {count : Nat} {s s' : Store}
    (h : f.apply insn count s = .ok (g, s')) :
    count ≤ f.stack.length ∧ ∃ o, resultOf insn (f.stack.take count).reverse s = (o, s') ∧
      g = { f with stack := o.toList ++ f.stack.drop count } := by
  obtain ⟨⟨taken, below⟩, s₁, taking, h⟩ := Step.bind_eq_ok h
  obtain ⟨popped, rfl⟩ := Step.liftExcept_eq_ok taking
  obtain ⟨enough, rfl, rfl⟩ := popMany_eq_ok popped
  obtain ⟨o, s₂, result, h⟩ := Step.bind_eq_ok h
  obtain ⟨pushed, rfl⟩ := Step.liftExcept_eq_ok h
  exact ⟨enough, o, Step.lift_eq_ok result, push?_eq_ok pushed⟩

theorem getLocal_eq_ok {slot : Nat} (h : f.getLocal slot = .ok v) : f.locals[slot]? = some v := by
  unfold getLocal at h
  split at h
  · next found =>
    cases h
    exact found
  · cases h

theorem setLocal_eq_ok {slot : Nat} (h : f.setLocal slot v = .ok g) :
    slot < f.locals.length ∧ g = { f with locals := f.locals.set slot v } := by
  unfold setLocal at h
  split at h
  · next inside => exact ⟨inside, (Except.ok.inj h).symm⟩
  · cases h

end Frame

end Bytecode.Analysis
