import Bytecode.Proofs.Analysis.Simulation
import Bytecode.Proofs.Machine.Tokens

/-!
# A simulated instruction moves values as it moves tokens

`execute_moves` says once what the simulation of an instruction does to a frame, in the words in which
the paths of `Tokens` move: the stack and the local variables behind the instruction are those before
it except for what `Movement.exchange` and `Movement.change` say, every made value has the instruction
as its only source, and the instruction is noted as a consumer of its operands.

What it means to be noted, and which values an analysis can hold at all, is left to a `Bookkeeping`:
it is stated for any phases, and what does not depend on phases is read off at the trivial one.
-/

namespace Bytecode.Analysis

open Tokens

/-! ## What becomes of a frame -/

namespace Frame

/-- The kind of the value in a local variable. -/
def slotKind (f : Frame) (k : Nat) : Option Kind :=
  f.locals[k]?.map Value.kind

/-- The kinds of the stack. -/
def kinds (f : Frame) : List Kind :=
  f.stack.map Value.kind

/-- The value in a cell. -/
def cell? (f : Frame) : Cell → Option Value
  | .slot k => f.locals[k]?
  | .entry depth => f.stack[depth]?

end Frame

/-- A value that an instruction makes. -/
def Value.MadeBy (id : InsnId) (kind : Kind) (v : Value) : Prop :=
  v.kind = kind ∧ v.sources = [id]

/-- A value on the stack behind an instruction is one of the stack before it, or a new one. -/
def Comes (stack : List Value) (id : InsnId) : Origin → Value → Prop
  | .kept depth, v => stack[depth]? = some v
  | .made kind, v => v.MadeBy id kind

/-- What a local variable holds behind an instruction. -/
def Remains (before : Option Value) (id : InsnId) (v : Value) : Change → Prop
  | .kept => before = some v
  | .emptied => v.kind = .uninitialized
  | .filled kind => v.MadeBy id kind

/-- The frame behind an instruction, and what was noted on the way. -/
structure Moves (used : Value → Prop) (insn : Insn) (f g : Frame) (m : Movement) (x : Exchange) :
    Prop where
  movement : movement? insn.node = some m
  exchange : m.exchange f.slotKind f.kinds = some x
  stack : ∃ values, List.Forall₂ (Comes f.stack insn.id) x.pushed values ∧
    g.stack = values ++ f.stack.drop x.taken
  width : g.locals.length = f.locals.length
  locals : ∀ k v, g.locals[k]? = some v → Remains f.locals[k]? insn.id v (m.change f.slotKind f.kinds k)
  filled : ∀ k kind, m.change f.slotKind f.kinds k = .filled kind → k < f.locals.length
  operands : ∀ cell ∈ m.operands x, ∃ v, f.cell? cell = some v ∧ used v

/-! ## Bookkeeping -/

/-- What an analysis notes about values: a new value is good, and after a good value was consumed it is
noted as used. Computations that only touch buffers do not matter. -/
structure Bookkeeping {ω : Type} (P : Phases ω) (used : ω → InsnId → Value → Prop) : Prop where
  make : ∀ w kind sources literal, P.Ensures w (Store.make kind sources literal) fun w' v =>
    P.good w' v ∧ v.kind = kind ∧ v.sources = sources
  consume : ∀ w id v, P.good w v → P.Ensures w (Store.consume id v) fun w' _ => used w' id v
  silent : ∀ {α : Type} (w) (x : StoreM α), (∀ s, (x s).2.usages = s.usages) →
    P.Ensures w x fun _ _ => True
  mono : ∀ {w w' id v}, used w id v → P.good w v → P.later w w' → used w' id v

/-- The trivial phases, in which nothing is noted. -/
def anyPhase : Phases Unit where
  of := fun _ _ => True
  later := fun _ _ => True
  good := fun _ _ => True
  refl := fun _ => trivial
  trans := fun _ _ => trivial
  mono := fun _ _ => trivial

theorem anyPhase_bookkeeping : Bookkeeping anyPhase fun _ _ _ => True where
  make := fun _ _ _ _ _ _ => ⟨(), trivial, trivial, trivial, rfl, rfl⟩
  consume := fun _ _ _ _ _ _ => ⟨(), trivial, trivial, trivial⟩
  silent := fun _ _ _ _ _ => ⟨(), trivial, trivial, trivial⟩
  mono := fun _ _ _ => trivial

/-! ## Shuffles -/

/-- A moved value is the entry at its origin, or a copy is made of an entry of the kind. -/
def Moved.From (stack : List Value) : Origin → Moved → Prop
  | .kept depth, .kept v => stack[depth]? = some v
  | .made kind, .duplicate v => v.kind = kind
  | _, _ => False

theorem Value.size_of_wide {v : Value} (h : v.isWide = true) : v.kind.size = 2 := by
  simpa [Value.isWide, Kind.isWide] using h

theorem Value.size_of_narrow {v : Value} (h : ¬v.isWide = true) : v.kind.size = 1 := by
  cases hk : v.kind <;> simp_all [Value.isWide, Kind.isWide, Kind.size]

/-- A shuffle plans what it does to the kinds of the stack. -/
theorem plan_exchange {form : Bytecode.Shuffle} {stack rest : List Value} {moved : List Moved}
    (h : Shuffle.plan form stack = .ok (rest, moved)) :
    ∃ x, shuffleExchange form (stack.map Value.kind) = some x ∧ rest = stack.drop x.taken ∧
      List.Forall₂ (Moved.From stack) x.pushed moved.reverse ∧ x.read ≤ stack.length ∧
      ∀ v ∈ stack.take x.read, Moved.duplicate v ∈ moved := by
  unfold Shuffle.plan at h
  repeat' split at h
  all_goals cases h
  all_goals
    simp_all [shuffleExchange, shuffledWords, cut, copies, keep, Value.size_of_wide,
      Value.size_of_narrow, Moved.From, List.range_succ]

/-! ## Instructions that take operands -/

/-- The kind of what an operation makes of two values. -/
def binaryResult : Operation → Option Kind
  | .binary b => some b.kind
  | .arrayLoad kind => some kind
  | _ => none

/-- The kind of what an instruction makes of two values. -/
def binaryKind : Node → Option Kind
  | .simple op =>
    match Operation.ofOpcode op with
    | .binary b => some b.kind
    | .arrayLoad kind => some kind
    | _ => none
  | _ => none

theorem kind_ofConstant (c : Constant) : (Literal.ofConstant c).1 = constantKind c := by
  cases c <;> rfl

namespace Frame

variable {f : Frame} {body : Body} {index : Nat} {insn : Insn} {count : Nat} {result : Option Kind}

/-- The simulation of an operation that only takes operands has the common form. -/
theorem executeSimple_eq_apply_of_movement {id : InsnId} {op : Opcode}
    (h : operationMovement (.ofOpcode op) = some (.operate count result)) :
    f.executeSimple body index ⟨id, .simple op⟩ op = f.apply ⟨id, .simple op⟩ count := by
  obtain ⟨kinds, known, rfl⟩ :
      ∃ kinds, Machine.operationOperands (.ofOpcode op) = some kinds ∧ kinds.length = count := by
    cases operation : Operation.ofOpcode op with
    | leave value =>
      rw [operation] at h
      cases value <;> cases h <;> exact ⟨_, rfl, rfl⟩
    | _ =>
      rw [operation] at h
      cases h <;> exact ⟨_, rfl, rfl⟩
  exact executeSimple_eq_apply known

/-- The simulation of an instruction that only takes operands has the common form. -/
theorem execute_eq_apply_of_movement (h : movement? insn.node = some (.operate count result)) :
    f.execute body index insn = f.apply insn count := by
  obtain ⟨id, node⟩ := insn
  have counted {text : String} {receivers : Nat}
      (h : callMovement receivers text = some (.operate count result)) :
      ∃ arguments, argumentCount text = .ok arguments ∧ arguments + receivers = count := by
    obtain ⟨d, parsed, same⟩ := Option.map_eq_some_iff.mp h
    cases same
    exact ⟨_, argumentCount_of_parse parsed, rfl⟩
  cases node with
  | simple op => exact executeSimple_eq_apply_of_movement h
  | label | line =>
    cases h
    exact (apply_idle rfl).symm
  | constant value =>
    cases h
    exact (apply_push rfl).symm
  | int op operand =>
    simp only [movement?] at h
    simp only [execute]
    split at h <;> cases h
    · next array =>
      rw [if_pos array]
      exact (apply_unary fun _ => rfl).symm
    · next other =>
      rw [if_neg other]
      exact (apply_push rfl).symm
  | type op name =>
    simp only [movement?, typeMovement] at h
    simp only [execute]
    split at h
    · next new =>
      cases h
      rw [if_pos new]
      exact (apply_push rfl).symm
    · next other =>
      rw [if_neg other]
      obtain rfl : count = 1 := by
        repeat' split at h
        all_goals cases h; rfl
      exact (apply_unary fun _ => rfl).symm
  | field op owner name descriptor =>
    simp only [movement?, fieldMovement, Option.some.injEq] at h
    simp only [execute]
    split at h
    · next get =>
      cases h
      rw [if_pos get]
      exact (apply_push rfl).symm
    · next notGet =>
      rw [if_neg notGet]
      split at h
      · next put =>
        cases h
        rw [if_pos put]
        refine (apply_discard (fun _ => rfl) ?_).symm
        rw [put]
        rfl
      · next notPut =>
        rw [if_neg notPut]
        split at h
        · next getField =>
          cases h
          rw [if_pos getField]
          exact (apply_unary fun _ => rfl).symm
        · next other =>
          cases h
          rw [if_neg other]
          exact (apply_binary fun _ _ => rfl).symm
  | jump op target =>
    simp only [movement?] at h
    simp only [execute]
    cases form : JumpForm.ofOpcode op <;> rw [form] at h <;> cases h
    · exact (apply_idle rfl).symm
    · exact (apply_idle rfl).symm
    · exact (apply_binary fun _ _ => rfl).symm
    · exact (apply_discard (fun _ => rfl) rfl).symm
    · exact (apply_discard (fun _ => rfl) rfl).symm
  | tableSwitch | lookupSwitch =>
    cases h
    exact (apply_discard (fun _ => rfl) rfl).symm
  | call op owner name descriptor isInterface =>
    obtain ⟨arguments, known, rfl⟩ := counted h
    simp only [execute, known, liftM_ok, pure_bind]
    exact (apply_call (fun _ => rfl) _).symm
  | dynamicCall name descriptor bootstrap arguments =>
    obtain ⟨arguments, known, rfl⟩ := counted h
    simp only [execute, known, liftM_ok, pure_bind]
    exact (apply_call (fun _ => rfl) _).symm
  | newArrays descriptor dimensions =>
    cases h
    exact (apply_call (fun _ => rfl) _).symm
  | var op slot =>
    simp only [movement?] at h
    cases access : SlotAccess.ofOpcode op <;> rw [access] at h <;> cases h
  | increment => cases h

end Frame

/-! ## Stores -/

/-- A local variable behind a store of a value. -/
def StoredIn (f : Frame) (slot : UInt16) (v : Value) (k : Nat) (u : Value) : Prop :=
  match storeChange f.slotKind v.kind slot k with
  | .kept => f.locals[k]? = some u
  | .emptied => u.kind = .uninitialized
  | .filled _ => u = v

theorem storedIn_iff {f : Frame} {slot : UInt16} {v : Value} {k : Nat} {u : Value} :
    StoredIn f slot v k u ↔ if k = slot.toNat then u = v
      else if k = (slot + 1).toNat ∧ v.isWide = true then u.kind = .uninitialized
      else if k + 1 = slot.toNat ∧ f.locals[k]?.any Value.isWide = true then
        u.kind = .uninitialized
      else f.locals[k]? = some u := by
  have wide : (f.slotKind k).any Kind.isWide = f.locals[k]?.any Value.isWide := by
    rw [Frame.slotKind, Option.any_map]
    rfl
  unfold StoredIn storeChange
  rw [wide]
  show _ ↔ if k = slot.toNat then u = v
      else if k = (slot + 1).toNat ∧ v.kind.isWide = true then u.kind = .uninitialized
      else _
  split_ifs <;> rfl

/-! ## What instructions make -/

/-- How an instruction other than a call makes its result of its operands. -/
inductive Operates (node : Node) : Nat → Option Kind → Prop
  | idle (quiet : pushes node = false) : Operates node 0 none
  | push (kind : Kind) (pushing : pushes node = true) : Operates node 0 (some kind)
  | unary {result : Option Kind} (same : Transfer.unaryKind node = result) : Operates node 1 result
  | binary {result : Option Kind} (same : binaryKind node = result) : Operates node 2 result
  | consume : Operates node 3 none

/-- The nodes that make their result as calls do. -/
def calls : Node → Bool
  | .call .. | .dynamicCall .. | .newArrays .. => true
  | _ => false

/-- The movement of an instruction agrees with the values that are made of its operands. -/
theorem operates_of_movement {node : Node} {count : Nat} {result : Option Kind}
    (h : movement? node = some (.operate count result)) (other : calls node = false) :
    Operates node count result := by
  cases node with
  | simple op =>
    have quiet : pushes (.simple op) = pushesValue (Operation.ofOpcode op) := rfl
    have unary : Transfer.unaryKind (.simple op) = unaryResult (Operation.ofOpcode op) := rfl
    have binary : binaryKind (.simple op) = binaryResult (Operation.ofOpcode op) := rfl
    simp only [movement?] at h
    cases operation : Operation.ofOpcode op <;> rw [operation] at h quiet unary binary
    case leave value =>
      cases value <;> cases h
      · exact .idle quiet
      · exact .unary unary
    case nop =>
      cases h
      exact .idle quiet
    case null | constant =>
      cases h
      exact .push _ quiet
    case arrayLoad | binary =>
      cases h
      exact .binary binary
    case arrayStore =>
      cases h
      exact .consume
    case unary | arrayLength | throw | monitor =>
      cases h
      exact .unary unary
    all_goals cases h
  | label | line =>
    cases h
    exact .idle rfl
  | constant value =>
    cases h
    exact .push _ rfl
  | int op operand =>
    have unary : Transfer.unaryKind (.int op operand) =
      if op = Opcode.newarray then some .reference else none := rfl
    simp only [movement?] at h
    split at h <;> cases h
    · next array => exact .unary (unary.trans (if_pos array))
    · exact .push _ rfl
  | type op name =>
    have unary : Transfer.unaryKind (.type op name) =
      if op = Opcode.anewarray ∨ op = Opcode.checkcast then some .reference
      else if op = Opcode.instanceof then some .int
      else none := rfl
    simp only [movement?, typeMovement] at h
    split at h
    · cases h
      exact .push _ rfl
    · have single : count = 1 ∧ result = Transfer.unaryKind (.type op name) := by
        rw [unary]
        repeat' split at h
        all_goals
          cases h
          simp_all
      obtain ⟨rfl, rfl⟩ := single
      exact .unary rfl
  | field op owner name descriptor =>
    have unary : Transfer.unaryKind (.field op owner name descriptor) =
      if op = Opcode.getfield then some (.ofText descriptor) else none := rfl
    simp only [movement?, fieldMovement, Option.some.injEq] at h
    split at h
    · cases h
      exact .push _ rfl
    · split at h
      · next put =>
        cases h
        exact .unary (unary.trans (if_neg (by rw [put]; decide)))
      · split at h <;> cases h
        · next get => exact .unary (unary.trans (if_pos get))
        · exact .binary rfl
  | jump op target =>
    simp only [movement?] at h
    cases form : JumpForm.ofOpcode op <;> rw [form] at h <;> cases h
    · exact .idle rfl
    · exact .idle rfl
    · exact .binary rfl
    · exact .unary rfl
    · exact .unary rfl
  | tableSwitch | lookupSwitch =>
    cases h
    exact .unary rfl
  | call | dynamicCall | newArrays => cases other
  | var op slot =>
    simp only [movement?] at h
    cases access : SlotAccess.ofOpcode op <;> rw [access] at h <;> cases h
  | increment => cases h

/-- A call with a plain return type makes what its movement tells. -/
theorem resultKind_of_movement {node : Node} {count : Nat} {result : Option Kind}
    (h : movement? node = some (.operate count result)) (call : calls node = true)
    (plain : PlainReturn node) : Transfer.resultKind node = result := by
  have returned {receivers : Nat} {text : String} (described : callDescriptor? node = some text)
      (h : callMovement receivers text = some (.operate count result)) :
      (Descriptor.parse (Transfer.returnText text)).toOption.bind Kind.ofDescriptor = result := by
    obtain ⟨d, parsed, same⟩ := Option.map_eq_some_iff.mp h
    cases same
    have parsed := toOption_eq_some.mp parsed
    exact Transfer.resultKind_of_parse parsed (plain _ d described parsed)
  cases node with
  | call | dynamicCall => exact returned rfl h
  | newArrays =>
    cases h
    rfl
  | _ => cases call

/-- A call of a method of a builder touches buffers only. -/
theorem builderCall_usages (name descriptor : String) (ls : List Literal) (s : Store) :
    (Transfer.builderCall name descriptor ls s).2.usages = s.usages := by
  unfold Transfer.builderCall
  split
  · next i rest =>
    simp only [bind, StateT.bind, get, getThe, MonadStateOf.get, StateT.get, pure]
    split
    · split
      · cases rest.head?.bind (·.render s.buffers) <;> rfl
      · rfl
    · rfl
    · cases rest.head?.bind (Transfer.appendedText s.buffers descriptor) <;> rfl
    · rfl
  · rfl

/-- A literal of a call touches buffers only. -/
theorem callLiteral_usages (node : Node) (ls : List Literal) (s : Store) :
    (Transfer.callLiteral node ls s).2.usages = s.usages := by
  unfold Transfer.callLiteral
  simp only [bind, StateT.bind, get, getThe, MonadStateOf.get, StateT.get, pure]
  repeat' split
  all_goals first | rfl | exact builderCall_usages _ _ _ _

/-- What an instruction other than a call makes depends on the number of its operands. -/
theorem resultOf_of_not_calls {insn : Insn} (other : calls insn.node = false) (taken : List Value) :
    resultOf insn taken = match taken with
      | [] => if pushes insn.node then some <$> Transfer.push insn else return none
      | [v] => Transfer.unary insn v
      | [v, w] => Transfer.binary insn v w
      | taken => do
        taken.forM (Store.consume insn.id)
        return none := by
  obtain ⟨id, node⟩ := insn
  cases node <;> first | rfl | cases other

theorem resultOf_of_calls {insn : Insn} (call : calls insn.node = true) (taken : List Value) :
    resultOf insn taken = Transfer.call insn taken := by
  obtain ⟨id, node⟩ := insn
  cases node <;> first | rfl | cases call

section

variable {ω : Type} {P : Phases ω} {used : ω → InsnId → Value → Prop} {w : ω} {insn : Insn}
  {body : Body} {index : Nat}

/-- A value that an instruction makes, good from then on. -/
def Makes (P : Phases ω) (id : InsnId) (w : ω) (kind : Kind) (v : Value) : Prop :=
  P.good w v ∧ v.MadeBy id kind

/-- The result of an instruction in a phase: its operands are used, and it makes at most one value, of
the kind that its movement tells. -/
def Results (P : Phases ω) (used : ω → InsnId → Value → Prop) (id : InsnId) (taken : List Value)
    (result : Option Kind) (w : ω) (o : Option Value) : Prop :=
  (∀ v ∈ taken, used w id v) ∧ Option.Rel (Makes P id w) result o

variable (keeps : Bookkeeping P used)

include keeps

theorem produce_makes (id : InsnId) (kind : Kind) (literal : Option Literal) :
    P.Ensures w (Transfer.produce id kind literal) fun w' v => Makes P id w' kind v :=
  keeps.make w kind [id] literal

/-- The value that an instruction makes last. -/
theorem some_produce_makes (id : InsnId) (kind : Kind) (literal : Option Literal) :
    P.Ensures w (some <$> Transfer.produce id kind literal) fun w' o =>
      Option.Rel (Makes P id w') (some kind) o :=
  (produce_makes keeps id kind literal).map fun _ _ _ made => .some made

/-- What may be made of operands that were used. -/
theorem results_of_makes {taken : List Value} {id : InsnId} (hused : ∀ v ∈ taken, used w id v)
    (good : ∀ v ∈ taken, P.good w v) {x : StoreM (Option Value)} {result : Option Kind}
    (made : ∀ w, P.Ensures w x fun w' o => Option.Rel (Makes P id w') result o) :
    P.Ensures w x (Results P used id taken result) :=
  (made w).mono fun _ _ later rel =>
    ⟨fun v member => keeps.mono (hused v member) (good v member) later, rel⟩

/-- All operands are used. -/
theorem consumeAll_uses (id : InsnId) {taken : List Value} (good : ∀ v ∈ taken, P.good w v) :
    P.Ensures w (taken.forM (Store.consume id)) fun w' _ => ∀ v ∈ taken, used w' id v := by
  induction taken generalizing w with
  | nil => exact .pure (by simp)
  | cons v rest ih =>
    obtain ⟨first, others⟩ := List.forall_mem_cons.mp good
    refine .bind (keeps.consume w id v first) fun w' _ later hv => ?_
    refine (ih fun u member => P.mono (others u member) later).mono fun w'' _ later' hrest => ?_
    exact List.forall_mem_cons.mpr ⟨keeps.mono hv (P.mono first later) later', hrest⟩

theorem push_makes {kind : Kind} (pushing : pushes insn.node = true)
    (h : movement? insn.node = some (.operate 0 (some kind))) :
    P.Ensures w (Transfer.push insn) (Makes P insn.id · kind) := by
  obtain ⟨id, node⟩ := insn
  cases node with
  | simple op =>
    simp only [movement?] at h
    simp only [pushes] at pushing
    simp only [Transfer.push]
    cases operation : Operation.ofOpcode op <;> rw [operation] at h pushing <;> cases pushing <;>
      cases h
    · exact produce_makes keeps id .reference _
    · next c =>
      rw [← kind_ofConstant]
      exact produce_makes keeps id (Literal.ofConstant c).1 _
  | int op operand =>
    simp only [movement?] at h
    split at h <;> cases h
    exact produce_makes keeps id _ _
  | constant value =>
    cases h
    rw [← kind_ofConstant]
    exact produce_makes keeps id (Literal.ofConstant value).1 _
  | field op owner name descriptor =>
    simp only [movement?, fieldMovement, Option.some.injEq] at h
    repeat' split at h
    all_goals cases h
    exact produce_makes keeps id _ _
  | type op name =>
    simp only [movement?, typeMovement, Option.some.injEq] at h
    repeat' split at h
    all_goals cases h
    simp only [Transfer.push]
    split
    · refine .bind (keeps.silent w _ fun _ => rfl) fun _ _ _ _ => ?_
      exact produce_makes keeps id _ _
    · exact produce_makes keeps id _ _
  | _ => cases pushing

theorem unary_results (insn : Insn) {v : Value} (good : P.good w v) :
    P.Ensures w (Transfer.unary insn v)
      (Results P used insn.id [v] (Transfer.unaryKind insn.node)) := by
  refine .bind (keeps.consume w insn.id v good) fun w' _ later hused => ?_
  refine results_of_makes keeps (by simpa using hused) (by simpa using P.mono good later) fun w => ?_
  cases Transfer.unaryKind insn.node with
  | none => exact .pure .none
  | some kind => exact some_produce_makes keeps insn.id kind _

theorem binary_results {u v : Value} (hu : P.good w u) (hv : P.good w v) :
    P.Ensures w (Transfer.binary insn u v) (Results P used insn.id [u, v] (binaryKind insn.node)) := by
  refine .bind (keeps.consume w insn.id u hu) fun w₁ _ later₁ used₁ => ?_
  refine .bind (keeps.consume w₁ insn.id v (P.mono hv later₁)) fun w₂ _ later₂ used₂ => ?_
  have hu₁ := P.mono hu later₁
  refine results_of_makes keeps (by simpa using ⟨keeps.mono used₁ hu₁ later₂, used₂⟩)
    (by simpa using ⟨P.mono hu₁ later₂, P.mono (P.mono hv later₁) later₂⟩) fun w => ?_
  obtain ⟨id, node⟩ := insn
  cases node with
  | simple op =>
    simp only [binaryKind]
    cases Operation.ofOpcode op with
    | binary b => exact some_produce_makes keeps id b.kind _
    | arrayLoad kind => exact some_produce_makes keeps id kind _
    | _ => exact .pure .none
  | _ => exact .pure .none

theorem call_results {taken : List Value} (good : ∀ v ∈ taken, P.good w v) :
    P.Ensures w (Transfer.call insn taken)
      (Results P used insn.id taken (Transfer.resultKind insn.node)) := by
  refine .bind (consumeAll_uses keeps insn.id good) fun w' _ later hused => ?_
  refine results_of_makes keeps hused (fun v member => P.mono (good v member) later) fun w => ?_
  have produced (w : ω) (literal : Option Literal) : P.Ensures w (returned insn literal)
      fun w' o => Option.Rel (Makes P insn.id w') (Transfer.resultKind insn.node) o := by
    unfold returned
    cases Transfer.resultKind insn.node with
    | none => exact .pure .none
    | some kind => exact some_produce_makes keeps insn.id kind literal
  dsimp only
  split
  · next ls _ =>
    refine .bind (keeps.silent w _ fun s => callLiteral_usages insn.node ls s) fun w' literal _ _ => ?_
    exact produced w' literal
  · exact produced w none

/-- What an instruction makes of its operands. -/
theorem resultOf_results {taken : List Value} {result : Option Kind}
    (h : movement? insn.node = some (.operate taken.length result)) (plain : PlainReturn insn.node)
    (good : ∀ v ∈ taken, P.good w v) :
    P.Ensures w (resultOf insn taken) (Results P used insn.id taken result) := by
  cases call : calls insn.node with
  | true =>
    rw [resultOf_of_calls call, ← resultKind_of_movement h call plain]
    exact call_results keeps good
  | false =>
    rw [resultOf_of_not_calls call]
    match taken, operates_of_movement h call with
    | [], .idle quiet =>
      rw [if_neg (by simp [quiet])]
      exact .pure ⟨by simp, .none⟩
    | [], .push kind pushing =>
      rw [if_pos pushing]
      exact (push_makes keeps pushing h).map fun _ _ _ made => ⟨by simp, .some made⟩
    | [v], .unary same => exact same ▸ unary_results keeps insn (good v (by simp))
    | [u, v], .binary same => exact same ▸ binary_results keeps (good u (by simp)) (good v (by simp))
    | [_, _, _], .consume =>
      exact .bind (consumeAll_uses keeps insn.id good) fun _ _ _ hused => .pure ⟨hused, .none⟩

/-! ## Instructions -/

variable {f : Frame}

/-- A copy is good, made by the instruction that copies, and its original is used. -/
theorem copy_makes {id : InsnId} {v : Value} (good : P.good w v) :
    P.Ensures w (Transfer.copy body index id v) fun w' u =>
      used w' id v ∧ Makes P id w' v.kind u := by
  refine .bind (keeps.consume w id v good) fun w' _ later hused => ?_
  have produced (w'' : ω) (later' : P.later w' w'') (literal : Option Literal) :
      P.Ensures w'' (Transfer.produce id v.kind literal) fun w' u =>
        used w' id v ∧ Makes P id w' v.kind u :=
    (produce_makes keeps id v.kind literal).mono fun _ _ later'' made =>
      ⟨keeps.mono hused (P.mono good later) (P.trans later' later''), made⟩
  dsimp only
  split
  · split
    · exact produced w' (P.refl w') _
    · refine .bind (keeps.silent w' _ fun _ => rfl) fun w₁ _ later₁ _ => ?_
      refine .bind (keeps.silent w₁ _ fun _ => rfl) fun w₂ _ later₂ _ => ?_
      exact produced w₂ (P.trans later₁ later₂) _
  · exact produced w' (P.refl w') _

/-- What the simulation of an instruction does to a frame in a phase. -/
def MovesIn (P : Phases ω) (used : ω → InsnId → Value → Prop) (insn : Insn) (f : Frame) (w : ω)
    (g : Frame) : Prop :=
  g.Every (P.good w) ∧ ∃ m x, Moves (used w insn.id) insn f g m x

/-- An instruction that only takes operands. -/
theorem apply_moves {count : Nat} {result : Option Kind} (h : f.Every (P.good w))
    (moves : movement? insn.node = some (.operate count result)) (plain : PlainReturn insn.node) :
    P.StepEnsures w (f.apply insn count) (MovesIn P used insn f) := by
  intro s phase g s' run
  obtain ⟨enough, o, made, rfl⟩ := Frame.apply_eq_ok run
  have length : (f.stack.take count).reverse.length = count := by simp [enough]
  have good : ∀ v ∈ (f.stack.take count).reverse, P.good w v := fun v member =>
    h.stack v (List.mem_of_mem_take (List.mem_reverse.mp member))
  have results := resultOf_results keeps (length.symm ▸ moves) plain good s phase
  rw [made] at results
  obtain ⟨w', later, phase', hused, rel⟩ := results
  have pushed : List.Forall₂ (Comes f.stack insn.id) (copies result.toList) o.toList ∧
      ∀ v ∈ o.toList, P.good w' v := by
    cases rel with
    | none => exact ⟨.nil, by simp⟩
    | some new => exact ⟨.cons new.2 .nil, by simpa using new.1⟩
  refine ⟨w', later, phase', ⟨fun v member => P.mono (h.locals v member) later, fun v member => ?_⟩,
    .operate count result, ⟨count, count, copies result.toList⟩, moves,
    if_pos (by simpa [Frame.kinds] using enough), ⟨o.toList, pushed.1, rfl⟩, rfl,
    fun k v found => found, nofun, fun cell member => ?_⟩
  · rcases List.mem_append.mp member with new | old
    · exact pushed.2 v new
    · exact P.mono (h.stack v (List.mem_of_mem_drop old)) later
  · obtain ⟨depth, below, rfl⟩ := List.mem_map.mp member
    have inside : depth < count := List.mem_range.mp below
    refine ⟨_, List.getElem?_eq_getElem (Nat.lt_of_lt_of_le inside enough), hused _ ?_⟩
    exact List.mem_reverse.mpr (List.mem_take_iff_getElem.mpr ⟨depth, by omega, rfl⟩)

/-- Emptying a slot keeps the rest. -/
theorem clearLocal_moves {slot : Nat} (h : f.Every (P.good w)) :
    P.StepEnsures w (do f.setLocal slot (← Store.empty)) fun w' g =>
      f.Kept P w' g ∧ g.stack = f.stack ∧
        ∃ e : Value, e.kind = .uninitialized ∧
          ∀ k, g.locals[k]? = if k = slot then some e else f.locals[k]? := by
  refine .bind (.lift (keeps.make w _ _ _)) fun w' e later he => ?_
  refine (Frame.setLocal_kept (h.later later) he.1).mono fun _ g _ hg => ?_
  exact ⟨⟨hg.1.good, hg.1.width, hg.1.limit⟩, hg.2.1, e, he.2.1, hg.2.2.2⟩

/-- The simulation of a store. -/
theorem store_moves {slot : UInt16} {v : Value} (h : f.Every (P.good w)) (hv : P.good w v) :
    P.StepEnsures w (f.store slot v) fun w' g => f.Kept P w' g ∧ g.stack = f.stack ∧
      slot.toNat < f.locals.length ∧ ∀ k u, g.locals[k]? = some u → StoredIn f slot v k u := by
  have apart : slot.toNat ≠ (slot + 1).toNat ∧ slot.toNat ≠ (slot + 1).toNat + 1 := by
    rw [UInt16.toNat_add]
    have := slot.toNat_lt
    simp only [UInt16.toNat_one]
    omega
  refine .bind (Frame.setLocal_kept h hv) fun w₁ g₁ later₁ h₁ => ?_
  obtain ⟨kept₁, stack₁, inside, locals₁⟩ := h₁
  -- the slot before the stored one is looked at last, when it still holds what it held
  have after (w₂ : ω) (g₂ : Frame) (kept₂ : g₁.Kept P w₂ g₂) (stack₂ : g₂.stack = f.stack)
      (locals₂ : ∀ k u, g₂.locals[k]? = some u → if k = slot.toNat then u = v
        else if k = (slot + 1).toNat ∧ v.isWide = true then u.kind = .uninitialized
        else f.locals[k]? = some u) :
      P.StepEnsures w₂ (g₂.tornBefore slot) fun w' g => f.Kept P w' g ∧ g.stack = f.stack ∧
        slot.toNat < f.locals.length ∧ ∀ k u, g.locals[k]? = some u → StoredIn f slot v k u := by
    have unchanged (narrow : ∀ k, k + 1 = slot.toNat → f.locals[k]?.any Value.isWide = false) :
        P.StepEnsures w₂ (return g₂) fun w' g => f.Kept P w' g ∧ g.stack = f.stack ∧
          slot.toNat < f.locals.length ∧
          ∀ k u, g.locals[k]? = some u → StoredIn f slot v k u := by
      refine .pure ⟨kept₁.trans kept₂, stack₂, inside, fun k u found => ?_⟩
      have known := locals₂ k u found
      have := narrow k
      rw [storedIn_iff]
      grind
    unfold Frame.tornBefore
    split
    · next zero => exact unchanged fun k next => by omega
    · next before slotBefore =>
      have same : g₂.locals[before]? = f.locals[before]? := by
        have width : g₂.locals.length = f.locals.length := kept₂.width.trans kept₁.width
        have here := List.getElem?_eq_getElem (l := g₂.locals) (i := before) (by omega)
        have known := locals₂ before _ here
        rw [if_neg (by omega), if_neg (by omega)] at known
        rw [here, known]
      rw [same]
      split
      · next previous found =>
        split
        · next wide =>
          refine (clearLocal_moves keeps kept₂.good).mono fun _ g _ hg => ?_
          obtain ⟨kept₃, stack₃, e, blank, locals₃⟩ := hg
          refine ⟨(kept₁.trans kept₂).trans kept₃, stack₃.trans stack₂, inside, fun k u hu => ?_⟩
          rw [locals₃] at hu
          have known := locals₂ k u
          rw [storedIn_iff]
          grind
        · next narrow =>
          refine unchanged fun k next => ?_
          obtain rfl : k = before := by omega
          simpa [found] using narrow
      · next missing =>
        refine unchanged fun k next => ?_
        obtain rfl : k = before := by omega
        simp [missing]
  by_cases wide : v.isWide = true
  · simp only [if_pos wide]
    refine .bind (.lift (keeps.make w₁ _ _ _)) fun w₂ e later₂ he => ?_
    refine .bind (Frame.setLocal_kept (kept₁.good.later later₂) he.1) fun w₃ g₂ _ h₂ => ?_
    obtain ⟨kept₂, stack₂, -, locals₂⟩ := h₂
    refine after w₃ g₂ ⟨kept₂.good, kept₂.width, kept₂.limit⟩ (stack₂.trans stack₁) fun k u found => ?_
    rw [locals₂, locals₁] at found
    grind
  · simp only [if_neg wide]
    refine .bind (q := fun w' g => w' = w₁ ∧ g = g₁) (.pure ⟨rfl, rfl⟩) fun w₂ g₂ _ h₂ => ?_
    obtain ⟨rfl, rfl⟩ := h₂
    refine after w₂ g₂ (.refl kept₁.good) stack₁ fun k u found => ?_
    rw [locals₁] at found
    grind

/-- The entries on their way back: each is the one that its origin names, or a copy. -/
theorem moved_moves {id : InsnId} {stack : List Value} {moved : List Moved} {origins : List Origin}
    (h : ∀ v ∈ stack, P.good w v) (members : ∀ m ∈ moved, m.value ∈ stack)
    (fits : List.Forall₂ (Moved.From stack) origins moved) :
    P.StepEnsures w (moved.mapM fun
        | .kept v => pure v
        | .duplicate v => Step.lift (Transfer.copy body index id v))
      fun w' values => (∀ v ∈ values, P.good w' v) ∧ List.Forall₂ (Comes stack id) origins values ∧
        ∀ v, Moved.duplicate v ∈ moved → used w' id v := by
  induction fits generalizing w with
  | nil => exact .pure ⟨by simp, .nil, by simp⟩
  | @cons origin m origins moved first rest ih =>
    obtain ⟨member, members⟩ := List.forall_mem_cons.mp members
    rw [List.mapM_cons]
    refine .bind (q := fun w' u => P.good w' u ∧ Comes stack id origin u ∧
      ∀ v, m = .duplicate v → used w' id v) ?_ fun w' u later hu => ?_
    · cases m with
      | kept v =>
        cases origin with
        | kept depth => exact .pure ⟨h v member, first, by simp⟩
        | made kind => cases first
      | duplicate v =>
        cases origin with
        | kept depth => cases first
        | made kind =>
          refine (Phases.StepEnsures.lift (copy_makes keeps (h v member))).mono fun _ u _ made => ?_
          have kind : v.kind = kind := first
          exact ⟨made.2.1, kind ▸ made.2.2, fun v' same => by cases same; exact made.1⟩
    · refine .bind (ih (fun v member => P.mono (h v member) later) members)
        fun w'' values later' hvalues => .pure ?_
      obtain ⟨good, comes, hused⟩ := hvalues
      refine ⟨List.forall_mem_cons.mpr ⟨P.mono hu.1 later', good⟩, .cons hu.2.1 comes, fun v copy => ?_⟩
      rcases List.mem_cons.mp copy with same | later
      · subst same
        exact keeps.mono (hu.2.2 v rfl) (P.mono (h v member) ‹_›) later'
      · exact hused v later

/-- The simulation of a shuffle. -/
theorem shuffle_moves {form : Bytecode.Shuffle} (h : f.Every (P.good w))
    (moves : movement? insn.node = some (.shuffle form)) :
    P.StepEnsures w (f.shuffle body index insn.id form) (MovesIn P used insn f) := by
  intro s phase g s' shuffling
  obtain ⟨⟨rest, moved⟩, s₁, planning, run⟩ := Step.bind_eq_ok shuffling
  obtain ⟨planned, rfl⟩ := Step.liftExcept_eq_ok planning
  dsimp only at run
  obtain ⟨values, s₂, moving, pushing⟩ := Step.bind_eq_ok run
  obtain ⟨rfl, rfl⟩ := Frame.pushAll_eq_ok pushing
  obtain ⟨x, exchange, rfl, fits, enough, originals⟩ := plan_exchange planned
  have fits : List.Forall₂ (Moved.From f.stack) x.pushed.reverse moved :=
    List.forall₂_reverse_iff.mp (by rwa [List.reverse_reverse])
  obtain ⟨w', later, phase', good, comes, hused⟩ :=
    moved_moves keeps h.stack (mem_of_plan planned).2 fits _ phase values _ moving
  refine ⟨w', later, phase', ⟨fun v member => P.mono (h.locals v member) later, fun v member => ?_⟩,
    .shuffle form, x, moves, exchange, ⟨values.reverse, ?_, rfl⟩, rfl, fun k v found => found, nofun,
    fun cell member => ?_⟩
  · rcases List.mem_append.mp member with new | old
    · exact good v (List.mem_reverse.mp new)
    · exact P.mono (h.stack v (List.mem_of_mem_drop old)) later
  · exact List.forall₂_reverse_iff.mp (by rwa [List.reverse_reverse])
  · obtain ⟨depth, below, rfl⟩ := List.mem_map.mp member
    have inside : depth < x.read := List.mem_range.mp below
    refine ⟨_, List.getElem?_eq_getElem (Nat.lt_of_lt_of_le inside enough), hused _ (originals _ ?_)⟩
    exact List.mem_take_iff_getElem.mpr ⟨depth, by omega, rfl⟩

omit keeps in
/-- An instruction that drops words. -/
theorem drop_moves {words : Nat} {g : Frame} (count : Nat) (h : f.Every (P.good w))
    (moves : movement? insn.node = some (.drop words)) (fits : cut words f.kinds = some count)
    (dropped : g = { f with stack := f.stack.drop count }) : MovesIn P used insn f w g := by
  subst dropped
  exact ⟨⟨h.locals, fun v member => h.stack v (List.mem_of_mem_drop member)⟩, .drop words,
    ⟨0, count, []⟩, moves, by simp [Movement.exchange, fits], ⟨[], .nil, rfl⟩, rfl,
    fun k v found => found, nofun, by simp [Movement.operands]⟩

/-- The simulation of an operation. -/
theorem executeSimple_moves {op : Opcode} (h : f.Every (P.good w)) (node : insn.node = .simple op)
    (plain : PlainReturn insn.node) :
    P.StepEnsures w (f.executeSimple body index insn op) (MovesIn P used insn f) := by
  have moves : movement? insn.node = operationMovement (.ofOpcode op) := by rw [node]; rfl
  have common {count : Nat} {result : Option Kind}
      (known : operationMovement (.ofOpcode op) = some (.operate count result)) :
      P.StepEnsures w (f.executeSimple body index insn op) (MovesIn P used insn f) := by
    obtain ⟨id, node'⟩ := insn
    cases node
    rw [Frame.executeSimple_eq_apply_of_movement known]
    exact apply_moves keeps h known plain
  cases operation : Operation.ofOpcode op with
  | nop | null | constant | arrayLoad | arrayStore | binary | unary | arrayLength | throw | monitor =>
    exact common (by rw [operation]; rfl)
  | leave value => cases value <;> exact common (by rw [operation]; rfl)
  | other =>
    unfold Frame.executeSimple
    rw [operation]
    exact .error
  | shuffle form =>
    unfold Frame.executeSimple
    rw [operation]
    exact shuffle_moves keeps h (by rw [moves, operation]; rfl)
  | pop =>
    unfold Frame.executeSimple
    rw [operation]
    intro s phase g s' whole
    obtain ⟨⟨v, f₁⟩, s₁, popping, run⟩ := Step.bind_eq_ok whole
    obtain ⟨popped, rfl⟩ := Step.liftExcept_eq_ok popping
    obtain ⟨stack, rest⟩ := Frame.pop_eq_ok popped
    dsimp only at run
    split at run
    · cases run
    · next narrow =>
      cases run
      refine ⟨w, P.refl w, phase, drop_moves 1 h (by rw [moves, operation]; rfl)
        ?_ (by rw [stack]; exact rest)⟩
      simp [Frame.kinds, stack, cut, Value.size_of_narrow narrow]
  | pop2 =>
    unfold Frame.executeSimple
    rw [operation]
    intro s phase g s' whole
    obtain ⟨⟨v, f₁⟩, s₁, popping, run⟩ := Step.bind_eq_ok whole
    obtain ⟨popped, rfl⟩ := Step.liftExcept_eq_ok popping
    obtain ⟨stack, rest⟩ := Frame.pop_eq_ok popped
    have moves : movement? insn.node = some (.drop 2) := by rw [moves, operation]; rfl
    dsimp only at run
    split at run
    · next wide =>
      cases run
      refine ⟨w, P.refl w, phase, drop_moves 1 h moves ?_ (by rw [stack]; exact rest)⟩
      simp [Frame.kinds, stack, cut, Value.size_of_wide wide]
    · next narrow =>
      obtain ⟨⟨u, f₂⟩, s₂, popping', last⟩ := Step.bind_eq_ok run
      obtain ⟨popped', rfl⟩ := Step.liftExcept_eq_ok popping'
      obtain ⟨stack', rest'⟩ := Frame.pop_eq_ok popped'
      dsimp only at last
      split at last
      · cases last
      · next narrow' =>
        cases last
        rw [rest] at rest'
        refine ⟨w, P.refl w, phase,
          drop_moves 2 h moves ?_ (by rw [stack, stack']; exact rest')⟩
        simp [Frame.kinds, stack, stack', cut, Value.size_of_narrow narrow,
          Value.size_of_narrow narrow']

/-- The simulation of an access to a local variable. -/
theorem access_moves {op : Opcode} {slot : UInt16} (h : f.Every (P.good w))
    (node : insn.node = .var op slot) :
    P.StepEnsures w (match SlotAccess.ofOpcode op with
      | .load _ => do
        let v ← f.getLocal slot.toNat
        f.push (← Transfer.copy body index insn.id v)
      | .store _ => do
        let (v, f) ← f.pop
        f.store slot (← Transfer.copy body index insn.id v)
      | .other => throw (.unsupported "RET")) (MovesIn P used insn f) := by
  have moves : movement? insn.node = accessMovement slot (.ofOpcode op) := by rw [node]; rfl
  cases access : SlotAccess.ofOpcode op with
  | load kind =>
    refine .bind (q := fun w' v => w' = w ∧ f.locals[slot.toNat]? = some v)
      (.liftExcept fun v found => ⟨rfl, Frame.getLocal_eq_ok found⟩) fun w' v _ found => ?_
    obtain ⟨rfl, found⟩ := found
    have good := h.locals v (List.mem_of_getElem? found)
    refine .bind (.lift (copy_makes keeps good)) fun w₁ u later made => .liftExcept fun g pushed => ?_
    rw [Frame.push_eq_ok pushed]
    refine ⟨⟨(h.later later).locals, List.forall_mem_cons.mpr ⟨made.2.1, (h.later later).stack⟩⟩,
      .load slot, ⟨0, 0, copies [v.kind]⟩, by rw [moves, access]; rfl,
      by simp [Movement.exchange, Frame.slotKind, found], ⟨[u], .cons made.2.2 .nil, rfl⟩, rfl,
      fun k v found => found, nofun, fun cell member => ?_⟩
    rw [List.mem_singleton.mp member]
    exact ⟨v, found, made.1⟩
  | store kind =>
    intro s phase g s' whole
    obtain ⟨⟨v, f₁⟩, s₁, popping, run⟩ := Step.bind_eq_ok whole
    obtain ⟨popped, rfl⟩ := Step.liftExcept_eq_ok popping
    obtain ⟨stack, rest⟩ := Frame.pop_eq_ok popped
    have good := h.stack v (stack ▸ List.mem_cons_self)
    have below : f₁.Every (P.good w) := by
      rw [rest]
      exact ⟨h.locals, fun u member => h.stack u (stack ▸ List.mem_cons_of_mem _ member)⟩
    have stores : P.StepEnsures w (do f₁.store slot (← Transfer.copy body index insn.id v))
        (MovesIn P used insn f) := by
      refine .bind (.lift (copy_makes keeps good)) fun w₁ u later made => ?_
      refine (store_moves keeps (below.later later) made.2.1).mono fun w₂ g later₂ hg => ?_
      obtain ⟨kept, sameStack, inside, stored⟩ := hg
      have locals₁ : f₁.locals = f.locals := by rw [rest]
      refine ⟨kept.good, .store slot, ⟨1, 1, []⟩, by rw [moves, access]; rfl,
        by simp [Movement.exchange, Frame.kinds, stack], ⟨[], .nil, by rw [sameStack, stack]; rfl⟩,
        kept.width.trans (congrArg _ locals₁), fun k u' found => ?_, fun k kind filled => ?_,
        fun cell member => ?_⟩
      · have known := stored k u' found
        have slots : f₁.slotKind = f.slotKind := by
          funext k
          rw [Frame.slotKind, Frame.slotKind, locals₁]
        have kinds : f.kinds.head? = some v.kind := by simp [Frame.kinds, stack]
        rw [Movement.change, kinds]
        unfold StoredIn at known
        rw [slots, locals₁, made.2.2.1] at known
        show Remains f.locals[k]? insn.id u' (storeChange f.slotKind v.kind slot k)
        cases change : storeChange f.slotKind v.kind slot k with
        | kept => rw [change] at known; exact known
        | emptied => rw [change] at known; exact known
        | filled kind' =>
          rw [change] at known
          have filled : kind' = v.kind := by
            unfold storeChange at change
            grind
          rw [filled, show u' = u from known]
          exact made.2.2
      · have kinds : f.kinds.head? = some v.kind := by simp [Frame.kinds, stack]
        rw [Movement.change, kinds] at filled
        have filled : storeChange f.slotKind v.kind slot k = .filled kind := filled
        unfold storeChange at filled
        have here : k = slot.toNat := by grind
        rw [here, ← locals₁]
        exact inside
      · rw [show Movement.operands ⟨1, 1, []⟩ (.store slot) = [.entry 0] from rfl,
          List.mem_singleton] at member
        subst member
        exact ⟨v, by simp [Frame.cell?, stack], keeps.mono made.1 (P.mono good later) later₂⟩
    exact stores s₁ phase g s' run
  | other => exact .error

/-- **What a simulated instruction does.** The frame behind it is the one before it except for what the
movement of the instruction says, and the instruction is noted at its operands. -/
theorem execute_moves (h : f.Every (P.good w)) (plain : PlainReturn insn.node) :
    P.StepEnsures w (f.execute body index insn) (MovesIn P used insn f) := by
  have common {count : Nat} {result : Option Kind}
      (known : movement? insn.node = some (.operate count result)) :
      P.StepEnsures w (f.execute body index insn) (MovesIn P used insn f) := by
    rw [Frame.execute_eq_apply_of_movement known]
    exact apply_moves keeps h known plain
  -- a call whose descriptor cannot be read fails
  have unread {text : String} {e : DescriptorError} (failed : MethodDescriptor.parse text = .error e)
      (next : Nat → Step Frame) :
      P.StepEnsures w (liftM (Frame.argumentCount text) >>= next) (MovesIn P used insn f) := by
    have fails : Frame.argumentCount text = .error (.callDescriptor text) := by
      rw [Frame.argumentCount, failed]
    rw [fails]
    exact .error
  cases node : insn.node with
  | simple op =>
    have same : f.execute body index insn = f.executeSimple body index insn op := by
      unfold Frame.execute
      rw [node]
    rw [same]
    exact executeSimple_moves keeps h node plain
  | var op slot =>
    unfold Frame.execute
    rw [node]
    exact access_moves keeps h node
  | increment slot amount =>
    unfold Frame.execute
    rw [node]
    refine .bind (q := fun w' v => w' = w ∧ f.locals[slot.toNat]? = some v)
      (.liftExcept fun v found => ⟨rfl, Frame.getLocal_eq_ok found⟩) fun w' v _ found => ?_
    obtain ⟨rfl, found⟩ := found
    have good := h.locals v (List.mem_of_getElem? found)
    have results := unary_results keeps insn good
    rw [node] at results
    refine .bind (.lift results) fun w₁ o later hresults => ?_
    obtain ⟨hused, rel⟩ := hresults
    cases rel with
    | some made =>
      refine (Frame.setLocal_kept (h.later later) made.1).mono fun w₂ g later₂ hg => ?_
      obtain ⟨kept, stack, inside, locals⟩ := hg
      refine ⟨kept.good, .increment slot, ⟨0, 0, []⟩, by rw [node]; rfl, rfl, ⟨[], .nil, stack⟩,
        kept.width, fun k u hu => ?_, fun k kind filled => ?_, fun cell member => ?_⟩
      · rw [locals] at hu
        show Remains f.locals[k]? insn.id u (if k = slot.toNat then .filled .int else .kept)
        split at hu
        · next here =>
          cases hu
          rw [if_pos here]
          exact made.2
        · next other =>
          rw [if_neg other]
          exact hu
      · have filled : (if k = slot.toNat then Change.filled .int else .kept) = .filled kind := filled
        have here : k = slot.toNat := by
          by_contra other
          rw [if_neg other] at filled
          cases filled
        rw [here]
        exact inside
      · rw [List.mem_singleton.mp member]
        exact ⟨v, found, keeps.mono (hused v (by simp)) (P.mono good later) later₂⟩
  | jump op target =>
    cases form : JumpForm.ofOpcode op with
    | subroutine =>
      unfold Frame.execute
      rw [node]
      simp only [form]
      exact .error
    | _ => exact common (by rw [node, movement?, form]; rfl)
  | call op owner name descriptor isInterface =>
    cases parsed : MethodDescriptor.parse descriptor with
    | error e =>
      unfold Frame.execute
      rw [node]
      exact unread parsed _
    | ok d => exact common (by rw [node, movement?, callMovement, parsed]; rfl)
  | dynamicCall name descriptor bootstrap arguments =>
    cases parsed : MethodDescriptor.parse descriptor with
    | error e =>
      unfold Frame.execute
      rw [node]
      exact unread parsed _
    | ok d => exact common (by rw [node, movement?, callMovement, parsed]; rfl)
  | int op operand =>
    by_cases array : op = Opcode.newarray
    · exact common (by rw [node, movement?, if_pos array])
    · exact common (by rw [node, movement?, if_neg array])
  | field op owner name descriptor =>
    obtain ⟨count, result, same⟩ :
        ∃ count result, fieldMovement op (.ofText descriptor) = .operate count result := by
      unfold fieldMovement
      split_ifs <;> exact ⟨_, _, rfl⟩
    exact common (by rw [node, movement?, same])
  | type op name =>
    obtain ⟨count, result, same⟩ : ∃ count result, typeMovement op = .operate count result := by
      unfold typeMovement
      split_ifs <;> exact ⟨_, _, rfl⟩
    exact common (by rw [node, movement?, same])
  | _ => exact common (by rw [node]; rfl)

end

end Bytecode.Analysis
