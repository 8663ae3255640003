import Bytecode.Proofs.Analysis.Fixpoint
import Bytecode.Proofs.Analysis.Simulation
import Bytecode.Proofs.Machine.Run

/-!
# Literals are the values of all runs

In a method that allocates no string builder, a literal in a frame is the value that every run has
there when it stands before the instruction: `literals_sound`. The invariant of a run is that there
is a frame for its position and that the frame describes the activation. A step keeps it because the
frames are a post-fixpoint, and a simulated instruction describes the executed one.

The analysis counts a value of unknown kind as one word. Behind a join of a word and a double word it
can therefore mistake the entries that DUP2 and its kind move, as `mistaken_entry` shows, and
`literals_sound` asks that instructions which tell words from double words find known kinds.
-/

namespace Bytecode.Analysis

open Machine

/-! ## Edges -/

section

variable {body : Body} {positions : LabelPositions} {i : Nat} {node : Node} {ts : List Nat}

/-- The target of a label is a successor. -/
theorem mem_successors_of_target (h : body.successors positions Flow.always i node = .ok ts)
    {l : LabelId} (member : l ∈ node.targets) {t : Nat} (found : positions l = some t) : t ∈ ts := by
  unfold Body.successors at h
  split at h
  · cases h
  · next jumps all =>
    have jump : t ∈ jumps := by
      obtain ⟨t', there, same⟩ := exists_of_mem_right (forall₂_of_mapM all).flip member
      rw [found] at same
      cases same
      exact there
    split at h
    · split at h
      · cases h
        exact List.mem_append_left _ jump
      · cases h
    · cases h
      exact jump

/-- The next position is a successor if control can go on to it. -/
theorem mem_successors_of_next (h : body.successors positions Flow.always i node = .ok ts)
    (falls : node.fallsThrough Flow.always = true) : i + 1 ∈ ts := by
  unfold Body.successors at h
  split at h
  · cases h
  · rw [if_pos falls] at h
    split at h
    · cases h
      exact List.mem_append_right _ (List.mem_singleton.mpr rfl)
    · cases h

end

/-- An opcode between IRETURN and RETURN leaves the method. -/
theorem leaves_of_isReturn {op : Opcode} (h : op.isReturn = true) :
    ∃ kind, Operation.ofOpcode op = .leave kind := by
  obtain ⟨low, high⟩ : 0xac ≤ op.toNat ∧ op.toNat ≤ 0xb1 := by
    have both := h
    simp only [Opcode.isReturn, Bool.and_eq_true, decide_eq_true_eq, UInt8.le_iff_toNat_le] at both
    exact both
  obtain last | early : op.toNat = 0xb1 ∨ op.toNat ≤ 0xb0 := by omega
  · exact ⟨none, by simp [Operation.ofOpcode, last]⟩
  · refine ⟨some (Kind.ofVariant (op.toNat - 0xac)), ?_⟩
    unfold Operation.ofOpcode
    simp only
    repeat rw [if_neg (by omega)]
    rw [if_pos early]

/-- An operation that goes on falls through. -/
theorem fallsThrough_simple {op : Opcode} (stays : ∀ kind, Operation.ofOpcode op ≠ .leave kind)
    (raisesNothing : Operation.ofOpcode op ≠ .throw) :
    (Node.simple op).fallsThrough Flow.always = true := by
  rw [Node.fallsThrough, Bool.not_eq_true', Bool.or_eq_false_iff]
  constructor
  · by_contra returns
    obtain ⟨kind, leaves⟩ := leaves_of_isReturn (eq_true_of_ne_false returns)
    exact stays kind leaves
  · rw [beq_eq_false_iff_ne]
    rintro rfl
    exact raisesNothing rfl

/-- An effect after which control goes on with the next instruction. -/
def GoesOn : Effect → Prop
  | .next _ | .ask .. => True
  | .jump .. | .leave _ | .raise _ => False

/-- What goes on with the next instruction falls through. -/
theorem fallsThrough_of_effect {node : Node} {a : Activation} {eff : Effect}
    (h : effect node a = some eff) (on : GoesOn eff) : node.fallsThrough Flow.always = true := by
  cases known : operands node with
  | some kinds =>
    rw [effect_of_operands known] at h
    obtain ⟨taken, stack, act, took, acts, rfl⟩ := operandEffect_eq_some h
    obtain ⟨-, -, fits⟩ := take_eq_some took
    cases node with
    | simple op =>
      have acts : operationAction (Operation.ofOpcode op) taken = some act := acts
      refine fallsThrough_simple (fun kind leaves => ?_) fun throws => ?_
      · rw [leaves] at acts
        cases acts
        exact on
      · rw [throws] at acts
        obtain ⟨e, rfl⟩ := raise_of_throw acts
        exact on
    | jump op target =>
      have known : jumpOperands op = some kinds := known
      unfold jumpOperands at known
      -- a jump without operands is taken
      have form : JumpForm.ofOpcode op ≠ .always ∧ JumpForm.ofOpcode op ≠ .alwaysWide := by
        constructor <;> intro form <;> rw [form] at known <;> cases known <;>
          rw [List.map_eq_nil_iff.mp fits] at acts <;> cases acts <;> exact on
      simp only [Node.fallsThrough, Flow.always]
      split
      · next form' => exact absurd form' form.1
      · next form' => exact absurd form' form.2
      · rfl
    | tableSwitch low high default targets =>
      obtain ⟨l, rfl⟩ := jump_of_tableSwitch acts
      exact on.elim
    | lookupSwitch default keys targets =>
      obtain ⟨l, rfl⟩ := jump_of_lookupSwitch acts
      exact on.elim
    | _ => rfl
  | none =>
    cases node with
    | simple op =>
      unfold effect at h
      rw [known] at h
      obtain ⟨ds, moves, rfl⟩ := Option.map_eq_some_iff.mp h
      refine fallsThrough_simple (fun kind leaves => ?_) fun throws => ?_
      · rw [leaves] at moves
        cases moves
      · rw [throws] at moves
        cases moves
    | var | increment => rfl
    | _ =>
      unfold effect at h
      rw [known] at h
      cases h

/-! ## Runs -/

/-- The instructions of a body at which words are told from double words find known kinds in the
frames. -/
def Sized (body : Body) (frames : Nat → Option Frame) : Prop :=
  ∀ (i : Nat) (insn : Insn) (f : Frame), body[i]? = some insn → frames i = some f →
    ∀ v ∈ f.stack.take (sizedEntries insn.node), v.kind ≠ .uninitialized

instance (body : Body) (frames : Nat → Option Frame) : Decidable (Sized body frames) :=
  decidable_of_iff (∀ i < body.size, ∀ insn ∈ body[i]?, ∀ f ∈ frames i,
      ∀ v ∈ f.stack.take (sizedEntries insn.node), v.kind ≠ .uninitialized)
    ⟨fun h i insn f at_position there =>
      h i (Array.getElem?_eq_some_iff.mp at_position).1 insn at_position f there,
    fun h i _ insn at_position f there => h i insn f at_position there⟩

section

variable {W : Type} {env : Environment W} {body : Body} {positions : LabelPositions}
  {ranges : List CoveredRange} {frames : Nat → Option Frame} {entry : Frame}
  {visits : List Visit} {stands : BufferId → Ref → Prop}

/-- The entry of a handler describes the activation in which the handler starts. -/
theorem handlerFrame_describes {before entry : Frame} {caught : String} {s s' : Store}
    {a : Activation} {e : Ref} (h : before.Describes stands a)
    (run : Flow.handlerFrame before caught s = .ok (entry, s')) :
    entry.Describes stands ⟨a.locals, [.ref e]⟩ := by
  obtain ⟨v, s₁, making, pushing⟩ := Step.bind_eq_ok run
  obtain ⟨pushed, -⟩ := Step.liftExcept_eq_ok pushing
  have made : Store.make .reference [] none s = (v, s₁) := Step.lift_eq_ok making
  cases made
  rw [Frame.push_eq_ok pushed]
  exact ⟨h.locals, .cons (Value.describes_of_kind rfl rfl) .nil⟩

/-- There is a frame for a point of a run, it describes the activation, and it knows of no builder. -/
def Holds (frames : Nat → Option Frame) (c : Config W) : Prop :=
  ∃ f, frames c.pc = some f ∧ f.Unbuilt ∧ f.Describes (fun _ _ => False) c.activation

/-- A frame that describes an activation without builders has none itself. -/
theorem Frame.Describes.unbuilt {f : Frame} {a : Activation} (h : f.Describes (fun _ _ => False) a) :
    f.Unbuilt := by
  constructor
  · intro v member b known
    obtain ⟨k, found⟩ := List.mem_iff_getElem?.mp member
    obtain ⟨d, -, means⟩ := (h.locals k v found).literal _ known
    cases means with
    | plain denotes => cases denotes
    | builder holds => exact holds
  · intro v member b known
    obtain ⟨d, -, described⟩ := exists_of_mem_right h.stack.flip member
    obtain ⟨e, -, means⟩ := described.literal _ known
    cases means with
    | plain denotes => cases denotes
    | builder holds => exact holds

/-- What arrives at a position holds there. -/
theorem Arrives.holds {target : Nat} {incoming : Frame} {a : Activation} {w : W}
    (arrives : Arrives frames target incoming) (h : incoming.Describes (fun _ _ => False) a) :
    Holds frames (⟨target, a, w⟩ : Config W) := by
  obtain ⟨f, there, below⟩ := arrives
  have described := h.mono below (h.unbuilt.keepsBuilders below)
  exact ⟨f, there, described.unbuilt, described⟩

/-- One step of a run goes from a described activation to a described one. -/
theorem holds_of_step (fixpoint : PostFixpoint False ⟨body, positions, ranges⟩ visits entry frames)
    (faithful : env.Faithful) (ordinary : ∀ insn ∈ body, insn.node ≠ .type Opcode.new builderClass)
    (plain : ∀ insn ∈ body, PlainReturn insn.node) (sized : Sized body frames) {c d : Config W}
    (h : Holds frames c) (step : Machine.Step env ⟨body, positions, ranges⟩ c d) : Holds frames d := by
  obtain ⟨f, there, unbuilt, described⟩ := h
  obtain @⟨insn, _, store, after, _, _, at_position, recorded, made, executed, successors, arrives,
    handled, -⟩ := fixpoint.settled _ f there
  have member := Array.mem_of_getElem? at_position
  have taken (v : Value) (inside : v ∈ takenValues f insn.node) : v.Unbuilt :=
    unbuilt.stack v (List.mem_of_mem_take (List.mem_reverse.mp inside))
  have copies (v : Value) (inside : v ∈ copied f insn.node) : v.Unbuilt :=
    (mem_of_copied inside).elim (unbuilt.locals v) (unbuilt.stack v)
  have simulated {eff : Effect} {answer : Option Datum}
      (expected : Expected (fun _ _ => False) insn.node (takenValues f insn.node) store.buffers answer)
      (goes : effect insn.node c.activation = some eff) :
      EffectDescribes (fun _ _ => False) insn.node answer after eff :=
    execute_describes described recorded made (plain _ member) expected
      (sized _ _ f at_position there) (.inr (renews_of_unbuilt copies)) executed goes
  have same {other : Insn} (at_pc : body[c.pc]? = some other) : insn = other :=
    Option.some.inj (at_position.symm.trans at_pc)
  have next {eff : Effect} (goes : effect insn.node c.activation = some eff) (on : GoesOn eff) :
      Arrives frames (c.pc + 1) after :=
    arrives _ (mem_successors_of_next successors (fallsThrough_of_effect goes on))
  cases step with
  | next at_pc goes =>
    obtain rfl := same at_pc
    exact (next goes trivial).holds (simulated expected_none goes)
  | jump at_pc goes found =>
    obtain rfl := same at_pc
    obtain ⟨member, result⟩ := simulated expected_none goes
    exact (arrives _ (mem_successors_of_target successors member found)).holds result
  | answered at_pc asks answer pushed =>
    obtain rfl := same at_pc
    have expected := expected_of_plainly (b := store.buffers) (absurd · (ordinary _ member))
      (takenValues_describe described asks) (fun _ _ _ _ _ _ _ => .inl taken) (faithful answer)
    exact (next asks trivial).holds (simulated expected asks _ pushed)
  | caught raised taken =>
    obtain ⟨r, found, rfl⟩ := Option.map_eq_some_iff.mp taken
    have covers := List.find?_some found
    rw [Bool.and_eq_true] at covers
    obtain ⟨s₁, entry, s₂, handler, arrives⟩ := handled r (List.mem_of_find?_eq_some found) covers.1
    exact arrives.holds (handlerFrame_describes described handler)

/-- Every point that a run reaches has a frame that describes it. -/
theorem holds_of_reaches (fixpoint : PostFixpoint False ⟨body, positions, ranges⟩ visits entry frames)
    (faithful : env.Faithful) (ordinary : ∀ insn ∈ body, insn.node ≠ .type Opcode.new builderClass)
    (plain : ∀ insn ∈ body, PlainReturn insn.node) (sized : Sized body frames) {c d : Config W}
    (h : Holds frames c) (reaches : Reaches env ⟨body, positions, ranges⟩ c d) : Holds frames d := by
  induction reaches with
  | refl => exact h
  | tail _ step ih => exact holds_of_step fixpoint faithful ordinary plain sized ih step

end

/-! ## The entry of a method -/

/-- The kinds of the slots that values of the given kinds fill. -/
def spread (kinds : List Kind) : List Kind :=
  kinds.flatMap fun kind => if kind.isWide then [kind, .uninitialized] else [kind]

/-- The entry frame has the kinds of the parameters. -/
theorem entryKinds_eq_spread {text : String} {d : MethodDescriptor}
    (h : MethodDescriptor.parse text = .ok d) (isStatic : Bool) :
    entryKinds isStatic d.arguments =
      spread ((if isStatic then [] else [.reference]) ++ argumentKinds d) := by
  have spreadOf : ∀ types : List Descriptor, (∀ type ∈ types, (Kind.ofDescriptor type).isSome) →
      entryKinds true types = spread (types.filterMap Kind.ofDescriptor) := by
    intro types every
    induction types with
    | nil => rfl
    | cons type types ih =>
      obtain ⟨first, rest⟩ := List.forall_mem_cons.mp every
      obtain ⟨kind, known⟩ := Option.isSome_iff_exists.mp first
      have tail := ih rest
      simp only [entryKinds, spread, if_true, List.nil_append] at tail ⊢
      rw [List.filterMap_cons_some known, List.flatMap_cons, List.flatMap_cons, tail, known,
        Option.getD_some]
  have passed : d.arguments.flatMap (fun type =>
      let kind := (Kind.ofDescriptor type).getD .uninitialized
      if kind.isWide then [kind, .uninitialized] else [kind]) = spread (argumentKinds d) :=
    spreadOf _ fun _ member => MethodDescriptor.kind_of_argument h member
  rw [entryKinds, passed]
  cases isStatic <;> rfl

/-- An argument lies in a slot of its kind. -/
theorem kind_of_laidOut {ds : List Datum} {k : Nat} {d : Datum}
    (h : (laidOut ds)[k]? = some (some d)) : (spread (ds.map Datum.kind))[k]? = some d.kind := by
  induction ds generalizing k with
  | nil => cases h
  | cons e ds ih =>
    have cons : spread ((e :: ds).map Datum.kind) =
        (if e.kind.isWide then [e.kind, .uninitialized] else [e.kind]) ++ spread (ds.map Datum.kind) := by
      rw [spread, List.map_cons, List.flatMap_cons, spread]
    rw [cons]
    unfold laidOut at h
    have wide : e.kind.isWide = decide (e.size = 2) := by
      rw [Kind.isWide, Datum.size]
      exact Bool.beq_eq_decide_eq _ _
    by_cases double : e.size = 2
    · rw [if_pos double] at h
      rw [if_pos (by simp [wide, double])]
      rcases k with _ | _ | k
      · cases h
        rfl
      · cases h
      · exact ih h
    · rw [if_neg double] at h
      rw [if_neg (by simp [wide, double])]
      rcases k with _ | k
      · cases h
        rfl
      · exact ih h

/-- The frame at the entry describes the activation with which a method starts. -/
theorem entry_describes {stands : BufferId → Ref → Prop} {made : List Value} {entry : Frame} {kinds : List Kind} {count : Nat}
    {arguments : List Datum}
    (unknown : Unknown made entry.locals (spread kinds ++ List.replicate count .uninitialized))
    (empty : entry.stack = []) (passed : arguments.map Datum.kind = kinds) :
    entry.Describes stands (.ofArguments arguments) := by
  refine ⟨fun k v found => ⟨fun l known => ?_, fun d holds => .inr ?_⟩, by rw [empty]; exact .nil⟩
  · rw [(unknown.1 v (List.mem_of_getElem? found)).2] at known
    cases known
  · have slot : (laidOut arguments)[k]? = some (some d) := Option.join_eq_some_iff.mp holds
    have kind := kind_of_laidOut slot
    rw [passed] at kind
    have kindOfSlot : (entry.locals.map Value.kind)[k]? = some v.kind := by
      rw [List.getElem?_map, found, Option.map_some]
    rw [unknown.2, List.getElem?_append_left (List.getElem?_eq_some_iff.mp kind).1, kind] at kindOfSlot
    exact (Option.some.inj kindOfSlot).symm

/-- **Literals are the values of all runs.** When a run stands before an instruction, there is a
frame for it, and every literal in a stack entry or in a local variable of the frame stands for what
the run has there. The method allocates no string builder, no class name in a return type contains a
closing parenthesis, and instructions that tell words from double words find known kinds. -/
theorem literals_sound {W : Type} {env : Environment W} {owner : String} {m : Method} {r : Frames}
    {code : Code} {arguments : List Datum} {w : W} {c : Config W} {insn : Insn}
    (analyzed : analyze owner m = .ok r) (executed : codeOf? m = some code)
    (faithful : env.Faithful) (ordinary : ∀ insn ∈ m.body, insn.node ≠ .type Opcode.new builderClass)
    (plain : ∀ insn ∈ m.body, PlainReturn insn.node) (sized : Sized m.body r.frameAt)
    (passed : parameterKinds m = some (arguments.map Datum.kind))
    (reaches : Reaches env code ⟨0, .ofArguments arguments, w⟩ c) (before : m.body[c.pc]? = some insn) :
    ∃ f, r.frameAt c.pc = some f ∧
      (∀ (depth : Nat) (v : Value) (l : Literal), f.stackAt? depth = some v → v.literal = some l →
        ∃ d, c.activation.stack[depth]? = some d ∧ Denotes l d) ∧
      ∀ (slot : Nat) (v : Value) (l : Literal), f.locals[slot]? = some v → v.literal = some l →
        ∃ d, c.activation.locals slot = some d ∧ Denotes l d := by
  have nonempty : 0 < m.body.size := Nat.zero_lt_of_lt (Array.getElem?_eq_some_iff.mp before).1
  obtain ⟨d, ranges, made, entry, count, parsed, covered, unknown, empty, fixpoint⟩ :=
    postFixpoint_of_analyze analyzed nonempty fun insn member allocates =>
      ordinary insn member allocates
  rw [entryKinds_eq_spread parsed] at unknown
  have kinds : arguments.map Datum.kind = (if m.isStatic then [] else [.reference]) ++ argumentKinds d := by
    rw [parameterKinds, parsed] at passed
    exact (Option.some.inj passed).symm
  have starts : Holds r.frameAt (⟨0, .ofArguments arguments, w⟩ : Config W) :=
    fixpoint.entry.holds (entry_describes unknown empty kinds)
  rw [codeOf?, covered] at executed
  cases executed
  obtain ⟨f, there, -, described⟩ :=
    holds_of_reaches fixpoint faithful ordinary plain sized starts reaches
  refine ⟨f, there, fun depth v l found known => ?_, fun slot v l found known => ?_⟩
  · obtain ⟨inside, rfl⟩ := List.getElem?_eq_some_iff.mp found
    have inside' : depth < c.activation.stack.length := described.stack.length_eq ▸ inside
    obtain ⟨e, same, means⟩ := (described.stack.get inside inside').literal l known
    cases same
    exact ⟨_, List.getElem?_eq_getElem inside', means.denotes_of_none⟩
  · obtain ⟨e, same, means⟩ := (described.locals slot v found).literal l known
    exact ⟨e, same, means.denotes_of_none⟩

/-! ## Samples -/

/-- The literal of a stack entry in the frame at a position. -/
def Frames.literalAt (r : Frames) (i depth : Nat) : Option Literal :=
  (r.frameAt i).bind fun f => (f.stackAt? depth).bind Value.literal

theorem exists_of_any {ε α : Type} {x : Except ε α} {p : α → Bool} (h : x.toOption.any p = true) :
    ∃ a, x = .ok a ∧ p a = true := by
  obtain ⟨a, known, holds⟩ := (Option.any_eq_true _ _).mp h
  exact ⟨a, toOption_eq_some.mp known, holds⟩

/-- A body with nodes whose identities are their positions. -/
def numbered (nodes : List Node) : Body :=
  (nodes.zipIdx.map fun (node, i) => ⟨⟨i⟩, node⟩).toArray

/-- A static method that adds two constants. -/
def sumMethod : Method where
  id := ⟨0⟩
  access := 9
  name := "sum"
  descriptor := "(J)I"
  maxLocals := 2
  body := numbered [.simple 0x05, .simple 0x06, .simple 0x60, .simple Opcode.ireturn]

/-- The sum is the literal that the run has on its stack. -/
theorem literals_sound_sum : ∃ r f v, analyze "A" sumMethod = .ok r ∧ Sized sumMethod.body r.frameAt ∧
    r.frameAt 3 = some f ∧ f.stackAt? 0 = some v ∧ v.literal = some (.int 5) ∧
    ∃ c : Config Unit, Reaches .silent ⟨sumMethod.body, sumMethod.body.lastLabels, []⟩
        ⟨0, .ofArguments [.long 7], ()⟩ c ∧ c.pc = 3 ∧
      ∃ d, c.activation.stack[0]? = some d ∧ Denotes (.int 5) d := by
  have evaluated : (analyze "A" sumMethod).toOption.any (fun r =>
      decide (Sized sumMethod.body r.frameAt) && r.literalAt 3 0 == some (.int 5)) = true := by
    unfold analyze
    rw [Body.ofTable_labelTable]
    decide +kernel
  obtain ⟨r, analyzed, holds⟩ := exists_of_any evaluated
  obtain ⟨sized, literal⟩ := Bool.and_eq_true_iff.mp holds
  obtain ⟨f, there, found⟩ := Option.bind_eq_some_iff.mp (beq_iff_eq.mp literal)
  obtain ⟨v, entry, known⟩ := Option.bind_eq_some_iff.mp found
  have reaches : Reaches Environment.silent ⟨sumMethod.body, sumMethod.body.lastLabels, []⟩
      ⟨0, .ofArguments [.long 7], ()⟩ ⟨3, ⟨(Activation.ofArguments [.long 7]).locals, [.int 5]⟩, ()⟩ :=
    .tail (.tail (.tail .refl (.next rfl rfl)) (.next rfl rfl)) (.next rfl rfl)
  obtain ⟨f', there', stack, -⟩ := literals_sound analyzed rfl
    Environment.silent_faithful (by simp [sumMethod, numbered])
    (by simp [sumMethod, numbered, PlainReturn, callDescriptor?]) (of_decide_eq_true sized)
    (by decide +kernel) reaches
    (show sumMethod.body[3]? = some ⟨⟨3⟩, .simple Opcode.ireturn⟩ from rfl)
  obtain rfl : f = f' := Option.some.inj (there.symm.trans there')
  exact ⟨r, f, v, analyzed, of_decide_eq_true sized, there, entry, known, _, reaches, rfl,
    stack 0 v _ entry known⟩

/-- A static method that duplicates two words behind a join of a long and an int. -/
def unequalWords : Method where
  id := ⟨0⟩
  access := 9
  name := "m"
  descriptor := "(ZJ)V"
  maxLocals := 3
  body := numbered [.simple 0x04, .var Opcode.iload 0, .jump Opcode.ifeq ⟨0⟩, .var Opcode.lload 1,
    .jump Opcode.goto ⟨1⟩, .label ⟨0⟩, .simple 0x05, .label ⟨1⟩, .simple 0x5c, .simple Opcode.vreturn]

/-- Without known sizes a literal can stand in the wrong entry: behind DUP2 the frame has the int 1
below the top, where the run that took the long has the long again. -/
theorem mistaken_entry : ∃ r, analyze "A" unequalWords = .ok r ∧ r.literalAt 9 1 = some (.int 1) ∧
    ∃ (code : Code) (c : Config Unit), codeOf? unequalWords = some code ∧
      (∀ insn ∈ unequalWords.body, insn.node ≠ .type Opcode.new builderClass) ∧
      Environment.silent.Faithful ∧
      parameterKinds unequalWords = some ([Datum.int 1, .long 7].map Datum.kind) ∧
      Reaches .silent code ⟨0, .ofArguments [.int 1, .long 7], ()⟩ c ∧ c.pc = 9 ∧
      ¬∃ d, c.activation.stack[1]? = some d ∧ Denotes (.int 1) d := by
  have evaluated : (analyze "A" unequalWords).toOption.any
      (fun r => r.literalAt 9 1 == some (.int 1)) = true := by
    unfold analyze
    rw [Body.ofTable_labelTable]
    decide +kernel
  obtain ⟨r, analyzed, literal⟩ := exists_of_any evaluated
  let locals := (Activation.ofArguments [.int 1, .long 7]).locals
  let code : Code := ⟨unequalWords.body, unequalWords.body.lastLabels, []⟩
  -- the run takes the branch on which the long is loaded
  have loads : Reaches Environment.silent code ⟨0, .ofArguments [.int 1, .long 7], ()⟩
      ⟨4, ⟨locals, [.long 7, .int 1]⟩, ()⟩ :=
    .tail (.tail (.tail (.tail .refl (.next rfl rfl)) (.next rfl rfl)) (.next rfl rfl)) (.next rfl rfl)
  have joins : Reaches Environment.silent code ⟨4, ⟨locals, [.long 7, .int 1]⟩, ()⟩
      ⟨9, ⟨locals, [.long 7, .long 7, .int 1]⟩, ()⟩ :=
    .tail (.tail (.tail .refl (.jump rfl rfl rfl)) (.next rfl rfl)) (.next rfl rfl)
  refine ⟨r, analyzed, beq_iff_eq.mp literal, code, _, rfl, by simp [unequalWords, numbered],
    Environment.silent_faithful, by decide +kernel, loads.trans joins, rfl, ?_⟩
  rintro ⟨d, there, denotes⟩
  cases there
  cases denotes

end Bytecode.Analysis
