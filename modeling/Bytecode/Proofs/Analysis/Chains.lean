import Bytecode.Proofs.Analysis.Accumulation
import Bytecode.Proofs.Analysis.Constants

/-!
# Literals of builder chains

The analysis takes the text of a builder from the buffer as its own loop has filled it. That is the
text of every run, if each builder whose text is taken is followed from its allocation along one line
of instructions on which the analysis knows all that happens to it: `Followed`. Behind a copy the
builder goes on as the copy or as the original, but not as both; every call on the line is a
`KnownCall`; and nobody else takes the text of a builder.

`built_literals_sound` says that then all literals are the values of all runs. The invariant of a run
is that there is a frame for its position which describes the activation, where the followed builders
of the frame stand for objects with the texts of their buffers: `Standing`. What a visit does to the
buffers and what the machine does to the objects is compared in `advances`.

Without the conditions literals can be wrong: `stale_literal` drops the result of an `append` to a
builder that is kept in a local variable, and the analysis reports the text from before.
-/

namespace Bytecode.Analysis

open Machine

/-! ## Choices of builders -/

/-- Whether a node makes a text of its operands. -/
def concatenates : Node → Bool
  | .call _ owner _ _ _ => owner == concatHelpers || owner == "java/lang/String"
  | .dynamicCall _ _ bootstrap _ => bootstrap.owner == concatFactory
  | _ => false

/-- Whether a node shows the text of a builder. -/
def showsBuilder : Node → Bool
  | .call _ owner name _ _ => owner == builderClass && name == "toString"
  | _ => false

namespace Visit

variable (follows : Nat → BufferId → Prop) (v : Visit)

/-- The followed builders of the frame before a visit. -/
def Before (i : BufferId) : Prop :=
  follows v.position i ∧ v.before.Holds i

/-- The followed builders of the frame behind a visit. -/
def Behind (i : BufferId) : Prop :=
  follows (v.position + 1) i ∧ v.after.Holds i

/-- The followed builders behind a visit whose buffers are new. -/
def Begun (i : BufferId) : Prop :=
  v.Behind follows i ∧ v.store.buffers.texts.size ≤ i.val

/-- The literals of the values that a node takes, if all are known. -/
def literals? (node : Node) : Option (List Literal) :=
  (takenValues v.before node).mapM Value.literal

/-- A call of a builder is known, or no builder is followed on behind it and it shows no text. -/
def Calls (node : Node) : Prop :=
  callsBuilder node = true →
    (∃ ls ∈ v.literals? node, KnownCall (v.Before follows) v.store.buffers ls node) ∨
      ¬v.after.Has (follows (v.position + 1)) ∧ (showsBuilder node = true → v.literals? node = none)

/-- A builder that is a copy is followed instead of the original, which is the only builder that is
copied there. -/
def HandsOver (node : Node) : Prop :=
  ∀ j ∈ v.after.builders, v.Begun follows j → ∀ x ∈ copied v.before node, ∀ i ∈ x.builder?,
    v.Before follows i ∧ ¬v.Behind follows i ∧
      ∀ y ∈ copied v.before node, ∀ k ∈ y.builder?, k = i

/-- At most one new builder is followed on. -/
def BeginsOne : Prop :=
  ∀ i ∈ v.after.builders, v.Begun follows i → ∀ j ∈ v.after.builders, v.Begun follows j → i = j

/-- No builder is made part of a text by another call. -/
def Concatenates (node : Node) : Prop :=
  concatenates node = true → v.literals? node = none ∨ ∀ x ∈ takenValues v.before node, x.builder? = none

end Visit

/-- A choice of builders on a line, on which the analysis knows all that happens to them. -/
structure Followed (ctx : Context) (visits : List Visit) (follows : Nat → BufferId → Prop) : Prop
    extends Line ctx visits follows where
  calls : ∀ v ∈ visits, ∀ insn ∈ ctx.body[v.position]?, v.Calls follows insn.node
  handsOver : ∀ v ∈ visits, ∀ insn ∈ ctx.body[v.position]?, v.HandsOver follows insn.node
  beginsOne : ∀ v ∈ visits, v.BeginsOne follows
  concatenates : ∀ v ∈ visits, ∀ insn ∈ ctx.body[v.position]?, v.Concatenates insn.node

section

variable (follows : Nat → BufferId → Prop) [∀ k, DecidablePred (follows k)] (v : Visit)

instance : DecidablePred (v.Before follows) :=
  fun _ => inferInstanceAs (Decidable (_ ∧ _))

instance : DecidablePred (v.Behind follows) :=
  fun _ => inferInstanceAs (Decidable (_ ∧ _))

instance : DecidablePred (v.Begun follows) :=
  fun _ => inferInstanceAs (Decidable (_ ∧ _))

instance (node : Node) : Decidable (v.Calls follows node) :=
  inferInstanceAs (Decidable (_ → _))

instance (node : Node) : Decidable (v.HandsOver follows node) :=
  inferInstanceAs (Decidable (∀ j ∈ _, _))

instance : Decidable (v.BeginsOne follows) :=
  inferInstanceAs (Decidable (∀ i ∈ _, _))

instance (node : Node) : Decidable (v.Concatenates node) :=
  inferInstanceAs (Decidable (_ → _))

end

/-- A call of another class that is folded makes a text of its operands. -/
theorem concatenates_of_folds {node : Node} {ls : List Literal} {s s' : Store} {l : Literal}
    (quiet : callsBuilder node = false) (folds : Transfer.callLiteral node ls s = (some l, s')) :
    concatenates node = true := by
  cases node with
  | call op owner name descriptor isInterface =>
    simp only [Transfer.callLiteral] at folds
    rw [concatenates, Bool.or_eq_true]
    split at folds
    · next same =>
      rw [same] at quiet
      cases quiet
    · split at folds
      · next helper => exact .inl (beq_iff_eq.mpr helper.1)
      · split at folds
        · next text => exact .inr (beq_iff_eq.mpr text.1)
        · cases folds
  | dynamicCall name descriptor bootstrap constants =>
    simp only [Transfer.callLiteral] at folds
    split at folds
    · next factory => exact beq_iff_eq.mpr factory
    · cases folds
  | _ => cases folds

/-- An allocation and a call always ask. -/
theorem asks_of_type {name : String} {a : Activation} {eff : Effect}
    (h : effect (.type Opcode.new name) a = some eff) : ∃ taken reply b, eff = .ask taken reply b := by
  have known : operands (.type Opcode.new name) = some [] := rfl
  rw [effect_of_operands known] at h
  obtain ⟨taken, stack, act, -, acts, rfl⟩ := operandEffect_eq_some h
  cases acts
  exact ⟨_, _, _, rfl⟩

theorem asks_of_call {node : Node} {a : Activation} {eff : Effect} (calls : callsBuilder node = true)
    (h : effect node a = some eff) : ∃ taken reply b, eff = .ask taken reply b := by
  cases node with
  | call op owner name descriptor isInterface =>
    cases known : operands (.call op owner name descriptor isInterface) with
    | none =>
      unfold effect at h
      rw [known] at h
      cases h
    | some kinds =>
      rw [effect_of_operands known] at h
      obtain ⟨taken, stack, act, -, acts, rfl⟩ := operandEffect_eq_some h
      obtain ⟨d, -, rfl⟩ := Option.map_eq_some_iff.mp acts
      exact ⟨_, _, _, rfl⟩
  | _ => cases calls

/-- Literals of described values mean the data. -/
theorem means_of_mapM {stands : BufferId → Ref → Prop} {vs : List Value} {ds : List Datum}
    {ls : List Literal} (described : DescribeAll stands vs ds) (h : vs.mapM Value.literal = some ls) :
    List.Forall₂ (Means stands) ls ds := by
  have literals := forall₂_of_mapM h
  clear h
  induction described generalizing ls with
  | nil =>
    cases literals
    exact .nil
  | cons first _ ih =>
    cases literals with
    | cons known rest =>
      obtain ⟨d, same, means⟩ := first.literal _ known
      cases same
      exact .cons means (ih rest)

/-- A simulated call of a builder has the buffers that its folding leaves. -/
theorem folds_of_execute {f g : Frame} {body : Body} {index : Nat} {insn : Insn} {s s' : Store}
    {a : Activation} {eff : Effect} {ls : List Literal} (calls : callsBuilder insn.node = true)
    (goes : effect insn.node a = some eff) (run : f.execute body index insn s = .ok (g, s'))
    (literals : (takenValues f insn.node).mapM Value.literal = some ls) :
    ∃ s₁ s₂ o, s₁.buffers = s.buffers ∧ s'.buffers = s₂.buffers ∧
      Transfer.callLiteral insn.node ls s₁ = (o, s₂) := by
  obtain ⟨taken, reply, b, rfl⟩ := asks_of_call calls goes
  obtain ⟨kinds, known, -⟩ := operandEffect_of_ask goes
  rw [Frame.execute_eq_apply known] at run
  obtain ⟨-, o, result, -⟩ := Frame.apply_eq_ok run
  rw [takenValues, known] at literals
  have call : Transfer.call insn (f.stack.take kinds.length).reverse s = (o, s') := by
    obtain ⟨id, node⟩ := insn
    cases node with
    | call => exact result
    | _ => cases calls
  obtain ⟨s₁, s₂, literal, same, after, folds, -⟩ := call_eq call
  have literals : (f.stack.take kinds.length).reverse.mapM Value.literal = some ls := literals
  rw [literals] at folds
  exact ⟨s₁, s₂, literal, same, after, folds⟩

/-! ## One instruction -/

/-- What the surroundings do while an instruction takes effect: they answer if it asks, and stay as
they are otherwise. -/
inductive Replies {W : Type} (env : Environment W) (node : Node) : Effect → Option Datum → W → W → Prop
  | silent {eff w} (quiet : ∀ taken reply b, eff ≠ .ask taken reply b) : Replies env node eff none w w
  | answered {taken reply b v w w'} (answer : env.answers node taken w (.returned v) w') :
      Replies env node (.ask taken reply b) v w w'

/-- The addresses of builders after new ones have been given some. -/
def extended (n : Nat) (address given : BufferId → Nat → Prop) (i : BufferId) (k : Nat) : Prop :=
  i.val < n ∧ address i k ∨ n ≤ i.val ∧ given i k

/-- Builders that had an address before stand for the same object. -/
theorem standing_extended {n : Nat} {address given : BufferId → Nat → Prop} {i : BufferId} {r : Ref}
    (inside : i.val < n) : standing (extended n address given) i r ↔ standing address i r := by
  constructor
  · exact fun h k there => h k (.inl ⟨inside, there⟩)
  · rintro h k (⟨-, there⟩ | ⟨outside, -⟩)
    · exact h k there
    · omega

/-- A visit simulates the instruction at its position, as far as an analysis tells. -/
structure Visit.Simulates (ctx : Context) (v : Visit) (insn : Insn) : Prop where
  there : ctx.body[v.position]? = some insn
  recorded : ∃ made, Recorded True made v.store ∧ v.before.Made made
  executed : v.before.execute ctx.body v.position insn v.store = .ok (v.after, v.storeAfter)
  lent : ∀ b, v.before.Holds b → b.val < v.store.buffers.texts.size
  plain : PlainReturn insn.node
  sized : ∀ x ∈ v.before.stack.take (sizedEntries insn.node), x.kind ≠ .uninitialized

section

variable {W : Type} {env : Environment W} {contents : W → Nat → Option (List Nat)} {ctx : Context}
  {visits : List Visit} {follows : Nat → BufferId → Prop} {v : Visit} {insn : Insn}
  {address : BufferId → Nat → Prop} {w w' : W} {a : Activation} {eff : Effect} {answer : Option Datum}

/-- The frame behind a simulated instruction describes what the instruction does. -/
theorem Visit.Simulates.describes {stands : BufferId → Ref → Prop} (simulates : v.Simulates ctx insn)
    (described : v.before.Describes stands a)
    (expected : Expected stands insn.node (takenValues v.before insn.node) v.store.buffers answer)
    (renews : Renews stands v.store.buffers.texts.size (copied v.before insn.node))
    (goes : effect insn.node a = some eff) : EffectDescribes stands insn.node answer v.after eff := by
  obtain ⟨made, recorded, hmade⟩ := simulates.recorded
  exact execute_describes described recorded hmade simulates.plain expected simulates.sized
    (.inr renews) simulates.executed goes

/-- The builders before a visit stand for the same objects when new ones have got addresses. -/
theorem Visit.Simulates.extended (simulates : v.Simulates ctx insn) {given : BufferId → Nat → Prop}
    (described : v.before.Describes (standing address) a) :
    v.before.Describes (standing (extended v.store.buffers.texts.size address given)) a :=
  described.weaken fun i _ held => (standing_extended (simulates.lent i held)).mpr

/-- A followed builder that is not new was followed before. -/
theorem Line.before_of_behind (line : Line ctx visits follows) (hv : v ∈ visits)
    (simulates : v.Simulates ctx insn) {i : BufferId} (behind : v.Behind follows i)
    (old : i.val < v.store.buffers.texts.size) : v.Before follows i := by
  have before : v.before.Holds i :=
    ((execute_lends simulates.executed).held i behind.2).resolve_right fun new => by omega
  exact ⟨line.begins v hv i (Frame.mem_builders.mpr before) behind.2 behind.1, before⟩

/-- The texts behind an instruction that calls no builder. -/
theorem Followed.collected (followed : Followed ctx visits follows) (hv : v ∈ visits)
    (simulates : v.Simulates ctx insn)
    (collected : Collected contents address (v.Before follows) v.store.buffers w)
    (quiet : callsBuilder insn.node = false)
    (keeps : ∀ k text, contents w k = some text → contents w' k = some text)
    {given : BufferId → Nat → Prop}
    (placed : ∀ j, v.Begun follows j → ∃ k, given j k)
    (texts : ∀ j k, v.Begun follows j → given j k →
      contents w' k = some (unitsOf (v.storeAfter.buffers.contents j)))
    (apart : ∀ i j k, v.Behind follows i → v.Before follows i → address i k → v.Begun follows j →
      ¬given j k) :
    Collected contents (extended v.store.buffers.texts.size address given) (v.Behind follows)
      v.storeAfter.buffers w' := by
  have lends := execute_lends simulates.executed
  have former {i : BufferId} (behind : v.Behind follows i) (old : i.val < v.store.buffers.texts.size) :=
    followed.toLine.before_of_behind hv simulates behind old
  refine ⟨fun i behind => ?_, fun i k behind there => ?_, fun i j k hi hj there there' => ?_⟩
  · by_cases old : i.val < v.store.buffers.texts.size
    · obtain ⟨k, there⟩ := collected.placed i (former behind old)
      exact ⟨k, .inl ⟨old, there⟩⟩
    · obtain ⟨k, there⟩ := placed i ⟨behind, Nat.not_lt.mp old⟩
      exact ⟨k, .inr ⟨Nat.not_lt.mp old, there⟩⟩
  · rcases there with ⟨old, there⟩ | ⟨begun, there⟩
    · have same := (lends.extends_.contents i old).resolve_left fun changes => by
        cases quiet.symm.trans changes.1
      rw [same]
      exact keeps k _ (collected.texts i k (former behind old) there)
    · exact texts i k ⟨behind, begun⟩ there
  · rcases there with ⟨old, there⟩ | ⟨begun, there⟩ <;> rcases there' with ⟨old', there'⟩ | ⟨begun', there'⟩
    · exact collected.apart i j k (former hi old) (former hj old') there there'
    · exact absurd there' (apart i j k hi (former hi old) there ⟨hj, begun'⟩)
    · exact absurd there (apart j i k hj (former hj old') there' ⟨hi, begun⟩)
    · exact followed.beginsOne v hv i (Frame.mem_builders.mpr hi.2) ⟨hi, begun⟩ j
        (Frame.mem_builders.mpr hj.2) ⟨hj, begun'⟩

/-- What a step does to the followed builders: they have the texts of objects behind it, and the frame
behind the instruction describes what the effect leads to. -/
def Advances (contents : W → Nat → Option (List Nat)) (follows : Nat → BufferId → Prop) (v : Visit)
    (node : Node) (eff : Effect) (answer : Option Datum) (w' : W) : Prop :=
  ∃ address, Collected contents address (v.Behind follows) v.storeAfter.buffers w' ∧
    EffectDescribes (standing address) node answer v.after eff

variable (followed : Followed ctx visits follows) (hv : v ∈ visits) (simulates : v.Simulates ctx insn)
  (described : v.before.Describes (standing address) a)
  (collected : Collected contents address (v.Before follows) v.store.buffers w)
  (goes : effect insn.node a = some eff) (replies : Replies env insn.node eff answer w w')

include followed hv simulates described collected goes replies

/-- An allocation of a builder. -/
theorem advances_of_allocation (builds : env.Builds contents)
    (allocates : insn.node = .type Opcode.new builderClass) :
    Advances contents follows v insn.node eff answer w' := by
  have lends := execute_lends simulates.executed
  have quiet : callsBuilder insn.node = false := by rw [allocates]; rfl
  have nothing : copied v.before insn.node = [] := by rw [allocates]; rfl
  have answered : ∃ operands, env.answers insn.node operands w (.returned answer) w' := by
    cases replies with
    | silent asks =>
      obtain ⟨taken, reply, b, rfl⟩ := asks_of_type (allocates ▸ goes)
      exact absurd rfl (asks _ _ _)
    | answered answer => exact ⟨_, answer⟩
  obtain ⟨operands, answered⟩ := answered
  obtain ⟨k, rfl, unused, fresh⟩ := builds.allocated (allocates ▸ answered)
  have bound {j : BufferId} (begun : v.Begun follows j) : j.val < v.storeAfter.buffers.texts.size := by
    rcases lends.held j begun.1.2 with held | ⟨-, inside⟩
    · exact Nat.lt_of_lt_of_le (simulates.lent j held) lends.extends_.size
    · exact inside
  refine ⟨extended v.store.buffers.texts.size address fun _ k' => k' = k, ?_, ?_⟩
  · refine followed.collected hv simulates collected quiet (fun k' text there => ?_)
      (fun j _ => ⟨k, rfl⟩) (fun j k' begun same => ?_) fun i j k' _ before there _ same => ?_
    · exact builds.kept answered k' text there fun calls => by cases quiet.symm.trans calls
    · subst same
      rcases lends.extends_.fresh j begun.2 (bound begun) with changes | ⟨-, empty⟩ | ⟨x, member, -⟩
      · cases quiet.symm.trans changes.1
      · rw [empty]
        exact fresh
      · rw [nothing] at member
        cases member
    · subst same
      cases unused.symm.trans (collected.texts i k' before there)
  · refine simulates.describes (simulates.extended described) ⟨fun _ r same i outside k' there => ?_, ?_⟩
      ?_ goes
    · rcases there with ⟨inside, -⟩ | ⟨-, rfl⟩
      · omega
      · cases same
        rfl
    · intro ls s l s' _ _ folds
      rw [allocates] at folds
      cases folds
    · rw [nothing]
      exact fun _ member => absurd member List.not_mem_nil

/-- An instruction that neither allocates nor calls a builder. -/
theorem advances_of_other (faithful : env.Faithful) (builds : env.Builds contents)
    (quiet : callsBuilder insn.node = false) (ordinary : insn.node ≠ .type Opcode.new builderClass) :
    Advances contents follows v insn.node eff answer w' := by
  have lends := execute_lends simulates.executed
  have handed := followed.handsOver v hv insn simulates.there
  let given (j : BufferId) (k : Nat) : Prop :=
    v.Begun follows j ∧ ∃ x ∈ copied v.before insn.node, ∃ i ∈ x.builder?, address i k
  -- a builder that is followed on from here is the copy of another one
  have original {j : BufferId} (begun : v.Begun follows j) :
      ∃ x ∈ copied v.before insn.node, ∃ i ∈ x.builder?, v.Before follows i ∧
        v.storeAfter.buffers.contents j = v.store.buffers.contents i := by
    have inside := ((lends.held j begun.1.2).resolve_left fun held => by
      have := simulates.lent j held
      have := begun.2
      omega).2
    rcases lends.extends_.fresh j begun.2 inside with changes | ⟨allocates, -⟩ | ⟨x, member, i, builder, text⟩
    · cases quiet.symm.trans changes.1
    · exact absurd allocates ordinary
    · have there : i ∈ x.builder? := Value.builder?_eq_some.mpr builder
      have before := (handed j (Frame.mem_builders.mpr begun.1.2) begun x member i there).1
      exact ⟨x, member, i, there, before, text (simulates.lent i before.2)⟩
  have same {j : BufferId} (begun : v.Begun follows j) {x y : Value} (hx : x ∈ copied v.before insn.node)
      (hy : y ∈ copied v.before insn.node) {i k : BufferId} (hi : i ∈ x.builder?) (hk : k ∈ y.builder?) :
      k = i :=
    (handed j (Frame.mem_builders.mpr begun.1.2) begun x hx i hi).2.2 y hy k hk
  have keeps (k : Nat) (text : List Nat) (there : contents w k = some text) :
      contents w' k = some text := by
    cases replies with
    | silent => exact there
    | answered answer =>
      exact builds.kept answer k text there fun calls => absurd calls (ne_true_of_eq_false quiet)
  refine ⟨extended v.store.buffers.texts.size address given, ?_, ?_⟩
  · refine followed.collected hv simulates collected quiet keeps (fun j begun => ?_)
      (fun j k begun there => ?_) fun i j k behind before there begun there' => ?_
    · obtain ⟨x, member, i, builder, before, -⟩ := original begun
      obtain ⟨k, there⟩ := collected.placed i before
      exact ⟨k, begun, x, member, i, builder, there⟩
    · obtain ⟨x, member, i, builder, before, text⟩ := original begun
      obtain ⟨-, y, member', i', builder', there⟩ := there
      obtain rfl := same begun member member' builder builder'
      rw [text]
      exact keeps k _ (collected.texts i' k before there)
    · obtain ⟨-, x, member, i', builder, there'⟩ := there'
      have moved := handed j (Frame.mem_builders.mpr begun.1.2) begun x member i' builder
      have one := collected.apart i i' k before moved.1 there there'
      exact moved.2.1 (one ▸ behind)
  · refine simulates.describes (simulates.extended described) ?_ ?_ goes
    · cases replies with
      | silent => exact expected_none
      | answered answer =>
        refine expected_of_plainly (absurd · ordinary)
          (takenValues_describe (simulates.extended described) goes) ?_ (faithful answer)
        intro ls s l s' literals _ folds
        have free := (followed.concatenates v hv insn simulates.there (concatenates_of_folds quiet folds))
          |>.resolve_left fun none => by cases none.symm.trans literals
        refine .inl fun x member i builder => ?_
        cases (free x member).symm.trans (Value.builder?_eq_some.mpr builder)
    · intro x member i j builder new r stands k there
      have held : v.before.Holds i := by
        rcases mem_of_copied member with slot | entry
        · exact Frame.holds_of_locals slot builder
        · exact Frame.holds_of_stack entry builder
      rcases there with ⟨inside, -⟩ | ⟨-, begun, y, member', i', builder', there⟩
      · omega
      · obtain rfl := same begun member member' (Value.builder?_eq_some.mpr builder) builder'
        exact stands k (.inl ⟨simulates.lent i' held, there⟩)

/-- A known call of a builder. -/
theorem advances_of_known (builds : env.Builds contents) (calls : callsBuilder insn.node = true)
    {ls : List Literal} (literals : v.literals? insn.node = some ls)
    (known : KnownCall (v.Before follows) v.store.buffers ls insn.node) :
    Advances contents follows v insn.node eff answer w' := by
  have nothing : copied v.before insn.node = [] := by
    cases here : insn.node with
    | call => rfl
    | _ =>
      rw [here] at calls
      cases calls
  have ordinary : insn.node ≠ .type Opcode.new builderClass := fun allocates => by
    rw [allocates] at calls
    cases calls
  cases replies with
  | silent asks =>
    obtain ⟨taken, reply, b, rfl⟩ := asks_of_call calls goes
    exact absurd rfl (asks _ _ _)
  | answered answer =>
    have means := means_of_mapM (takenValues_describe described goes) literals
    have agrees {s s' : Store} {o : Option Literal} (same : s.buffers = v.store.buffers)
        (folds : Transfer.callLiteral insn.node ls s = (o, s')) :=
      collected_of_call builds collected (fun i before => simulates.lent i before.2) calls known means
        same folds answer
    refine ⟨address, ?_, simulates.describes described ⟨fun allocates => absurd allocates ordinary, ?_⟩ ?_ goes⟩
    · obtain ⟨s₁, s₂, o, same, after, folds⟩ := folds_of_execute calls goes simulates.executed literals
      have collected' := (agrees same folds).1
      -- the call allots no buffer, so every followed builder was followed before
      have lends := execute_lends simulates.executed
      have size := lends.extends_.same fun allots => by
        rcases allots with allocates | ⟨-, x, member, -⟩
        · exact ordinary allocates
        · rw [nothing] at member
          cases member
      have former {i : BufferId} (behind : v.Behind follows i) : v.Before follows i := by
        refine followed.toLine.before_of_behind hv simulates behind ?_
        rcases lends.held i behind.2 with held | ⟨-, inside⟩
        · exact simulates.lent i held
        · exact size ▸ inside
      rw [after]
      exact ⟨fun i behind => collected'.placed i (former behind),
        fun i k behind => collected'.texts i k (former behind),
        fun i j k hi hj => collected'.apart i j k (former hi) (former hj)⟩
    · intro ls' s l s' literals' same folds d answered _
      cases literals.symm.trans literals'
      exact (agrees same folds).2 l d rfl answered
    · rw [nothing]
      exact fun _ member => absurd member List.not_mem_nil

omit followed hv collected in
/-- A call of a builder behind which none is followed. -/
theorem advances_of_unknown (faithful : env.Faithful) (calls : callsBuilder insn.node = true)
    (gone : ¬v.after.Has (follows (v.position + 1)))
    (mute : showsBuilder insn.node = true → v.literals? insn.node = none) :
    Advances contents follows v insn.node eff answer w' := by
  have free : Free (standing fun _ _ => False) := fun _ _ _ there => there.elim
  have away (i : BufferId) : ¬v.Behind follows i := fun behind => gone ⟨i, behind⟩
  refine ⟨fun _ _ => False, ⟨fun i behind => absurd behind (away i), fun i _ behind => absurd behind (away i),
    fun i _ _ behind => absurd behind (away i)⟩, ?_⟩
  have described := described.weaken fun i r _ _ => free i r
  refine simulates.describes described ?_ (renews_of_free free) goes
  cases replies with
  | silent => exact expected_none
  | answered answer =>
    refine expected_of_plainly (fun _ => free) (takenValues_describe described goes) ?_ (faithful answer)
    intro ls s l s' literals _ folds
    refine .inr ⟨?_, free⟩
    rcases callLiteral_cases folds with ⟨op, name, descriptor, isInterface, node, folds⟩ | ⟨foreign, -, -⟩
    · generalize s'.buffers = b' at folds
      cases folds with
      | text named =>
        have shows : showsBuilder insn.node = true := by
          simp [showsBuilder, node, named]
        cases (mute shows).symm.trans literals
      | add => rfl
    · cases foreign.symm.trans calls

/-- **One step.** Whatever an instruction does and the surroundings answer, the followed builders have
the texts of objects behind it, and the frame behind it describes what the effect leads to. -/
theorem advances (faithful : env.Faithful) (builds : env.Builds contents) :
    Advances contents follows v insn.node eff answer w' := by
  by_cases allocates : insn.node = .type Opcode.new builderClass
  · exact advances_of_allocation followed hv simulates described collected goes replies builds allocates
  · cases calls : callsBuilder insn.node with
    | false =>
      exact advances_of_other followed hv simulates described collected goes replies faithful builds
        calls allocates
    | true =>
      rcases followed.calls v hv insn simulates.there calls with ⟨ls, literals, known⟩ | ⟨gone, mute⟩
      · exact advances_of_known followed hv simulates described collected goes replies builds calls
          literals known
      · exact advances_of_unknown simulates described goes replies faithful
          calls gone mute

end

/-! ## Runs -/

section

variable {W : Type} {env : Environment W} {contents : W → Nat → Option (List Nat)} {body : Body}
  {positions : LabelPositions} {ranges : List CoveredRange} {visits : List Visit}
  {follows : Nat → BufferId → Prop} {frames : Nat → Option Frame} {entry : Frame}

/-- There is a frame for a point of a run, and it describes the activation. Its followed builders stand
for objects with the texts that a visit of the position finds. -/
def Standing (contents : W → Nat → Option (List Nat)) (visits : List Visit)
    (follows : Nat → BufferId → Prop) (frames : Nat → Option Frame) (c : Config W) : Prop :=
  ∃ f address, frames c.pc = some f ∧ f.Describes (standing address) c.activation ∧
    ∀ v ∈ visits, v.position = c.pc → v.before = f →
      Collected contents address (v.Before follows) v.store.buffers c.world

/-- A frame without followed builders says nothing about builders. -/
theorem standing_of_arrives {target : Nat} {incoming : Frame} {stands : BufferId → Ref → Prop}
    {a : Activation} {w : W} (arrives : Arrives frames target incoming)
    (described : incoming.Describes stands a)
    (free : ∀ f, frames target = some f → ¬f.Has (follows target)) :
    Standing contents visits follows frames ⟨target, a, w⟩ := by
  obtain ⟨f, there, below⟩ := arrives
  have none (v : Visit) (here : v.position = target) (before : v.before = f) (i : BufferId) :
      ¬v.Before follows i := fun ⟨followed, held⟩ => free f there ⟨i, here ▸ followed, before ▸ held⟩
  refine ⟨f, fun _ _ => False, there, ?_, fun v _ here before => ⟨fun i live => ?_, fun i _ live => ?_,
    fun i _ _ live => ?_⟩⟩
  · exact described.forget below fun _ _ _ there => there.elim
  · exact absurd live (none v here before i)
  · exact absurd live (none v here before i)
  · exact absurd live (none v here before i)

/-- The successors of a position whose edges are known. -/
theorem successorsAt_eq {i : Nat} {insn : Insn} {targets : List Nat} (there : body[i]? = some insn)
    (edges : body.successors positions Flow.always i insn.node = .ok targets) :
    Context.successorsAt ⟨body, positions, ranges⟩ i = targets := by
  rw [Context.successorsAt, there, Option.bind_some, edges]
  rfl

section

variable (followed : Followed ⟨body, positions, ranges⟩ visits follows)
  (traced : Traced visits follows frames) {v : Visit} (hv : v ∈ visits)

include followed traced hv

/-- A visit that leaves no followed builder leads to no frame with one. -/
theorem free_of_successor {k : Nat} (leads : k ∈ Context.successorsAt ⟨body, positions, ranges⟩ v.position)
    (free : ¬v.after.Has (follows (v.position + 1))) (f : Frame) (there : frames k = some f) :
    ¬f.Has (follows k) := by
  intro has
  obtain ⟨u, hu, rfl, rfl⟩ := traced.behind k f there has
  have same := followed.only u hu has v hv leads
  rw [← eq_of_once (followed.once u hu (.inr has)) hv hu same] at has
  exact free has

/-- A handler has no frame with a followed builder. -/
theorem free_of_handler {k : Nat} (handled : k ∈ Context.handlersAt ⟨body, positions, ranges⟩ v.position)
    (f : Frame) (there : frames k = some f) : ¬f.Has (follows k) := by
  intro has
  obtain ⟨u, hu, rfl, rfl⟩ := traced.behind k f there has
  exact followed.unhandled u hu has v hv handled

/-- What a visit leaves arrives at a successor together with the texts of the followed builders. -/
theorem standing_of_successor {k : Nat}
    (leads : k ∈ Context.successorsAt ⟨body, positions, ranges⟩ v.position)
    (arrives : Arrives frames k v.after) {address : BufferId → Nat → Prop} {b : Activation} {w : W}
    (collected : Collected contents address (v.Behind follows) v.storeAfter.buffers w)
    (described : v.after.Describes (standing address) b) :
    Standing contents visits follows frames ⟨k, b, w⟩ := by
  by_cases has : v.after.Has (follows (v.position + 1))
  · rw [followed.onward v hv has, List.mem_singleton] at leads
    subst leads
    refine ⟨v.after, address, traced.kept v hv has, described, fun u hu next before => ?_⟩
    have next : u.position = v.position + 1 := next
    have behind {i : BufferId} (live : u.Before follows i) : v.Behind follows i :=
      ⟨next ▸ live.1, before ▸ live.2⟩
    refine ⟨fun i live => collected.placed i (behind live), fun i k live there => ?_,
      fun i j k hi hj => collected.apart i j k (behind hi) (behind hj)⟩
    rw [traced.texts v hv u hu i (behind live).1 (behind live).2 next]
    exact collected.texts i k (behind live) there
  · exact standing_of_arrives arrives described (free_of_successor followed traced hv leads has)

end

/-- One step of a run goes from a described activation to a described one. -/
theorem standing_of_step (fixpoint : PostFixpoint True ⟨body, positions, ranges⟩ visits entry frames)
    (followed : Followed ⟨body, positions, ranges⟩ visits follows) (traced : Traced visits follows frames)
    (faithful : env.Faithful) (builds : env.Builds contents)
    (plain : ∀ insn ∈ body, PlainReturn insn.node) (sized : Sized body frames) {c d : Config W}
    (h : Standing contents visits follows frames c)
    (step : Machine.Step env ⟨body, positions, ranges⟩ c d) :
    Standing contents visits follows frames d := by
  obtain ⟨f, address, there, described, live⟩ := h
  obtain @⟨insn, made, store, after, storeAfter, targets, at_position, recorded, hmade, executed, edges,
    arrives, handled, visited⟩ := fixpoint.settled _ f there
  have collected := live _ visited rfl rfl
  have simulates : Visit.Simulates ⟨body, positions, ranges⟩ ⟨c.pc, f, store, after, storeAfter⟩ insn :=
    ⟨at_position, ⟨made, recorded, hmade⟩, executed, traced.lent _ visited,
      plain _ (Array.mem_of_getElem? at_position), sized _ _ f at_position there⟩
  have same {other : Insn} (at_pc : body[c.pc]? = some other) : insn = other :=
    Option.some.inj (at_position.symm.trans at_pc)
  have successors : Context.successorsAt ⟨body, positions, ranges⟩ c.pc = targets :=
    successorsAt_eq at_position edges
  have advances {eff : Effect} {answer : Option Datum} {w' : W}
      (goes : effect insn.node c.activation = some eff)
      (replies : Replies env insn.node eff answer c.world w') :=
    advances followed visited simulates described collected goes replies faithful builds
  cases step with
  | next at_pc goes =>
    obtain rfl := same at_pc
    obtain ⟨address', collected', result⟩ := advances goes (.silent nofun)
    have next := mem_successors_of_next edges (fallsThrough_of_effect goes trivial)
    exact standing_of_successor followed traced visited (successors ▸ next) (arrives _ next) collected' result
  | jump at_pc goes found =>
    obtain rfl := same at_pc
    obtain ⟨address', collected', member, result⟩ := advances goes (.silent nofun)
    have target := mem_successors_of_target edges member found
    exact standing_of_successor followed traced visited (successors ▸ target) (arrives _ target) collected'
      result
  | answered at_pc asks answer pushed =>
    obtain rfl := same at_pc
    obtain ⟨address', collected', result⟩ := advances asks (.answered answer)
    have next := mem_successors_of_next edges (fallsThrough_of_effect asks trivial)
    exact standing_of_successor followed traced visited (successors ▸ next) (arrives _ next) collected'
      (result _ pushed)
  | caught raised taken =>
    obtain ⟨r, found, rfl⟩ := Option.map_eq_some_iff.mp taken
    have covers := List.find?_some found
    rw [Bool.and_eq_true] at covers
    have member := List.mem_of_find?_eq_some found
    obtain ⟨s₁, entry, s₂, handler, arrives⟩ := handled r member covers.1
    refine standing_of_arrives arrives (handlerFrame_describes described handler)
      (free_of_handler followed traced visited ?_)
    exact List.mem_map.mpr ⟨r, List.mem_filter.mpr ⟨member, covers.1⟩, rfl⟩

/-- Every point that a run reaches has a frame that describes it. -/
theorem standing_of_reaches (fixpoint : PostFixpoint True ⟨body, positions, ranges⟩ visits entry frames)
    (followed : Followed ⟨body, positions, ranges⟩ visits follows) (traced : Traced visits follows frames)
    (faithful : env.Faithful) (builds : env.Builds contents)
    (plain : ∀ insn ∈ body, PlainReturn insn.node) (sized : Sized body frames) {c d : Config W}
    (h : Standing contents visits follows frames c)
    (reaches : Reaches env ⟨body, positions, ranges⟩ c d) :
    Standing contents visits follows frames d := by
  induction reaches with
  | refl => exact h
  | tail _ step ih =>
    exact standing_of_step fixpoint followed traced faithful builds plain sized ih step

end

/-! ## The result -/

/-- A literal that is no builder denotes what it means. -/
theorem Means.denotes {stands : BufferId → Ref → Prop} {l : Literal} {d : Datum} (h : Means stands l d)
    (plain : l.isBuilder = false) : Denotes l d := by
  cases h with
  | plain denotes => exact denotes
  | builder => cases plain

/-- **Literals of builder chains are the values of all runs.** When a run stands before an instruction,
there is a frame for it, and every literal in a stack entry or in a local variable of the frame stands
for what the run has there, the texts of builders among them. Each builder whose text the analysis
takes is followed along a line, no class name in a return type contains a closing parenthesis, and
instructions that tell words from double words find known kinds. -/
theorem built_literals_sound {W : Type} {env : Environment W} {contents : W → Nat → Option (List Nat)}
    {owner : String} {m : Method} {r : Frames} {code : Code} {follows : Nat → BufferId → Prop}
    {arguments : List Datum} {w : W} {c : Config W} {insn : Insn}
    (analyzed : analyze owner m = .ok r) (executed : codeOf? m = some code)
    (faithful : env.Faithful) (builds : env.Builds contents)
    (plain : ∀ insn ∈ m.body, PlainReturn insn.node) (sized : Sized m.body r.frameAt)
    (followed : Followed ⟨code.body, code.positions, code.ranges⟩ (visitsOf owner m) follows)
    (passed : parameterKinds m = some (arguments.map Datum.kind))
    (reaches : Reaches env code ⟨0, .ofArguments arguments, w⟩ c) (before : m.body[c.pc]? = some insn) :
    ∃ f, r.frameAt c.pc = some f ∧
      (∀ (depth : Nat) (v : Value) (l : Literal), f.stackAt? depth = some v → v.literal = some l →
        l.isBuilder = false → ∃ d, c.activation.stack[depth]? = some d ∧ Denotes l d) ∧
      ∀ (slot : Nat) (v : Value) (l : Literal), f.locals[slot]? = some v → v.literal = some l →
        l.isBuilder = false → ∃ d, c.activation.locals slot = some d ∧ Denotes l d := by
  have nonempty : 0 < m.body.size := Nat.zero_lt_of_lt (Array.getElem?_eq_some_iff.mp before).1
  obtain ⟨d, ranges, made, entry, count, parsed, covered, unknown, empty, fixpoint⟩ :=
    @postFixpoint_of_analyze _ _ _ True analyzed nonempty fun _ _ _ => trivial
  rw [entryKinds_eq_spread parsed] at unknown
  have kinds : arguments.map Datum.kind = (if m.isStatic then [] else [.reference]) ++ argumentKinds d := by
    rw [parameterKinds, parsed] at passed
    exact (Option.some.inj passed).symm
  rw [codeOf?, covered] at executed
  cases executed
  have traced := traced_of_analyze analyzed nonempty covered followed.toLine
  have free (f : Frame) (there : r.frameAt 0 = some f) : ¬f.Has (follows 0) := by
    intro has
    obtain ⟨u, -, next, -⟩ := traced.behind 0 f there has
    omega
  have starts : Standing contents (visitsOf owner m) follows r.frameAt ⟨0, .ofArguments arguments, w⟩ :=
    standing_of_arrives fixpoint.entry
      (show Frame.Describes (fun _ _ => False) _ _ from entry_describes unknown empty kinds) free
  obtain ⟨f, address, there, described, -⟩ :=
    standing_of_reaches fixpoint followed traced faithful builds plain sized starts reaches
  refine ⟨f, there, fun depth v l found known other => ?_, fun slot v l found known other => ?_⟩
  · obtain ⟨inside, rfl⟩ := List.getElem?_eq_some_iff.mp found
    have inside' : depth < c.activation.stack.length := described.stack.length_eq ▸ inside
    obtain ⟨e, same, means⟩ := (described.stack.get inside inside').literal l known
    cases same
    exact ⟨_, List.getElem?_eq_getElem inside', means.denotes other⟩
  · obtain ⟨e, same, means⟩ := (described.locals slot v found).literal l known
    exact ⟨e, same, means.denotes other⟩

/-! ## Samples -/

instance (node : Node) : Decidable (PlainReturn node) :=
  decidable_of_iff (∀ text ∈ callDescriptor? node, ∀ d ∈ (MethodDescriptor.parse text).toOption,
      ')' ∉ d.returnType.chars)
    ⟨fun h text d known parsed => h text known d (toOption_eq_some.mpr parsed),
      fun h text known d parsed => h text d known (toOption_eq_some.mp parsed)⟩

/-- A static method that appends a text to a builder from a local variable and returns what it shows. -/
def appendMethod : Method where
  id := ⟨0⟩
  access := 9
  name := "m"
  descriptor := "()Ljava/lang/String;"
  maxLocals := 1
  body := numbered [.type Opcode.new builderClass, .simple 0x59,
    .call 0xb7 builderClass "<init>" "()V" false, .var 0x3a 0, .var 0x19 0, .constant (.string "a"),
    .call 0xb6 builderClass "append" "(Ljava/lang/String;)Ljava/lang/StringBuilder;" false,
    .call 0xb6 builderClass "toString" "()Ljava/lang/String;" false, .simple 0xb0]

/-- The builder goes on as the copy in the local variable, and then as the copy on the stack. -/
def appendChain (position : Nat) (b : BufferId) : Prop :=
  b.val = if position ≤ 3 then 0 else if position = 4 then 1 else 2

instance (position : Nat) : DecidablePred (appendChain position) :=
  fun _ => inferInstanceAs (Decidable (_ = _))

theorem appendMethod_followed :
    Followed ⟨appendMethod.body, appendMethod.body.lastLabels, []⟩ (visitsOf "A" appendMethod) appendChain where
  once := by decide +kernel
  onward := by decide +kernel
  straight := by decide +kernel
  only := by decide +kernel
  unhandled := by decide +kernel
  uncovered := by decide +kernel
  begins := by decide +kernel
  calls := by decide +kernel
  handsOver := by decide +kernel
  beginsOne := by decide +kernel
  concatenates := by decide +kernel

/-- A call asks with its operands. -/
theorem effect_of_call {op : Opcode} {owner name descriptor : String} {isInterface : Bool}
    {d : MethodDescriptor} {kinds : List Kind} {a : Activation} {taken stack : List Datum}
    (parsed : (MethodDescriptor.parse descriptor).toOption = some d)
    (known : callOperands op d = some kinds) (took : take kinds a.stack = some (taken, stack)) :
    effect (.call op owner name descriptor isInterface) a =
      some (.ask taken (callReply d) { a with stack }) := by
  have kinds' : operands (.call op owner name descriptor isInterface) = some kinds := by
    rw [operands, parsed]
    exact known
  have acts : action (.call op owner name descriptor isInterface) taken = some (.ask (callReply d)) := by
    rw [action, parsed]
    rfl
  rw [effect_of_operands kinds', operandEffect, took]
  simp only [Option.bind_eq_bind, Option.bind_some, acts]
  rfl

/-- A run that allocates a builder, keeps it in a local variable and appends a text to it. -/
theorem appended_of_body (body : Body) (positions : LabelPositions) (ranges : List CoveredRange)
    (start : ∀ k < 7, (body[k]?).map Insn.node = (appendMethod.body[k]?).map Insn.node) :
    ∃ locals, locals 0 = some (.ref (.object 0)) ∧
      Reaches Environment.building ⟨body, positions, ranges⟩ ⟨0, .ofArguments [], []⟩
        ⟨7, ⟨locals, [.ref (.object 0)]⟩, [unitsOf "a"]⟩ := by
  have node {k : Nat} {node : Node} (inside : k < 7)
      (there : (appendMethod.body[k]?).map Insn.node = some node) : ∃ id, body[k]? = some ⟨id, node⟩ := by
    obtain ⟨⟨id, _⟩, known, rfl⟩ := Option.map_eq_some_iff.mp ((start k inside).trans there)
    exact ⟨id, known⟩
  obtain ⟨_, new⟩ := node (k := 0) (by omega) rfl
  obtain ⟨_, dup⟩ := node (k := 1) (by omega) rfl
  obtain ⟨_, init⟩ := node (k := 2) (by omega) rfl
  obtain ⟨_, store⟩ := node (k := 3) (by omega) rfl
  obtain ⟨_, load⟩ := node (k := 4) (by omega) rfl
  obtain ⟨_, constant⟩ := node (k := 5) (by omega) rfl
  obtain ⟨_, append⟩ := node (k := 6) (by omega) rfl
  have noText : (MethodDescriptor.parse "()V").toOption = some ⟨[], .void⟩ := by decide +kernel
  have oneText : (MethodDescriptor.parse "(Ljava/lang/String;)Ljava/lang/StringBuilder;").toOption =
      some ⟨[.object "java/lang/String"], .object "java/lang/StringBuilder"⟩ := by decide +kernel
  let first : Activation := .ofArguments []
  -- the constructor adds nothing, and the append adds its argument
  have constructed : Environment.building.answers (.call 0xb7 builderClass "<init>" "()V" false)
      [.ref (.object 0)] [[]] (.returned none) [[]] :=
    @BuilderAnswers.add _ _ _ _ _ _ [[]] [] [] rfl rfl
  have added : addedText (fun address => [([] : List Nat)][address]?) "append"
      "(Ljava/lang/String;)Ljava/lang/StringBuilder;" [.ref (.text 0 (unitsOf "a"))] =
        some (unitsOf "a") := by decide +kernel
  have appended : Environment.building.answers
      (.call 0xb6 builderClass "append" "(Ljava/lang/String;)Ljava/lang/StringBuilder;" false)
      [.ref (.object 0), .ref (.text 0 (unitsOf "a"))] [[]] (.returned (some (.ref (.object 0))))
      [unitsOf "a"] :=
    @BuilderAnswers.add _ _ _ _ _ _ [[]] [] (unitsOf "a") rfl added
  have allocated : Reaches Environment.building ⟨body, positions, ranges⟩ ⟨0, first, []⟩
      ⟨2, ⟨first.locals, [.ref (.object 0), .ref (.object 0)]⟩, [[]]⟩ :=
    .tail (.tail .refl (.answered new rfl BuilderAnswers.new rfl)) (.next dup rfl)
  have built : Machine.Step Environment.building ⟨body, positions, ranges⟩
      ⟨2, ⟨first.locals, [.ref (.object 0), .ref (.object 0)]⟩, [[]]⟩
      ⟨3, ⟨first.locals, [.ref (.object 0)]⟩, [[]]⟩ :=
    .answered (b := ⟨first.locals, [.ref (.object 0)]⟩) (d := none) init (effect_of_call noText rfl rfl) constructed rfl
  have kept : Reaches Environment.building ⟨body, positions, ranges⟩
      ⟨3, ⟨first.locals, [.ref (.object 0)]⟩, [[]]⟩
      ⟨6, ⟨write first.locals 0 (.ref (.object 0)),
        [.ref (.text 0 (unitsOf "a")), .ref (.object 0)]⟩, [[]]⟩ :=
    .tail (.tail (.tail .refl (.next store rfl)) (.next load rfl)) (.next constant rfl)
  have added : Machine.Step Environment.building ⟨body, positions, ranges⟩
      ⟨6, ⟨write first.locals 0 (.ref (.object 0)),
        [.ref (.text 0 (unitsOf "a")), .ref (.object 0)]⟩, [[]]⟩
      ⟨7, ⟨write first.locals 0 (.ref (.object 0)), [.ref (.object 0)]⟩, [unitsOf "a"]⟩ :=
    .answered (b := ⟨write first.locals 0 (.ref (.object 0)), []⟩) (d := some (.ref (.object 0))) append
      (effect_of_call oneText rfl rfl) appended rfl
  exact ⟨write first.locals 0 (.ref (.object 0)), rfl, (allocated.tail built).trans (kept.tail added)⟩

/-- The machine shows the text of its only builder. -/
theorem shows_of_appended (body : Body) (positions : LabelPositions) (ranges : List CoveredRange)
    {pc : Nat} {id : InsnId}
    (there : body[pc]? = some ⟨id, .call 0xb6 builderClass "toString" "()Ljava/lang/String;" false⟩)
    (locals : Nat → Option Datum) :
    Machine.Step Environment.building ⟨body, positions, ranges⟩
      ⟨pc, ⟨locals, [.ref (.object 0)]⟩, [unitsOf "a"]⟩
      ⟨pc + 1, ⟨locals, [.ref (.text 1 (unitsOf "a"))]⟩, [unitsOf "a"]⟩ := by
  have parsed : (MethodDescriptor.parse "()Ljava/lang/String;").toOption =
      some ⟨[], .object "java/lang/String"⟩ := by decide +kernel
  have answer : Environment.building.answers
      (.call 0xb6 builderClass "toString" "()Ljava/lang/String;" false) [.ref (.object 0)] [unitsOf "a"]
      (.returned (some (.ref (.text 1 (unitsOf "a"))))) [unitsOf "a"] := BuilderAnswers.show_ rfl
  exact .answered (b := ⟨locals, []⟩) (d := some (.ref (.text 1 (unitsOf "a")))) there
    (effect_of_call parsed rfl rfl) answer rfl

/-- What a builder shows is the literal that the run has on its stack. -/
theorem built_literals_sound_append : ∃ r f v, analyze "A" appendMethod = .ok r ∧
    Followed ⟨appendMethod.body, appendMethod.body.lastLabels, []⟩ (visitsOf "A" appendMethod) appendChain ∧
    r.frameAt 8 = some f ∧ f.stackAt? 0 = some v ∧ v.literal = some (.string "a") ∧
    ∃ c : Config (List (List Nat)), Reaches .building ⟨appendMethod.body, appendMethod.body.lastLabels, []⟩
        ⟨0, .ofArguments [], []⟩ c ∧ c.pc = 8 ∧
      ∃ d, c.activation.stack[0]? = some d ∧ Denotes (.string "a") d := by
  have evaluated : (analyze "A" appendMethod).toOption.any (fun r =>
      decide (Sized appendMethod.body r.frameAt) && r.literalAt 8 0 == some (.string "a")) = true := by
    unfold analyze
    rw [Body.ofTable_labelTable]
    decide +kernel
  obtain ⟨r, analyzed, holds⟩ := exists_of_any evaluated
  obtain ⟨sized, literal⟩ := Bool.and_eq_true_iff.mp holds
  obtain ⟨f, there, found⟩ := Option.bind_eq_some_iff.mp (beq_iff_eq.mp literal)
  obtain ⟨v, entry, known⟩ := Option.bind_eq_some_iff.mp found
  obtain ⟨locals, -, appended⟩ := appended_of_body appendMethod.body
    appendMethod.body.lastLabels [] fun _ _ => rfl
  have shown := shows_of_appended appendMethod.body appendMethod.body.lastLabels []
    (show appendMethod.body[7]? = some ⟨⟨7⟩, _⟩ from rfl) locals
  have reaches := appended.tail shown
  obtain ⟨f', there', stack, -⟩ := built_literals_sound analyzed rfl
    Environment.building_faithful Environment.building_builds (by decide +kernel)
    (of_decide_eq_true sized)
    appendMethod_followed (by decide +kernel) reaches
    (show appendMethod.body[8]? = some ⟨⟨8⟩, .simple 0xb0⟩ from rfl)
  obtain rfl : f = f' := Option.some.inj (there.symm.trans there')
  exact ⟨r, f, v, analyzed, appendMethod_followed, there, entry, known, _, reaches, rfl,
    stack 0 v _ entry known rfl⟩

/-- A static method that drops the result of an append and shows the builder in the local variable. -/
def dropMethod : Method where
  id := ⟨0⟩
  access := 9
  name := "m"
  descriptor := "()Ljava/lang/String;"
  maxLocals := 1
  body := numbered [.type Opcode.new builderClass, .simple 0x59,
    .call 0xb7 builderClass "<init>" "()V" false, .var 0x3a 0, .var 0x19 0, .constant (.string "a"),
    .call 0xb6 builderClass "append" "(Ljava/lang/String;)Ljava/lang/StringBuilder;" false, .simple 0x57,
    .var 0x19 0, .call 0xb6 builderClass "toString" "()Ljava/lang/String;" false, .simple 0xb0]

/-- The text of a builder in a local variable goes stale: the analysis reports the empty text for what
`toString` has produced, where the run has the text that was appended. -/
theorem stale_literal : ∃ r, analyze "A" dropMethod = .ok r ∧ r.literalAt 10 0 = some (.string "") ∧
    ∃ (code : Code) (c : Config (List (List Nat))), codeOf? dropMethod = some code ∧
      Environment.building.Faithful ∧ Environment.building.Builds (fun texts address => texts[address]?) ∧
      parameterKinds dropMethod = some (([] : List Datum).map Datum.kind) ∧
      Reaches .building code ⟨0, .ofArguments [], []⟩ c ∧ c.pc = 10 ∧
      c.activation.stack = [.ref (.text 1 (unitsOf "a"))] ∧
      ¬∃ d, c.activation.stack[0]? = some d ∧ Denotes (.string "") d := by
  have evaluated : (analyze "A" dropMethod).toOption.any
      (fun r => r.literalAt 10 0 == some (.string "")) = true := by
    unfold analyze
    rw [Body.ofTable_labelTable]
    decide +kernel
  obtain ⟨r, analyzed, literal⟩ := exists_of_any evaluated
  obtain ⟨locals, kept, appended⟩ := appended_of_body dropMethod.body
    dropMethod.body.lastLabels [] fun k inside => by
      rcases k with _ | _ | _ | _ | _ | _ | _ | k
      all_goals first | rfl | omega
  let code : Code := ⟨dropMethod.body, dropMethod.body.lastLabels, []⟩
  have loads : Reaches Environment.building code ⟨7, ⟨locals, [.ref (.object 0)]⟩, [unitsOf "a"]⟩
      ⟨9, ⟨locals, [.ref (.object 0)]⟩, [unitsOf "a"]⟩ := by
    refine .tail (.tail .refl (.next (b := ⟨locals, []⟩) rfl rfl)) (.next rfl ?_)
    show (locals 0).bind _ = _
    rw [kept]
    rfl
  have shown := shows_of_appended dropMethod.body dropMethod.body.lastLabels []
    (show dropMethod.body[9]? = some ⟨⟨9⟩, _⟩ from rfl) locals
  refine ⟨r, analyzed, beq_iff_eq.mp literal, code, _, rfl, Environment.building_faithful,
    Environment.building_builds, by decide +kernel, (appended.trans loads).tail shown, rfl, rfl, ?_⟩
  rintro ⟨d, there, denotes⟩
  have shows (text : String) (e : Datum) (h : Denotes (.string text) e) :
      ∃ identity, e = .ref (.text identity (unitsOf text)) := by
    cases h
    exact ⟨_, rfl⟩
  obtain ⟨identity, rfl⟩ := shows "" d denotes
  cases there

end Bytecode.Analysis
