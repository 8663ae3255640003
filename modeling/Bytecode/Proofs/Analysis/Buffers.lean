import Bytecode.Analysis.Dataflow
import Bytecode.Proofs.Analysis.Order
import Bytecode.Proofs.Analysis.Recording
import Bytecode.Proofs.Machine.Library

/-!
# Instructions and the buffers of builders

What one simulated instruction does to the buffers: it may allocate one, and a method of a builder
may change the text of its receiver. `execute_lends` says so, and that a builder in the frame behind
the instruction was in the frame before it or is new.

The buffers are phases of an analysis like the histories are, so that the rules for frames are those
of `Frame.execute_kept`. A join of frames changes no buffer, and takes its builders from the frame
that was there before.
-/

namespace Bytecode.Analysis

open Machine (callsBuilder)

/-- A frame has a builder with a buffer in a local variable or on the stack. -/
def Frame.Holds (f : Frame) (b : BufferId) : Prop :=
  ∃ v ∈ f.locals ++ f.stack, v.literal = some (.builder b)

/-- A value is not known to be a builder. -/
def Value.Unbuilt (v : Value) : Prop :=
  ∀ b, v.literal ≠ some (.builder b)

/-- Whether an instruction at a position needs a new buffer: it allocates a builder, or makes a copy
of one that does not share its buffer. -/
def Allots (body : Body) (index : Nat) (node : Node) (f : Frame) : Prop :=
  node = .type Opcode.new builderClass ∨
    Transfer.followsAllocation body index = false ∧ ∃ v ∈ copied f node, ¬v.Unbuilt

theorem Frame.holds_of_locals {f : Frame} {v : Value} {b : BufferId} (member : v ∈ f.locals)
    (builder : v.literal = some (.builder b)) : f.Holds b :=
  ⟨v, List.mem_append_left _ member, builder⟩

theorem Frame.holds_of_stack {f : Frame} {v : Value} {b : BufferId} (member : v ∈ f.stack)
    (builder : v.literal = some (.builder b)) : f.Holds b :=
  ⟨v, List.mem_append_right _ member, builder⟩

/-! ## Texts -/

namespace Buffers

variable {b b' b'' : Buffers} {i j : BufferId} {text : String}

theorem contents_alloc_self : (b.alloc text).2.contents (b.alloc text).1 = text := by
  simp [alloc, contents]

theorem contents_alloc_of_lt (inside : i.val < b.texts.size) :
    (b.alloc text).2.contents i = b.contents i := by
  simp [alloc, contents, Array.getElem?_push, Nat.ne_of_lt inside]

theorem contents_append_self (inside : i.val < b.texts.size) :
    (b.append i text).contents i = b.contents i ++ text := by
  simp [append, contents, inside, Array.getElem_modify]

theorem contents_append_of_ne (other : i ≠ j) : (b.append i text).contents j = b.contents j := by
  have apart : i.val ≠ j.val := fun same => other (by cases i; cases j; simp_all)
  simp [append, contents, Array.getElem?_modify, apart]

/-- The buffers later on: they have kept their texts as far as these may not change, and there are
others only if buffers may be allocated, which start with the texts that are told. -/
structure Extends (changes : BufferId → Prop) (allots : Prop) (starts : String → Prop)
    (b b' : Buffers) : Prop where
  size : b.texts.size ≤ b'.texts.size
  same : ¬allots → b'.texts.size = b.texts.size
  contents : ∀ i, i.val < b.texts.size → changes i ∨ b'.contents i = b.contents i
  fresh : ∀ i, b.texts.size ≤ i.val → i.val < b'.texts.size → changes i ∨ starts (b'.contents i)

variable {changes : BufferId → Prop} {allots : Prop} {starts : String → Prop}

theorem Extends.refl (b : Buffers) : Extends changes allots starts b b :=
  ⟨Nat.le_refl _, fun _ => rfl, fun _ _ => .inr rfl, fun _ _ _ => by omega⟩

theorem Extends.trans (first : Extends changes allots starts b b')
    (second : Extends changes allots starts b' b'') : Extends changes allots starts b b'' where
  size := Nat.le_trans first.size second.size
  same := fun none => (second.same none).trans (first.same none)
  contents := fun i inside => by
    rcases second.contents i (Nat.lt_of_lt_of_le inside first.size) with changed | same
    · exact .inl changed
    · exact (first.contents i inside).imp_right same.trans
  fresh := fun i outside inside => by
    by_cases before : i.val < b'.texts.size
    · rcases second.contents i before with changed | same
      · exact .inl changed
      · rw [same]
        exact first.fresh i outside before
    · exact second.fresh i (Nat.not_lt.mp before) inside

end Buffers

/-- The buffers of an analysis as phases, from given ones on. A value is good if it is no builder, a
builder that was held, or one of a buffer that was not there at first. -/
abbrev lending (b₀ : Buffers) (held changes : BufferId → Prop) (allots : Prop)
    (starts : String → Prop) : Phases Buffers where
  of := fun b s => s.buffers = b ∧ Buffers.Extends changes allots starts b₀ b
  later := Buffers.Extends changes allots starts
  good := fun b v => ∀ i, v.literal = some (.builder i) →
    held i ∨ b₀.texts.size ≤ i.val ∧ i.val < b.texts.size
  refl := .refl
  trans := .trans
  mono := fun good later i builder => (good i builder).imp_right fun ⟨new, inside⟩ =>
    ⟨new, Nat.lt_of_lt_of_le inside later.size⟩

/-! ## Calls -/

/-- What the analysis makes of a call of a method of a builder: nothing, the text of the builder, or
a builder with a longer text. -/
inductive BuilderCall (name descriptor : String) (b : Buffers) :
    List Literal → Option Literal → Buffers → Prop
  | unknown {ls} : BuilderCall name descriptor b ls none b
  | text {i rest} (named : name = "toString") (typed : descriptor = "()Ljava/lang/String;") :
      BuilderCall name descriptor b (.builder i :: rest) (some (.string (b.contents i))) b
  | start {i l rest text} (named : name = "<init>")
      (typed : descriptor = "(Ljava/lang/String;)V" ∨ descriptor = "(Ljava/lang/CharSequence;)V")
      (known : l.render b = some text) :
      BuilderCall name descriptor b (.builder i :: l :: rest) none (b.append i text)
  | add {i l rest text} (named : name = "append")
      (known : Transfer.appendedText b descriptor l = some text) :
      BuilderCall name descriptor b (.builder i :: l :: rest) (some (.builder i)) (b.append i text)

section

variable {i : Insn} {node : Node} {name descriptor : String} {ls : List Literal} {s s' : Store}
  {o : Option Literal}

/-- The result of a call of a method of a builder. -/
theorem builderCall_cases (h : Transfer.builderCall name descriptor ls s = (o, s')) :
    BuilderCall name descriptor s.buffers ls o s'.buffers := by
  unfold Transfer.builderCall at h
  split at h
  · next i rest =>
    simp only [bind, StateT.bind, get, getThe, MonadStateOf.get, StateT.get, pure] at h
    split at h
    · split at h
      · next typed =>
        cases known : rest.head?.bind (·.render s.buffers) with
        | none =>
          rw [known] at h
          cases h
          exact .unknown
        | some text =>
          rw [known] at h
          cases h
          obtain ⟨l, first, known⟩ := Option.bind_eq_some_iff.mp known
          obtain ⟨rest, rfl⟩ := List.head?_eq_some_iff.mp first
          exact .start rfl typed known
      · cases h
        exact .unknown
    · cases h
      split
      · next typed => exact .text rfl typed
      · exact .unknown
    · cases known : rest.head?.bind (Transfer.appendedText s.buffers descriptor) with
      | none =>
        rw [known] at h
        cases h
        exact .unknown
      | some text =>
        rw [known] at h
        cases h
        obtain ⟨l, first, known⟩ := Option.bind_eq_some_iff.mp known
        obtain ⟨rest, rfl⟩ := List.head?_eq_some_iff.mp first
        exact .add rfl known
    · cases h
      exact .unknown
  · cases h
    exact .unknown

/-- Every other call leaves the store alone and returns no builder. -/
theorem callLiteral_cases (h : Transfer.callLiteral node ls s = (o, s')) :
    (∃ op name descriptor isInterface, node = .call op builderClass name descriptor isInterface ∧
      BuilderCall name descriptor s.buffers ls o s'.buffers) ∨
    callsBuilder node = false ∧ s' = s ∧ ∀ i, o ≠ some (.builder i) := by
  have text (result : Option String) (i : BufferId) : result.map Literal.string ≠ some (.builder i) := by
    cases result <;> simp
  unfold Transfer.callLiteral at h
  simp only [bind, StateT.bind, get, getThe, MonadStateOf.get, StateT.get, pure] at h
  split at h
  · next op owner name descriptor isInterface =>
    split at h
    · next same =>
      subst same
      exact .inl ⟨op, name, descriptor, isInterface, rfl, builderCall_cases h⟩
    · next other =>
      have foreign : callsBuilder (.call op owner name descriptor isInterface) = false := by
        simpa [callsBuilder] using other
      split at h
      · cases h
        refine .inr ⟨foreign, rfl, fun i same => ?_⟩
        split at same
        · obtain ⟨first, -, same⟩ := Option.bind_eq_some_iff.mp same
          obtain ⟨second, -, same⟩ := Option.bind_eq_some_iff.mp same
          cases same
        · cases same
      · split at h
        · cases h
          refine .inr ⟨foreign, rfl, fun i same => ?_⟩
          split at same
          · obtain ⟨first, -, same⟩ := Option.bind_eq_some_iff.mp same
            obtain ⟨second, -, same⟩ := Option.bind_eq_some_iff.mp same
            cases same
          · cases same
        · cases h
          exact .inr ⟨foreign, rfl, nofun⟩
  · split at h
    · cases h
      exact .inr ⟨rfl, rfl, text _⟩
    · cases h
      exact .inr ⟨rfl, rfl, nofun⟩
  · next other _ =>
    cases h
    refine .inr ⟨?_, rfl, nofun⟩
    cases node with
    | call op owner name descriptor isInterface => exact absurd rfl (other op owner name descriptor isInterface)
    | _ => rfl

/-- Consuming values changes no buffer. -/
theorem buffers_consumeAll (id : InsnId) (taken : List Value) (s : Store) :
    (taken.forM (Store.consume id) s).2.buffers = s.buffers := by
  induction taken generalizing s with
  | nil => rfl
  | cons v rest ih =>
    show (rest.forM (Store.consume id) _).2.buffers = _
    exact ih _

/-- The result of a call: it has the kind of the return type, and the literal that the call folds
literals of all arguments to. -/
theorem call_eq {taken : List Value} {o : Option Value} (h : Transfer.call i taken s = (o, s')) :
    ∃ s₁ s₂ literal, s₁.buffers = s.buffers ∧ s'.buffers = s₂.buffers ∧
      (match taken.mapM Value.literal with
        | some ls => Transfer.callLiteral i.node ls s₁ = (literal, s₂)
        | none => literal = none ∧ s₂ = s₁) ∧
      match Transfer.resultKind i.node with
      | none => o = none
      | some kind => ∃ v, o = some v ∧ v.kind = kind ∧ v.literal = literal := by
  unfold Transfer.call at h
  refine ⟨(taken.forM (Store.consume i.id) s).2, ?_⟩
  cases literals : taken.mapM Value.literal with
  | none =>
    rw [literals] at h
    refine ⟨_, none, buffers_consumeAll _ _ _, ?_, ⟨rfl, rfl⟩, ?_⟩ <;>
      cases known : Transfer.resultKind i.node <;> rw [known] at h <;> cases h
    · rfl
    · rfl
    · rfl
    · exact ⟨_, rfl, rfl, rfl⟩
  | some ls =>
    rw [literals] at h
    refine ⟨_, _, buffers_consumeAll _ _ _, ?_, rfl, ?_⟩ <;>
      cases known : Transfer.resultKind i.node <;> rw [known] at h <;> cases h
    · rfl
    · rfl
    · rfl
    · exact ⟨_, rfl, rfl, rfl⟩

end

/-! ## Values that instructions make -/

section

variable {b₀ b : Buffers} {held changes : BufferId → Prop} {allots : Prop} {starts : String → Prop}

theorem make_lends {kind : Kind} {sources : InsnSet} {literal : Option Literal}
    (h : ∀ i, literal = some (.builder i) → held i ∨ b₀.texts.size ≤ i.val ∧ i.val < b.texts.size) :
    (lending b₀ held changes allots starts).Ensures b (Store.make kind sources literal) fun b' v =>
      (lending b₀ held changes allots starts).good b' v ∧ v.kind = kind ∧ v.literal = literal :=
  .of_phase (fun _ phase => phase) fun _ => ⟨h, rfl, rfl⟩

/-- A value without a literal can be made at any time. -/
theorem make_unknown_lends {kind : Kind} {sources : InsnSet} :
    (lending b₀ held changes allots starts).Ensures b (Store.make kind sources none) fun b' v =>
      (lending b₀ held changes allots starts).good b' v ∧ v.kind = kind ∧ v.literal = none :=
  make_lends nofun

theorem consume_lends (id : InsnId) (v : Value) :
    (lending b₀ held changes allots starts).Ensures b (Store.consume id v) fun _ _ => True :=
  .of_phase (fun _ phase => phase) fun _ => trivial

/-- A new buffer is not among the first ones. -/
theorem alloc_lends (allowed : allots) {text : String} (started : starts text) :
    (lending b₀ held changes allots starts).Ensures b (Store.alloc text) fun b' i =>
      b₀.texts.size ≤ i.val ∧ i.val < b'.texts.size := by
  rintro s ⟨rfl, before⟩
  have size : (s.buffers.alloc text).2.texts.size = s.buffers.texts.size + 1 := Array.size_push _
  have later : Buffers.Extends changes allots starts s.buffers (s.buffers.alloc text).2 := by
    refine ⟨by omega, fun none => absurd allowed none,
      fun i inside => .inr (Buffers.contents_alloc_of_lt inside), fun i outside inside => .inr ?_⟩
    have last : i = (s.buffers.alloc text).1 := congrArg BufferId.mk (by omega : i.val = s.buffers.texts.size)
    rw [last, Buffers.contents_alloc_self]
    exact started
  refine ⟨(s.buffers.alloc text).2, later, ⟨rfl, before.trans later⟩, before.size, ?_⟩
  show s.buffers.texts.size < _
  omega

/-- The copy of a value is a builder that is held or new. -/
theorem copy_lends {body : Body} {index : Nat} {id : InsnId} {v : Value}
    (allowed : Transfer.followsAllocation body index = false → ∀ i, v.literal = some (.builder i) →
      allots ∧ ∀ b, Buffers.Extends changes allots starts b₀ b → starts (b.contents i))
    (good : (lending b₀ held changes allots starts).good b v) :
    (lending b₀ held changes allots starts).Ensures b (Transfer.copy body index id v)
      (lending b₀ held changes allots starts).good := by
  refine .bind (consume_lends id v) fun b₁ _ later _ => ?_
  have good := (lending b₀ held changes allots starts).mono good later
  split
  · next i builder =>
    split
    · exact (make_lends fun j same => good j (builder.trans same)).mono fun _ _ _ made => made.1
    · next apart =>
      obtain ⟨allots', started⟩ := allowed (eq_false_of_ne_true apart) i builder
      -- the text is that of the builder before the instruction, whatever has been copied since then
      refine .bind (q := fun b' s => s.buffers = b' ∧ Buffers.Extends changes allots starts b₀ b')
        (fun s phase => ⟨b₁, .refl _, phase, phase⟩) fun b₂ s _ reads => ?_
      obtain ⟨rfl, before⟩ := reads
      refine .bind (alloc_lends allots' (started _ before)) fun b₃ j _ new => ?_
      refine (make_lends fun k same => .inr ?_).mono fun _ _ _ made => made.1
      cases same
      exact new
  · exact (make_lends good).mono fun _ _ _ made => made.1

/-- A pushed value is a builder only if it is an allocated one. -/
theorem push_lends {insn : Insn}
    (allowed : ∀ op, insn.node = .type op builderClass → allots ∧ starts "") :
    (lending b₀ held changes allots starts).Ensures b (Transfer.push insn)
      (lending b₀ held changes allots starts).good := by
  have plain (kind : Kind) (literal : Option Literal) (h : ∀ i, literal ≠ some (.builder i)) :
      (lending b₀ held changes allots starts).Ensures b (Transfer.produce insn.id kind literal)
        (lending b₀ held changes allots starts).good :=
    (make_lends fun i same => absurd same (h i)).mono fun _ _ _ made => made.1
  have constant (c : Constant) (i : BufferId) : (Literal.ofConstant c).2 ≠ some (.builder i) := by
    cases c <;> nofun
  unfold Transfer.push
  split
  · split
    · exact plain _ _ nofun
    · exact plain _ _ (constant _)
    · exact plain _ _ nofun
  · exact plain _ _ nofun
  · exact plain _ _ (constant _)
  · exact plain _ _ nofun
  · next op name node =>
    split
    · next builder =>
      obtain ⟨allots', started⟩ := allowed op (builder ▸ node)
      refine .bind (alloc_lends allots' started) fun b' i _ new => ?_
      refine (make_lends fun j same => .inr ?_).mono fun _ _ _ made => made.1
      cases same
      exact new
    · exact plain _ _ nofun
  · exact plain _ _ nofun

/-- What an instruction makes of one value is no builder. -/
theorem unary_lends {insn : Insn} {v : Value} :
    (lending b₀ held changes allots starts).Ensures b (Transfer.unary insn v) fun b' =>
      IfAny ((lending b₀ held changes allots starts).good b') := by
  refine .bind (consume_lends _ _) fun _ _ _ _ => ?_
  split
  · exact .pure nofun
  · next kind known =>
    refine (make_lends fun i hl => ?_).map fun _ _ _ made w hw => ?_
    · obtain ⟨m, -, folded⟩ := Option.bind_eq_some_iff.mp hl
      cases (kind_of_unaryLiteral known folded).2
    · cases hw
      exact made.1

/-- What an instruction makes of two values is no builder. -/
theorem binary_lends {insn : Insn} {v w : Value} :
    (lending b₀ held changes allots starts).Ensures b (Transfer.binary insn v w) fun b' =>
      IfAny ((lending b₀ held changes allots starts).good b') := by
  refine .bind (consume_lends _ _) fun _ _ _ _ => .bind (consume_lends _ _) fun _ _ _ _ => ?_
  split
  · split
    · refine (make_lends fun i hl => ?_).map fun _ _ _ made u hu => ?_
      · obtain ⟨m, -, hl⟩ := Option.bind_eq_some_iff.mp hl
        obtain ⟨m', -, folded⟩ := Option.bind_eq_some_iff.mp hl
        cases (kind_of_binary folded).2
      · cases hu
        exact made.1
    · refine make_unknown_lends.map fun _ _ _ made u hu => ?_
      cases hu
      exact made.1
    · exact .pure nofun
  · exact .pure nofun

/-- A call changes at most the text of its receiver, and returns no other builder. -/
theorem call_lends {insn : Insn} {taken : List Value}
    (allowed : ∀ i, callsBuilder insn.node = true → held i ∨ b₀.texts.size ≤ i.val → changes i)
    (good : ∀ v ∈ taken, (lending b₀ held changes allots starts).good b v) :
    (lending b₀ held changes allots starts).Ensures b (Transfer.call insn taken) fun b' =>
      IfAny ((lending b₀ held changes allots starts).good b') := by
  rintro s ⟨rfl, before⟩
  rcases outcome : Transfer.call insn taken s with ⟨o, t⟩
  obtain ⟨s₁, s₂, literal, same, same', folds, result⟩ := call_eq outcome
  -- an unknown literal is no builder, and the result has no other
  have nothing (b' : Buffers) (plain : ∀ i, literal ≠ some (.builder i)) :
      IfAny ((lending b₀ held changes allots starts).good b') o := by
    intro v hv i builder
    cases kind : Transfer.resultKind insn.node with
    | none =>
      rw [kind] at result
      rw [result] at hv
      cases hv
    | some k =>
      rw [kind] at result
      obtain ⟨u, hu, -, known⟩ := result
      obtain rfl : u = v := Option.some.inj (hu.symm.trans hv)
      exact absurd (known.symm.trans builder) (plain i)
  have unchanged (buffers : s₂.buffers = s.buffers) (plain : ∀ i, literal ≠ some (.builder i)) :
      ∃ b', Buffers.Extends changes allots starts s.buffers b' ∧
        (t.buffers = b' ∧ Buffers.Extends changes allots starts b₀ b') ∧
        IfAny ((lending b₀ held changes allots starts).good b') o :=
    ⟨s.buffers, .refl _, ⟨same'.trans buffers, before⟩, nothing _ plain⟩
  cases literals : taken.mapM Value.literal with
  | none =>
    rw [literals] at folds
    obtain ⟨rfl, rfl⟩ := folds
    exact unchanged same nofun
  | some ls =>
    rw [literals] at folds
    -- a text is added to the receiver, which is among the values that are taken
    have added {i : BufferId} {l : Literal} {rest : List Literal} (text : String)
        (calls : callsBuilder insn.node = true) (all : ls = .builder i :: l :: rest)
        (appended : s₂.buffers = s₁.buffers.append i text)
        (results : literal = none ∨ literal = some (.builder i)) :
        ∃ b', Buffers.Extends changes allots starts s.buffers b' ∧
          (t.buffers = b' ∧ Buffers.Extends changes allots starts b₀ b') ∧
          IfAny ((lending b₀ held changes allots starts).good b') o := by
      rw [all] at literals
      obtain ⟨v, member, builder⟩ :=
        exists_of_mem_right (forall₂_of_mapM literals) (List.mem_cons_self (a := Literal.builder i))
      have receiver := good v member i builder
      have size : (s.buffers.append i text).texts.size = s.buffers.texts.size := Array.size_modify
      rw [same] at appended
      have later : Buffers.Extends changes allots starts s.buffers (s.buffers.append i text) := by
        refine ⟨Nat.le_of_eq size.symm, fun _ => size, fun j _ => ?_, fun j outside inside => by omega⟩
        by_cases other : i = j
        · subst other
          exact .inl (allowed i calls (receiver.imp_right And.left))
        · exact .inr (Buffers.contents_append_of_ne other)
      refine ⟨s.buffers.append i text, later, ⟨same'.trans appended, before.trans later⟩, ?_⟩
      · rcases results with rfl | rfl
        · exact nothing _ nofun
        · intro u hu j isBuilder
          cases kind : Transfer.resultKind insn.node with
          | none =>
            rw [kind] at result
            rw [result] at hu
            cases hu
          | some k =>
            rw [kind] at result
            obtain ⟨u', hu', -, known⟩ := result
            obtain rfl : u' = u := Option.some.inj (hu'.symm.trans hu)
            rw [known] at isBuilder
            cases isBuilder
            exact receiver.imp_right fun ⟨new, inside⟩ => ⟨new, size ▸ inside⟩
    rcases callLiteral_cases folds with ⟨op, name, descriptor, isInterface, node, folds⟩ | ⟨-, rfl, plain⟩
    · have calls : callsBuilder insn.node = true := by
        rw [node]
        exact beq_self_eq_true _
      generalize appended : s₂.buffers = b₂ at folds
      cases folds with
      | unknown => exact unchanged (appended.trans same) nofun
      | text => exact unchanged (appended.trans same) nofun
      | start => exact added _ calls rfl appended (.inl rfl)
      | add => exact added _ calls rfl appended (.inr rfl)
    · exact unchanged same plain

end

/-! ## Instructions -/

/-- The texts with which the buffers start that an instruction allots: a new builder has none yet, and
a copied builder has had its text before the instruction. -/
def Begins (node : Node) (f : Frame) (b : Buffers) (text : String) : Prop :=
  node = .type Opcode.new builderClass ∧ text = "" ∨
    ∃ v ∈ copied f node, ∃ i, v.literal = some (.builder i) ∧
      (i.val < b.texts.size → text = b.contents i)

/-- The builders whose texts an instruction may change: those that it can call. -/
def Changes (node : Node) (f : Frame) (b : Buffers) (i : BufferId) : Prop :=
  callsBuilder node = true ∧ (f.Holds i ∨ b.texts.size ≤ i.val)

/-- What one simulated instruction does to the buffers and to the builders of a frame. -/
structure Lends (body : Body) (index : Nat) (node : Node) (f : Frame) (b : Buffers) (g : Frame)
    (b' : Buffers) : Prop where
  extends_ : Buffers.Extends (Changes node f b) (Allots body index node f) (Begins node f b) b b'
  held : ∀ i, g.Holds i → f.Holds i ∨ b.texts.size ≤ i.val ∧ i.val < b'.texts.size

/-- An instruction that makes copies calls no builder. -/
theorem callsBuilder_of_copied {f : Frame} {node : Node} {v : Value} (member : v ∈ copied f node) :
    callsBuilder node = false := by
  cases node with
  | call => cases member
  | _ => rfl

/-- The transfer functions of an instruction make builders that are held or new. -/
theorem lending_supplies {b₀ : Buffers} {held : BufferId → Prop} {body : Body} {index : Nat}
    {insn : Insn} {f : Frame} (every : ∀ i, held i → f.Holds i) :
    Supplies (lending b₀ held (Changes insn.node f b₀) (Allots body index insn.node f)
      (Begins insn.node f b₀)) body index insn f where
  unknown := fun _ _ => make_unknown_lends
  consume := fun _ => consume_lends
  push := fun allocation _ => push_lends fun op node => by
    have new : insn.node = .type Opcode.new builderClass := allocation op _ node ▸ node
    exact ⟨.inl new, .inl ⟨new, rfl⟩⟩
  copy := fun _ v member good => copy_lends (fun apart i builder => by
    refine ⟨.inr ⟨apart, v, member, fun unbuilt => unbuilt i builder⟩, fun b later => ?_⟩
    refine .inr ⟨v, member, i, builder, fun inside => ?_⟩
    have quiet := callsBuilder_of_copied member
    refine (later.contents i inside).resolve_left fun changes => ?_
    cases quiet.symm.trans changes.1) good
  unary := fun _ _ _ => unary_lends
  binary := fun _ _ _ _ _ => binary_lends
  call := fun _ _ good => call_lends (fun i calls old => ⟨calls, old.imp_left (every i)⟩) good

/-- A frame has good values if its builders are good. -/
theorem Frame.every_lent {b₀ b : Buffers} {held changes : BufferId → Prop} {allots : Prop}
    {starts : String → Prop} {f : Frame} :
    f.Every ((lending b₀ held changes allots starts).good b) ↔
      ∀ i, f.Holds i → held i ∨ b₀.texts.size ≤ i.val ∧ i.val < b.texts.size := by
  constructor
  · rintro every i ⟨v, member, builder⟩
    rcases List.mem_append.mp member with slot | entry
    · exact every.locals v slot i builder
    · exact every.stack v entry i builder
  · intro every
    exact ⟨fun v member i builder => every i (holds_of_locals member builder),
      fun v member i builder => every i (holds_of_stack member builder)⟩

/-- A simulated instruction allocates a buffer or changes the text of a builder that the frame has,
and the frame behind it has no other builders than the one before, except for new ones. -/
theorem execute_lends {f g : Frame} {body : Body} {index : Nat} {insn : Insn} {s s' : Store}
    (h : f.execute body index insn s = .ok (g, s')) :
    Lends body index insn.node f s.buffers g s'.buffers := by
  obtain ⟨b', later, ⟨rfl, -⟩, kept⟩ := Frame.execute_kept
    (lending_supplies fun _ held => held)
    (Frame.every_lent.mpr fun i old => .inl old) s ⟨rfl, .refl _⟩ g s' h
  exact ⟨later, Frame.every_lent.mp kept.good⟩

/-! ## Joins -/

section

variable {s s' : Store}

/-- A join of two values changes no buffer, and is no builder but the old one. -/
theorem merge_lends {old incoming joined : Value} (h : Store.merge old incoming s = (joined, s')) :
    s'.buffers = s.buffers ∧
      ∀ i, joined.literal = some (.builder i) → old.literal = some (.builder i) := by
  unfold Store.merge at h
  split at h
  · cases h
    exact ⟨rfl, fun _ builder => builder⟩
  · generalize (if old.kind = incoming.kind then old.kind else .uninitialized) = kind at h
    dsimp only at h
    split at h
    · cases h
      exact ⟨rfl, fun _ builder => builder⟩
    · cases h
      exact ⟨rfl, fun _ builder => (commonLiteral_eq_some builder).1⟩

theorem mergeSlots_lends {olds news joined : List Value} {changed : Bool}
    (h : Frame.mergeSlots olds news s = ((joined, changed), s')) :
    s'.buffers = s.buffers ∧ ∀ i, (∃ v ∈ joined, v.literal = some (.builder i)) →
      ∃ v ∈ olds, v.literal = some (.builder i) := by
  induction olds generalizing news joined changed s with
  | nil =>
    cases h
    exact ⟨rfl, fun _ holds => holds⟩
  | cons old olds ih =>
    cases news with
    | nil =>
      cases h
      exact ⟨rfl, fun _ holds => holds⟩
    | cons new news =>
      simp only [Frame.mergeSlots, bind, StateT.bind] at h
      rcases first : Store.merge old new s with ⟨v, s₁⟩
      rcases others : Frame.mergeSlots olds news s₁ with ⟨⟨vs, changed'⟩, s₂⟩
      simp only [first, others] at h
      cases h
      obtain ⟨same, kept⟩ := merge_lends first
      obtain ⟨same', kept'⟩ := ih others
      refine ⟨same'.trans same, fun i ⟨u, member, builder⟩ => ?_⟩
      rcases List.mem_cons.mp member with rfl | member
      · exact ⟨old, List.mem_cons_self, kept i builder⟩
      · obtain ⟨u', member', builder'⟩ := kept' i ⟨u, member, builder⟩
        exact ⟨u', List.mem_cons_of_mem old member', builder'⟩

/-- A join of two frames changes no buffer, and has the builders of the old one. -/
theorem frameMerge_lends {f incoming g : Frame} {changed : Bool}
    (h : f.merge incoming s = .ok ((g, changed), s')) :
    s'.buffers = s.buffers ∧ ∀ i, g.Holds i → f.Holds i := by
  unfold Frame.merge at h
  split at h
  · cases h
  · obtain ⟨⟨locals, inLocals⟩, s₁, slots, joining⟩ := Step.bind_eq_ok h
    obtain ⟨⟨stack, inStack⟩, s₂, entries, done⟩ := Step.bind_eq_ok joining
    cases done
    obtain ⟨same, keptLocals⟩ := mergeSlots_lends (Step.lift_eq_ok slots)
    obtain ⟨same', keptStack⟩ := mergeSlots_lends (Step.lift_eq_ok entries)
    refine ⟨same'.trans same, fun i ⟨v, member, builder⟩ => ?_⟩
    rcases List.mem_append.mp member with slot | entry
    · obtain ⟨u, old, builder⟩ := keptLocals i ⟨v, slot, builder⟩
      exact Frame.holds_of_locals old builder
    · obtain ⟨u, old, builder⟩ := keptStack i ⟨v, entry, builder⟩
      exact Frame.holds_of_stack old builder

/-- The entry of a handler changes no buffer, and has the builders of the local variables. -/
theorem handlerFrame_lends {before entry : Frame} {caught : String}
    (h : Flow.handlerFrame before caught s = .ok (entry, s')) :
    s'.buffers = s.buffers ∧ ∀ i, entry.Holds i →
      ∃ v ∈ before.locals, v.literal = some (.builder i) := by
  obtain ⟨v, s₁, making, pushing⟩ := Step.bind_eq_ok h
  obtain ⟨pushed, same⟩ := Step.liftExcept_eq_ok pushing
  have made : Store.make .reference [] none s = (v, s₁) := Step.lift_eq_ok making
  cases made
  rw [Frame.push_eq_ok pushed]
  refine ⟨by rw [same], fun i ⟨u, member, builder⟩ => ?_⟩
  rcases List.mem_append.mp member with slot | entry
  · exact ⟨u, slot, builder⟩
  · rw [List.mem_singleton.mp entry] at builder
    cases builder

end

end Bytecode.Analysis
