import Bytecode.Inlining.Splice
import Bytecode.Proofs.Coding.Results

/-!
# What a splice consists of

A splice that succeeds stores the arguments, goes on with the moved instructions of the callee, and
loads the returned value: `splice_eq_ok` takes it apart. The calls in the block are calls of the
callee, and a splice that fails does so because of a descriptor or of a slot.
-/

namespace Bytecode

/-! ## Computations that take identities -/

namespace TryFresh

variable {α β : Type} {supply supply' : Supply}

/-- A sequence that succeeds consists of steps that do. -/
theorem bind_eq_ok {x : TryFresh α} {f : α → TryFresh β} {b : β}
    (h : (x >>= f).run supply = .ok (b, supply')) :
    ∃ a between, x.run supply = .ok (a, between) ∧ (f a).run between = .ok (b, supply') := by
  obtain ⟨⟨a, between⟩, first, rest⟩ := ok_of_bind h
  exact ⟨a, between, first, rest⟩

/-- Taking identities succeeds. -/
theorem lift_eq_ok {x : Fresh α} {a : α}
    (h : (liftM x : TryFresh α).run supply = .ok (a, supply')) : x.run supply = (a, supply') :=
  Except.ok.inj h

theorem liftExcept_eq_ok {x : Except Failure α} {a : α}
    (h : (liftM x : TryFresh α).run supply = .ok (a, supply')) : x = .ok a ∧ supply' = supply := by
  cases x with
  | error e => cases h
  | ok b =>
    cases h
    exact ⟨rfl, rfl⟩

theorem mapM_liftExcept_eq_ok {f : α → Except Failure β} {as : List α} {bs : List β}
    (h : (as.mapM fun a => (liftM (f a) : TryFresh β)).run supply = .ok (bs, supply')) :
    as.mapM f = .ok bs := by
  induction as generalizing bs supply with
  | nil =>
    cases h
    rfl
  | cons a as ih =>
    rw [List.mapM_cons] at h
    obtain ⟨b, s₁, first, h₁⟩ := bind_eq_ok h
    obtain ⟨rest, s₂, others, h₂⟩ := bind_eq_ok h₁
    cases h₂
    rw [List.mapM_cons, (liftExcept_eq_ok first).1, ih others]
    rfl

/-- A sequence of steps that succeed succeeds. -/
theorem bind_exists {x : TryFresh α} {f : α → TryFresh β} {r : α × Supply} (first : x.run supply = .ok r)
    (rest : ∃ b last, (f r.1).run r.2 = .ok (b, last)) : ∃ b last, (x >>= f).run supply = .ok (b, last) := by
  obtain ⟨b, last, rest⟩ := rest
  refine ⟨b, last, ?_⟩
  rw [StateT.run_bind, first]
  exact rest

theorem mapM_liftExcept_of_ok {f : α → Except Failure β} {as : List α} {bs : List β} (h : as.mapM f = .ok bs)
    (supply : Supply) : (as.mapM fun a => (liftM (f a) : TryFresh β)).run supply = .ok (bs, supply) := by
  induction as generalizing bs with
  | nil =>
    cases h
    rfl
  | cons a as ih =>
    rw [List.mapM_cons] at h
    obtain ⟨b, first, h⟩ := ok_of_bind h
    obtain ⟨rest, others, h⟩ := ok_of_bind h
    cases h
    rw [List.mapM_cons, StateT.run_bind, show (liftM (f a) : TryFresh β).run supply = .ok (b, supply) by
      rw [first]; rfl]
    show (StateT.run (as.mapM fun a => (liftM (f a) : TryFresh β)) supply >>= _) = _
    rw [ih others]
    rfl

/-- Taking identities for the members of a list succeeds. -/
theorem mapM_lift_exists (f : α → Fresh β) (as : List α) (supply : Supply) :
    ∃ bs last, (as.mapM fun a => (liftM (f a) : TryFresh β)).run supply = .ok (bs, last) := by
  induction as generalizing supply with
  | nil => exact ⟨[], supply, rfl⟩
  | cons a as ih =>
    rw [List.mapM_cons]
    refine bind_exists (r := (f a).run supply) rfl ?_
    obtain ⟨bs, last, rest⟩ := ih ((f a).run supply).2
    exact bind_exists rest ⟨_, _, rfl⟩

/-- A computation that never fails in one way. -/
def Avoids (e : Failure) (x : TryFresh α) : Prop :=
  ∀ supply, x.run supply ≠ .error e

variable {e : Failure}

theorem Avoids.pure (a : α) : Avoids e (Pure.pure a) :=
  nofun

theorem Avoids.lift (x : Fresh α) : Avoids e (liftM x) :=
  nofun

theorem Avoids.liftExcept {x : Except Failure α} (h : x ≠ .error e) : Avoids e (liftM x) := by
  intro supply failed
  cases x with
  | error e' =>
    cases failed
    exact h rfl
  | ok a => cases failed

theorem Avoids.bind {x : TryFresh α} {f : α → TryFresh β} (hx : Avoids e x)
    (hf : ∀ a, Avoids e (f a)) : Avoids e (x >>= f) := by
  intro supply failed
  have failed : (x.run supply >>= fun p => (f p.1).run p.2) = .error e := failed
  cases first : x.run supply with
  | error e' =>
    rw [first] at failed
    cases failed
    exact hx supply first
  | ok p =>
    rw [first] at failed
    exact hf p.1 p.2 failed

theorem Avoids.mapM {f : α → TryFresh β} (as : List α) (hf : ∀ a, Avoids e (f a)) :
    Avoids e (as.mapM f) := by
  induction as with
  | nil => exact .pure []
  | cons a as ih =>
    rw [List.mapM_cons]
    exact (hf a).bind fun b => ih.bind fun bs => .pure (b :: bs)

end TryFresh

namespace Inlining

/-! ## Parts -/

/-- The node of a part. -/
def Part.node : Part → Node
  | kept insn => insn.node
  | new node => node

theorem Part.map_node_new (nodes : List Node) : (nodes.map new).map node = nodes := by
  rw [List.map_map]
  exact List.map_id nodes

theorem Part.node_insn (part : Part) (supply : Supply) : (part.insn.run supply).1.node = part.node := by
  cases part <;> rfl

/-- The instructions of parts have their nodes. -/
theorem nodes_of_parts {parts : List Part} {block : List Insn} {supply supply' : Supply}
    (h : (parts.mapM fun part => (liftM part.insn : TryFresh Insn)).run supply = .ok (block, supply')) :
    block.map Insn.node = parts.map Part.node := by
  induction parts generalizing block supply with
  | nil =>
    cases h
    rfl
  | cons part parts ih =>
    rw [List.mapM_cons] at h
    obtain ⟨insn, between, first, h⟩ := TryFresh.bind_eq_ok h
    obtain ⟨rest, last, others, h⟩ := TryFresh.bind_eq_ok h
    cases h
    have same := part.node_insn supply
    rw [TryFresh.lift_eq_ok first] at same
    rw [List.map_cons, List.map_cons, ih others, same]

/-! ## Splices -/

/-- The layout and the parts of a splice that succeeds. -/
theorem splice_eq_ok {site : CallSite} {returnSlot : UInt16} {callee : Method} {s : Splice}
    {supply supply' : Supply} (h : (splice site returnSlot callee).run supply = .ok (s, supply')) :
    ∃ d body, MethodDescriptor.parse site.descriptor = .ok d ∧
      let layout : Layout := ⟨d.returnType, returnSlot, (Fresh.labelId.run supply).1⟩
      layout.parts callee.body.toList = .ok body ∧
      s.block.map Insn.node = ((layout.entry site.hasReceiver d.arguments ++ body ++
        (if returnsEarly callee.body then [Part.new (.label layout.exit)] else []) ++
        layout.loadResult).map Part.node) ∧
      s.exceptions = callee.exceptions ∧
      callee.localVariables.mapM layout.moveVariable = .ok s.localVariables := by
  unfold splice at h
  obtain ⟨d, s₁, parsing, h₁⟩ := TryFresh.bind_eq_ok h
  obtain ⟨exit, s₂, labelled, h₂⟩ := TryFresh.bind_eq_ok h₁
  obtain ⟨body, s₃, moving, h₃⟩ := TryFresh.bind_eq_ok h₂
  obtain ⟨localVariables, s₄, naming, h₄⟩ := TryFresh.bind_eq_ok h₃
  obtain ⟨block, s₅, numbering, h₅⟩ := TryFresh.bind_eq_ok h₄
  cases h₅
  obtain ⟨parsed, rfl⟩ := TryFresh.liftExcept_eq_ok parsing
  obtain rfl : (Fresh.labelId.run s₁).1 = exit := congrArg Prod.fst (TryFresh.lift_eq_ok labelled)
  obtain ⟨moved, rfl⟩ := TryFresh.liftExcept_eq_ok moving
  exact ⟨d, body, ok_of_mapError parsed, moved, nodes_of_parts numbering, rfl,
    TryFresh.mapM_liftExcept_eq_ok naming⟩

/-- A splice succeeds if the nodes and the named variables of the callee can be moved. -/
theorem splice_exists {site : CallSite} {returnSlot : UInt16} {callee : Method} {d : MethodDescriptor}
    {supply : Supply} (parsed : MethodDescriptor.parse site.descriptor = .ok d)
    (body : ∃ parts, Layout.parts ⟨d.returnType, returnSlot, (Fresh.labelId.run supply).1⟩ callee.body.toList = .ok parts)
    (named : ∃ moved, callee.localVariables.mapM
      (Layout.moveVariable ⟨d.returnType, returnSlot, (Fresh.labelId.run supply).1⟩) = .ok moved) :
    ∃ s supply', (splice site returnSlot callee).run supply = .ok (s, supply') := by
  obtain ⟨parts, body⟩ := body
  obtain ⟨moved, named⟩ := named
  have lifted {α : Type} {x : Except Failure α} {a : α} (h : x = .ok a) (supply : Supply) :
      (liftM x : TryFresh α).run supply = .ok (a, supply) := by
    rw [h]
    rfl
  unfold splice
  refine TryFresh.bind_exists (lifted (by rw [parsed]; rfl) supply) ?_
  refine TryFresh.bind_exists (r := Fresh.labelId.run supply) rfl ?_
  refine TryFresh.bind_exists (lifted body _) ?_
  refine TryFresh.bind_exists (TryFresh.mapM_liftExcept_of_ok named _) ?_
  obtain ⟨block, last, numbered⟩ := TryFresh.mapM_lift_exists Part.insn _ _
  exact TryFresh.bind_exists numbered ⟨_, _, rfl⟩

/-! ## Calls -/

/-- The calls that nodes make, in their order. -/
def callsOf (nodes : List Node) : List CallSite :=
  nodes.filterMap CallSite.ofNode?

/-- The calls in a body. -/
def calls (body : Body) : List CallSite :=
  callsOf (body.toList.map Insn.node)

theorem callsOf_append (nodes more : List Node) :
    callsOf (nodes ++ more) = callsOf nodes ++ callsOf more :=
  List.filterMap_append

namespace Layout

/-- What becomes of an instruction of the callee calls what the instruction does. -/
theorem callsOf_part {l : Layout} {isLast : Bool} {insn : Insn} {parts : List Part}
    (h : l.part isLast insn = .ok parts) : callsOf (parts.map Part.node) = callsOf [insn.node] := by
  obtain ⟨id, node⟩ := insn
  cases node with
  | simple op =>
    simp only [part] at h
    split at h <;> cases h
    · unfold storeResult
      split <;> cases isLast <;> rfl
    · rfl
  | var op slot =>
    obtain ⟨moved, -, same⟩ := ok_of_bind h
    cases same
    rfl
  | increment slot amount =>
    obtain ⟨moved, -, same⟩ := ok_of_bind h
    cases same
    rfl
  | _ =>
    cases h
    rfl

theorem callsOf_parts {l : Layout} {insns : List Insn} {parts : List Part}
    (h : l.parts insns = .ok parts) :
    callsOf (parts.map Part.node) = callsOf (insns.map Insn.node) := by
  induction insns generalizing parts with
  | nil =>
    cases h
    rfl
  | cons insn rest ih =>
    obtain ⟨first, moved, h₁⟩ := ok_of_bind h
    obtain ⟨others, behind, h₂⟩ := ok_of_bind h₁
    cases h₂
    rw [List.map_append, callsOf_append, callsOf_part moved, ih behind, ← callsOf_append]
    rfl

theorem callsOf_entry (l : Layout) (hasReceiver : Bool) (arguments : List Descriptor) :
    callsOf ((l.entry hasReceiver arguments).map Part.node) = [] := by
  have stores (slot : UInt16) : callsOf (argumentStores slot arguments) = [] := by
    induction arguments generalizing slot with
    | nil => rfl
    | cons argument rest ih => exact ih _
  have reversed (slot : UInt16) : callsOf (argumentStores slot arguments).reverse = [] := by
    rw [callsOf, List.filterMap_reverse]
    exact congrArg List.reverse (stores slot)
  rw [entry, Part.map_node_new, callsOf_append, reversed]
  cases hasReceiver <;> rfl

theorem relocate_ne_endless (l : Layout) (slot : UInt16) : l.relocate slot ≠ .error .endless := by
  unfold relocate
  split <;> exact nofun

theorem parts_ne_endless (l : Layout) (insns : List Insn) : l.parts insns ≠ .error .endless := by
  have moves {α : Type} (slot : UInt16) (next : UInt16 → α) :
      (l.relocate slot >>= fun slot => Except.ok (next slot)) ≠ .error .endless :=
    bind_ne_error (l.relocate_ne_endless slot) fun _ => nofun
  induction insns with
  | nil => exact nofun
  | cons insn rest ih =>
    refine bind_ne_error ?_ fun _ => bind_ne_error ih fun _ => nofun
    obtain ⟨id, node⟩ := insn
    cases node with
    | simple op =>
      simp only [part]
      split <;> exact nofun
    | var op slot => exact moves slot _
    | increment slot amount => exact moves slot _
    | _ => exact nofun

theorem moveVariable_ne_endless (l : Layout) (v : LocalVariable) :
    l.moveVariable v ≠ .error .endless :=
  bind_ne_error (l.relocate_ne_endless v.index) fun _ => nofun

end Layout

/-- The calls in the block of a splice are those of the callee. -/
theorem callsOf_splice {site : CallSite} {returnSlot : UInt16} {callee : Method} {s : Splice}
    {supply supply' : Supply} (h : (splice site returnSlot callee).run supply = .ok (s, supply')) :
    callsOf (s.block.map Insn.node) = calls callee.body := by
  obtain ⟨d, body, -, moved, nodes, -, -⟩ := splice_eq_ok h
  have exit (early : Bool) (exit : LabelId) :
      callsOf ((if early then [Part.new (.label exit)] else []).map Part.node) = [] := by
    cases early <;> rfl
  have load (l : Layout) : callsOf (l.loadResult.map Part.node) = [] := by
    unfold Layout.loadResult
    split <;> rfl
  rw [nodes]
  simp only [List.map_append, callsOf_append, Layout.callsOf_entry, exit, load, List.nil_append,
    List.append_nil]
  exact Layout.callsOf_parts moved

/-- A splice does not fail because something goes on and on. -/
theorem splice_ne_endless (site : CallSite) (returnSlot : UInt16) (callee : Method) (supply : Supply) :
    (splice site returnSlot callee).run supply ≠ .error .endless := by
  have descriptor : (MethodDescriptor.parse site.descriptor).mapError Failure.descriptor ≠
      .error .endless := by
    cases MethodDescriptor.parse site.descriptor <;> exact nofun
  refine TryFresh.Avoids.bind (.liftExcept descriptor) (fun d => ?_) supply
  refine .bind (.lift _) fun exit => .bind (.liftExcept (Layout.parts_ne_endless _ _)) fun body => ?_
  refine .bind (.mapM _ fun v => .liftExcept (Layout.moveVariable_ne_endless _ v)) fun moved => ?_
  exact .bind (.mapM _ fun part => .lift _) fun block => .pure _

end Inlining

end Bytecode
