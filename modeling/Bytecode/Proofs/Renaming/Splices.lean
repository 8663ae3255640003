import Bytecode.Proofs.Inlining.Splicing
import Bytecode.Proofs.Renaming.Copies

/-!
# Splices of copies that differ by a distance

A splice takes one identity for its exit and one for every new instruction, in the order of the block.
`splice_run` says so with the numbers that it takes. So the splices of two copies that differ by a
distance differ by this distance, if they are made right behind the copies (`splice_shift`).
-/

namespace Bytecode

namespace TryFresh

variable {α β : Type}

/-- A computation that takes no identities comes first. -/
theorem run_except_bind (x : Except Failure α) (f : α → TryFresh β) (supply : Supply) :
    ((liftM x : TryFresh α) >>= f).run supply = x >>= fun a => (f a).run supply := by
  cases x <;> rfl

/-- A computation that takes identities comes first. -/
theorem run_fresh_bind (x : Fresh α) (f : α → TryFresh β) (supply : Supply) :
    ((liftM x : TryFresh α) >>= f).run supply = (f (x.run supply).1).run (x.run supply).2 :=
  rfl

theorem run_mapM_bind {γ : Type} (f : α → Except Failure β) (as : List α) (g : List β → TryFresh γ)
    (supply : Supply) : ((as.mapM fun a => (liftM (f a) : TryFresh β)) >>= g).run supply =
      as.mapM f >>= fun bs => (g bs).run supply := by
  induction as generalizing g with
  | nil => rfl
  | cons a as ih =>
    rw [List.mapM_cons, List.mapM_cons, bind_assoc, run_except_bind, bind_assoc]
    refine congrArg (f a >>= ·) (funext fun b => ?_)
    rw [bind_assoc, ih, bind_assoc]
    rfl

end TryFresh

namespace Inlining

variable {r : Nat → Nat}

/-! ## Parts with numbers -/

/-- Replaces the identities in a part. -/
def Part.rename (r : Nat → Nat) : Part → Part
  | kept insn => kept (insn.rename r)
  | new node => new (node.mapLabels (LabelId.rename r))

/-- Replaces the identities in a splice. -/
def Splice.rename (r : Nat → Nat) (s : Splice) : Splice where
  block := s.block.map (Insn.rename r)
  exceptions := s.exceptions.map (·.mapLabels (LabelId.rename r))
  localVariables := s.localVariables.map (·.mapLabels (LabelId.rename r))

/-- The identities that a splice mentions. -/
def Splice.identities (s : Splice) : List Nat :=
  s.block.flatMap Insn.identities ++ tableIdentities s.exceptions s.localVariables

/-- The instructions of parts, the new ones numbered from `k` on. -/
def numbered : Nat → List Part → List Insn
  | _, [] => []
  | k, .kept insn :: rest => insn :: numbered k rest
  | k, .new node :: rest => ⟨⟨k⟩, node⟩ :: numbered (k + 1) rest

/-- How many parts are new. -/
def newCount : List Part → Nat
  | [] => 0
  | .kept _ :: rest => newCount rest
  | .new _ :: rest => newCount rest + 1

/-- The instructions of parts take the identities that the supply has next. -/
theorem insns_run (parts : List Part) (k : Nat) :
    (parts.mapM fun part => (liftM part.insn : TryFresh Insn)).run ⟨k⟩ =
      .ok (numbered k parts, ⟨k + newCount parts⟩) := by
  induction parts generalizing k with
  | nil => rfl
  | cons part parts ih =>
    rw [List.mapM_cons]
    cases part with
    | kept insn =>
      show ((parts.mapM fun part => (liftM part.insn : TryFresh Insn)) >>= fun rest =>
        (pure (insn :: rest) : TryFresh (List Insn))).run ⟨k⟩ = _
      rw [StateT.run_bind, ih]
      rfl
    | new node =>
      show ((parts.mapM fun part => (liftM part.insn : TryFresh Insn)) >>= fun rest =>
        (pure (⟨⟨k⟩, node⟩ :: rest) : TryFresh (List Insn))).run ⟨k + 1⟩ = _
      rw [StateT.run_bind, ih]
      show Except.ok (_, Supply.mk (k + 1 + newCount parts)) = Except.ok (_, ⟨k + (newCount parts + 1)⟩)
      rw [Nat.add_assoc, Nat.add_comm 1]
      rfl

/-- The parts of a block around the moved body of the callee. -/
def Layout.around (l : Layout) (site : CallSite) (arguments : List Descriptor) (early : Bool)
    (body : List Part) : List Part :=
  l.entry site.hasReceiver arguments ++ body ++ (if early then [Part.new (.label l.exit)] else []) ++
    l.loadResult

/-- A splice with the numbers that it takes. -/
theorem splice_run (site : CallSite) (returnSlot : UInt16) (callee : Method) (k : Nat) :
    (splice site returnSlot callee).run ⟨k⟩ = (do
      let d ← (MethodDescriptor.parse site.descriptor).mapError Failure.descriptor
      let layout : Layout := ⟨d.returnType, returnSlot, ⟨k⟩⟩
      let body ← layout.parts callee.body.toList
      let named ← callee.localVariables.mapM layout.moveVariable
      let parts := layout.around site d.arguments (returnsEarly callee.body) body
      return (⟨numbered (k + 1) parts, callee.exceptions, named⟩, ⟨k + 1 + newCount parts⟩)) := by
  unfold splice
  rw [TryFresh.run_except_bind]
  refine congrArg (((MethodDescriptor.parse site.descriptor).mapError Failure.descriptor) >>= ·)
    (funext fun d => ?_)
  have exit : Fresh.labelId.run ⟨k⟩ = (⟨k⟩, ⟨k + 1⟩) := rfl
  rw [TryFresh.run_fresh_bind, exit, TryFresh.run_except_bind]
  refine congrArg (Layout.parts ⟨d.returnType, returnSlot, ⟨k⟩⟩ callee.body.toList >>= ·)
    (funext fun body => ?_)
  dsimp only
  rw [TryFresh.run_mapM_bind]
  refine congrArg (List.mapM _ _ >>= ·) (funext fun named => ?_)
  rw [StateT.run_bind, insns_run]
  rfl

/-! ## Renamed splices -/

/-- Replaces the identity of the exit. -/
def Layout.rename (r : Nat → Nat) (l : Layout) : Layout :=
  { l with exit := l.exit.rename r }

namespace Layout

variable (l : Layout)

theorem part_rename (isLast : Bool) (insn : Insn) :
    (l.rename r).part isLast (insn.rename r) = (l.part isLast insn).map (List.map (Part.rename r)) := by
  obtain ⟨id, node⟩ := insn
  cases node with
  | simple op =>
    show (if op.isReturn then _ else _) = Except.map _ (if op.isReturn then _ else _)
    split
    · show Except.ok (l.storeResult ++ _) = Except.ok (List.map (Part.rename r) (l.storeResult ++ _))
      rw [List.map_append]
      unfold storeResult
      split <;> cases isLast <;> rfl
    · rfl
  | var op slot =>
    show ((l.relocate slot) >>= _) = Except.map _ ((l.relocate slot) >>= _)
    cases l.relocate slot <;> rfl
  | increment slot amount =>
    show ((l.relocate slot) >>= _) = Except.map _ ((l.relocate slot) >>= _)
    cases l.relocate slot <;> rfl
  | _ => rfl

theorem parts_rename (insns : List Insn) :
    (l.rename r).parts (insns.map (Insn.rename r)) = (l.parts insns).map (List.map (Part.rename r)) := by
  induction insns with
  | nil => rfl
  | cons insn rest ih =>
    rw [List.map_cons, parts, parts, ih, List.isEmpty_map, part_rename]
    cases l.part rest.isEmpty insn with
    | error e => rfl
    | ok first =>
      cases l.parts rest with
      | error e => rfl
      | ok others =>
        show Except.ok (first.map (Part.rename r) ++ others.map (Part.rename r)) = _
        rw [← List.map_append]
        rfl

theorem around_rename (site : CallSite) (arguments : List Descriptor) (early : Bool)
    (body : List Part) : (l.rename r).around site arguments early (body.map (Part.rename r)) =
      (l.around site arguments early body).map (Part.rename r) := by
  have stores (slot : UInt16) : ((argumentStores slot arguments).map Part.new).map (Part.rename r) =
      (argumentStores slot arguments).map Part.new := by
    induction arguments generalizing slot with
    | nil => rfl
    | cons argument rest ih => exact congrArg (_ :: ·) (ih _)
  have entry : (l.entry site.hasReceiver arguments).map (Part.rename r) =
      l.entry site.hasReceiver arguments := by
    unfold Layout.entry
    cases site.hasReceiver <;> simp only [List.map_append, List.map_reverse, stores] <;> rfl
  have load : l.loadResult.map (Part.rename r) = l.loadResult := by
    unfold loadResult
    split <;> rfl
  have exit : (if early then [Part.new (.label l.exit)] else []).map (Part.rename r) =
      if early then [Part.new (.label (l.rename r).exit)] else [] := by
    cases early <;> rfl
  rw [around, around, List.map_append, List.map_append, List.map_append, entry, exit, load]
  rfl

theorem moveVariable_rename (v : LocalVariable) :
    (l.rename r).moveVariable (v.mapLabels (LabelId.rename r)) =
      (l.moveVariable v).map (·.mapLabels (LabelId.rename r)) := by
  show ((l.relocate v.index) >>= _) = Except.map _ ((l.relocate v.index) >>= _)
  cases l.relocate v.index <;> rfl

theorem moveVariables_rename (vs : List LocalVariable) :
    (vs.map (·.mapLabels (LabelId.rename r))).mapM (l.rename r).moveVariable =
      (vs.mapM l.moveVariable).map (List.map (·.mapLabels (LabelId.rename r))) := by
  induction vs with
  | nil => rfl
  | cons v vs ih =>
    rw [List.map_cons, List.mapM_cons, List.mapM_cons, ih, moveVariable_rename]
    cases l.moveVariable v with
    | error e => rfl
    | ok first => cases vs.mapM l.moveVariable <;> rfl

end Layout

theorem returnsEarly_rename (body : Body) : returnsEarly (body.map (Insn.rename r)) = returnsEarly body := by
  unfold returnsEarly
  rw [Array.toList_map, ← List.map_dropLast, List.any_map]
  refine congrArg (List.any _ ·) (funext fun insn => ?_)
  obtain ⟨id, node⟩ := insn
  cases node <;> rfl

theorem newCount_rename (parts : List Part) : newCount (parts.map (Part.rename r)) = newCount parts := by
  induction parts with
  | nil => rfl
  | cons part parts ih =>
    cases part with
    | kept insn => exact ih
    | new node => exact congrArg (· + 1) ih

/-- Behind a distance, parts are numbered with the distance. -/
theorem numbered_shift {n n' k : Nat} (above : n ≤ k) (parts : List Part) :
    numbered (shift n n' k) (parts.map (Part.rename (shift n n'))) =
      (numbered k parts).map (Insn.rename (shift n n')) := by
  induction parts generalizing k with
  | nil => rfl
  | cons part parts ih =>
    cases part with
    | kept insn => exact congrArg (_ :: ·) (ih above)
    | new node =>
      have next : shift n n' k + 1 = shift n n' (k + 1) := by
        simp only [shift]
        omega
      rw [List.map_cons, Part.rename, numbered, numbered, List.map_cons, next,
        ih (Nat.le_succ_of_le above)]
      rfl

/-- **Splices differ by a distance.** If a copy is moved by a distance and the supply with it, the
splice and what is left of the supply are moved by this distance. -/
theorem splice_shift (site : CallSite) (returnSlot : UInt16) (callee : Method) {n n' k : Nat}
    (above : n ≤ k) :
    (splice site returnSlot (callee.rename (shift n n'))).run ⟨shift n n' k⟩ =
      ((splice site returnSlot callee).run ⟨k⟩).map fun p =>
        (p.1.rename (shift n n'), ⟨shift n n' p.2.next⟩) := by
  rw [splice_run, splice_run]
  cases (MethodDescriptor.parse site.descriptor).mapError Failure.descriptor with
  | error e => rfl
  | ok d =>
    let l : Layout := ⟨d.returnType, returnSlot, ⟨k⟩⟩
    have bodies : (callee.rename (shift n n')).body.toList =
        callee.body.toList.map (Insn.rename (shift n n')) := Array.toList_map
    have early : returnsEarly (callee.rename (shift n n')).body = returnsEarly callee.body :=
      returnsEarly_rename _
    show ((l.rename (shift n n')).parts _ >>= fun body => List.mapM (l.rename (shift n n')).moveVariable _ >>=
      fun named => _) = Except.map _ (l.parts _ >>= fun body => List.mapM l.moveVariable _ >>= fun named => _)
    rw [bodies, Layout.parts_rename]
    cases l.parts callee.body.toList with
    | error e => rfl
    | ok body =>
      show (List.mapM (l.rename (shift n n')).moveVariable (callee.localVariables.map _) >>= fun named => _) =
        Except.map _ (List.mapM l.moveVariable _ >>= fun named => _)
      rw [Layout.moveVariables_rename]
      cases callee.localVariables.mapM l.moveVariable with
      | error e => rfl
      | ok named =>
        have next : shift n n' k + 1 = shift n n' (k + 1) := by
          simp only [shift]
          omega
        have parts : (Layout.mk d.returnType returnSlot ⟨shift n n' k⟩).around site d.arguments
            (returnsEarly (callee.rename (shift n n')).body) (body.map (Part.rename (shift n n'))) =
            (l.around site d.arguments (returnsEarly callee.body) body).map (Part.rename (shift n n')) := by
          rw [early]
          exact l.around_rename site d.arguments _ body
        refine congrArg Except.ok (Prod.ext ?_ ?_)
        · dsimp only
          rw [parts, next, numbered_shift (Nat.le_succ_of_le above)]
          rfl
        · dsimp only
          rw [parts, newCount_rename]
          show Supply.mk (_ + newCount (l.around _ _ _ _)) = ⟨shift n n' (_ + newCount (l.around _ _ _ _))⟩
          generalize newCount (l.around _ _ _ _) = count
          refine congrArg Supply.mk ?_
          simp only [shift]
          omega

/-! ## The identities of a splice -/

/-- The identities that a part mentions. A new instruction has none of its own yet. -/
def Part.identities : Part → List Nat
  | kept insn => insn.identities
  | new node => node.labels.map LabelId.val

/-- The instructions of the callee among parts. -/
def keptIds : List Part → List InsnId
  | [] => []
  | .kept insn :: rest => insn.id :: keptIds rest
  | .new _ :: rest => keptIds rest

theorem keptIds_append (parts more : List Part) :
    keptIds (parts ++ more) = keptIds parts ++ keptIds more := by
  induction parts with
  | nil => rfl
  | cons part parts ih =>
    cases part with
    | kept insn => exact congrArg (insn.id :: ·) ih
    | new node => exact ih

/-- Numbered parts mention what the parts mention, and their numbers. -/
theorem identities_numbered {parts : List Part} {k x : Nat}
    (mentioned : x ∈ (numbered k parts).flatMap Insn.identities) :
    x ∈ parts.flatMap Part.identities ∨ k ≤ x ∧ x < k + newCount parts := by
  induction parts generalizing k with
  | nil => cases mentioned
  | cons part parts ih =>
    cases part with
    | kept insn =>
      rw [numbered, List.flatMap_cons, List.mem_append] at mentioned
      rw [List.flatMap_cons, List.mem_append]
      rcases mentioned with first | later
      · exact .inl (.inl first)
      · exact (ih later).imp_left .inr
    | new node =>
      rw [numbered, List.flatMap_cons, List.mem_append] at mentioned
      rw [List.flatMap_cons, List.mem_append, newCount]
      rcases mentioned with first | later
      · rcases List.mem_cons.mp first with rfl | label
        · exact .inr (by omega)
        · exact .inl (.inl label)
      · rcases ih later with old | new
        · exact .inl (.inr old)
        · exact .inr (by omega)

/-- Numbered parts have the identities of the callee's instructions and their numbers. -/
theorem ids_numbered {parts : List Part} {k : Nat} {i : InsnId}
    (member : i ∈ (numbered k parts).map Insn.id) : i ∈ keptIds parts ∨ k ≤ i.val := by
  induction parts generalizing k with
  | nil => cases member
  | cons part parts ih =>
    cases part with
    | kept insn =>
      rcases List.mem_cons.mp member with rfl | later
      · exact .inl List.mem_cons_self
      · exact (ih later).imp_left (List.mem_cons_of_mem _)
    | new node =>
      rcases List.mem_cons.mp member with rfl | later
      · exact .inr (Nat.le_refl _)
      · exact (ih later).imp_right Nat.le_of_succ_le

theorem nodup_numbered {parts : List Part} {k : Nat} (distinct : (keptIds parts).Nodup)
    (below : ∀ i ∈ keptIds parts, i.val < k) : ((numbered k parts).map Insn.id).Nodup := by
  induction parts generalizing k with
  | nil => exact .nil
  | cons part parts ih =>
    cases part with
    | kept insn =>
      obtain ⟨apart, distinct⟩ := List.nodup_cons.mp distinct
      obtain ⟨first, below⟩ := List.forall_mem_cons.mp below
      refine List.nodup_cons.mpr ⟨fun again => ?_, ih distinct below⟩
      rcases ids_numbered again with kept | above
      · exact apart kept
      · omega
    | new node =>
      refine List.nodup_cons.mpr ⟨fun again => ?_, ih distinct fun i member =>
        Nat.lt_succ_of_lt (below i member)⟩
      rcases ids_numbered again with kept | above
      · exact Nat.lt_irrefl _ (below _ kept)
      · exact absurd above (Nat.not_succ_le_self k)

namespace Layout

variable {l : Layout}

theorem identities_storeResult (l : Layout) :
    l.storeResult.flatMap Part.identities = [] ∧ keptIds l.storeResult = [] := by
  obtain ⟨returnType, slot, exit⟩ := l
  cases returnType <;> exact ⟨rfl, rfl⟩

/-- What becomes of an instruction mentions what it mentions, and the exit. -/
theorem identities_part {isLast : Bool} {insn : Insn} {parts : List Part}
    (h : l.part isLast insn = .ok parts) :
    (∀ x ∈ parts.flatMap Part.identities, x ∈ insn.identities ∨ x = l.exit.val) ∧
      (keptIds parts).Sublist [insn.id] := by
  have same (kept : Insn) (id : kept.id = insn.id) (labels : kept.node.labels = insn.node.labels) :
      (∀ x ∈ [Part.kept kept].flatMap Part.identities, x ∈ insn.identities ∨ x = l.exit.val) ∧
        (keptIds [.kept kept]).Sublist [insn.id] := by
    have identities : kept.identities = insn.identities := by
      rw [Insn.identities, Insn.identities, id, labels]
    refine ⟨fun x mentioned => .inl ?_, ?_⟩
    · rw [List.flatMap_singleton] at mentioned
      exact identities ▸ mentioned
    · rw [keptIds, keptIds, id]
  obtain ⟨id, node⟩ := insn
  cases node with
  | simple op =>
    by_cases returns : op.isReturn
    · simp only [part, if_pos returns] at h
      cases h
      obtain ⟨stored, kept⟩ := l.identities_storeResult
      rw [List.flatMap_append, stored, keptIds_append, kept]
      cases isLast with
      | true => exact ⟨List.forall_mem_nil _, List.nil_sublist _⟩
      | false => exact ⟨fun x mentioned => .inr (List.mem_singleton.mp mentioned), List.nil_sublist _⟩
    · simp only [part, returns] at h
      cases h
      exact same _ rfl rfl
  | var op slot =>
    obtain ⟨moved, -, equal⟩ := ok_of_bind h
    cases equal
    exact same _ rfl rfl
  | increment slot amount =>
    obtain ⟨moved, -, equal⟩ := ok_of_bind h
    cases equal
    exact same _ rfl rfl
  | line number start =>
    cases h
    exact ⟨List.forall_mem_nil _, List.nil_sublist _⟩
  | _ =>
    cases h
    exact same _ rfl rfl

theorem identities_parts {insns : List Insn} {parts : List Part} (h : l.parts insns = .ok parts) :
    (∀ x ∈ parts.flatMap Part.identities, x ∈ insns.flatMap Insn.identities ∨ x = l.exit.val) ∧
      (keptIds parts).Sublist (insns.map Insn.id) := by
  induction insns generalizing parts with
  | nil =>
    cases h
    exact ⟨nofun, .slnil⟩
  | cons insn rest ih =>
    obtain ⟨first, moved, h₁⟩ := ok_of_bind h
    obtain ⟨others, behind, h₂⟩ := ok_of_bind h₁
    cases h₂
    obtain ⟨mentions, kept⟩ := identities_part moved
    obtain ⟨mentions', kept'⟩ := ih behind
    rw [keptIds_append, List.flatMap_append, List.flatMap_cons]
    refine ⟨fun x mentioned => ?_, kept.append kept'⟩
    rw [List.mem_append]
    rcases List.mem_append.mp mentioned with here | later
    · exact (mentions x here).imp_left .inl
    · exact (mentions' x later).imp_left .inr

theorem labels_of_moved {vs ws : List LocalVariable} (h : vs.mapM l.moveVariable = .ok ws) :
    ws.flatMap LocalVariable.labels = vs.flatMap LocalVariable.labels := by
  have each := mapM_eq_ok.mp h
  clear h
  induction each with
  | nil => rfl
  | cons first _ ih =>
    obtain ⟨slot, -, same⟩ := ok_of_bind first
    cases same
    rw [List.flatMap_cons, List.flatMap_cons, ih]
    rfl

theorem identities_around (site : CallSite) (arguments : List Descriptor) (early : Bool)
    (body : List Part) :
    (∀ x ∈ (l.around site arguments early body).flatMap Part.identities,
        x ∈ body.flatMap Part.identities ∨ x = l.exit.val) ∧
      keptIds (l.around site arguments early body) = keptIds body := by
  have plain (nodes : List Node) (free : ∀ node ∈ nodes, node.labels = []) :
      (nodes.map Part.new).flatMap Part.identities = [] ∧ keptIds (nodes.map Part.new) = [] := by
    induction nodes with
    | nil => exact ⟨rfl, rfl⟩
    | cons node nodes ih =>
      obtain ⟨first, rest⟩ := List.forall_mem_cons.mp free
      obtain ⟨none, kept⟩ := ih rest
      rw [List.map_cons, List.flatMap_cons, none, Part.identities, first, keptIds, kept]
      exact ⟨rfl, rfl⟩
  have stores (slot : UInt16) : ∀ node ∈ argumentStores slot arguments, node.labels = [] := by
    induction arguments generalizing slot with
    | nil => exact nofun
    | cons argument rest ih => exact List.forall_mem_cons.mpr ⟨rfl, ih _⟩
  obtain ⟨entered, kept⟩ : (l.entry site.hasReceiver arguments).flatMap Part.identities = [] ∧
      keptIds (l.entry site.hasReceiver arguments) = [] := by
    refine plain _ fun node member => ?_
    rcases List.mem_append.mp member with store | receiver
    · exact stores _ node (List.mem_reverse.mp store)
    · split at receiver
      · rw [List.mem_singleton.mp receiver]
        rfl
      · cases receiver
  have loaded : l.loadResult.flatMap Part.identities = [] ∧ keptIds l.loadResult = [] := by
    unfold loadResult
    split <;> exact ⟨rfl, rfl⟩
  rw [around, List.flatMap_append, List.flatMap_append, List.flatMap_append, keptIds_append,
    keptIds_append, keptIds_append, entered, kept, loaded.1, loaded.2]
  cases early with
  | true =>
    refine ⟨fun x mentioned => ?_, by simp [keptIds]⟩
    simpa [Part.identities, Node.labels] using mentioned
  | false => exact ⟨fun x mentioned => .inl (by simpa using mentioned), by simp [keptIds]⟩

end Layout

/-- A splice mentions what the callee mentions and what it takes from the supply, and does not repeat
an instruction. -/
theorem splice_mentions {site : CallSite} {returnSlot : UInt16} {callee : Method} {k : Nat}
    {s : Splice} {supply : Supply} (h : (splice site returnSlot callee).run ⟨k⟩ = .ok (s, supply)) :
    k ≤ supply.next ∧
      (∀ x ∈ s.identities, x ∈ callee.identities ∨ k ≤ x ∧ x < supply.next) ∧
      ((callee.body.toList.map Insn.id).Nodup → (∀ insn ∈ callee.body.toList, insn.id.val < k) →
        (s.block.map Insn.id).Nodup) := by
  rw [splice_run] at h
  obtain ⟨d, -, h₁⟩ := ok_of_bind h
  obtain ⟨body, moved, h₂⟩ := ok_of_bind h₁
  obtain ⟨named, moving, h₃⟩ := ok_of_bind h₂
  cases h₃
  let l : Layout := ⟨d.returnType, returnSlot, ⟨k⟩⟩
  obtain ⟨mentions, kept⟩ := Layout.identities_parts moved
  obtain ⟨mentions', kept'⟩ := l.identities_around site d.arguments (returnsEarly callee.body) body
  have labels := Layout.labels_of_moved moving
  refine ⟨?_, fun x mentioned => ?_, fun distinct below => ?_⟩
  · dsimp only
    omega
  · rw [Splice.identities, tableIdentities, labels] at mentioned
    rw [Method.identities]
    rcases List.mem_append.mp mentioned with inBlock | inTables
    · rcases identities_numbered inBlock with old | ⟨above, lt⟩
      · rcases mentions' x old with inBody | rfl
        · rcases mentions x inBody with inCallee | rfl
          · exact .inl (List.mem_append_left _ inCallee)
          · exact .inr ⟨Nat.le_refl _, by dsimp only; omega⟩
        · exact .inr ⟨Nat.le_refl _, by dsimp only; omega⟩
      · exact .inr ⟨by omega, lt⟩
    · exact .inl (List.mem_append_right _ inTables)
  · have inside : ∀ i ∈ keptIds body, i.val < k + 1 := fun i member => by
      obtain ⟨insn, there, rfl⟩ := List.mem_map.mp (kept.subset member)
      exact Nat.lt_succ_of_lt (below insn there)
    refine nodup_numbered ?_ ?_
    · rw [kept']
      exact distinct.sublist kept
    · rw [kept']
      exact inside

end Inlining

end Bytecode
