import Bytecode.Proofs.Inlining.Rounds
import Bytecode.Proofs.Weaving

/-!
# A round without its batch

A round requests its replacements in a batch, under the identities of the calls, and applies them when
all nodes have been visited. In a body that does not repeat an identity no request can get in the way of
another one, so that the round is the same as a walk over the nodes that puts a block in the place of
each call that can be inlined: `round_eq`.
-/

namespace Bytecode.Inlining

variable {expand : CallSite → InSession (Except Skip Method)} {a : Analysis.Inspection}

/-- The splice that takes the place of a node, if the node is a call that can be inlined. -/
def expansion (expand : CallSite → InSession (Except Skip Method)) (a : Analysis.Inspection)
    (insn : Insn) : InSession (Option Splice) :=
  match CallSite.ofNode? insn.node with
  | none => return none
  | some site => do
    match ← expand site with
    | .error _ => return none
    | .ok callee =>
      some <$> Session.tryFresh (splice site (UInt16.ofNat (a.nextFreeLocal insn.id)) callee)

/-- What stands in the place of a node. -/
def spliced (insn : Insn) (s : Option Splice) : List Insn :=
  s.elim [insn] Splice.block

/-- The nodes of a body after some of them were replaced. -/
def splicedBody (insns : List Insn) (splices : List (Option Splice)) : List Insn :=
  (List.zipWith spliced insns splices).flatten

/-- One round as a walk over the nodes. -/
def walk (expand : CallSite → InSession (Except Skip Method)) (owner : String) (m : Method) :
    InSession (Nat × Method) := do
  if !hasCandidate (← get).inliner.policy m then return (0, m)
  let a ← Session.analyse owner m
  let splices ← m.body.toList.mapM (expansion expand a)
  if (splices.filterMap id).isEmpty then return (0, m)
  return ((splices.filterMap id).length,
    withSplices m (splicedBody m.body.toList splices).toArray (splices.filterMap id))

/-! ## The batch -/

/-- A batch with the requests for some nodes. -/
def requested (b : EditBatch) : List Insn → List (Option Splice) → EditBatch
  | insn :: insns, some s :: splices =>
    requested { b with replacements := b.replacements.insert insn.id s.block } insns splices
  | _ :: insns, none :: splices => requested b insns splices
  | _, _ => b

theorem requested_inserts (b : EditBatch) (insns : List Insn) (splices : List (Option Splice)) :
    (requested b insns splices).inserts = b.inserts := by
  fun_induction requested b insns splices with
  | case1 b insn insns s splices ih => exact ih
  | case2 b insn insns splices ih => exact ih
  | case3 => rfl

theorem requested_stopped (b : EditBatch) (insns : List Insn) (splices : List (Option Splice)) :
    (requested b insns splices).stopped = b.stopped := by
  fun_induction requested b insns splices with
  | case1 b insn insns s splices ih => exact ih
  | case2 b insn insns splices ih => exact ih
  | case3 => rfl

/-- Nodes without a request keep what was requested for them. -/
theorem requested_of_not_mem {b : EditBatch} {insns : List Insn} {splices : List (Option Splice)}
    {id : InsnId} (other : id ∉ insns.map Insn.id) :
    (requested b insns splices).replacements[id]? = b.replacements[id]? := by
  fun_induction requested b insns splices with
  | case1 b insn insns s splices ih =>
    rw [List.map_cons, List.mem_cons, not_or] at other
    obtain ⟨apart, other⟩ := other
    rw [ih other, Std.HashMap.getElem?_insert, if_neg (by simpa using Ne.symm apart)]
  | case2 b insn insns splices ih => exact ih fun member => other (List.mem_cons_of_mem _ member)
  | case3 => rfl

/-- All requests are for nodes that were visited. -/
theorem mem_of_requested {b : EditBatch} {insns : List Insn} {splices : List (Option Splice)}
    {id : InsnId} (known : id ∈ (requested b insns splices).replacements) :
    id ∈ b.replacements ∨ id ∈ insns.map Insn.id := by
  by_cases member : id ∈ insns.map Insn.id
  · exact .inr member
  · rw [Std.HashMap.mem_iff_isSome_getElem?, requested_of_not_mem member] at known
    exact .inl (Std.HashMap.mem_iff_isSome_getElem?.mpr known)

theorem requested_grows {b : EditBatch} {insns : List Insn} {splices : List (Option Splice)} {id : InsnId}
    (known : id ∈ b.replacements) : id ∈ (requested b insns splices).replacements := by
  fun_induction requested b insns splices with
  | case1 b insn insns s splices ih => exact ih (Std.HashMap.mem_insert.mpr (.inr known))
  | case2 b insn insns splices ih => exact ih known
  | case3 => exact known

/-- A batch in which something was requested is not empty. -/
theorem requested_filled {b : EditBatch} {insns : List Insn} {splices : List (Option Splice)}
    (length : splices.length = insns.length) (filled : (splices.filterMap id).isEmpty = false) :
    (requested b insns splices).isEmpty = false := by
  have member : ∃ i, i ∈ (requested b insns splices).replacements := by
    fun_induction requested b insns splices with
    | case1 b insn insns s splices => exact ⟨insn.id, requested_grows Std.HashMap.mem_insert_self⟩
    | case2 b insn insns splices ih => exact ih (Nat.succ.inj length) filled
    | case3 insns b splices none some_ =>
      cases splices with
      | nil => cases filled
      | cons o splices =>
        cases insns with
        | nil => cases length
        | cons insn insns =>
          cases o with
          | none => exact (some_ insn insns splices rfl rfl).elim
          | some s => exact (none insn insns s splices rfl rfl).elim
  obtain ⟨i, member⟩ := member
  have some_ : (requested b insns splices).replacements.isEmpty = false :=
    Std.HashMap.isEmpty_eq_false_iff_exists_mem.mpr ⟨i, member⟩
  rw [← Bool.not_eq_true] at some_ ⊢
  exact fun empty => some_ (EditBatch.isEmpty_iff.mp empty).2

/-- What the batch makes of the visited nodes is what stands in their places. -/
theorem flatMap_requested {b : EditBatch} {insns : List Insn} {splices : List (Option Splice)}
    (length : splices.length = insns.length) (distinct : (insns.map Insn.id).Nodup)
    (plain : b.inserts = ∅) (new : ∀ insn ∈ insns, insn.id ∉ b.replacements) :
    insns.flatMap (requested b insns splices).edited = splicedBody insns splices := by
  have edited (batch : EditBatch) (plain : batch.inserts = ∅) (insn : Insn) :
      batch.edited insn = (batch.replacements[insn.id]?).getD [insn] := by
    rw [EditBatch.edited, plain, Std.HashMap.getElem?_empty]
    rfl
  induction insns generalizing b splices with
  | nil => rfl
  | cons insn insns ih =>
    obtain ⟨apart, distinct⟩ := List.nodup_cons.mp distinct
    obtain ⟨free, new⟩ := List.forall_mem_cons.mp new
    cases splices with
    | nil => cases length
    | cons o splices =>
      have fits : splices.length = insns.length := Nat.succ.inj length
      have shown : (requested b (insn :: insns) (o :: splices)).edited insn = spliced insn o := by
        rw [edited _ ((requested_inserts ..).trans plain)]
        cases o with
        | none =>
          rw [requested, requested_of_not_mem apart, Std.HashMap.getElem?_eq_none free]
          rfl
        | some s =>
          rw [requested, requested_of_not_mem apart, Std.HashMap.getElem?_insert_self]
          rfl
      rw [List.flatMap_cons, shown, splicedBody, List.zipWith_cons_cons, List.flatten_cons]
      refine congrArg (spliced insn o ++ ·) ?_
      cases o with
      | none => exact ih fits distinct plain new
      | some s =>
        refine ih fits distinct plain fun other member known => ?_
        rcases Std.HashMap.mem_insert.mp known with same | before
        · have same : insn.id = other.id := by simpa using same
          exact apart (same ▸ List.mem_map_of_mem member)
        · exact new other member before

/-- A batch without insertions whose requests are for nodes of the body can be applied. -/
theorem apply_eq_ok {batch : EditBatch} {body : Body} (plain : batch.inserts = ∅)
    (inside : ∀ id ∈ batch.replacements, id ∈ body.toList.map Insn.id)
    (some_ : batch.isEmpty = false) :
    batch.apply body = .ok (true, (body.toList.flatMap batch.edited).toArray) := by
  rw [EditBatch.apply, some_, EditBatch.missingTarget?_of_inside (by simp [plain]) inside]
  rfl

/-! ## The walk -/

/-- The visit of a node of which nothing was requested. -/
theorem visit_eq {b : EditBatch} {insn : Insn} {before : List Splice}
    (new : insn.id ∉ b.replacements) :
    (visit expand a ⟨b, insn.id⟩ insn).run before = (do
      let o ← expansion expand a insn
      return (⟨requested b [insn] [o], insn.id⟩, before ++ o.toList)) := by
  cases call : CallSite.ofNode? insn.node with
  | none =>
    rw [visit_of_other call, expansion]
    simp only [call, pure_bind]
    rw [Option.toList_none, List.append_nil]
    rfl
  | some site =>
    rw [visit_of_call call, expansion]
    simp only [call, bind_assoc]
    refine congrArg (expand site >>= ·) (funext fun r => ?_)
    cases r with
    | error skip =>
      simp only [pure_bind]
      rw [Option.toList_none, List.append_nil]
      rfl
    | ok callee =>
      simp only [map_eq_pure_bind, bind_assoc, pure_bind]
      refine congrArg (Session.tryFresh _ >>= ·) (funext fun s => ?_)
      have replaced : EditCursor.replace ⟨b, insn.id⟩ s.block = .ok ⟨requested b [insn] [some s], insn.id⟩ := by
        have free : b.replacements.contains insn.id = false := by simpa using new
        simp only [EditCursor.replace, EditBatch.replace, EditBatch.request, free, Bool.false_eq_true,
          if_false, requested]
        rfl
      rw [replaced]
      rfl

/-- The traversal of a body is the walk, and fills the batch with the requests of the walk. -/
theorem collectFrom_eq {i : Nat} {insns : List Insn} {b : EditBatch} {before : List Splice}
    (goesOn : b.stopped = false) (distinct : (insns.map Insn.id).Nodup)
    (new : ∀ insn ∈ insns, insn.id ∉ b.replacements) :
    (EditBatch.collectFrom (fun cursor insn _ => visit expand a cursor insn) i insns b).run before =
      (do let splices ← insns.mapM (expansion expand a)
          return (requested b insns splices, before ++ splices.filterMap id)) := by
  induction insns generalizing i b before with
  | nil =>
    rw [List.mapM_nil, pure_bind, List.filterMap_nil, List.append_nil]
    rfl
  | cons insn insns ih =>
    obtain ⟨apart, distinct⟩ := List.nodup_cons.mp distinct
    obtain ⟨free, new⟩ := List.forall_mem_cons.mp new
    rw [EditBatch.collectFrom, StateT.run_bind, visit_eq free, List.mapM_cons]
    simp only [bind_assoc, pure_bind]
    refine congrArg (expansion expand a insn >>= ·) (funext fun o => ?_)
    have goesOn' : (requested b [insn] [o]).stopped = false := (requested_stopped ..).trans goesOn
    have new' : ∀ other ∈ insns, other.id ∉ (requested b [insn] [o]).replacements := by
      intro other member known
      rcases mem_of_requested known with before | same
      · exact new other member before
      · exact apart (List.mem_singleton.mp same ▸ List.mem_map_of_mem member)
    rw [if_neg (by rw [goesOn']; exact Bool.false_ne_true), ih goesOn' distinct new']
    refine congrArg (List.mapM _ insns >>= ·) (funext fun splices => ?_)
    cases o with
    | none => rw [Option.toList_none, List.append_nil]; rfl
    | some s => rw [Option.toList_some, List.append_assoc]; rfl

/-- Work on the elements of a list gives as many results. -/
theorem length_of_mapM {α β : Type} {f : α → InSession β} {as : List α} {bs : List β} {s s' : Session}
    (h : outcome (as.mapM f) s = (.ok bs, s')) : bs.length = as.length := by
  induction as generalizing bs s with
  | nil =>
    cases h
    rfl
  | cons a as ih =>
    rw [List.mapM_cons, outcome_bind] at h
    split at h
    · next b s₁ _ =>
      rw [outcome_bind] at h
      split at h
      · next rest s₂ others =>
        cases h
        exact congrArg (· + 1) (ih others)
      · cases h
    · cases h

/-- **A round without its batch.** In a body that does not repeat an identity a round is a walk over
the nodes. -/
theorem round_eq {owner : String} {m : Method} (distinct : (m.body.toList.map Insn.id).Nodup) :
    round expand owner m = walk expand owner m := by
  unfold round walk
  refine congrArg (get >>= ·) (funext fun s => ?_)
  dsimp only
  split
  · rfl
  · refine congrArg (Session.analyse owner m >>= ·) (funext fun a => ?_)
    rw [EditBatch.collect, collectFrom_eq rfl distinct (by simp)]
    simp only [bind_assoc, pure_bind, List.nil_append]
    refine funext fun s => ?_
    show outcome _ s = outcome _ s
    rw [outcome_bind, outcome_bind]
    generalize walked : outcome (m.body.toList.mapM (expansion expand a)) s = result
    obtain ⟨e | splices, s'⟩ := result
    · rfl
    · dsimp only
      split
      · rfl
      · next filled =>
        have applied : (requested {} m.body.toList splices).apply m.body =
            .ok (true, (splicedBody m.body.toList splices).toArray) := by
          have length := length_of_mapM walked
          have plain : (requested {} m.body.toList splices).inserts = ∅ := requested_inserts ..
          rw [apply_eq_ok plain (fun id known => (mem_of_requested known).resolve_left (by simp))
            (requested_filled length (eq_false_of_ne_true filled)),
            flatMap_requested length distinct rfl (by simp)]
        rw [applied]
        rfl

end Bytecode.Inlining
