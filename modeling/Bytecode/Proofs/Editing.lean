import Bytecode.Proofs.Weaving
import Mathlib.Data.List.Induction
import Mathlib.Data.List.Sort

/-!
# Sequences of edit requests

Requests are submitted to a batch one after the other, and the batch is then applied to a body. A batch
that took some requests answers every question as a search among them does (`Submission.Faithful`), so
that neither the order of the requests nor the tables matter for what becomes of a body.

A body could also be edited by hand, one request at a time and by position only: first all insertions,
then all replacements, from the end of the body towards its start, so that the requests that are still to
come find their nodes where they were (`performed`). A replacement comes after all insertions, and finds
the node that was at its position moved by the blocks that were inserted up to there (`displaced`). Both
ways lead to the same body: `submitted_applied`.
-/

namespace Bytecode

/-- A request to edit a body at one of its nodes. -/
structure EditRequest where
  kind : EditKind
  target : InsnId
  block : List Insn

namespace EditRequest

/-- What can be requested only once. -/
def key (r : EditRequest) : EditKind × InsnId :=
  (r.kind, r.target)

/-- Where the target of a request is. -/
def position (insns : List Insn) (r : EditRequest) : Nat :=
  insns.findIdx fun insn => insn.id == r.target

end EditRequest

/-- The requests of a kind. -/
def ofKind (kind : EditKind) (requests : List EditRequest) : List EditRequest :=
  requests.filter fun r => r.kind == kind

/-- The block that some requests of one kind ask for at a node. -/
def blockFor (requests : List EditRequest) (target : InsnId) : Option (List Insn) :=
  (requests.find? fun r => r.target == target).map EditRequest.block

/-! ## Submitting requests -/

namespace EditBatch

/-- Submits a request. -/
def submit (b : EditBatch) (r : EditRequest) : Except Failure EditBatch :=
  match r.kind with
  | .insertBefore => b.insertBefore r.target r.block
  | .replace => b.replace r.target r.block

/-- Applies a batch to a body, which stays as it is if that fails. -/
def edit (b : EditBatch) (body : Body) : Attempt Body Bool :=
  match b.apply body with
  | .ok (changed, edited) => ⟨edited, .ok changed⟩
  | .error e => ⟨body, .error e⟩

/-- The requests of a kind in a batch. -/
def table (b : EditBatch) : EditKind → Std.HashMap InsnId (List Insn)
  | .insertBefore => b.inserts
  | .replace => b.replacements

/-- A batch with other requests of a kind. -/
def withTable (b : EditBatch) (kind : EditKind) (table : Std.HashMap InsnId (List Insn)) : EditBatch :=
  match kind with
  | .insertBefore => { b with inserts := table }
  | .replace => { b with replacements := table }

theorem table_withTable (b : EditBatch) (kind kind' : EditKind) (table : Std.HashMap InsnId (List Insn)) :
    (b.withTable kind table).table kind' = if kind = kind' then table else b.table kind' := by
  cases kind <;> cases kind' <;> rfl

/-- A batch with one more request. -/
def recorded (b : EditBatch) (r : EditRequest) : EditBatch :=
  b.withTable r.kind ((b.table r.kind).insert r.target r.block)

theorem submit_eq (b : EditBatch) (r : EditRequest) : b.submit r =
    if r.target ∈ b.table r.kind then .error (.editConflict r.target r.kind) else .ok (b.recorded r) := by
  have requested : b.submit r =
      (request (b.table r.kind) r.kind r.target r.block).map (b.withTable r.kind) := by
    obtain ⟨kind, target, block⟩ := r
    cases kind <;> rfl
  rw [requested, request]
  by_cases taken : r.target ∈ b.table r.kind
  · rw [if_pos taken, if_pos (Std.HashMap.contains_iff_mem.mpr taken)]
    rfl
  · rw [if_neg taken, if_neg (mt Std.HashMap.contains_iff_mem.mp taken)]
    rfl

end EditBatch

/-- A batch, and the requests that it has accepted in the order in which they came. -/
structure Submission where
  batch : EditBatch := {}
  accepted : List EditRequest := []

namespace Submission

/-- Submits one more request. -/
def submit (s : Submission) (r : EditRequest) : Attempt Submission Unit :=
  match s.batch.submit r with
  | .ok batch => ⟨⟨batch, s.accepted ++ [r]⟩, .ok ()⟩
  | .error e => ⟨s, .error e⟩

/-- The batch knows the accepted requests and no others, and none of them asks for the same as another. -/
structure Faithful (s : Submission) : Prop where
  records : ∀ kind target, (s.batch.table kind)[target]? = blockFor (ofKind kind s.accepted) target
  distinct : (s.accepted.map EditRequest.key).Nodup

end Submission

/-- What comes of requests that are submitted one after the other to an empty batch. -/
def submitted (requests : List EditRequest) : Submission :=
  requests.foldl (fun s r => (s.submit r).value) {}

/-! ## What a batch knows -/

section

variable {requests requests' : List EditRequest} {r : EditRequest} {kind : EditKind} {target : InsnId}

theorem mem_ofKind : r ∈ ofKind kind requests ↔ r ∈ requests ∧ r.kind = kind := by
  rw [ofKind, List.mem_filter, beq_iff_eq]

theorem ofKind_concat : ofKind kind (requests ++ [r]) =
    ofKind kind requests ++ if r.kind = kind then [r] else [] := by
  rw [ofKind, List.filter_append, List.filter_singleton]
  simp [ofKind]

/-- Requests of one kind that do not ask for the same are for different nodes. -/
theorem nodup_targets (distinct : (requests.map EditRequest.key).Nodup) (kind : EditKind) :
    ((ofKind kind requests).map EditRequest.target).Nodup := by
  have keys : (ofKind kind requests).map EditRequest.key =
      ((ofKind kind requests).map EditRequest.target).map (Prod.mk kind) := by
    rw [List.map_map]
    refine List.map_congr_left fun r member => ?_
    rw [EditRequest.key, (mem_ofKind.mp member).2]
    rfl
  have sub : ((ofKind kind requests).map EditRequest.key).Sublist (requests.map EditRequest.key) :=
    List.filter_sublist.map _
  exact List.Nodup.of_map _ (keys ▸ distinct.sublist sub)

theorem blockFor_eq_none : blockFor requests target = none ↔ ∀ r ∈ requests, r.target ≠ target := by
  rw [blockFor, Option.map_eq_none_iff, List.find?_eq_none]
  simp

theorem blockFor_isSome : (blockFor requests target).isSome ↔ ∃ r ∈ requests, r.target = target := by
  rw [blockFor, Option.isSome_map, List.find?_isSome]
  simp

theorem blockFor_cons : blockFor (r :: requests) target =
    if r.target = target then some r.block else blockFor requests target := by
  rw [blockFor, List.find?_cons]
  split
  · next same => rw [if_pos (beq_iff_eq.mp same)]; rfl
  · next other => rw [if_neg (beq_eq_false_iff_ne.mp other)]; rfl

theorem blockFor_append : blockFor (requests ++ requests') target =
    (blockFor requests target).or (blockFor requests' target) := by
  rw [blockFor, blockFor, blockFor, List.find?_append]
  cases requests.find? fun r => r.target == target <;> rfl

/-- What is asked for at a node does not depend on the order of requests for different nodes. -/
theorem blockFor_perm (distinct : (requests.map EditRequest.target).Nodup) (perm : requests.Perm requests') :
    blockFor requests = blockFor requests' := by
  funext target
  rw [blockFor, blockFor]
  congr 1
  induction perm with
  | nil => rfl
  | cons r perm ih =>
    rw [List.find?_cons, List.find?_cons, ih (List.nodup_cons.mp distinct).2]
  | swap r r' requests =>
    have apart : r'.target ≠ r.target := fun same => by simp [same] at distinct
    simp only [List.find?_cons]
    by_cases here : r.target = target
    · have other : (r'.target == target) = false := beq_eq_false_iff_ne.mpr (here ▸ apart)
      simp [here, other]
    · have other : (r.target == target) = false := beq_eq_false_iff_ne.mpr here
      simp [other]
  | trans perm perm' ih ih' =>
    exact (ih distinct).trans (ih' ((perm.map _).nodup_iff.mp distinct))

end

namespace Submission

variable {s : Submission} {r : EditRequest}

/-- A faithful batch has a request for a node exactly if it has accepted one. -/
theorem Faithful.mem_table (faithful : s.Faithful) :
    r.target ∈ s.batch.table r.kind ↔ ∃ earlier ∈ s.accepted, earlier.kind = r.kind ∧ earlier.target = r.target := by
  rw [← Std.HashMap.isSome_getElem?_iff_mem, faithful.records, blockFor_isSome]
  simp only [mem_ofKind, and_assoc]

/-- A request that asks for what has been accepted already is a conflict, and leaves everything as it
was. -/
theorem Faithful.submit_taken (faithful : s.Faithful)
    (taken : ∃ earlier ∈ s.accepted, earlier.kind = r.kind ∧ earlier.target = r.target) :
    s.submit r = ⟨s, .error (.editConflict r.target r.kind)⟩ := by
  rw [submit, EditBatch.submit_eq, if_pos (faithful.mem_table.mpr taken)]

/-- Any other request is accepted. -/
theorem Faithful.submit_free (faithful : s.Faithful)
    (free : ¬∃ earlier ∈ s.accepted, earlier.kind = r.kind ∧ earlier.target = r.target) :
    s.submit r = ⟨⟨s.batch.recorded r, s.accepted ++ [r]⟩, .ok ()⟩ := by
  rw [submit, EditBatch.submit_eq, if_neg (mt faithful.mem_table.mp free)]

/-- A request keeps a batch faithful. -/
theorem Faithful.submit (faithful : s.Faithful) : (s.submit r).value.Faithful := by
  by_cases taken : ∃ earlier ∈ s.accepted, earlier.kind = r.kind ∧ earlier.target = r.target
  · rw [faithful.submit_taken taken]
    exact faithful
  · rw [faithful.submit_free taken]
    refine ⟨fun kind target => ?_, ?_⟩
    · rw [EditBatch.recorded, EditBatch.table_withTable, ofKind_concat, blockFor_append, ← faithful.records]
      by_cases same : r.kind = kind
      · subst same
        rw [if_pos rfl, if_pos rfl, Std.HashMap.getElem?_insert, blockFor_cons]
        by_cases here : r.target = target
        · subst here
          have free : (s.batch.table r.kind)[r.target]? = none :=
            Std.HashMap.getElem?_eq_none (mt faithful.mem_table.mp taken)
          simp [free]
        · rw [if_neg (by simpa using here), if_neg here]
          simp [blockFor]
      · rw [if_neg same, if_neg same]
        simp [blockFor]
    · rw [List.map_append, List.map_singleton, ← List.concat_eq_append, List.nodup_concat]
      refine ⟨fun member => taken ?_, faithful.distinct⟩
      obtain ⟨earlier, member, same⟩ := List.mem_map.mp member
      exact ⟨earlier, member, Prod.ext_iff.mp same⟩

end Submission

theorem submitted_concat (requests : List EditRequest) (r : EditRequest) :
    submitted (requests ++ [r]) = ((submitted requests).submit r).value := by
  rw [submitted, List.foldl_concat]
  rfl

/-- A batch answers as a search among the requests that it has accepted, whatever was submitted. -/
theorem submitted_faithful (requests : List EditRequest) : (submitted requests).Faithful := by
  induction requests using List.reverseRecOn with
  | nil =>
    refine ⟨fun kind target => ?_, List.nodup_nil⟩
    cases kind <;> exact Std.HashMap.getElem?_empty
  | append_singleton requests r ih =>
    rw [submitted_concat]
    exact ih.submit

/-- Requests that do not ask for the same are all accepted. -/
theorem accepted_of_distinct {requests : List EditRequest} (distinct : (requests.map EditRequest.key).Nodup) :
    (submitted requests).accepted = requests := by
  induction requests using List.reverseRecOn with
  | nil => rfl
  | append_singleton requests r ih =>
    rw [List.map_append, List.map_singleton, ← List.concat_eq_append, List.nodup_concat] at distinct
    obtain ⟨new, distinct⟩ := distinct
    have free : ¬∃ earlier ∈ (submitted requests).accepted, earlier.kind = r.kind ∧ earlier.target = r.target := by
      rw [ih distinct]
      rintro ⟨earlier, member, same⟩
      exact new (List.mem_map.mpr ⟨earlier, member, Prod.ext_iff.mpr same⟩)
    rw [submitted_concat, (submitted_faithful requests).submit_free free, ih distinct]

/-! ## Applying a batch -/

/-- What requests make of a node. -/
def editedBy (requests : List EditRequest) (insn : Insn) : List Insn :=
  (blockFor (ofKind .insertBefore requests) insn.id).getD [] ++
    (blockFor (ofKind .replace requests) insn.id).getD [insn]

namespace Submission.Faithful

variable {s : Submission} {body : Body}

theorem isEmpty_eq (faithful : s.Faithful) : s.batch.isEmpty = s.accepted.isEmpty := by
  have free (kind : EditKind) : (s.batch.table kind).isEmpty = true ↔ ∀ r ∈ s.accepted, r.kind ≠ kind := by
    rw [Std.HashMap.isEmpty_iff_forall_not_mem]
    simp only [← Std.HashMap.isSome_getElem?_iff_mem, faithful.records, blockFor_isSome, mem_ofKind]
    exact ⟨fun none r member same => none r.target ⟨r, ⟨member, same⟩, rfl⟩,
      fun none target ⟨r, ⟨member, same⟩, _⟩ => none r member same⟩
  have both : s.batch.isEmpty = true ↔ (∀ r ∈ s.accepted, r.kind ≠ .insertBefore) ∧
      ∀ r ∈ s.accepted, r.kind ≠ .replace :=
    EditBatch.isEmpty_iff.trans (and_congr (free .insertBefore) (free .replace))
  rw [Bool.eq_iff_iff, both, List.isEmpty_iff, List.eq_nil_iff_forall_not_mem]
  refine ⟨fun ⟨noInsert, noReplace⟩ r member => ?_, fun none => ⟨fun r member => (none r member).elim,
    fun r member => (none r member).elim⟩⟩
  cases kind : r.kind
  · exact noInsert r member kind
  · exact noReplace r member kind

theorem edited_eq (faithful : s.Faithful) : s.batch.edited = editedBy s.accepted := by
  funext insn
  rw [EditBatch.edited, editedBy, ← faithful.records, ← faithful.records]
  rfl

/-- The targets of a batch are those of the accepted requests. -/
theorem mem_keys (faithful : s.Faithful) (target : InsnId) :
    target ∈ s.batch.inserts.keys ++ s.batch.replacements.keys ↔ ∃ r ∈ s.accepted, r.target = target := by
  have known (kind : EditKind) : target ∈ (s.batch.table kind).keys ↔
      ∃ r ∈ s.accepted, r.kind = kind ∧ r.target = target := by
    rw [Std.HashMap.mem_keys, ← Std.HashMap.isSome_getElem?_iff_mem, faithful.records, blockFor_isSome]
    simp only [mem_ofKind, and_assoc]
  rw [List.mem_append]
  refine Iff.trans (or_congr (known .insertBefore) (known .replace)) ?_
  constructor
  · rintro (⟨r, member, -, same⟩ | ⟨r, member, -, same⟩)
    · exact ⟨r, member, same⟩
    · exact ⟨r, member, same⟩
  · rintro ⟨r, member, same⟩
    cases kind : r.kind
    · exact .inl ⟨r, member, kind, same⟩
    · exact .inr ⟨r, member, kind, same⟩

/-- Requests for nodes of the body are all performed. -/
theorem edit_inside (faithful : s.Faithful)
    (inside : ∀ r ∈ s.accepted, r.target ∈ body.toList.map Insn.id) :
    s.batch.edit body = ⟨(body.toList.flatMap (editedBy s.accepted)).toArray, .ok (!s.accepted.isEmpty)⟩ := by
  have found : s.batch.missingTarget? body = none := by
    rw [EditBatch.missingTarget?_eq, List.find?_eq_none]
    intro target member missing
    obtain ⟨r, accepted, rfl⟩ := (faithful.mem_keys target).mp member
    exact of_decide_eq_true missing (inside r accepted)
  rw [EditBatch.edit, EditBatch.apply, faithful.isEmpty_eq, found, faithful.edited_eq]
  cases none : s.accepted.isEmpty with
  | true =>
    have untouched : editedBy s.accepted = fun insn => [insn] := by
      rw [List.isEmpty_iff.mp none]
      rfl
    rw [untouched, List.flatMap_singleton']
    rfl
  | false => rfl

/-- A request for another node is reported, and the body stays as it is. -/
theorem edit_outside (faithful : s.Faithful)
    (outside : ∃ r ∈ s.accepted, r.target ∉ body.toList.map Insn.id) :
    ∃ r ∈ s.accepted, r.target ∉ body.toList.map Insn.id ∧
      s.batch.edit body = ⟨body, .error (.editTarget r.target)⟩ := by
  obtain ⟨r, member, away⟩ := outside
  have missing : (s.batch.missingTarget? body).isSome := by
    rw [EditBatch.missingTarget?_eq, List.find?_isSome]
    exact ⟨r.target, (faithful.mem_keys _).mpr ⟨r, member, rfl⟩, decide_eq_true away⟩
  obtain ⟨target, found⟩ := Option.isSome_iff_exists.mp missing
  -- which of the missing targets is reported depends on the tables
  have known := found
  rw [EditBatch.missingTarget?_eq] at known
  obtain ⟨r', member', rfl⟩ := (faithful.mem_keys target).mp (List.mem_of_find?_eq_some known)
  have away' := List.find?_some known
  refine ⟨r', member', of_decide_eq_true away', ?_⟩
  have accepted : ¬s.accepted.isEmpty = true := by simpa using List.ne_nil_of_mem member
  rw [EditBatch.edit, EditBatch.apply, faithful.isEmpty_eq, if_neg accepted, found]

/-- The order of the accepted requests does not matter for what a body becomes. -/
theorem value_edit_perm {s' : Submission} (faithful : s.Faithful) (faithful' : s'.Faithful)
    (perm : s'.accepted.Perm s.accepted) : (s'.batch.edit body).value = (s.batch.edit body).value := by
  have members (r : EditRequest) : r ∈ s'.accepted ↔ r ∈ s.accepted := perm.mem_iff
  by_cases inside : ∀ r ∈ s.accepted, r.target ∈ body.toList.map Insn.id
  · have same : editedBy s'.accepted = editedBy s.accepted := by
      funext insn
      have targets := nodup_targets faithful'.distinct
      rw [editedBy, editedBy, blockFor_perm (targets _) (perm.filter _), blockFor_perm (targets _) (perm.filter _)]
      rfl
    rw [faithful.edit_inside inside,
      faithful'.edit_inside fun r member => inside r ((members r).mp member), same]
  · push Not at inside
    obtain ⟨_, _, _, edited⟩ := faithful.edit_outside inside
    obtain ⟨_, _, _, edited'⟩ := faithful'.edit_outside (by simpa only [members] using inside)
    rw [edited, edited']

end Submission.Faithful

/-! ## Editing by hand -/

/-- The requests of a kind, from the end of a body towards its start. -/
def fromTheEnd (insns : List Insn) (kind : EditKind) (requests : List EditRequest) : List EditRequest :=
  (ofKind kind requests).insertionSort fun r r' => r'.position insns ≤ r.position insns

/-- A list in which a block takes the place of some nodes. -/
def exchanged (place count : Nat) (block insns : List Insn) : List Insn :=
  insns.take place ++ block ++ insns.drop (place + count)

/-- Performs requests one after the other, each in the place of some nodes from where its target was. -/
def performEach (place : Nat → Nat) (count : Nat) (insns : List Insn) (requests : List EditRequest)
    (edited : List Insn) : List Insn :=
  requests.foldl (fun edited r => exchanged (place (r.position insns)) count r.block edited) edited

/-- Where the node of a position is after insertions. -/
def displaced (insns : List Insn) (inserts : List EditRequest) (p : Nat) : Nat :=
  p + total (fun r => r.block.length) (inserts.filter fun r => r.position insns ≤ p)

/-- Performs all insertions and then all replacements, from the end towards the start. -/
def performed (insns : List Insn) (requests : List EditRequest) : List Insn :=
  let inserts := fromTheEnd insns .insertBefore requests
  performEach (displaced insns inserts) 1 insns (fromTheEnd insns .replace requests)
    (performEach id 0 insns inserts insns)

theorem exchanged_append (xs ys zs block : List Insn) :
    exchanged xs.length ys.length block (xs ++ (ys ++ zs)) = xs ++ (block ++ zs) := by
  rw [exchanged, List.take_left' rfl, ← List.append_assoc xs ys, List.drop_left' (by simp), List.append_assoc]

theorem length_exchanged_zero (place : Nat) (block insns : List Insn) :
    (exchanged place 0 block insns).length = insns.length + block.length := by
  simp only [exchanged, List.length_append, List.length_take, List.length_drop]
  omega

section

variable {insns : List Insn} {insn x : Insn} {r : EditRequest} {requests inserts : List EditRequest} {p : Nat}

/-- In a list that is made of a part for each node, an edit inside the part of one node. -/
theorem exchanged_parts (part part' : Insn → List Insn) {u v w : List Insn} (block : List Insn)
    (distinct : (insns.map Insn.id).Nodup) (here : insns[p]? = some insn)
    (elsewhere : ∀ x ∈ insns, x.id ≠ insn.id → part' x = part x)
    (was : part insn = u ++ (v ++ w)) (becomes : part' insn = u ++ (block ++ w)) :
    exchanged (((insns.take p).flatMap part).length + u.length) v.length block (insns.flatMap part) =
      insns.flatMap part' := by
  obtain ⟨lt, rfl⟩ := List.getElem?_eq_some_iff.mp here
  have split : insns = insns.take p ++ (insns[p] :: insns.drop (p + 1)) := by
    rw [List.getElem_cons_drop, List.take_append_drop]
  have apart : insns[p].id ∉ (insns.take p ++ insns.drop (p + 1)).map Insn.id := by
    rw [split, List.map_append, List.map_cons, List.nodup_middle, List.nodup_cons, ← List.map_append] at distinct
    exact distinct.1
  have kept (xs : List Insn) (sub : xs ⊆ insns.take p ++ insns.drop (p + 1)) (sub' : xs ⊆ insns) :
      xs.flatMap part' = xs.flatMap part :=
    List.flatMap_congr fun x member =>
      elsewhere x (sub' member) fun same => apart (same ▸ List.mem_map_of_mem (sub member))
  have unfolded (f : Insn → List Insn) : insns.flatMap f =
      (insns.take p).flatMap f ++ (f insns[p] ++ (insns.drop (p + 1)).flatMap f) := by
    conv_lhs => rw [split]
    rw [List.flatMap_append, List.flatMap_cons]
  rw [unfolded part, unfolded part', kept _ (List.subset_append_left _ _) (List.take_subset _ _),
    kept _ (List.subset_append_right _ _) (List.drop_subset _ _), was, becomes]
  simpa [List.append_assoc] using
    exchanged_append ((insns.take p).flatMap part ++ u) v (w ++ (insns.drop (p + 1)).flatMap part) block

theorem EditRequest.getElem?_position (inside : r.target ∈ insns.map Insn.id) :
    ∃ insn, insns[r.position insns]? = some insn ∧ insn.id = r.target := by
  obtain ⟨x, member, same⟩ := List.mem_map.mp inside
  have lt : r.position insns < insns.length :=
    List.findIdx_lt_length_of_exists ⟨x, member, beq_iff_eq.mpr same⟩
  exact ⟨_, List.getElem?_eq_getElem lt, beq_iff_eq.mp (List.findIdx_getElem (w := lt))⟩

/-- The target of a request is not among the nodes before its position. -/
theorem EditRequest.id_ne_target (early : p ≤ r.position insns) (member : x ∈ insns.take p) : x.id ≠ r.target := by
  obtain ⟨i, lt, rfl⟩ := List.mem_take_iff_getElem.mp member
  have before : i < r.position insns := Nat.lt_of_lt_of_le (by omega) early
  simpa using List.not_of_lt_findIdx before

theorem EditRequest.position_lt_iff (inside : r.target ∈ insns.map Insn.id) :
    r.position insns < p ↔ r.target ∈ (insns.take p).map Insn.id := by
  refine ⟨fun lt => ?_, fun member => ?_⟩
  · obtain ⟨insn, here, same⟩ := getElem?_position inside
    rw [← same]
    refine List.mem_map_of_mem (List.mem_of_getElem? (i := r.position insns) ?_)
    rwa [List.getElem?_take_of_lt lt]
  · by_contra late
    obtain ⟨x, early, same⟩ := List.mem_map.mp member
    exact EditRequest.id_ne_target (Nat.le_of_not_lt late) early same

/-- Requests for nodes from a position on ask for nothing before it. -/
theorem blockFor_of_early (late : ∀ r ∈ requests, p ≤ r.position insns) (member : x ∈ insns.take p) :
    blockFor requests x.id = none :=
  blockFor_eq_none.mpr fun r known => (EditRequest.id_ne_target (late r known) member).symm

/-- What insertions put in front of a node. -/
def front (inserts : List EditRequest) (insn : Insn) : List Insn :=
  (blockFor inserts insn.id).getD []

theorem length_fronts (distinct : (insns.map Insn.id).Nodup) (apart : (inserts.map EditRequest.target).Nodup) :
    (insns.flatMap (front inserts)).length =
      total (fun r => r.block.length) (inserts.filter fun r => r.target ∈ insns.map Insn.id) := by
  induction inserts with
  | nil => simp [front, blockFor]
  | cons r inserts ih =>
    obtain ⟨new, apart⟩ := List.nodup_cons.mp apart
    rw [List.filter_cons]
    by_cases inside : r.target ∈ insns.map Insn.id
    · obtain ⟨insn, here, same⟩ := EditRequest.getElem?_position inside
      have none : blockFor inserts insn.id = none :=
        blockFor_eq_none.mpr fun r' member h => new (List.mem_map.mpr ⟨r', member, h.trans same⟩)
      -- the block of the request appears at its node, where no other request has one
      have grown := exchanged_parts (u := []) (v := []) (w := []) (front inserts) (front (r :: inserts)) r.block
        distinct here
        (fun x _ other => by rw [front, blockFor_cons, if_neg fun h => other (h.symm.trans same.symm), front])
        (by rw [front, none]; rfl) (by rw [front, blockFor_cons, if_pos same.symm]; simp)
      rw [if_pos (by simpa using inside), total_cons, ← ih apart, ← grown]
      exact (length_exchanged_zero ..).trans (Nat.add_comm _ _)
    · have same : insns.flatMap (front (r :: inserts)) = insns.flatMap (front inserts) :=
        List.flatMap_congr fun x member => by
          have other : r.target ≠ x.id := fun h => inside (h ▸ List.mem_map_of_mem member)
          rw [front, blockFor_cons, if_neg other, front]
      rw [if_neg (by simpa using inside), same, ih apart]

/-- Where a node is after insertions: behind the nodes before it with their blocks, and its own block. -/
theorem displaced_eq (distinct : (insns.map Insn.id).Nodup) (apart : (inserts.map EditRequest.target).Nodup)
    (inside : ∀ r ∈ inserts, r.target ∈ insns.map Insn.id) (here : insns[p]? = some insn) :
    displaced insns inserts p = (woven (front inserts) (insns.take p)).length + (front inserts insn).length := by
  obtain ⟨lt, rfl⟩ := List.getElem?_eq_some_iff.mp here
  have fronts : total (fun r => r.block.length) (inserts.filter fun r => r.position insns ≤ p) =
      ((insns.take (p + 1)).flatMap (front inserts)).length := by
    have initial : (insns.take (p + 1)).map Insn.id <+: insns.map Insn.id := (List.take_prefix _ _).map _
    rw [length_fronts (distinct.sublist initial.sublist) apart]
    congr 1
    refine List.filter_congr fun r member => ?_
    rw [decide_eq_decide, ← EditRequest.position_lt_iff (inside r member), Nat.lt_succ_iff]
  have counted (xs : List Insn) :
      (woven (front inserts) xs).length = xs.length + (xs.flatMap (front inserts)).length := by
    induction xs with
    | nil => rfl
    | cons x xs ih =>
      rw [← List.singleton_append, woven_append, List.length_append, ih, List.flatMap_append]
      simp only [woven, List.flatMap_singleton, List.length_append, List.length_singleton]
      omega
  rw [displaced, fronts, counted, List.length_take_of_le (Nat.le_of_lt lt), List.take_add_one, here,
    List.flatMap_append, List.length_append]
  simp [Nat.add_assoc]

/-- Requests that are performed from the end towards the start meet every node as it was: behind `pre`, and
in two parts `v` and `w` of which the block takes the place of the first. -/
theorem performEach_eq {place : Nat → Nat} {count : Nat} (pre v w : Insn → List Insn)
    (whole : ∀ x, v x ++ w x = [x]) (counted : ∀ x, (v x).length = count)
    (places : ∀ p insn, insns[p]? = some insn →
      place p = (woven pre (insns.take p)).length + (pre insn).length)
    (distinct : (insns.map Insn.id).Nodup) (inside : ∀ r ∈ requests, r.target ∈ insns.map Insn.id)
    (descending : requests.Pairwise fun r r' => r'.position insns < r.position insns) :
    performEach place count insns requests (woven pre insns) =
      insns.flatMap fun x => pre x ++ ((blockFor requests x.id).getD (v x) ++ w x) := by
  -- by induction from the last request on: all others are for nodes behind its own
  induction requests using List.reverseRecOn with
  | nil => exact (List.flatMap_congr fun x _ => congrArg (pre x ++ ·) (whole x)).symm
  | append_singleton requests r ih =>
    obtain ⟨descending, -, last⟩ := List.pairwise_append.mp descending
    have later (r' : EditRequest) (member : r' ∈ requests) : r.position insns < r'.position insns :=
      last r' member r (by simp)
    obtain ⟨insn, here, same⟩ := EditRequest.getElem?_position (inside r (by simp))
    rw [performEach, List.foldl_concat]
    have sofar := ih (fun r' member => inside r' (List.mem_append_left _ member)) descending
    refine (congrArg (exchanged (place (r.position insns)) count r.block) sofar).trans ?_
    -- so far nothing has been requested up to the node
    have before : (insns.take (r.position insns)).flatMap
        (fun x => pre x ++ ((blockFor requests x.id).getD (v x) ++ w x)) =
        woven pre (insns.take (r.position insns)) := by
      refine List.flatMap_congr fun x member => ?_
      rw [blockFor_of_early (fun r' known => Nat.le_of_lt (later r' known)) member, Option.getD_none, whole]
    have free : blockFor requests insn.id = none := by
      refine blockFor_of_early later (List.mem_of_getElem? (i := r.position insns) ?_)
      rwa [List.getElem?_take_of_lt (Nat.lt_succ_self _)]
    have edited := exchanged_parts (u := pre insn) (v := v insn) (w := w insn)
      (fun x => pre x ++ ((blockFor requests x.id).getD (v x) ++ w x))
      (fun x => pre x ++ ((blockFor (requests ++ [r]) x.id).getD (v x) ++ w x)) r.block distinct here
      (fun x _ other => by
        rw [blockFor_append, blockFor_cons, if_neg fun h => other (h.symm.trans same.symm)]
        simp [blockFor])
      (by rw [free]; rfl)
      (by rw [blockFor_append, free, blockFor_cons, if_pos same.symm]; rfl)
    rw [before, counted, ← places _ _ here] at edited
    exact edited

/-- From the end towards the start no two requests for different nodes are at the same position. -/
theorem descending_fromTheEnd {kind : EditKind} (apart : (requests.map EditRequest.key).Nodup)
    (inside : ∀ r ∈ requests, r.target ∈ insns.map Insn.id) :
    (fromTheEnd insns kind requests).Pairwise fun r r' => r'.position insns < r.position insns := by
  have sorted : (fromTheEnd insns kind requests).Pairwise fun r r' => r'.position insns ≤ r.position insns :=
    List.pairwise_insertionSort ..
  have perm : (fromTheEnd insns kind requests).Perm (ofKind kind requests) := List.perm_insertionSort ..
  have targets : (fromTheEnd insns kind requests).Pairwise fun r r' => r.target ≠ r'.target :=
    List.pairwise_map.mp ((perm.map _).nodup_iff.mpr (nodup_targets apart _))
  -- requests at the same position would be for the same node
  refine (sorted.and targets).imp_of_mem fun {r r'} member member' ⟨before, other⟩ =>
    Nat.lt_of_le_of_ne before fun same => other ?_
  obtain ⟨insn, here, target⟩ :=
    EditRequest.getElem?_position (inside r (mem_ofKind.mp (perm.mem_iff.mp member)).1)
  obtain ⟨insn', here', target'⟩ :=
    EditRequest.getElem?_position (inside r' (mem_ofKind.mp (perm.mem_iff.mp member')).1)
  rw [same, here] at here'
  rw [← target, ← target', Option.some.inj here']

/-- Editing by hand does with each node what the requests ask for at it. -/
theorem performed_eq (distinct : (insns.map Insn.id).Nodup) (apart : (requests.map EditRequest.key).Nodup)
    (inside : ∀ r ∈ requests, r.target ∈ insns.map Insn.id) :
    performed insns requests = insns.flatMap (editedBy requests) := by
  have perm (kind : EditKind) : (fromTheEnd insns kind requests).Perm (ofKind kind requests) :=
    List.perm_insertionSort ..
  have targets (kind : EditKind) : ((fromTheEnd insns kind requests).map EditRequest.target).Nodup :=
    ((perm kind).map _).nodup_iff.mpr (nodup_targets apart _)
  have within (kind : EditKind) (r : EditRequest) (member : r ∈ fromTheEnd insns kind requests) :
      r.target ∈ insns.map Insn.id :=
    inside r (mem_ofKind.mp ((perm kind).mem_iff.mp member)).1
  have inserted : performEach id 0 insns (fromTheEnd insns .insertBefore requests) insns =
      woven (front (fromTheEnd insns .insertBefore requests)) insns := by
    have alone (xs : List Insn) : woven (fun _ => []) xs = xs := List.flatMap_singleton' xs
    have all := performEach_eq (fun _ => []) (fun _ => []) (fun x => [x]) (fun _ => rfl) (fun _ => rfl)
      (fun p insn here => show id p = _ by
        have lt := (List.getElem?_eq_some_iff.mp here).1
        rw [alone, List.length_take_of_le (Nat.le_of_lt lt)]
        rfl)
      distinct (within .insertBefore) (descending_fromTheEnd apart inside)
    rwa [alone] at all
  rw [performed, inserted, performEach_eq _ (fun x => [x]) (fun _ => []) (fun _ => rfl) (fun _ => rfl)
    (fun p insn here => displaced_eq distinct (targets _) (within _) here) distinct (within _)
    (descending_fromTheEnd apart inside)]
  refine List.flatMap_congr fun x _ => ?_
  rw [front, blockFor_perm (targets _) (perm _), blockFor_perm (targets _) (perm _), List.append_nil, editedBy]

end

/-! ## The two ways are the same -/

/-- Requests submitted to an empty batch, one after the other. A request is a conflict exactly if one of
the same kind and target has been accepted before, and then changes nothing. The batch cannot be applied
exactly if an accepted request is for a node that is not in the body, and then the body stays as it is.
Otherwise the body becomes what editing by hand makes of it, whatever the order of the accepted requests. -/
theorem submitted_applied (body : Body) (distinct : (body.toList.map Insn.id).Nodup)
    (requests : List EditRequest) :
    let s := submitted requests
    (∀ r, (∃ earlier ∈ s.accepted, earlier.kind = r.kind ∧ earlier.target = r.target) →
      s.submit r = ⟨s, .error (.editConflict r.target r.kind)⟩) ∧
    (∀ r, (¬∃ earlier ∈ s.accepted, earlier.kind = r.kind ∧ earlier.target = r.target) →
      (s.submit r).result = .ok () ∧ (s.submit r).value.accepted = s.accepted ++ [r]) ∧
    ((∃ r ∈ s.accepted, r.target ∉ body.toList.map Insn.id) →
      ∃ r ∈ s.accepted, r.target ∉ body.toList.map Insn.id ∧
        s.batch.edit body = ⟨body, .error (.editTarget r.target)⟩) ∧
    ((∀ r ∈ s.accepted, r.target ∈ body.toList.map Insn.id) →
      s.batch.edit body = ⟨(performed body.toList s.accepted).toArray, .ok (!s.accepted.isEmpty)⟩) ∧
    ∀ reordered, reordered.Perm s.accepted → (submitted reordered).accepted = reordered ∧
      ((submitted reordered).batch.edit body).value = (s.batch.edit body).value := by
  intro s
  have faithful : s.Faithful := submitted_faithful requests
  refine ⟨fun r taken => faithful.submit_taken taken, fun r free => ?_, fun outside => ?_, fun inside => ?_,
    fun reordered perm => ?_⟩
  · rw [faithful.submit_free free]
    exact ⟨rfl, rfl⟩
  · exact faithful.edit_outside outside
  · rw [faithful.edit_inside inside, performed_eq distinct faithful.distinct inside]
  · have accepted : (submitted reordered).accepted = reordered :=
      accepted_of_distinct ((perm.map _).nodup_iff.mpr faithful.distinct)
    exact ⟨accepted, faithful.value_edit_perm (submitted_faithful reordered) (by rwa [accepted])⟩

/-- An insertion before a node that is replaced too, one before an earlier node and a deletion, in any
order, and a second replacement. -/
theorem submitted_applied_composing :
    let nop (i : Nat) : Insn := ⟨⟨i⟩, .simple 0⟩
    let body : Body := #[nop 0, nop 1, nop 2]
    let requests : List EditRequest := [⟨.replace, ⟨1⟩, [nop 10, nop 11]⟩, ⟨.insertBefore, ⟨0⟩, [nop 12]⟩,
      ⟨.insertBefore, ⟨1⟩, [nop 13]⟩, ⟨.replace, ⟨2⟩, []⟩]
    (body.toList.map Insn.id).Nodup ∧
    (submitted requests).submit ⟨.replace, ⟨2⟩, [nop 14]⟩ =
      ⟨submitted requests, .error (.editConflict ⟨2⟩ .replace)⟩ ∧
    (submitted requests).batch.edit body = ⟨#[nop 12, nop 0, nop 13, nop 10, nop 11], .ok true⟩ ∧
    ((submitted requests.reverse).batch.edit body).value = #[nop 12, nop 0, nop 13, nop 10, nop 11] := by
  intro nop body requests
  have distinct : (body.toList.map Insn.id).Nodup := by decide
  have apart : (requests.map EditRequest.key).Nodup := by decide
  have inside : ∀ r ∈ requests, r.target ∈ body.toList.map Insn.id := by decide
  have accepted : (submitted requests).accepted = requests := accepted_of_distinct apart
  obtain ⟨conflict, -, -, applied, reordered⟩ := submitted_applied body distinct requests
  rw [accepted] at conflict applied reordered
  have edited : (submitted requests).batch.edit body = ⟨#[nop 12, nop 0, nop 13, nop 10, nop 11], .ok true⟩ := by
    rw [applied inside, performed_eq distinct apart inside]
    rfl
  have taken : ∃ earlier ∈ requests, earlier.kind = .replace ∧ earlier.target = ⟨2⟩ :=
    ⟨⟨.replace, ⟨2⟩, []⟩, by simp [requests], rfl, rfl⟩
  refine ⟨distinct, conflict ⟨.replace, ⟨2⟩, [nop 14]⟩ taken, edited, ?_⟩
  rw [(reordered requests.reverse (List.reverse_perm _)).2, edited]

end Bytecode
