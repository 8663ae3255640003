import Bytecode.Proofs.Coding.Encoded
import Bytecode.Proofs.Coding.Offsets
import Bytecode.Proofs.Coding.Source

/-!
# Code survives encoding and decoding

A body that has been decoded and encoded again is decoded to the same outline: its reachable
instructions in their order, with targets that denote the same instructions, and the exception
ranges that cover some of them (`outline_of_encodeCode`). Both outlines are given by the offsets of
the emission between encoding and decoding.
-/

namespace Bytecode

namespace MethodFrames

variable {frames : MethodFrames} {m : Method}

/-- Control can come from a reachable instruction to its targets. -/
theorem Closed.target (closed : frames.Closed m) {p : Nat × Node}
    (member : p ∈ m.kept frames.isLive) {l : LabelId} (target : l ∈ p.2.targets) :
    ∃ position, m.body.lastLabels l = some position ∧ frames.isLive position = true := by
  obtain ⟨at_, live, -⟩ := Method.mem_kept.mp member
  obtain ⟨insn, targets, there, goes, each⟩ := closed.next p.1 live
  rw [there] at at_
  obtain ⟨jumps, found, inside, -⟩ := Body.of_successors goes
  rw [Option.some.inj at_] at found
  obtain ⟨position, jump, stands⟩ := exists_of_mem_elements (mapM_eq_some.mp found) target
  exact ⟨position, stands, each position (inside jump)⟩

/-- A range that covers a reachable instruction has a reachable handler. -/
theorem Closed.handler (closed : frames.Closed m) {r : ExceptionRange} (member : r ∈ m.exceptions)
    {i j : Nat} (first : m.number frames.isLive r.start = some i)
    (last : m.number frames.isLive r.stop = some j) (some_ : i < j) :
    ∃ position, m.body.lastLabels r.handler = some position ∧ frames.isLive position = true := by
  obtain ⟨start, stop, handler, starts, stops, handles, each⟩ := closed.ranges r member
  refine ⟨handler, handles, ?_⟩
  rw [Method.number, starts, Option.map_some, Option.some.injEq] at first
  rw [Method.number, stops, Option.map_some, Option.some.injEq] at last
  by_contra dead
  -- If no reachable instruction stands in the range, no more stand before its end than before it.
  refine Nat.not_le_of_lt some_ ?_
  rw [← first, ← last]
  refine List.countP_mono_left fun k mentioned before => ?_
  obtain ⟨p, known, rfl⟩ := List.mem_map.mp mentioned
  have live := (Method.mem_kept.mp known).2.1
  by_contra behind
  simp only [decide_eq_true_eq] at before behind
  exact dead (each p.1 live (by omega) before)

end MethodFrames

namespace Emission

variable {e : Emission} {frames : MethodFrames} {m : Method} {t : Tables}

theorem Covers.mark_le (h : e.Covers frames m.body.toList) {l : LabelId} {position : Nat}
    (stands : m.body.lastLabels l = some position) : (e.mark l).val ≤ e.length := by
  refine h.labels_le (l := l) ?_
  rw [h.mark stands, h.labels]
  show (m.body.lastLabels l).map _ = _
  rw [stands]
  rfl

/-- Control can come from what has been laid out to its targets. -/
theorem Covers.target (h : e.Covers frames m.body.toList) (closed : frames.Closed m) {p : PlacedInsn}
    (member : p ∈ e.placed.toList) {l : LabelId} (target : l ∈ p.node.targets) :
    ∃ position, m.body.lastLabels l = some position ∧ frames.isLive position = true := by
  have kept : (p.index, p.node) ∈ m.kept frames.isLive := by
    rw [h.kept]
    exact List.mem_map.mpr ⟨p, member, rfl⟩
  exact closed.target kept target

/-- The number of the start of a range is less than that of its end if the range covers something. -/
theorem Covers.covers_iff (h : e.Covers frames m.body.toList) (closed : frames.Closed m)
    {r : ExceptionRange} (member : r ∈ m.exceptions) :
    e.covers r = true ↔ e.number r.start < e.number r.stop := by
  obtain ⟨_, _, _, starts, stops, -⟩ := closed.ranges r member
  rw [number_lt_iff (h.mark_mem starts) (h.mark_le stops), Emission.covers, decide_eq_true_eq]

/-- The labels of an exception range that covers something. -/
structure Sound (e : Emission) (r : ExceptionRange) : Prop where
  start : (e.mark r.start).val ∈ e.placed.toList.map PlacedInsn.offset
  stop : (e.mark r.stop).val = e.length ∨
    (e.mark r.stop).val ∈ e.placed.toList.map PlacedInsn.offset
  handler : (e.mark r.handler).val ∈ e.placed.toList.map PlacedInsn.offset
  some_ : (e.mark r.start).val < (e.mark r.stop).val

/-- The outline of a body, as its emission gives it. -/
def outline (e : Emission) (m : Method) : Outline where
  nodes := (e.placed.toList.map PlacedInsn.node).map (·.mapLabels fun l => ⟨e.number l⟩)
  exceptions := m.exceptions.filterMap (Coverage.of e.placed.toList.length e.number)

section Outline

variable (h : e.Covers frames m.body.toList) (ordered : e.Ordered) (closed : frames.Closed m)
include h ordered closed

theorem Covers.denoted {l : LabelId} {position : Nat} (stands : m.body.lastLabels l = some position)
    (live : frames.isLive position = true) :
    m.denoted frames.isLive l = some (e.number l) := by
  rw [closed.denoted stands live, h.number ordered stands]

theorem Covers.handler {r : ExceptionRange} (member : r ∈ m.exceptions)
    (some_ : e.number r.start < e.number r.stop) :
    ∃ position, m.body.lastLabels r.handler = some position ∧ frames.isLive position = true := by
  obtain ⟨_, _, _, starts, stops, -⟩ := closed.ranges r member
  exact closed.handler member (h.number ordered starts) (h.number ordered stops) some_

theorem Covers.sound {r : ExceptionRange} (member : r ∈ m.exceptions) (some_ : e.covers r = true) :
    e.Sound r := by
  obtain ⟨_, _, _, starts, stops, -⟩ := closed.ranges r member
  have less := (h.covers_iff closed member).mp some_
  obtain ⟨position, handles, live⟩ := h.handler ordered closed member less
  refine ⟨?_, h.mark_mem stops, ?_, of_decide_eq_true some_⟩
  · exact ordered.mark_mem (h.mark_mem starts) (Nat.lt_of_lt_of_le less List.countP_le_length)
  · exact ordered.mark_mem (h.mark_mem handles) (h.number_lt closed handles live)

/-- The outline of the reachable part of a body is that of its emission. -/
theorem Covers.outline : m.outline frames.isLive = some (e.outline m) := by
  have kept : (m.kept frames.isLive).map Prod.snd =
      (e.placed.toList.map PlacedInsn.node).map (·.mapLabels id) := by
    rw [h.kept, List.map_map, List.map_map]
    exact List.map_congr_left fun p _ => (Node.mapLabels_id p.node).symm
  have outline := Method.outline_of_numbers (f := id) e.number kept
    (List.map_id _).symm ?_ ?_ ?_
  · rw [List.length_map] at outline
    exact outline
  · intro n member l target
    obtain ⟨p, known, rfl⟩ := List.mem_map.mp member
    obtain ⟨position, stands, live⟩ := h.target closed known target
    exact h.denoted ordered closed stands live
  · intro r member
    obtain ⟨_, _, _, starts, stops, -⟩ := closed.ranges r member
    exact ⟨h.number ordered starts, h.number ordered stops⟩
  · intro r member less
    rw [Nat.lt_min] at less
    obtain ⟨position, handles, live⟩ := h.handler ordered closed member less.1
    exact h.denoted ordered closed handles live

end Outline

/-! ## Decoding what has been encoded -/

/-- A slot with a class name is not the first one. -/
theorem ne_zero_of_className {slot : UInt16} {name : String}
    (found : t.pool.className slot = .ok name) : slot ≠ 0 := by
  rintro rfl
  rw [show t.pool.className 0 = .error (.poolIndex 0 t.pool.size) from rfl] at found
  cases found

/-- The entry of a range that covers something is decoded to the range, with the offsets as labels. -/
theorem Records.decodeException {r : ExceptionRange} {entry : ExceptionEntry} {signature : String}
    (records : e.Records t r entry) (sound : e.Sound r) (ordered : e.Ordered)
    (size : e.length < 65536) :
    CodeAttribute.decodeException t.pool
      ⟨Std.HashSet.ofList (e.placed.toList.map PlacedInsn.offset), e.length⟩ signature entry =
        .ok (r.mapLabels e.mark) := by
  have small {o : Nat} (inside : o ∈ e.placed.toList.map PlacedInsn.offset) :
      (UInt16.ofNat o).toNat = o := by
    obtain ⟨p, member, rfl⟩ := List.mem_map.mp inside
    exact UInt16.toNat_ofNat_of_lt' (Nat.lt_trans (ordered.inside p member) size)
  have stop : entry.stop.toNat = (e.mark r.stop).val := by
    rw [records.stop]
    refine sound.stop.elim (fun end_ => ?_) small
    rw [end_]
    exact UInt16.toNat_ofNat_of_lt' size
  have start : entry.start.toNat = (e.mark r.start).val := by rw [records.start, small sound.start]
  have handler : entry.handler.toNat = (e.mark r.handler).val := by
    rw [records.handler, small sound.handler]
  have bounds : (Boundaries.isStart ⟨Std.HashSet.ofList (e.placed.toList.map PlacedInsn.offset),
        e.length⟩ (e.mark r.start).val &&
      Boundaries.isStop ⟨Std.HashSet.ofList (e.placed.toList.map PlacedInsn.offset), e.length⟩
        (e.mark r.stop).val && (e.mark r.start).val < (e.mark r.stop).val &&
      Boundaries.isStart ⟨Std.HashSet.ofList (e.placed.toList.map PlacedInsn.offset), e.length⟩
        (e.mark r.handler).val) = true := by
    rw [Boundaries.isStop, Boundaries.isStart, Boundaries.isStart, Boundaries.isStart,
      CodeAttribute.contains_ofList sound.start, CodeAttribute.contains_ofList sound.handler,
      decide_eq_true sound.some_]
    rcases sound.stop with end_ | inside
    · simp [end_]
    · simp [CodeAttribute.contains_ofList inside]
  rw [CodeAttribute.decodeException]
  dsimp only
  rw [start, stop, handler, bounds]
  rcases records.catchType with ⟨any, zero⟩ | ⟨name, named, found⟩
  · rw [zero]
    show Except.ok (ExceptionRange.mk _ _ _ none) = _
    rw [← any]
    rfl
  · rw [if_neg (ne_zero_of_className found), found]
    show Except.ok (ExceptionRange.mk _ _ _ (some name)) = _
    rw [← named]
    rfl

end Emission

namespace Method

variable {m : Method} {frames : MethodFrames} {t : Tables} {e : Emission} {code bytes : Bytes}
  {entries : List ExceptionEntry}

/-- What has been laid out, as it is stored, with the labels that decoding gives to its targets. -/
def decodedNodes (e : Emission) : List (Nat × Node) :=
  e.placed.toList.map fun p => (p.offset, p.node.stored.mapLabels e.mark)

theorem map_fst_decodedNodes (e : Emission) :
    (decodedNodes e).map Prod.fst = e.placed.toList.map PlacedInsn.offset :=
  List.map_map

section Encodes

variable (encodes : m.Encodes frames t e code entries bytes) (closed : frames.Closed m)
include encodes

theorem Encodes.ordered : e.Ordered :=
  encodes.covers.ordered encodes.back encodes.assembled (Nat.lt_succ_of_le encodes.size)

include closed

/-- The targets of encoded instructions are instructions. -/
theorem Encodes.target {p : PlacedInsn} (member : p ∈ e.placed.toList) {l : LabelId}
    (target : l ∈ p.node.targets) : (e.mark l).val ∈ e.placed.toList.map PlacedInsn.offset := by
  obtain ⟨position, stands, live⟩ := encodes.covers.target closed member target
  exact encodes.ordered.mark_mem (encodes.covers.mark_mem stands)
    (encodes.covers.number_lt closed stands live)

/-- Encoded code is decoded to the instructions that have been laid out. -/
theorem Encodes.nodes : code.length = e.length ∧
    decodeNodes ⟨t.pool, t.bootstraps.toArray, code.length⟩ code = .ok (decodedNodes e) := by
  refine Emission.decodeNodes_of_assemble encodes.covers encodes.back ?_ encodes.assembled
    (Nat.lt_succ_of_le encodes.size)
  intro p member l target o found
  obtain ⟨q, known, same⟩ := List.mem_map.mp (encodes.target closed member target)
  rw [Emission.mark_of_labels found] at same
  change q.offset = o at same
  exact same ▸ encodes.ordered.inside q known

/-- Encoded code is not empty. -/
theorem Encodes.ne_nil : code ≠ [] := by
  obtain ⟨p, member, -⟩ := closed.lands closed.first
  rw [encodes.covers.kept] at member
  obtain ⟨q, known, -⟩ := List.mem_map.mp member
  have inside := encodes.ordered.inside q known
  rw [← (encodes.nodes closed).1] at inside
  exact List.length_pos_iff.mp (Nat.lt_of_le_of_lt (Nat.zero_le _) inside)

/-- The code attribute of a body can be read. -/
theorem Encodes.read (few : m.exceptions.length < 65536) :
    ∃ a c, (CodeAttribute.read t.pool).run (Cursor.ofBytes bytes) = .ok (a, c) ∧
      a.code = code ∧ a.exceptions = entries ∧ a.AllNamed t.pool := by
  obtain ⟨maxStack, maxLocals, tables, tail, rfl, fewer, stored⟩ := encodes.octets
  have ranges : entries.length < 65536 := by
    rw [← encodes.exceptions.length_eq]
    exact Nat.lt_of_le_of_lt (List.length_filter_le ..) few
  obtain ⟨a, reads, parts⟩ := CodeAttribute.reads_attribute maxStack maxLocals (encodes.ne_nil closed)
    encodes.size ranges (Nat.lt_of_le_of_lt fewer (by decide)) stored
  obtain ⟨c, ran, -⟩ := reads.run tail
  exact ⟨a, c, ran, parts⟩

/-- The code attribute of a body can be decoded. -/
theorem Encodes.decode {a : CodeAttribute} (same : a.code = code) (ranges : a.exceptions = entries)
    (named : a.AllNamed t.pool) (signature : String) : ∃ marked lines localVariables,
      a.decode t.pool t.bootstraps.toArray signature =
        .ok ⟨CodeAttribute.layOut (decodedNodes e) e.length marked lines,
          (m.exceptions.filter e.covers).map (·.mapLabels e.mark), localVariables⟩ ∧
      (∀ p ∈ e.placed.toList, ∀ l ∈ p.node.targets, marked.contains (e.mark l).val = true) ∧
      ∀ r ∈ m.exceptions.filter e.covers, ∀ l ∈ r.labels, marked.contains (e.mark l).val = true := by
  obtain ⟨size, nodes⟩ := encodes.nodes closed
  have exceptions : a.exceptions.mapM (CodeAttribute.decodeException t.pool
      ⟨Std.HashSet.ofList ((decodedNodes e).map Prod.fst), a.code.length⟩ signature) =
        .ok ((m.exceptions.filter e.covers).map (·.mapLabels e.mark)) := by
    rw [ranges, same, size, map_fst_decodedNodes, mapM_eq_ok, List.forall₂_map_right_iff]
    refine (List.forall₂_iff_get.mpr ⟨encodes.exceptions.length_eq.symm, fun i h₁ h₂ => ?_⟩)
    have records := encodes.exceptions.get h₂ h₁
    obtain ⟨member, some_⟩ := List.mem_filter.mp (List.get_mem _ ⟨i, h₂⟩)
    refine records.decodeException (encodes.covers.sound encodes.ordered closed member some_)
      encodes.ordered ?_
    rw [← size]
    exact Nat.lt_succ_of_le encodes.size
  have aligned : ∀ q ∈ decodedNodes e, ∀ l ∈ q.2.targets,
      l.val ∈ (decodedNodes e).map Prod.fst := by
    intro q member l target
    obtain ⟨p, known, rfl⟩ := List.mem_map.mp member
    rw [Node.targets_mapLabels, Node.targets_stored] at target
    obtain ⟨l', mentioned, rfl⟩ := List.mem_map.mp target
    rw [map_fst_decodedNodes]
    exact encodes.target closed known mentioned
  obtain ⟨marked, lines, localVariables, ran, targets, labels⟩ :=
    CodeAttribute.decode_of_parts (same ▸ nodes) aligned exceptions named.localVariables
      named.variableTypes
  refine ⟨marked, lines, localVariables, ?_, fun p member l target => ?_, fun r member l label => ?_⟩
  · rw [ran, same, size]
  · refine targets (p.offset, p.node.stored.mapLabels e.mark)
      (List.mem_map.mpr ⟨p, member, rfl⟩) (e.mark l) ?_
    rw [Node.targets_mapLabels, Node.targets_stored]
    exact List.mem_map_of_mem target
  · refine labels (r.mapLabels e.mark) (List.mem_map_of_mem member) (e.mark l) ?_
    exact List.mem_map_of_mem (f := e.mark) label

/-- The numbers of the labels in decoded code are those that the emission gives them. -/
theorem Encodes.number (storable : ∀ method ∈ t.bootstraps, method.Storable) {m' : Method}
    {f : LabelId → LabelId} {marked : Std.HashSet Nat} {lines : Std.HashMap Nat (List UInt16)}
    {exceptions : List ExceptionRange} {localVariables : List LocalVariable}
    (holds : m'.Holds ⟨CodeAttribute.layOut (decodedNodes e) e.length marked lines, exceptions,
      localVariables⟩ f) {l : LabelId}
    (boundary : (e.mark l).val = e.length ∨ (e.mark l).val ∈ e.placed.toList.map PlacedInsn.offset)
    (mark : marked.contains (e.mark l).val = true) :
    m'.number (fun _ => true) (f (e.mark l)) = some (e.number l) := by
  obtain ⟨size, nodes⟩ := encodes.nodes closed
  have decoded : DecodedNodes (decodedNodes e) e.length :=
    size ▸ DecodedNodes.of_decodeNodes (fun method member => storable method (by simpa using member)) nodes
  rw [← map_fst_decodedNodes] at boundary
  have := holds.number decoded rfl boundary mark
  rwa [decodedNodes, List.countP_map] at this

/-- A method that holds what has been decoded has the outline of the emission. -/
theorem Encodes.outline (storable : ∀ method ∈ t.bootstraps, method.Storable)
    (handles : ∀ insn ∈ m.body.toList, ∀ handle, insn.node.Mentions handle → handle.Storable)
    {m' : Method} {f : LabelId → LabelId} {marked : Std.HashSet Nat} {lines : Std.HashMap Nat (List UInt16)}
    {localVariables : List LocalVariable}
    (holds : m'.Holds ⟨CodeAttribute.layOut (decodedNodes e) e.length marked lines,
      (m.exceptions.filter e.covers).map (·.mapLabels e.mark), localVariables⟩ f)
    (targets : ∀ p ∈ e.placed.toList, ∀ l ∈ p.node.targets, marked.contains (e.mark l).val = true)
    (labels : ∀ r ∈ m.exceptions.filter e.covers, ∀ l ∈ r.labels,
      marked.contains (e.mark l).val = true) :
    m'.outline (fun _ => true) = some (e.outline m) := by
  obtain ⟨size, nodes⟩ := encodes.nodes closed
  have decoded : DecodedNodes (decodedNodes e) e.length :=
    size ▸ DecodedNodes.of_decodeNodes (fun method member => storable method (by simpa using member)) nodes
  have kept : (m'.kept fun _ => true).map Prod.snd =
      (e.placed.toList.map PlacedInsn.node).map (·.mapLabels (f ∘ e.mark)) := by
    rw [holds.kept decoded rfl, decodedNodes, List.map_map, List.map_map, List.map_map]
    refine List.map_congr_left fun p member => ?_
    have same : p.node.stored = p.node := by
      obtain ⟨insn, known, here⟩ := encodes.covers.of_placed member
      exact Node.stored_of_storable (here ▸ handles insn known)
    show (p.node.stored.mapLabels e.mark).mapLabels f = _
    rw [same]
    exact Node.mapLabels_mapLabels e.mark f p.node
  have count : (m'.kept fun _ => true).length = e.placed.toList.length := by
    simpa using congrArg List.length kept
  have numbered {l : LabelId} (boundary : (e.mark l).val = e.length ∨
      (e.mark l).val ∈ e.placed.toList.map PlacedInsn.offset)
      (mark : marked.contains (e.mark l).val = true) :
      m'.number (fun _ => true) (f (e.mark l)) = some (e.number l) :=
    encodes.number closed storable holds boundary mark
  have denoted {l : LabelId} (inside : (e.mark l).val ∈ e.placed.toList.map PlacedInsn.offset)
      (mark : marked.contains (e.mark l).val = true) :
      m'.denoted (fun _ => true) (f (e.mark l)) = some (e.number l) := by
    refine denoted_of_number (numbered (.inr inside) mark) ?_
    rw [count]
    obtain ⟨p, member, here⟩ := List.mem_map.mp inside
    refine Nat.lt_of_le_of_ne List.countP_le_length fun all => ?_
    have := List.countP_eq_length.mp all p member
    rw [← here] at this
    exact Nat.lt_irrefl _ (of_decide_eq_true this)
  have sound (r : ExceptionRange) (member : r ∈ m.exceptions.filter e.covers) : e.Sound r := by
    obtain ⟨known, some_⟩ := List.mem_filter.mp member
    exact encodes.covers.sound encodes.ordered closed known some_
  have outline := outline_of_numbers e.number kept (holds.exceptions.trans List.map_map) ?_ ?_ ?_
  · rw [outline, List.length_map, Emission.outline, List.filterMap_filter]
    congr 2
    refine List.filterMap_congr fun r member => ?_
    split
    · rfl
    · rename_i none_
      rw [encodes.covers.covers_iff closed member] at none_
      rw [Coverage.of, if_neg]
      omega
  · intro n member l target
    obtain ⟨p, known, rfl⟩ := List.mem_map.mp member
    exact denoted (encodes.target closed known target) (targets p known l target)
  · intro r member
    exact ⟨numbered (.inr (sound r member).start) (labels r member _ (by simp [ExceptionRange.labels])),
      numbered (sound r member).stop (labels r member _ (by simp [ExceptionRange.labels]))⟩
  · intro r member _
    exact denoted (sound r member).handler (labels r member _ (by simp [ExceptionRange.labels]))

end Encodes

/-- Encoding a body that has been decoded leads from one builder to another. -/
theorem Encodable.leads {b b' : PoolBuilder} {r : Except Failure Bytes} (encodable : m.Encodable)
    (reached : b.Reached) {h : Hierarchy} {version : UInt16}
    (ran : (m.encodeCode h version).run.run b = (r, b')) : b.Leads b' := by
  obtain ⟨t, shows⟩ := reached.shows
  exact (encodeCode_provides h version encodable.decoded encodable.lines encodable.locals_
    b t shows r b' ran).1

/-- Code that has been decoded and encoded is decoded to the same outline, against the tables that
are finished later. -/
theorem Encodable.outline {b b' last : PoolBuilder} (encodable : m.Encodable)
    (handles : ∀ insn ∈ m.body.toList, ∀ handle, insn.node.Mentions handle → handle.Storable)
    (reached : b.Reached) {h : Hierarchy} {version : UInt16}
    (ran : (m.encodeCode h version).run.run b = (.ok bytes, b')) (later : b'.Leads last)
    (slots : last.size < 65536) (methods : last.bootstraps.size < 65536) :
    ∃ frames outline pool bootstraps a c, inferFrames h b.owner m = .ok frames ∧
      m.outline frames.isLive = some outline ∧ last.reread = .ok (pool, bootstraps) ∧
      (CodeAttribute.read pool).run (Cursor.ofBytes bytes) = .ok (a, c) ∧
      ∀ header : Method, ∃ code, a.decode pool bootstraps.toArray header.signature = .ok code ∧
        ∀ supply, ((header.withCode a code).run supply).1.outline (fun _ => true) = some outline := by
  obtain ⟨t, shows⟩ := reached.shows
  obtain ⟨-, t', shows', -, right⟩ := encodeCode_provides h version encodable.decoded
    encodable.lines encodable.locals_ b t shows (.ok bytes) b' ran
  obtain ⟨final, finished, grown⟩ := shows'.leads later
  obtain ⟨frames, e, code, entries, inferred, encodes⟩ := right bytes rfl final grown
  have closed := inferFrames_closed encodable.some_ inferred
  obtain ⟨a, c, read, same, ranges, named⟩ := encodes.read closed encodable.exceptions
  refine ⟨frames, e.outline m, final.pool, final.bootstraps, a, c, inferred,
    encodes.covers.outline encodes.ordered closed, finished.reread slots methods, read, ?_⟩
  intro header
  obtain ⟨marked, lines, localVariables, decoded, targets, labels⟩ :=
    encodes.decode closed same ranges named header.signature
  refine ⟨_, decoded, fun supply => ?_⟩
  obtain ⟨f, holds⟩ := holds_withCode header a _ supply
  exact encodes.outline closed finished.storable handles holds targets labels

/-- A body that has been read from a class file, decoded and encoded is decoded to the same outline:
its reachable instructions, whose labels denote the same instructions as before, and the exception
ranges that cover some of them. -/
theorem outline_of_encodeCode {file : Bytes} {source : StoredClass} {rest : Cursor}
    (read : StoredClass.read.run (Cursor.ofBytes file) = .ok (source, rest))
    {stored : StoredMethod} (member : stored ∈ source.methods) {a : CodeAttribute}
    (present : stored.code = some a) {header : Method} {code : DecodedCode}
    (decoded : a.decode source.pool source.bootstraps.toArray header.signature = .ok code)
    {supply : Supply} (body : m = ((header.withCode a code).run supply).1)
    (handles : ∀ insn ∈ m.body.toList, ∀ handle, insn.node.Mentions handle → handle.Storable)
    {b b' last : PoolBuilder} (reached : b.Reached) {h : Hierarchy} {version : UInt16}
    (encoded : (m.encodeCode h version).run.run b = (.ok bytes, b')) (later : b'.Leads last)
    (slots : last.size < 65536) (methods : last.bootstraps.size < 65536) :
    ∃ frames outline pool bootstraps a' c, inferFrames h b.owner m = .ok frames ∧
      m.outline frames.isLive = some outline ∧ last.reread = .ok (pool, bootstraps) ∧
      (CodeAttribute.read pool).run (Cursor.ofBytes bytes) = .ok (a', c) ∧
      ∀ header' : Method, ∃ code', a'.decode pool bootstraps.toArray header'.signature = .ok code' ∧
        ∀ supply', ((header'.withCode a' code').run supply').1.outline (fun _ => true) =
          some outline := by
  have sound := StoredClass.sound_of_read read
  obtain ⟨f, holds⟩ := holds_withCode header a code supply
  rw [← body] at holds
  exact (holds.encodable (sound.code stored member a present) sound.bootstraps decoded).outline handles
    reached encoded later slots methods

/-- A class with a method that returns at once, in front of an instruction that is not reached. -/
def returningClass : Bytes :=
  [0xca, 0xfe, 0xba, 0xbe, 0, 0, 0, 49, 0, 5,
    1, 0, 1, 65, 7, 0, 1, 1, 0, 3, 40, 41, 86, 1, 0, 4, 67, 111, 100, 101,
    0, 0, 0, 2, 0, 0, 0, 0, 0, 0, 0, 1,
    0, 8, 0, 1, 0, 3, 0, 1, 0, 4, 0, 0, 0, 14,
    0, 0, 0, 0, 0, 0, 0, 2, 0xb1, 0, 0, 0, 0, 0,
    0, 0]

/-- The code attribute of the method. -/
def returningCode : CodeAttribute :=
  ⟨0, 0, [0xb1, 0], [], [], [], []⟩

/-- The method before it gets a body. -/
def returningHeader : Method :=
  { id := ⟨0⟩, access := 8, name := "A", descriptor := "()V" }

/-- The method with its body. -/
def returning : Method :=
  ((returningHeader.withCode returningCode ⟨[.simple 0xb1, .simple 0], [], []⟩).run {}).1

theorem read_returningClass : ∃ source rest,
    StoredClass.read.run (Cursor.ofBytes returningClass) = .ok (source, rest) ∧
      ∃ stored ∈ source.methods, stored.code = some returningCode := by
  have found : ((StoredClass.read.run (Cursor.ofBytes returningClass)).toOption.any fun p =>
      p.1.methods.any fun m => m.code.any fun a => a.maxStack == 0 && a.maxLocals == 0 &&
        a.code == [0xb1, 0] && a.exceptions == [] && a.lines == [] && a.localVariables == [] &&
        a.variableTypes == []) = true := by
    decide +kernel
  cases ran : StoredClass.read.run (Cursor.ofBytes returningClass) with
  | error cause => rw [ran] at found; cases found
  | ok p =>
    rw [ran] at found
    obtain ⟨stored, member, found⟩ := List.any_eq_true.mp found
    refine ⟨p.1, p.2, rfl, stored, member, ?_⟩
    cases present : stored.code with
    | none => rw [present] at found; cases found
    | some a =>
      rw [present] at found
      simp only [Option.any_some, Bool.and_eq_true, beq_iff_eq] at found
      obtain ⟨⟨⟨⟨⟨⟨stack, slots⟩, code⟩, ranges⟩, lines⟩, locals_⟩, types⟩ := found
      cases a
      subst stack slots code ranges lines locals_ types
      rfl

theorem decode_returningCode (pool : ConstantPool) (bootstraps : Array BootstrapMethod)
    (signature : String) : returningCode.decode pool bootstraps signature =
      .ok ⟨[.simple 0xb1, .simple 0], [], []⟩ := by
  have nodes : decodeNodes ⟨pool, bootstraps, 2⟩ [0xb1, 0] =
      .ok [(0, .simple 0xb1), (1, .simple 0)] := rfl
  rw [CodeAttribute.decode]
  show (decodeNodes ⟨pool, bootstraps, 2⟩ [0xb1, 0] >>= _) = _
  rw [nodes]
  show Except.ok (DecodedCode.mk (CodeAttribute.layOut _ 2 (Std.HashSet.ofList []) _) [] []) = _
  simp [CodeAttribute.layOut]

theorem handles_returning : ∀ insn ∈ returning.body.toList, ∀ handle, insn.node.Mentions handle →
    handle.Storable := by
  intro insn member handle mentions
  obtain ⟨f, holds⟩ := holds_withCode returningHeader returningCode
    ⟨[.simple 0xb1, .simple 0], [], []⟩ {}
  have : insn.node ∈ returning.body.toList.map Insn.node := List.mem_map_of_mem member
  rw [returning, holds.nodes] at this
  rcases List.mem_cons.mp this with same | this
  · rw [same] at mentions
    cases mentions
  · rw [List.mem_singleton.mp this] at mentions
    cases mentions

theorem encodeCode_returning : ∃ b',
    (returning.encodeCode (fun _ => none) 49).run.run { owner := "A" } =
      (.ok [0, 0, 0, 0, 0, 0, 0, 1, 0xb1, 0, 0, 0, 0], b') ∧
    b'.size < 65536 ∧ b'.bootstraps.size < 65536 := by
  have found : (fun p : Except Failure Bytes × PoolBuilder =>
      p.1.toOption == some [0, 0, 0, 0, 0, 0, 0, 1, 0xb1, 0, 0, 0, 0] && p.2.size == 1 &&
        p.2.bootstraps.size == 0)
      ((returning.encodeCode (fun _ => none) 49).run.run { owner := "A" }) = true := by
    decide +kernel
  rcases ran : (returning.encodeCode (fun _ => none) 49).run.run { owner := "A" } with ⟨r, b'⟩
  rw [ran] at found
  cases r with
  | error cause => simp [Except.toOption] at found
  | ok bytes =>
    simp only [Except.toOption, Bool.and_eq_true, beq_iff_eq, Option.some.injEq] at found
    obtain ⟨⟨rfl, slots⟩, methods⟩ := found
    exact ⟨b', rfl, by omega, by omega⟩

theorem outline_of_encodeCode_returning : ∃ source rest stored b',
    StoredClass.read.run (Cursor.ofBytes returningClass) = .ok (source, rest) ∧
      stored ∈ source.methods ∧ stored.code = some returningCode ∧
      (returning.encodeCode (fun _ => none) 49).run.run { owner := "A" } =
        (.ok [0, 0, 0, 0, 0, 0, 0, 1, 0xb1, 0, 0, 0, 0], b') ∧
      ∃ frames outline pool bootstraps a' c,
        inferFrames (fun _ => none) "A" returning = .ok frames ∧
        returning.outline frames.isLive = some outline ∧ b'.reread = .ok (pool, bootstraps) ∧
        (CodeAttribute.read pool).run
          (Cursor.ofBytes [0, 0, 0, 0, 0, 0, 0, 1, 0xb1, 0, 0, 0, 0]) = .ok (a', c) ∧
        ∀ header' : Method, ∃ code',
          a'.decode pool bootstraps.toArray header'.signature = .ok code' ∧
          ∀ supply', ((header'.withCode a' code').run supply').1.outline (fun _ => true) =
            some outline := by
  obtain ⟨source, rest, read, stored, member, present⟩ := read_returningClass
  obtain ⟨b', encoded, slots, methods⟩ := encodeCode_returning
  have reached : ({ owner := "A" } : PoolBuilder).Reached :=
    ⟨{ name := "A" }, { owner := "A" }, fun origin unread => (by cases unread), rfl, .refl⟩
  exact ⟨source, rest, stored, b', read, member, present, encoded,
    outline_of_encodeCode (m := returning) read member present
      (decode_returningCode _ _ _) rfl handles_returning reached encoded .refl slots methods⟩

end Method

end Bytecode
