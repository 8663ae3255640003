import Bytecode.Proofs.Coding.Emissions
import Bytecode.Proofs.Coding.MapEntries

/-!
# Stack maps are complete

The stack map of a body that has been laid out has a frame at every offset that needs one, and nowhere
else, and every frame has the types that were inferred for the instruction at its offset
(`stackMap_complete`). Three facts come together in it.

* `Emission.NeedsFrame` says in terms of labels and instructions which offsets need a frame. At each of
  them an instruction has been laid out, because reachable positions are closed under control flow
  (`Covers.placed_of_needs`), so that a frame is found for it.
* The objects in inferred frames come from reachable instructions, so that each has an offset to be named
  by, and their locals are paired (`inferFrames_tidy`).
* `Ends E x Q` says of a request that it only fails for reasons of `E` and forgets nothing, and that what
  it returns satisfies `Q` in view of the builder that it leaves and of all later ones.
-/

namespace Bytecode

open Building

/-! ## Requests that fail only for known reasons -/

/-- A builder has no room for a constant. -/
def Failure.IsOverflow : Failure → Prop
  | .write _ .poolFull | .write _ (.textTooLong _) => True
  | _ => False

namespace Building

variable {α β : Type} {E : Failure → Prop}

/-- A request fails only for reasons of `E` and forgets nothing; what it returns is right from then on. -/
def Ends (E : Failure → Prop) (x : Building α) (Q : PoolBuilder → α → Prop) : Prop :=
  ∀ b r b', x b = (r, b') → b.Knows b' ∧ (∀ cause, r = .error cause → E cause) ∧
    ∀ a, r = .ok a → ∀ later, b'.Knows later → Q later a

namespace Ends

variable {x : Building α} {Q R : PoolBuilder → α → Prop}

theorem mono (h : Ends E x Q) (weaker : ∀ b a, Q b a → R b a) : Ends E x R := by
  intro b r b' ran
  obtain ⟨knows, fails, right⟩ := h b r b' ran
  exact ⟨knows, fails, fun a returned later further => weaker later a (right a returned later further)⟩

theorem pure {a : α} (right : ∀ b, Q b a) : Ends E (Pure.pure a) Q := by
  intro b r b' ran
  cases ran
  exact ⟨.refl b, nofun, fun a' returned later _ => by cases returned; exact right later⟩

/-- One request behind another: what the first one returns stays right. -/
theorem bind {next : α → Building β} {S : PoolBuilder → β → Prop} (first : Ends E x Q)
    (second : ∀ a, Ends E (next a) fun b r => Q b a → S b r) : Ends E (x >>= next) S := by
  intro b r b' ran
  rw [bind_eq] at ran
  obtain ⟨knows₁, fails₁, right₁⟩ := first b (x b).1 (x b).2 rfl
  rcases here : x b with ⟨cause | a, c⟩
  · rw [here] at ran knows₁ fails₁
    cases ran
    exact ⟨knows₁, fun other same => by cases same; exact fails₁ cause rfl, nofun⟩
  · rw [here] at ran knows₁ right₁
    obtain ⟨knows₂, fails₂, right₂⟩ := second a c r b' ran
    exact ⟨knows₁.trans knows₂, fails₂, fun s returned later further =>
      right₂ s returned later further (right₁ a rfl later (knows₂.trans further))⟩

theorem mapM {f : α → Building β} {Q : PoolBuilder → α → β → Prop} {l : List α}
    (each : ∀ a ∈ l, Ends E (f a) fun b => Q b a) :
    Ends E (l.mapM f) fun b rs => List.Forall₂ (Q b) l rs := by
  induction l with
  | nil => exact pure fun _ => .nil
  | cons a l ih =>
    rw [List.mapM_cons]
    refine (each a List.mem_cons_self).bind fun r => ?_
    refine (ih fun a member => each a (List.mem_cons_of_mem _ member)).bind fun rs => ?_
    exact pure fun b rest first => .cons first rest

end Ends

theorem entry_ends (e : PoolEntry) :
    Ends Failure.IsOverflow (entry e) fun b slot => b.slots[e]? = some slot := by
  intro b r b' ran
  refine ⟨entry_knows ran, fun cause failed => ?_, fun slot returned later further => ?_⟩
  · cases found : b.slots[e]? with
    | some slot =>
      rw [entry_of_some found, failed] at ran
      cases ran
    | none =>
      rcases entry_of_none found ran with ⟨-, full, -⟩ | ⟨-, returned, -⟩
      · cases failed.symm.trans full
        trivial
      · cases failed.symm.trans returned
  · subst returned
    exact further.slots _ _ (slots_of_entry ran)

theorem utf8_ends (text : String) :
    Ends Failure.IsOverflow (utf8 text) fun b slot => b.slots[PoolEntry.utf8 text]? = some slot := by
  intro b r b' ran
  rcases utf8_eq text b with ⟨-, long⟩ | ⟨asked, -⟩
  · rw [long] at ran
    cases ran
    exact ⟨.refl b, fun cause same => by cases same; trivial, nofun⟩
  · exact entry_ends _ b r b' (asked ▸ ran)

theorem classRef_ends (name : String) :
    Ends Failure.IsOverflow (classRef name) fun b slot => b.Names slot name :=
  (utf8_ends name).bind fun text => (entry_ends _).mono fun _ _ referred named =>
    ⟨text, named, referred⟩

end Building

/-! ## Tables of what has been laid out -/

/-- A table that is made from a list with different keys. -/
theorem getElem?_foldl_insert {α : Type} (key value : α → Nat) {l : List α} {a : α} (member : a ∈ l)
    (distinct : l.Pairwise fun x y => key x ≠ key y) (table : Std.HashMap Nat Nat) :
    (l.foldl (fun t x => t.insert (key x) (value x)) table)[key a]? = some (value a) := by
  have kept (l : List α) (table : Std.HashMap Nat Nat) (apart : ∀ x ∈ l, key a ≠ key x)
      (found : table[key a]? = some (value a)) :
      (l.foldl (fun t x => t.insert (key x) (value x)) table)[key a]? = some (value a) := by
    induction l generalizing table with
    | nil => exact found
    | cons x l ih =>
      obtain ⟨other, apart⟩ := List.forall_mem_cons.mp apart
      refine ih _ apart ?_
      rwa [Std.HashMap.getElem?_insert, if_neg (by simpa using Ne.symm other)]
  induction l generalizing table with
  | nil => cases member
  | cons x l ih =>
    obtain ⟨first, rest⟩ := List.pairwise_cons.mp distinct
    rcases List.mem_cons.mp member with rfl | later
    · exact kept l _ first Std.HashMap.getElem?_insert_self
    · exact ih later rest _

/-- An instruction after which control never goes on is one that the writer takes for one. -/
theorem Node.endsFlow_eq (node : Node) : node.endsFlow = !node.fallsThrough (· == .always) := by
  have goto (op : Opcode) : (op == Opcode.goto) = (JumpForm.ofOpcode op == .always) := by
    have : op = Opcode.goto ↔ JumpForm.ofOpcode op = .always := by
      rw [JumpForm.ofOpcode]
      constructor
      · rintro rfl
        rfl
      · intro always
        split at always
        · exact UInt8.toNat_inj.mp ‹_›
        · split_ifs at always
    rw [Bool.eq_iff_iff, beq_iff_eq, beq_iff_eq, this]
  cases node with
  | jump op target => rw [endsFlow, fallsThrough, Bool.not_not, goto]
  | simple op => rw [endsFlow, fallsThrough, Bool.not_not]
  | _ => rfl

namespace Emission

variable {e : Emission} {frames : MethodFrames} {insns : List Insn} {signature : String}

theorem Covers.placedOffsets (h : e.Covers frames insns) {p : PlacedInsn}
    (member : p ∈ e.placed.toList) : e.placedOffsets[p.index]? = some p.offset := by
  rw [Emission.placedOffsets, ← Array.foldl_toList]
  exact getElem?_foldl_insert PlacedInsn.index PlacedInsn.offset member
    (h.ascending.imp Nat.ne_of_lt) ∅

theorem Ordered.placedIndices (h : e.Ordered) {p : PlacedInsn} (member : p ∈ e.placed.toList) :
    e.placedIndices[p.offset]? = some p.index := by
  rw [Emission.placedIndices, ← Array.foldl_toList]
  exact getElem?_foldl_insert PlacedInsn.offset PlacedInsn.index member
    (h.ascending.imp Nat.ne_of_lt) ∅

/-! ## The offsets that need a frame -/

/-- An offset to which control can come otherwise than from the instruction before: it is that of a target,
that of the handler of a range between whose ends something has been laid out, or that of an instruction
behind one after which control never goes on. -/
inductive NeedsFrame (e : Emission) (exceptions : List ExceptionRange) : Nat → Prop
  | target {p : PlacedInsn} {l : LabelId} {o : Nat} (placed : p ∈ e.placed.toList)
    (target : l ∈ p.node.targets) (stands : e.labels[l]? = some o) : NeedsFrame e exceptions o
  | handler {r : ExceptionRange} {start stop o : Nat} (listed : r ∈ exceptions)
    (starts : e.labels[r.start]? = some start) (stops : e.labels[r.stop]? = some stop)
    (covers : start < stop) (stands : e.labels[r.handler]? = some o) : NeedsFrame e exceptions o
  | behind {front rest : List PlacedInsn} {p q : PlacedInsn}
    (split : e.placed.toList = front ++ p :: q :: rest)
    (ends : p.node.fallsThrough (· == .always) = false) : NeedsFrame e exceptions q.offset

theorem mem_offsetsAfterTransfers {items : List PlacedInsn} {o : Nat} :
    o ∈ offsetsAfterTransfers items ↔ ∃ front p q rest, items = front ++ p :: q :: rest ∧
      p.node.fallsThrough (· == .always) = false ∧ q.offset = o := by
  induction items with
  | nil => exact ⟨nofun, fun ⟨front, p, q, rest, split, _⟩ => by simp at split⟩
  | cons p items ih =>
    cases items with
    | nil =>
      refine ⟨nofun, fun ⟨front, p', q, rest, split, _⟩ => ?_⟩
      have := congrArg List.length split
      simp only [List.length_cons, List.length_nil, List.length_append] at this
      omega
    | cons q items =>
      have step : o ∈ offsetsAfterTransfers (p :: q :: items) ↔
          p.node.endsFlow = true ∧ q.offset = o ∨ o ∈ offsetsAfterTransfers (q :: items) := by
        rw [offsetsAfterTransfers]
        cases p.node.endsFlow with
        | true => simp [eq_comm]
        | false => simp
      rw [step, ih, Node.endsFlow_eq, Bool.not_eq_true']
      constructor
      · rintro (⟨ends, rfl⟩ | ⟨front, p', q', rest, split, found⟩)
        · exact ⟨[], p, q, items, rfl, ends, rfl⟩
        · exact ⟨p :: front, p', q', rest, by rw [split]; rfl, found⟩
      · rintro ⟨front, p', q', rest, split, ends, rfl⟩
        cases front with
        | nil =>
          cases split
          exact .inl ⟨ends, rfl⟩
        | cons first front =>
          obtain ⟨-, tail⟩ := List.cons.inj split
          exact .inr ⟨front, p', q', rest, tail, ends, rfl⟩

theorem offsetOf_eq_ok {l : LabelId} {o : Nat} :
    e.offsetOf signature l = .ok o ↔ e.labels[l]? = some o := by
  rw [offsetOf]
  cases e.labels[l]? with
  | none => exact ⟨by rintro ⟨⟩, by rintro ⟨⟩⟩
  | some offset => exact ⟨fun same => congrArg some (Except.ok.inj same), fun same => by cases same; rfl⟩

/-- The offset of the handler of a range, if the range covers something. -/
def handlerOffset (e : Emission) (signature : String) (r : ExceptionRange) :
    Except WriteError (Option Nat) := do
  if (← e.offsetOf signature r.start) < (← e.offsetOf signature r.stop) then
    return some (← e.offsetOf signature r.handler)
  else return none

theorem handlerOffset_eq_some {r : ExceptionRange} {o : Nat} :
    e.handlerOffset signature r = .ok (some o) ↔ ∃ start stop, e.labels[r.start]? = some start ∧
      e.labels[r.stop]? = some stop ∧ start < stop ∧ e.labels[r.handler]? = some o := by
  constructor
  · intro ran
    obtain ⟨start, starts, ran⟩ := ok_of_bind ran
    obtain ⟨stop, stops, ran⟩ := ok_of_bind ran
    by_cases covers : start < stop
    · rw [if_pos covers] at ran
      obtain ⟨handler, handles, ran⟩ := ok_of_bind ran
      cases ran
      exact ⟨start, stop, offsetOf_eq_ok.mp starts, offsetOf_eq_ok.mp stops, covers,
        offsetOf_eq_ok.mp handles⟩
    · rw [if_neg covers] at ran
      cases ran
  · rintro ⟨start, stop, starts, stops, covers, handles⟩
    rw [handlerOffset, offsetOf_eq_ok.mpr starts, offsetOf_eq_ok.mpr stops, offsetOf_eq_ok.mpr handles]
    show (if start < stop then _ else _) = _
    rw [if_pos covers]
    rfl

theorem mem_dedupAscending {l : List Nat} {a : Nat} : a ∈ dedupAscending l ↔ a ∈ l := by
  induction l using dedupAscending.induct with
  | case1 b rest ih =>
    rw [dedupAscending, if_pos rfl, ih]
    simp
  | case2 b c rest different ih =>
    rw [dedupAscending, if_neg different, List.mem_cons, ih, List.mem_cons (a := a) (b := b)]
  | case3 l short =>
    rw [dedupAscending]
    exact short

/-- The offsets at which frames are written are those that need one, in ascending order. -/
theorem frameOffsets_eq_ok {exceptions : List ExceptionRange} {offsets : List Nat}
    (ran : e.frameOffsets signature exceptions = .ok offsets) :
    offsets.Pairwise (· < ·) ∧
      ∀ o, o ∈ offsets ↔ e.NeedsFrame exceptions o ∧ o < e.length := by
  obtain ⟨targets, targeted, ran⟩ := ok_of_bind ran
  obtain ⟨handlers, handled, ran⟩ := ok_of_bind ran
  have handled : exceptions.filterMapM (e.handlerOffset signature) = .ok handlers := handled
  cases ran
  refine ⟨(dedupAscending_ascends (List.pairwise_mergeSort' (· ≤ ·) _)).1, fun o => ?_⟩
  rw [mem_dedupAscending, List.mem_mergeSort, List.mem_filter, decide_eq_true_eq]
  refine and_congr_left fun _ => ?_
  rw [List.mem_append, List.mem_append, mem_offsetsAfterTransfers, mem_of_filterMapM handled]
  have each := mapM_eq_ok.mp targeted
  constructor
  · rintro ((⟨front, p, q, rest, split, ends, rfl⟩ | target) |
      ⟨r, listed, handler⟩)
    · exact .behind split ends
    · obtain ⟨l, mentioned, stands⟩ := exists_of_mem_results each target
      obtain ⟨p, placed, target⟩ := List.mem_flatMap.mp mentioned
      exact .target placed target (offsetOf_eq_ok.mp stands)
    · obtain ⟨start, stop, starts, stops, covers, stands⟩ := handlerOffset_eq_some.mp handler
      exact .handler listed starts stops covers stands
  · rintro (⟨placed, target, stands⟩ | ⟨listed, starts, stops, covers, stands⟩ | ⟨split, ends⟩)
    · obtain ⟨o', there, stands'⟩ :=
        exists_of_mem_elements each (List.mem_flatMap.mpr ⟨_, placed, target⟩)
      cases stands.symm.trans (offsetOf_eq_ok.mp stands')
      exact .inl (.inr there)
    · exact .inr ⟨_, listed, handlerOffset_eq_some.mpr ⟨_, _, starts, stops, covers, stands⟩⟩
    · exact .inl (.inl ⟨_, _, _, _, split, ends, rfl⟩)

variable {m : Method}

/-- A position of a label gives it an offset. -/
theorem Covers.labels_of_position (h : e.Covers frames m.body.toList) {l : LabelId} {position : Nat}
    (stands : m.body.lastLabels l = some position) : e.labels[l]? = some (e.before position) := by
  rw [h.labels]
  show (m.body.lastLabels l).map _ = _
  rw [stands]
  rfl

/-- Control can come to the targets of what has been laid out. -/
theorem Covers.target_live (h : e.Covers frames m.body.toList) (closed : frames.Closed m)
    {p : PlacedInsn} (placed : p ∈ e.placed.toList) {l : LabelId} (target : l ∈ p.node.targets) :
    ∃ position, m.body.lastLabels l = some position ∧ frames.isLive position = true := by
  obtain ⟨insn, targets, at_, goes, live⟩ := closed.next p.index (h.live placed)
  obtain ⟨jumps, found, jumped, -⟩ := Body.of_successors goes
  -- The node that has been laid out is the one at its position.
  have node : insn.node = p.node := by
    have kept := h.kept ▸ List.mem_map.mpr ⟨p, placed, rfl⟩
    have there := (Method.mem_kept.mp kept).1
    rw [at_] at there
    exact Option.some.inj there
  obtain ⟨position, jump, stands⟩ :=
    exists_of_mem_elements (mapM_eq_some.mp found) (node.symm ▸ target)
  exact ⟨position, stands, live position (jumped jump)⟩

/-- Nothing has been laid out of an empty body. -/
theorem Covers.some_of_placed (h : e.Covers frames m.body.toList) {p : PlacedInsn}
    (member : p ∈ e.placed.toList) : m.body.isEmpty = false := by
  have inside := h.index_lt member
  rw [Array.length_toList] at inside
  rw [Array.isEmpty_eq_false_iff]
  rintro empty
  rw [empty] at inside
  exact Nat.not_lt_zero _ inside

/-- Where a frame is needed an instruction has been laid out. -/
theorem Covers.placed_of_needs (h : e.Covers frames m.body.toList)
    (closed : m.body.isEmpty = false → frames.Closed m) {o : Nat}
    (needs : e.NeedsFrame m.exceptions o) : ∃ p ∈ e.placed.toList, p.offset = o := by
  cases needs with
  | target placed target stands =>
    have closed := closed (h.some_of_placed placed)
    obtain ⟨position, position_, live⟩ := h.target_live closed placed target
    exact h.lands closed position_ live stands
  | handler listed starts stops covers stands =>
    obtain ⟨-, -, -, -, p, placed, -⟩ := h.between starts stops covers
    exact h.handler_lands (closed (h.some_of_placed placed)) listed starts stops covers stands
  | @behind front rest p q split ends => exact ⟨q, by rw [split]; simp, rfl⟩

/-- The labels that are looked up for the frames are in the body, unless it is empty. -/
theorem Covers.frameOffsets_ok (h : e.Covers frames m.body.toList) (closed : frames.Closed m)
    (signature : String) : ∃ offsets, e.frameOffsets signature m.exceptions = .ok offsets := by
  have found {l : LabelId} {position : Nat} (stands : m.body.lastLabels l = some position) :
      ∃ o, e.offsetOf signature l = .ok o :=
    ⟨_, offsetOf_eq_ok.mpr (h.labels_of_position stands)⟩
  obtain ⟨targets, targeted⟩ : ∃ targets,
      (e.placed.toList.flatMap (·.node.targets)).mapM (e.offsetOf signature) = .ok targets := by
    refine exists_mapM_ok _ fun l mentioned => ?_
    obtain ⟨p, placed, target⟩ := List.mem_flatMap.mp mentioned
    obtain ⟨position, stands, -⟩ := h.target_live closed placed target
    exact found stands
  obtain ⟨handlers, handled⟩ : ∃ handlers,
      m.exceptions.filterMapM (e.handlerOffset signature) = .ok handlers := by
    refine exists_filterMapM_ok _ fun r listed => ?_
    obtain ⟨first, last, handler, first_, last_, handler_, -⟩ := closed.ranges r listed
    obtain ⟨start, starts⟩ := found first_
    obtain ⟨stop, stops⟩ := found last_
    obtain ⟨o, handles⟩ := found handler_
    rw [handlerOffset, starts, stops, handles]
    show ∃ y, (if start < stop then .ok (some o) else .ok none : Except WriteError (Option Nat)) = .ok y
    split <;> exact ⟨_, rfl⟩
  cases ran : e.frameOffsets signature m.exceptions with
  | ok offsets => exact ⟨offsets, rfl⟩
  | error cause =>
    rw [frameOffsets, targeted] at ran
    change (m.exceptions.filterMapM (e.handlerOffset signature) >>= _) = _ at ran
    rw [handled] at ran
    cases ran

/-- The offsets that need a frame are always found unless a label is missing. -/
theorem frameOffsets_ne_error (e : Emission) (exceptions : List ExceptionRange) {cause : WriteError}
    (other : cause ≠ .missingLabel signature) :
    e.frameOffsets signature exceptions ≠ .error cause := by
  have found (l : LabelId) : e.offsetOf signature l ≠ .error cause := by
    rw [offsetOf]
    split
    · exact ok_ne_error _ _
    · exact fun same => other (Except.error.inj same).symm
  refine bind_ne_error (mapM_ne_error found _) fun targets => ?_
  refine bind_ne_error (filterMapM_ne_error (fun r => ?_) _) fun handlers => ok_ne_error _ _
  refine bind_ne_error (found _) fun start => bind_ne_error (found _) fun stop => ?_
  split
  · exact bind_ne_error (found _) fun _ => ok_ne_error _ _
  · exact ok_ne_error _ _

/-! ## Frames -/

/-- What a frame of a stack map says of an inferred frame: its entries stand for the locals, where unknown
locals at the end have none, and for the words of the stack, the bottom first. -/
structure Describes (e : Emission) (b : PoolBuilder) (s : StoredFrame) (f : TypeFrame) : Prop where
  locals : ∃ entries, List.Forall₂ (StoredType.Denotes b e) s.locals entries ∧
    expandLocals f.locals.length entries = f.locals ∧ entries.getLast? ≠ some .top
  stack : List.Forall₂ (StoredType.Denotes b e) s.stack (entriesOfWords f.stack.reverse)

/-- The objects of a frame that are not initialized yet come from what has been laid out. -/
def Creates (e : Emission) (creation : Nat) : Prop :=
  ∃ p ∈ e.placed.toList, p.index = creation

theorem encodeType_ends (h : e.Covers frames insns) {type : VerificationType}
    (allocated : type.Allocated e.Creates) :
    Ends Failure.IsOverflow (encodeType e.placedOffsets signature type) fun b bytes =>
      ∃ stored : StoredType, bytes = stored.octets ∧ stored.Denotes b e type := by
  cases type with
  | top => exact .pure fun _ => ⟨_, rfl, .top⟩
  | integer => exact .pure fun _ => ⟨_, rfl, .integer⟩
  | float => exact .pure fun _ => ⟨_, rfl, .float⟩
  | double => exact .pure fun _ => ⟨_, rfl, .double⟩
  | long => exact .pure fun _ => ⟨_, rfl, .long⟩
  | null => exact .pure fun _ => ⟨_, rfl, .null⟩
  | uninitializedThis => exact .pure fun _ => ⟨_, rfl, .uninitializedThis⟩
  | object name =>
    exact (classRef_ends name).bind fun slot => .pure fun _ named => ⟨.object slot, rfl, .object named⟩
  | uninitialized creation =>
    obtain ⟨p, placed, rfl⟩ := allocated
    rw [encodeType, h.placedOffsets placed]
    refine .pure fun _ => ⟨_, ?_, .uninitialized placed⟩
    exact congrArg (8 :: ·) (Word.encode_ofNat16 p.offset).symm

theorem encodeTypes_ends (h : e.Covers frames insns) {types : List VerificationType}
    (allocated : ∀ type ∈ types, type.Allocated e.Creates) :
    Ends Failure.IsOverflow (encodeTypes e.placedOffsets signature types) fun b data =>
      ∃ stored, data = storedTypes stored ∧ List.Forall₂ (StoredType.Denotes b e) stored types := by
  have each := Ends.mapM (f := encodeType e.placedOffsets signature) fun type member =>
    encodeType_ends h (allocated type member)
  refine each.bind fun chunks => .pure fun b all => ?_
  have collected : ∃ stored : List StoredType, chunks = stored.map StoredType.octets ∧
      List.Forall₂ (StoredType.Denotes b e) stored types := by
    clear each
    induction all with
    | nil => exact ⟨[], rfl, .nil⟩
    | cons first _ ih =>
      obtain ⟨stored, rfl, denotes⟩ := first
      obtain ⟨rest, rfl, others⟩ := ih fun type member => allocated type (List.mem_cons_of_mem _ member)
      exact ⟨stored :: rest, rfl, .cons denotes others⟩
  obtain ⟨stored, rfl, denotes⟩ := collected
  exact ⟨stored, by rw [storedTypes, denotes.length_eq, List.flatMap_def], denotes⟩

theorem encodeFrame_ends (h : e.Covers frames insns) (distance : Nat) {f : TypeFrame}
    (tidy : f.Tidy e.Creates) :
    Ends Failure.IsOverflow (encodeFrame e.placedOffsets signature distance f) fun b data =>
      ∃ s : StoredFrame, data = s.octets ∧ s.distance = UInt16.ofNat distance ∧
        e.Describes b s f ∧ s.locals.length ≤ f.locals.length ∧ s.stack.length ≤ f.stack.length := by
  have locals_ : ∀ type ∈ entriesOfLocals f.locals, type.Allocated e.Creates := fun type member =>
    tidy.locals type ((entriesOfLocals_sublist _).subset member)
  have words : ∀ type ∈ entriesOfWords f.stack.reverse, type.Allocated e.Creates := fun type member =>
    tidy.stack type (List.mem_reverse.mp ((entriesOfWords_sublist _).subset member))
  refine (encodeTypes_ends h locals_).bind fun first => (encodeTypes_ends h words).bind fun second =>
    .pure fun b stack_ stored => ?_
  obtain ⟨locals', rfl, denotes⟩ := stored
  obtain ⟨stack', rfl, denotes'⟩ := stack_
  refine ⟨⟨UInt16.ofNat distance, locals', stack'⟩, ?_, rfl,
    ⟨⟨_, denotes, expand_entriesOfLocals tidy.paired, getLast?_entriesOfLocals _⟩, denotes'⟩, ?_, ?_⟩
  · rw [StoredFrame.octets, Word.encode_ofNat16]
  · rw [denotes.length_eq]
    exact (entriesOfLocals_sublist _).length_le
  · rw [denotes'.length_eq]
    exact (entriesOfWords_sublist _).length_le.trans_eq List.length_reverse

/-- Frames at ascending offsets that have a frame each are written one for each offset, and their
distances lead to these offsets. -/
theorem encodeFrames_ends (h : e.Covers frames insns) {frameAt : Nat → Option TypeFrame} {base : Nat}
    {offsets : List Nat} (ascending : offsets.Pairwise (· < ·)) (above : ∀ o ∈ offsets, base ≤ o)
    (known : ∀ o ∈ offsets, ∃ f, frameAt o = some f ∧ f.Tidy e.Creates) :
    Ends Failure.IsOverflow (encodeFrames frameAt e.placedOffsets signature base offsets) fun b chunks =>
      ∃ stored : List StoredFrame, chunks = stored.map StoredFrame.octets ∧
        List.Forall₂ (fun o s => ∃ f, frameAt o = some f ∧ e.Describes b s f ∧
          s.locals.length ≤ f.locals.length ∧ s.stack.length ≤ f.stack.length) offsets stored ∧
        ((∀ o ∈ offsets, o < 65536) → StoredFrame.located base stored = offsets.zip stored) := by
  induction offsets generalizing base with
  | nil => exact .pure fun _ => ⟨[], rfl, .nil, fun _ => rfl⟩
  | cons o offsets ih =>
    obtain ⟨behind, ascending⟩ := List.pairwise_cons.mp ascending
    obtain ⟨first, -⟩ := List.forall_mem_cons.mp above
    obtain ⟨⟨f, found, tidy⟩, known⟩ := List.forall_mem_cons.mp known
    rw [encodeFrames, found]
    refine (encodeFrame_ends h _ tidy).bind fun chunk => (ih ascending behind known).bind fun chunks =>
      .pure fun b rest one => ?_
    obtain ⟨s, rfl, distance, describes, short⟩ := one
    obtain ⟨stored, rfl, all, located⟩ := rest
    refine ⟨s :: stored, rfl, .cons ⟨f, found, describes, short⟩ all, fun small => ?_⟩
    obtain ⟨fits, small⟩ := List.forall_mem_cons.mp small
    have step : base + s.distance.toNat = o := by
      rw [distance, UInt16.toNat_ofNat_of_lt' (by omega : o - base < 65536)]
      omega
    rw [StoredFrame.located, step, located small]
    rfl

/-- An instruction that has been laid out at an offset, and the frame before it. -/
def FrameAt (e : Emission) (frames : MethodFrames) (o : Nat) (f : TypeFrame) : Prop :=
  ∃ p ∈ e.placed.toList, p.offset = o ∧ frames.frames[p.index]?.join = some f

/-- A stack map whose offsets have been found, each of them that of an instruction. -/
theorem stackMap_ends (h : e.Covers frames insns) (ordered : e.Ordered)
    (tidy : ∀ (i : Nat) (f : TypeFrame), frames.frames[i]?.join = some f → f.Tidy e.Creates)
    {exceptions : List ExceptionRange} {offsets : List Nat}
    (found : e.frameOffsets signature exceptions = .ok offsets) (ascending : offsets.Pairwise (· < ·))
    (placed : ∀ o ∈ offsets, ∃ p ∈ e.placed.toList, p.offset = o) :
    Ends Failure.IsOverflow (e.stackMap frames signature exceptions) fun b map =>
      ∃ stored : List StoredFrame,
        (map = none ∧ stored = [] ∨ map = some (storedMap stored) ∧ stored ≠ []) ∧
        List.Forall₂ (fun o s => ∃ f, e.FrameAt frames o f ∧ e.Describes b s f ∧
          s.locals.length ≤ f.locals.length ∧ s.stack.length ≤ f.stack.length) offsets stored ∧
        ((∀ o ∈ offsets, o < 65536) → StoredFrame.located 0 stored = offsets.zip stored) := by
  rw [stackMap, found]
  cases offsets with
  | nil => exact .pure fun _ => ⟨[], .inl ⟨rfl, rfl⟩, .nil, fun _ => rfl⟩
  | cons first offsets =>
    -- The frame that is looked up for an offset is that of the instruction that stands there.
    have looked {o : Nat} (member : o ∈ first :: offsets) : ∃ f, e.FrameAt frames o f ∧
        ((e.placedIndices[o]?).bind fun index => frames.frames[index]?.join) = some f := by
      obtain ⟨p, inside, rfl⟩ := placed o member
      obtain ⟨f, here⟩ := Option.isSome_iff_exists.mp (h.live inside)
      refine ⟨f, ⟨p, inside, rfl, here⟩, ?_⟩
      rw [ordered.placedIndices inside]
      exact here
    refine (encodeFrames_ends h ascending (fun o _ => Nat.zero_le o) fun o member => ?_).bind
      fun chunks => .pure fun b encoded => ?_
    · obtain ⟨f, ⟨p, -, -, here⟩, there⟩ := looked member
      exact ⟨f, there, tidy _ f here⟩
    · obtain ⟨stored, rfl, all, located⟩ := encoded
      refine ⟨stored, .inr ⟨?_, ?_⟩, ?_, located⟩
      · rw [storedMap, ← all.length_eq, List.flatMap_def]
      · rintro rfl
        cases all
      · refine List.forall₂_iff_get.mpr ⟨all.length_eq, fun i inside inside' => ?_⟩
        obtain ⟨f, there, rest⟩ := all.get inside inside'
        obtain ⟨f', here, there'⟩ := looked (List.getElem_mem inside)
        cases there.symm.trans there'
        exact ⟨f, here, rest⟩

/-- The objects that are named in inferred frames come from what has been laid out. -/
theorem Covers.tidy {h : Hierarchy} {owner : String} (covers : e.Covers frames m.body.toList)
    (inferred : inferFrames h owner m = .ok frames) (i : Nat) (f : TypeFrame)
    (here : frames.frames[i]?.join = some f) : f.Tidy e.Creates := by
  refine (inferFrames_tidy inferred here).mono fun creation ⟨live, insn, name, at_, new⟩ => ?_
  have kept : (creation, insn.node) ∈ m.kept frames.isLive := by
    refine Method.mem_kept.mpr ⟨?_, live, ?_⟩
    · rw [at_]
      rfl
    · rw [new]
      rfl
  rw [covers.kept] at kept
  obtain ⟨p, placed, same⟩ := List.mem_map.mp kept
  exact ⟨p, placed, congrArg Prod.fst same⟩

/-- **Stack maps are complete.** A body has been laid out for which frames have been inferred and whose
branches have been given their distances. Then the stack map fails only if the pool has no room, or if
the body is empty and its ranges have no labels. If the code can be stored, what is written is read as
frames whose distances lead to ascending offsets: exactly to those that need a frame, each with the types
that have been inferred for the instruction that stands there. -/
theorem stackMap_complete {h : Hierarchy} {owner : String} {b b₁ c c' : PoolBuilder}
    {code : Bytes} {r : Except Failure (Option Bytes)} (inferred : inferFrames h owner m = .ok frames)
    (laid : ofBody frames m.body b = (.ok e, b₁)) (assembled : e.assemble m.signature = .ok code)
    (ran : e.stackMap frames m.signature m.exceptions c = (r, c')) :
    (∀ cause, r = .error cause → cause.IsOverflow ∨
      m.body.isEmpty = true ∧ cause = .write c.owner (.missingLabel m.signature)) ∧
    ∀ map, r = .ok map → code.length ≤ 65535 → ∃ stored : List StoredFrame,
      (map = none ∧ stored = [] ∨
        ∃ data, map = some data ∧ stored ≠ [] ∧ Reader.Reads readStackMap 0 data stored) ∧
      ((StoredFrame.located 0 stored).map Prod.fst).Pairwise (· < ·) ∧
      (∀ o, o ∈ (StoredFrame.located 0 stored).map Prod.fst ↔ e.NeedsFrame m.exceptions o) ∧
      (∀ p ∈ e.placed.toList, p.offset < code.length) ∧
      ∀ o s, (o, s) ∈ StoredFrame.located 0 stored →
        ∃ f, e.FrameAt frames o f ∧ e.Describes c' s f := by
  obtain ⟨covers, ordered⟩ := ofBody_returns frames m.body b e b₁ laid
  have closed (some_ : m.body.isEmpty = false) : frames.Closed m := inferFrames_closed some_ inferred
  have size : e.length = code.length := by
    obtain ⟨chunks, rfl, each⟩ := chunks_of_assemble assembled
    exact covers.length_eq.trans (length_of_assembled each).symm
  cases found : e.frameOffsets m.signature m.exceptions with
  | error cause =>
    rw [stackMap, found] at ran
    cases ran
    refine ⟨fun cause' same => .inr ⟨?_, ?_⟩, by rintro _ ⟨⟩⟩
    · cases some_ : m.body.isEmpty with
      | true => rfl
      | false =>
        obtain ⟨offsets, there⟩ := covers.frameOffsets_ok (closed some_) m.signature
        rw [found] at there
        cases there
    · cases same
      by_cases missing : cause = .missingLabel m.signature
      · rw [missing]
      · exact absurd found (e.frameOffsets_ne_error m.exceptions missing)
  | ok offsets =>
    obtain ⟨ascending, members⟩ := frameOffsets_eq_ok found
    have placed {o : Nat} (needs : e.NeedsFrame m.exceptions o) :
        ∃ p ∈ e.placed.toList, p.offset = o := covers.placed_of_needs closed needs
    have needed (o : Nat) : o ∈ offsets ↔ e.NeedsFrame m.exceptions o := by
      refine (members o).trans (and_iff_left_of_imp fun needs => ?_)
      obtain ⟨p, inside, rfl⟩ := placed needs
      exact ordered.inside p inside
    obtain ⟨-, fails, right⟩ := stackMap_ends covers ordered (covers.tidy inferred) found ascending
      (fun o member => placed ((needed o).mp member)) c r c' ran
    refine ⟨fun cause same => .inl (fails cause same), fun map same short => ?_⟩
    obtain ⟨stored, shape, all, located⟩ := right map same c' (.refl c')
    have small : ∀ o ∈ offsets, o < 65536 := fun o member => by
      have := ((members o).mp member).2
      omega
    have few : stored.length < 65536 := by
      have := length_frameOffsets_le found
      rw [all.length_eq] at this
      omega
    have fits : ∀ s ∈ stored, s.Fits := fun s member => by
      obtain ⟨o, -, f, ⟨p, -, -, here⟩, -, locals_, stack⟩ := exists_of_mem_results all member
      obtain ⟨locals', stack'⟩ := inferFrames_room inferred here
      exact ⟨by omega, by omega⟩
    have firsts : (StoredFrame.located 0 stored).map Prod.fst = offsets := by
      rw [located small]
      exact List.map_fst_zip (Nat.le_of_eq all.length_eq)
    refine ⟨stored, ?_, firsts.symm ▸ ascending, fun o => firsts.symm ▸ needed o,
      fun p inside => size ▸ ordered.inside p inside, fun o s member => ?_⟩
    · rcases shape with ⟨rfl, rfl⟩ | ⟨rfl, some_⟩
      · exact .inl ⟨rfl, rfl⟩
      · exact .inr ⟨_, rfl, some_, reads_storedMap few fits 0⟩
    · rw [located small] at member
      obtain ⟨i, inside, same⟩ := List.mem_iff_getElem.mp member
      rw [List.getElem_zip] at same
      cases same
      have inside' : i < offsets.length ∧ i < stored.length := by
        rw [List.length_zip] at inside
        omega
      obtain ⟨f, there, describes, -⟩ := all.get inside'.1 inside'.2
      exact ⟨f, there, describes⟩

end Emission

/-- A method that never ends. -/
def Method.spinning : Method where
  id := ⟨0⟩
  access := 8
  name := "A"
  descriptor := "()V"
  body := #[⟨⟨0⟩, .label ⟨0⟩⟩, ⟨⟨1⟩, .jump Opcode.goto ⟨0⟩⟩]

/-- What is laid out of the method that never ends. -/
def Emission.spinning : Emission where
  placed := #[⟨1, 0, .jump Opcode.goto ⟨0⟩, [.octets [0xa7], .branch ⟨0⟩]⟩]
  labels := Std.HashMap.insert ∅ ⟨0⟩ 0
  length := 3

namespace Emission

theorem offsetOf_spinning : spinning.offsetOf "A()V" ⟨0⟩ = .ok 0 := by
  refine offsetOf_eq_ok.mpr ?_
  rw [spinning]
  simp

theorem assemble_spinning : spinning.assemble "A()V" = .ok [0xa7, 0, 0] := by
  have branch : spinning.assemblePiece "A()V" 0 (.branch ⟨0⟩) = .ok [0, 0] := by
    rw [assemblePiece, offsetOf_spinning]
    rfl
  have pieces : [Piece.octets [0xa7], .branch ⟨0⟩].mapM (spinning.assemblePiece "A()V" 0) =
      .ok [[0xa7], [0, 0]] := by
    rw [List.mapM_cons, List.mapM_cons, branch]
    rfl
  have placed : spinning.placed.toList =
      [⟨1, 0, .jump Opcode.goto ⟨0⟩, [.octets [0xa7], .branch ⟨0⟩]⟩] := rfl
  rw [assemble, placed, List.mapM_cons, pieces]
  rfl

theorem stackMap_spinning (maxStack maxLocals : Nat) (b : PoolBuilder) :
    spinning.stackMap ⟨#[some ⟨[], []⟩, some ⟨[], []⟩], maxStack, maxLocals⟩ "A()V" [] b =
      (.ok (some [0, 1, 255, 0, 0, 0, 0, 0, 0]), b) := by
  have offsets : spinning.frameOffsets "A()V" [] = .ok [0] := by
    have targets : ([⟨0⟩] : List LabelId).mapM (spinning.offsetOf "A()V") = .ok [0] := by
      rw [List.mapM_cons, offsetOf_spinning]
      rfl
    rw [frameOffsets]
    show (([⟨0⟩] : List LabelId).mapM (spinning.offsetOf "A()V") >>= _) = _
    rw [targets]
    show Except.ok (dedupAscending (List.mergeSort [0] _)) = _
    rw [List.mergeSort_singleton]
    rfl
  have index : spinning.placedIndices[0]? = some 1 := by simp [spinning, placedIndices]
  rw [stackMap, offsets]
  show (encodeFrames _ _ _ 0 [0] >>= _ : Building (Option Bytes)) b = _
  rw [encodeFrames, index]
  rfl

/-- The jump has to find a frame where it goes to. -/
theorem stackMap_complete_spinning : ∃ frames b₁ c',
    inferFrames (fun _ => none) "A" Method.spinning = .ok frames ∧
    ofBody frames Method.spinning.body { owner := "A" } = (.ok spinning, b₁) ∧
    spinning.stackMap frames "A()V" [] b₁ = (.ok (some [0, 1, 255, 0, 0, 0, 0, 0, 0]), c') ∧
    ∃ stored, Reader.Reads readStackMap 0 [0, 1, 255, 0, 0, 0, 0, 0, 0] stored ∧
      ∀ o, o ∈ (StoredFrame.located 0 stored).map Prod.fst ↔ spinning.NeedsFrame [] o := by
  have found : ((inferFrames (fun _ => none) "A" Method.spinning).toOption.any fun frames =>
      frames.frames == #[some ⟨[], []⟩, some ⟨[], []⟩]) = true := by
    rw [inferFrames, Body.ofTable_labelTable]
    decide +kernel
  cases ran : inferFrames (fun _ => none) "A" Method.spinning with
  | error cause => rw [ran] at found; cases found
  | ok frames =>
    rw [ran] at found
    obtain ⟨frames, maxStack, maxLocals⟩ := frames
    obtain rfl : frames = #[some ⟨[], []⟩, some ⟨[], []⟩] := beq_iff_eq.mp found
    have laid : ofBody ⟨#[some ⟨[], []⟩, some ⟨[], []⟩], maxStack, maxLocals⟩
        Method.spinning.body { owner := "A" } = (.ok spinning, { owner := "A" }) := rfl
    have mapped := stackMap_spinning maxStack maxLocals { owner := "A" }
    obtain ⟨-, right⟩ := stackMap_complete (m := Method.spinning) ran laid assemble_spinning mapped
    obtain ⟨stored, shape, -, needed, -⟩ := right _ rfl (by decide)
    refine ⟨_, _, _, rfl, laid, mapped, stored, ?_, needed⟩
    rcases shape with ⟨absurd_, -⟩ | ⟨data, same, -, reads⟩
    · cases absurd_
    · cases same
      exact reads

end Emission

end Bytecode
