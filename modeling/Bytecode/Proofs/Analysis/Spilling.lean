import Bytecode.Proofs.Analysis.Shadows

/-!
# Entries put aside

`Inspection.spill` tells how the topmost entries before an instruction can be stored into free slots and
loaded again. While a frame goes through the stores and the loads, what it has in the slots and on the
stack together stays what was on the stack (`Frame.gathered`): a store moves the next entry into its slot,
and a load brings one back.
-/

namespace Bytecode.Analysis

/-! ## Slots and stack together -/

/-- Two values that claim the same. -/
def Value.Same (u v : Value) : Prop :=
  v.kind = u.kind ∧ v.literal = u.literal

theorem Value.Same.refl (u : Value) : u.Same u :=
  ⟨rfl, rfl⟩

theorem same_of_copy {body : Body} {index : Nat} {id : InsnId} {u v : Value} {s t : Store}
    (matched : u.Matched)
    (copied : Transfer.copy body index id u s = (v, t)) : u.Same v :=
  ⟨(copy_eq copied).1, (copy_eq copied).2.2 matched⟩

/-- What a slot holds. -/
def Frame.heldIn (x : Frame) (slot : Nat) : Value :=
  x.locals[slot]?.getD default

/-- The frame whose stack has, above what is on the stack, what some slots hold. -/
def Frame.gathered (slots : List Nat) (x : Frame) : Frame :=
  { x with stack := slots.map x.heldIn ++ x.stack }

section

variable {slots : List Nat} {x x' y joined : Frame}

/-- Gathering goes with joins. -/
theorem gathered_joins (locals : JoinOf x.locals y.locals joined.locals)
    (stack : JoinOf x.stack y.stack joined.stack) :
    JoinOf (x.gathered slots).stack (y.gathered slots).stack (joined.gathered slots).stack := by
  induction slots with
  | nil => exact stack
  | cons s slots ih =>
    refine JoinOf.cons ?_ ih
    unfold Frame.heldIn
    cases found : joined.locals[s]? with
    | none =>
      -- a slot that is in neither frame counts as the same unknown value in both
      have outside := List.getElem?_eq_none_iff.mp found
      rw [locals.length] at outside
      rw [List.getElem?_eq_none outside]
      exact .inl rfl
    | some v =>
      obtain ⟨old, there, same | ⟨new, s', t', there', merged⟩⟩ := locals.slot s v found
      · rw [there, same]
        exact .inl rfl
      · rw [there, there']
        exact .inr ⟨s', t', merged⟩

/-- Gathering goes with less claims. -/
theorem gathered_le (h : x.Le y) : (x.gathered slots).Le (y.gathered slots) := by
  refine ⟨h.locals, ?_⟩
  induction slots with
  | nil => exact h.stack
  | cons s slots ih =>
    refine .cons ?_ ih
    unfold Frame.heldIn
    cases found : y.locals[s]? with
    | none =>
      have outside := List.getElem?_eq_none_iff.mp found
      rw [← h.locals.length_eq] at outside
      rw [List.getElem?_eq_none outside]
    | some v =>
      obtain ⟨u, there, less⟩ := getElem?_of_forall₂ h.locals found
      rw [there]
      exact less

theorem matched_of_gathered (h : (x.gathered slots).Every Value.Matched) : x.Every Value.Matched :=
  ⟨h.locals, fun v member => h.stack v (List.mem_append_right _ member)⟩

theorem gathered_matched (h : x.Every Value.Matched) : (x.gathered slots).Every Value.Matched := by
  refine ⟨h.locals, fun v member => ?_⟩
  rcases List.mem_append.mp member with held | lying
  · obtain ⟨s, -, rfl⟩ := List.mem_map.mp held
    unfold Frame.heldIn
    cases found : x.locals[s]? with
    | none => exact .of_unknown rfl
    | some u => exact h.locals u (List.mem_of_getElem? found)
  · exact h.stack v lying

/-! ## Stores and loads -/

/-- Two frames that claim the same on their stacks, and in the local variables below a slot. -/
structure Frame.Resembles (base : Nat) (x y : Frame) : Prop where
  stack : List.Forall₂ Value.Same x.stack y.stack
  locals : ∀ k < base, y.locals[k]? = x.locals[k]?
  width : y.locals.length = x.locals.length
  limit : y.limit = x.limit

/-- In front of a slot there is no value whose second word it would be. -/
def Frame.Clear (x : Frame) (slot : Nat) : Prop :=
  ∀ k, k + 1 = slot → x.locals[k]?.any Value.isWide = false

variable {base : Nat} {insn : Insn} {op : Opcode} {slot : UInt16} {kind : Kind} {body : Body} {index : Nat}
  {s t : Store}

/-- What a store leaves in the slots before the one that it writes. -/
theorem Written.before {v : Value} (h : Written x slot v x') (clear : x.Clear slot.toNat)
    (last : slot.toNat + 1 < 65536) {k : Nat} (below : k < slot.toNat) : x'.locals[k]? = x.locals[k]? := by
  have next : (slot + 1).toNat = slot.toNat + 1 := by
    rw [UInt16.toNat_add, UInt16.toNat_one, Nat.mod_eq_of_lt last]
  cases found : x'.locals[k]? with
  | none =>
    have outside := List.getElem?_eq_none_iff.mp found
    rw [h.width] at outside
    exact (List.getElem?_eq_none outside).symm
  | some u =>
    have written := h.slots k u found
    rw [WrittenAt, if_neg (Nat.ne_of_lt below), if_neg] at written
    · exact written.symm
    · rintro (⟨behind, -⟩ | ⟨behind, wide⟩)
      · omega
      · rw [clear k behind] at wide
        cases wide

/-- What a store leaves in its slot. -/
theorem Written.held {v : Value} (h : Written x slot v x') : x'.locals[slot.toNat]? = some v := by
  have inside : slot.toNat < x'.locals.length := by
    rw [h.width]
    exact h.inside
  have at_slot := List.getElem?_eq_getElem inside
  have value := h.slots slot.toNat _ at_slot
  rw [WrittenAt, if_pos rfl] at value
  rw [at_slot, value]

/-- Behind what a store has written no value is torn apart. -/
theorem Written.clear {v : Value} (h : Written x slot v x') (last : slot.toNat + 1 < 65536) :
    x'.Clear (slot.toNat + v.size) := by
  intro k behind
  have size : v.size = if v.isWide then 2 else 1 := Kind.size_eq v.kind
  rw [size] at behind
  split at behind
  · next double =>
    obtain rfl : k = slot.toNat + 1 := by omega
    cases found : x'.locals[slot.toNat + 1]? with
    | none => rfl
    | some u =>
      have next : slot.toNat + 1 = (slot + 1).toNat := by
        rw [UInt16.toNat_add, UInt16.toNat_one, Nat.mod_eq_of_lt last]
      have emptied := h.slots _ u found
      rw [WrittenAt, if_neg (Nat.succ_ne_self _), if_pos (.inl ⟨next, double⟩)] at emptied
      rw [Option.any_some, Value.isWide, emptied.1]
      rfl
  · next single =>
    obtain rfl : k = slot.toNat := by omega
    rw [h.held, Option.any_some]
    exact eq_false_of_ne_true single

/-- A store moves the topmost entry into its slot. -/
theorem gathered_store (node : insn.node = .var op slot) (access : SlotAccess.ofOpcode op = .store kind)
    (below : ∀ w ∈ slots, w < slot.toNat) (from_base : base ≤ slot.toNat) (last : slot.toNat + 1 < 65536)
    (clear : x.Clear slot.toNat) (matched : x.Every Value.Matched)
    (executed : x.execute body index insn s = .ok (x', t)) :
    ∃ v rest, x.stack = v :: rest ∧ x'.Clear (slot.toNat + v.size) ∧
      Frame.Resembles base (x.gathered slots) (x'.gathered (slots ++ [slot.toNat])) := by
  obtain ⟨id, _⟩ := insn
  cases node
  simp only [Frame.execute, access] at executed
  obtain ⟨v, w, rest, s₁, stack, copied, written⟩ := popStore_eq_ok executed
  have same := same_of_copy (matched.stack v (by simp [stack])) copied
  have before {k : Nat} (less : k < slot.toNat) : x'.locals[k]? = x.locals[k]? :=
    written.before clear last less
  have size : v.size = w.size := by rw [Value.size, Value.size, same.1]
  refine ⟨v, rest, stack, size ▸ written.clear last, ?_, fun k less => before (Nat.lt_of_lt_of_le less from_base),
    written.width, written.limit⟩
  · have kept : (slots.map x.heldIn) = slots.map x'.heldIn :=
      List.map_congr_left fun k member => by rw [Frame.heldIn, Frame.heldIn, before (below k member)]
    have moved : x'.heldIn slot.toNat = w := by rw [Frame.heldIn, written.held, Option.getD_some]
    have stack' : x'.stack = rest := written.stack
    simp only [Frame.gathered, stack, stack', kept, List.map_append, List.map_cons, List.map_nil, moved,
      List.append_assoc, List.singleton_append]
    exact List.rel_append (List.forall₂_same.mpr fun v _ => .refl v)
      (.cons same (List.forall₂_same.mpr fun v _ => .refl v))

/-- A load brings an entry back from its slot. -/
theorem gathered_load (node : insn.node = .var op slot) (access : SlotAccess.ofOpcode op = .load kind)
    (matched : x.Every Value.Matched) (executed : x.execute body index insn s = .ok (x', t)) :
    Frame.Resembles base (x.gathered (slots ++ [slot.toNat])) (x'.gathered slots) := by
  obtain ⟨id, _⟩ := insn
  cases node
  simp only [Frame.execute, access] at executed
  obtain ⟨v, w, s₁, found, copied, rfl⟩ := load_eq_ok executed
  have same := same_of_copy (matched.locals v (List.mem_of_getElem? found)) copied
  have held : x.heldIn slot.toNat = v := by rw [Frame.heldIn, found, Option.getD_some]
  refine ⟨?_, fun _ _ => rfl, rfl, rfl⟩
  simp only [Frame.gathered, List.map_append, List.map_cons, List.map_nil, held, List.append_assoc,
    List.singleton_append]
  exact List.rel_append (List.forall₂_same.mpr fun v _ => .refl v)
    (.cons same (List.forall₂_same.mpr fun v _ => .refl v))

/-- A store or a load leads from matched values to matched values. -/
theorem matched_of_access (node : insn.node = .var op slot) (matched : x.Every Value.Matched)
    (executed : x.execute body index insn s = .ok (x', t)) : x'.Every Value.Matched :=
  execute_matched (by rw [node]; nofun) (by intro _ _ _ _ other; rw [node] at other; cases other) matched executed

/-- A store into slots that are there does not fail. -/
theorem store_succeeds (node : insn.node = .var op slot) (access : SlotAccess.ofOpcode op = .store kind)
    {v : Value} {rest : List Value} (stack : x.stack = v :: rest)
    (inside : slot.toNat + v.size ≤ x.locals.length) (last : slot.toNat + 1 < 65536) (s : Store) :
    ∃ r, x.execute body index insn s = .ok r := by
  obtain ⟨id, _⟩ := insn
  cases node
  simp only [Frame.execute, access, Frame.pop, stack]
  have size : v.size = if v.isWide then 2 else 1 := Kind.size_eq v.kind
  refine Step.bind_exists ⟨_, rfl⟩ fun r s₁ popped => ?_
  cases popped
  refine Step.bind_exists ⟨_, rfl⟩ fun w s₂ copying => ?_
  have kind := (copy_eq (Step.lift_eq_ok copying)).1
  refine store_of_inside ?_ (fun wide => ?_) s₂
  · show slot.toNat < x.locals.length
    split at size <;> omega
  · have double : v.isWide = true := by rwa [Value.isWide, kind] at wide
    rw [if_pos double] at size
    rw [UInt16.toNat_add, UInt16.toNat_one, Nat.mod_eq_of_lt last]
    show slot.toNat + 1 < x.locals.length
    omega

/-- A load from a slot that is there does not fail where nothing limits the stack. -/
theorem load_succeeds (node : insn.node = .var op slot) (access : SlotAccess.ofOpcode op = .load kind)
    (inside : slot.toNat < x.locals.length) (unlimited : x.limit = none) (s : Store) :
    ∃ r, x.execute body index insn s = .ok r := by
  obtain ⟨id, _⟩ := insn
  cases node
  simp only [Frame.execute, access, Frame.getLocal, List.getElem?_eq_getElem inside]
  refine Step.bind_exists ⟨_, rfl⟩ fun v s₁ got => ?_
  refine Step.bind_exists ⟨_, rfl⟩ fun w s₂ copying => ?_
  rw [push_of_unlimited unlimited]
  exact ⟨_, rfl⟩

end

/-! ## Slots of entries -/

theorem Value.size_pos (v : Value) : 0 < v.size := by
  rw [Value.size, Kind.size_eq]
  split <;> decide

/-- The slot of an entry, if entries take slots one behind the other, the topmost first. -/
def slotFrom (base : Nat) (values : List Value) (c : Nat) : Nat :=
  base + total Value.size (values.take c)

/-- The slots of the topmost entries. -/
def slotsFrom (base : Nat) (values : List Value) (c : Nat) : List Nat :=
  (List.range c).map (slotFrom base values)

section

variable {base c c' : Nat} {values : List Value} {v : Value}

theorem slotFrom_succ (h : values[c]? = some v) :
    slotFrom base values (c + 1) = slotFrom base values c + v.size := by
  rw [slotFrom, List.take_add_one, h, total_append, slotFrom]
  simp [Nat.add_assoc]

theorem slotsFrom_succ :
    slotsFrom base values (c + 1) = slotsFrom base values c ++ [slotFrom base values c] := by
  rw [slotsFrom, List.range_succ, List.map_append]
  rfl

theorem slotFrom_le (h : c ≤ c') : slotFrom base values c ≤ slotFrom base values c' := by
  obtain ⟨rest, split⟩ := List.take_prefix_take_left (l := values) h
  rw [slotFrom, slotFrom, ← split, total_append]
  omega

/-- Different entries take different slots. -/
theorem slotFrom_apart (h : values[c]? = some v) (later : c < c') :
    slotFrom base values c + v.size ≤ slotFrom base values c' := by
  rw [← slotFrom_succ h]
  exact slotFrom_le later

/-- The stores and the loads for some entries. -/
structure Spills (base : Nat) (values : List Value) (stores loads : List Node) : Prop where
  counts : stores.length = values.length ∧ loads.length = values.length
  known : ∀ v ∈ values, v.kind ≠ .uninitialized
  store : ∀ c v, values[c]? = some v → ∃ op slot kind, stores[c]? = some (.var op slot) ∧
    SlotAccess.ofOpcode op = .store kind ∧ slot.toNat = slotFrom base values c ∧
    (Node.var op slot).slots = List.range' (slotFrom base values c) v.size
  load : ∀ c v, values[c]? = some v → ∃ op slot kind, loads[c]? = some (.var op slot) ∧
    SlotAccess.ofOpcode op = .load kind ∧ slot.toNat = slotFrom base values c ∧
    (Node.var op slot).slots = List.range' (slotFrom base values c) v.size
  fits : ∀ c v, values[c]? = some v → slotFrom base values c + v.size ≤ 65535

/-- What is stored is loaded, and the stores tell the slots of their entries. -/
theorem opcodes_of_kind {kind : Kind} {store load : Opcode} (stores : kind.storeOpcode = some store)
    (loads : kind.loadOpcode = some load) : SlotAccess.ofOpcode store = .store kind ∧
      SlotAccess.ofOpcode load = .load kind ∧ kind ≠ .uninitialized ∧
      ∀ slot, (Node.var store slot).slots = List.range' slot.toNat kind.size ∧
        (Node.var load slot).slots = List.range' slot.toNat kind.size := by
  cases kind with
  | uninitialized => cases stores
  | returnAddress => cases stores
  | _ =>
    cases stores
    cases loads
    exact ⟨rfl, rfl, by decide, fun slot => ⟨rfl, rfl⟩⟩

/-- One more entry, in front of the others. -/
theorem Spills.cons {stores loads : List Node} {store load : Opcode} {slot : UInt16} {kind : Kind}
    (h : Spills (base + v.size) values stores loads) (known : v.kind ≠ .uninitialized)
    (storing : SlotAccess.ofOpcode store = .store kind) (loading : SlotAccess.ofOpcode load = .load kind)
    (at_base : slot.toNat = base) (stored : (Node.var store slot).slots = List.range' slot.toNat v.size)
    (loaded : (Node.var load slot).slots = List.range' slot.toNat v.size) (fits : base + v.size ≤ 65535) :
    Spills base (v :: values) (.var store slot :: stores) (.var load slot :: loads) := by
  have first : slotFrom base (v :: values) 0 = base := rfl
  have next (c : Nat) : slotFrom base (v :: values) (c + 1) = slotFrom (base + v.size) values c := by
    simp [slotFrom, Nat.add_assoc]
  refine ⟨⟨by simp [h.counts.1], by simp [h.counts.2]⟩, List.forall_mem_cons.mpr ⟨known, h.known⟩,
    fun c u found => ?_, fun c u found => ?_, fun c u found => ?_⟩
  · cases c with
    | zero =>
      cases found
      exact ⟨store, slot, kind, rfl, storing, at_base, by rw [stored, at_base, first]⟩
    | succ c =>
      rw [next]
      exact h.store c u found
  · cases c with
    | zero =>
      cases found
      exact ⟨load, slot, kind, rfl, loading, at_base, by rw [loaded, at_base, first]⟩
    | succ c =>
      rw [next]
      exact h.load c u found
  · cases c with
    | zero =>
      cases found
      exact fits
    | succ c =>
      rw [next]
      exact h.fits c u found

/-- Where the slots can be counted with 16 bits, the entries take slots one behind the other. -/
theorem spills_of_spillFrom {slot : UInt16} {stores loads : List Node}
    (spilled : Inspection.spillFrom slot values = (stores, .ok loads))
    (small : ∀ store ∈ stores, ∀ w ∈ store.slots, w < 65535) : Spills slot.toNat values stores loads := by
  induction values generalizing slot stores loads with
  | nil =>
    cases spilled
    exact ⟨⟨rfl, rfl⟩, by simp, by simp, by simp, by simp⟩
  | cons v rest ih =>
    unfold Inspection.spillFrom at spilled
    split at spilled
    · next store load isStore isLoad =>
      obtain ⟨storing, loading, known, slots⟩ := opcodes_of_kind isStore isLoad
      cases more : Inspection.spillFrom (slot + .ofNat v.size) rest with
      | mk stores' result =>
        rw [more] at spilled
        cases result with
        | error e => cases spilled
        | ok loads' =>
          cases spilled
          obtain ⟨here, later⟩ := List.forall_mem_cons.mp small
          -- the last word of the store is a slot below 65535, so that the next number does not wrap around
          have fits : slot.toNat + v.size ≤ 65535 := by
            rw [(slots slot).1] at here
            have some_ := v.size_pos
            have size : v.size = v.kind.size := rfl
            have last := here (slot.toNat + v.kind.size - 1) (by rw [List.mem_range'_1]; omega)
            omega
          have next : (slot + .ofNat v.size).toNat = slot.toNat + v.size := by
            rw [UInt16.toNat_add, UInt16.toNat_ofNat_of_lt' (by unfold UInt16.size; omega)]
            omega
          have behind := ih more later
          rw [next] at behind
          exact behind.cons known storing loading rfl (slots slot).1 (slots slot).2 fits
    · cases spilled

end

/-! ## Going through the stores and the loads -/

theorem Value.Same.within {u v w : Value} (same : u.Same v) (h : u.Within True w) : v.Within True w := by
  refine ⟨?_, fun exact l known => ?_⟩
  · rw [same.1]
    exact h.kind
  · rw [same.2]
    exact h.literal exact l known

theorem Value.Same.within' {u v w : Value} (same : v.Same w) (h : u.Within True v) : u.Within True w := by
  refine ⟨?_, fun exact l known => ?_⟩
  · rw [same.1]
    exact h.kind
  · rw [same.2] at known
    exact h.literal exact l known

/-- A frame that claims the same as a shadow of a frame is one. -/
theorem Shadows.resembles {width : Nat} {x x' g : Frame} (h : Shadows True (Value.Within True) width x g)
    (same : x.Resembles g.locals.length x') (matched : x'.Every Value.Matched) :
    Shadows True (Value.Within True) width x' g where
  tracks := by
    have locals (k : Nat) (u v : Value) (hu : x'.locals[k]? = some u) (hv : g.locals[k]? = some v) :
        x.locals[k]? = some u := by
      rwa [← same.locals k (List.getElem?_eq_some_iff.mp hv).1]
    refine ⟨?_, fun k u v hu hv => h.tracks.locals k u v (locals k u v hu hv) hv, fun k u hu inside wide =>
      h.tracks.room k u (locals k u _ hu (List.getElem?_eq_getElem inside)) inside wide⟩
    refine forall₂_of_getElem? (same.stack.length_eq.symm.trans h.tracks.stack.length_eq) fun k u w hu hw => ?_
    obtain ⟨v, hv, related⟩ := getElem?_of_forall₂ same.stack hu
    exact related.within (rel_of_getElem? h.tracks.stack hv hw)
  unlimited := same.limit.trans h.unlimited
  width := same.width.trans h.width
  matched := fun _ => matched

/-- The stores and the loads of the topmost entries stand in front of one instruction. -/
structure Refills (m : Method) (frames : Nat → Option Frame) (block : Insn → List Insn) (i base : Nat)
    (values : List Value) (stores loads : List Node) : Prop where
  insn : ∃ insn, m.body[i]? = some insn ∧ insn.node.isPseudo = false ∧
    (block insn).map Insn.node = stores ++ loads.reverse
  others : ∀ j y, m.body[j]? = some y → j ≠ i → block y = []
  frame : ∃ g rest, frames i = some g ∧ g.locals.length = base ∧ g.stack = values ++ rest
  spills : Spills base values stores loads

/-- How many entries are in their slots when some of the stores and loads have been executed. -/
def heldAfter (count k : Nat) : Nat :=
  min k (2 * count - k)

/-- What holds of frames inside the block, when some of its instructions have been executed. -/
structure Refilling (width base : Nat) (values : List Value) (g : Frame) (k : Nat) (x : Frame) : Prop where
  shadow : Shadows True (Value.Within True) width
    (x.gathered (slotsFrom base values (heldAfter values.length k))) g
  clear : k < values.length → x.Clear (slotFrom base values k)

section

variable {m : Method} {frames : Nat → Option Frame} {block : Insn → List Insn} {i base width : Nat}
  {values : List Value} {stores loads : List Node}

/-- The topmost entry in front of a store is the one that the store is for. -/
theorem Refilling.top {g x : Frame} {rest : List Value} {k : Nat} {v : Value}
    (h : Refilling width base values g k x) (stack : g.stack = values ++ rest) (entry : values[k]? = some v) :
    ∃ u us, x.stack = u :: us ∧ u.Within True v := by
  have inside := (List.getElem?_eq_some_iff.mp entry).1
  have held : heldAfter values.length k = k := by unfold heldAfter; omega
  have shadow := h.shadow
  rw [held] at shadow
  have first : (x.gathered (slotsFrom base values k)).stack[k]? = x.stack[0]? := by
    rw [Frame.gathered, List.getElem?_append_right (by simp [slotsFrom])]
    simp [slotsFrom]
  obtain ⟨u, at_top, within⟩ : ∃ u, x.stack[0]? = some u ∧ u.Within True v := by
    rw [← first]
    refine getElem?_of_forall₂ shadow.tracks.stack ?_
    rw [stack, List.getElem?_append_left inside]
    exact entry
  cases lying : x.stack with
  | nil => simp [lying] at at_top
  | cons u' us =>
    rw [lying] at at_top
    cases at_top
    exact ⟨u, us, rfl, within⟩

/-- The next store moves an entry into its slot. -/
theorem Refilling.store {g x : Frame} {rest : List Value} {k : Nat} {v : Value} {y : Insn}
    (spills : Spills base values stores loads) (locals : g.locals.length = base)
    (stack : g.stack = values ++ rest)
    (room : ∀ c v, values[c]? = some v → slotFrom base values c + v.size ≤ width)
    (entry : values[k]? = some v) (node : stores[k]? = some y.node) (h : Refilling width base values g k x)
    (body : Body) (index : Nat) (s : Store) :
    Leads False (x.execute body index y s) fun e => Refilling width base values g (k + 1) e.1 ∧
      Frame.Resembles base (x.gathered (slotsFrom base values (heldAfter values.length k)))
        (e.1.gathered (slotsFrom base values (heldAfter values.length (k + 1)))) := by
  have inside := (List.getElem?_eq_some_iff.mp entry).1
  have held : heldAfter values.length k = k := by unfold heldAfter; omega
  have held' : heldAfter values.length (k + 1) = k + 1 := by unfold heldAfter; omega
  obtain ⟨op, slot, kind, there, access, at_slot, -⟩ := spills.store k v entry
  have node : y.node = .var op slot := Option.some.inj (node.symm.trans there)
  have shadow := h.shadow
  rw [held] at shadow
  have matched := matched_of_gathered (shadow.matched trivial)
  obtain ⟨u, us, top, within⟩ := h.top stack entry
  have size : u.size = v.size := by
    rw [Value.size, Value.size, within.kind_eq (spills.known v (List.mem_of_getElem? entry))]
  have fits := spills.fits k v entry
  have roomy := room k v entry
  have some_ := v.size_pos
  have wide : x.locals.length = width := shadow.width
  obtain ⟨⟨x', t⟩, run⟩ : ∃ r, x.execute body index y s = .ok r :=
    store_succeeds node access top (by rw [at_slot, size, wide]; exact roomy) (by omega) s
  rw [run]
  have below (w : Nat) (member : w ∈ slotsFrom base values k) : w < slot.toNat := by
    obtain ⟨c, earlier, rfl⟩ := List.mem_map.mp member
    have earlier := List.mem_range.mp earlier
    have inside' := Nat.lt_trans earlier inside
    have apart : slotFrom base values c + values[c].size ≤ slotFrom base values k :=
      slotFrom_apart (List.getElem?_eq_getElem inside') earlier
    have := values[c].size_pos
    omega
  have from_base : base ≤ slot.toNat := at_slot ▸ Nat.le_add_right _ _
  obtain ⟨u', us', top', clear, resembles⟩ :=
    gathered_store node access below from_base (by omega) (at_slot ▸ h.clear inside) matched run
  cases top.symm.trans top'
  have good := matched_of_access node matched run
  rw [at_slot, ← slotsFrom_succ] at resembles
  refine ⟨⟨?_, fun _ => ?_⟩, by rw [held, held']; exact resembles⟩
  · rw [held']
    exact shadow.resembles (by rw [locals]; exact resembles) (gathered_matched good)
  · rw [slotFrom_succ entry, ← size, ← at_slot]
    exact clear

/-- The next load brings an entry back. -/
theorem Refilling.load {g x : Frame} {k c : Nat} {v : Value} {y : Insn}
    (spills : Spills base values stores loads) (locals : g.locals.length = base)
    (room : ∀ c v, values[c]? = some v → slotFrom base values c + v.size ≤ width)
    (entry : values[c]? = some v) (node : loads[c]? = some y.node) (last : k + (c + 1) = 2 * values.length)
    (h : Refilling width base values g k x) (body : Body) (index : Nat) (s : Store) :
    Leads False (x.execute body index y s) fun e => Refilling width base values g (k + 1) e.1 ∧
      Frame.Resembles base (x.gathered (slotsFrom base values (heldAfter values.length k)))
        (e.1.gathered (slotsFrom base values (heldAfter values.length (k + 1)))) := by
  have inside := (List.getElem?_eq_some_iff.mp entry).1
  have held : heldAfter values.length k = c + 1 := by unfold heldAfter; omega
  have held' : heldAfter values.length (k + 1) = c := by unfold heldAfter; omega
  obtain ⟨op, slot, kind, there, access, at_slot, -⟩ := spills.load c v entry
  have node : y.node = .var op slot := Option.some.inj (node.symm.trans there)
  have shadow := h.shadow
  rw [held] at shadow
  have matched := matched_of_gathered (shadow.matched trivial)
  have roomy := room c v entry
  have some_ := v.size_pos
  have wide : x.locals.length = width := shadow.width
  have unlimited : x.limit = none := shadow.unlimited
  obtain ⟨⟨x', t⟩, run⟩ : ∃ r, x.execute body index y s = .ok r :=
    load_succeeds node access (by omega) unlimited s
  rw [run]
  have good := matched_of_access node matched run
  have resembles : Frame.Resembles base (x.gathered (slotsFrom base values (c + 1)))
      (x'.gathered (slotsFrom base values c)) := by
    rw [slotsFrom_succ, ← at_slot]
    exact gathered_load node access matched run
  refine ⟨⟨?_, fun early => by omega⟩, by rw [held, held']; exact resembles⟩
  rw [held']
  exact shadow.resembles (by rw [locals]; exact resembles) (gathered_matched good)

/-- **One step of the block.** The next instruction of the block does not fail, and slots and stack together
claim the same behind it. -/
theorem Refills.step (refills : Refills m frames block i base values stores loads)
    (room : ∀ c v, values[c]? = some v → slotFrom base values c + v.size ≤ width) {insn y : Insn}
    {g x : Frame}
    {k : Nat} (there : m.body[i]? = some insn) (inside : (block insn)[k]? = some y) (here : frames i = some g)
    (h : Refilling width base values g k x) (body : Body) (index : Nat) (s : Store) :
    Leads False (x.execute body index y s) fun e => Refilling width base values g (k + 1) e.1 ∧
      Frame.Resembles base (x.gathered (slotsFrom base values (heldAfter values.length k)))
        (e.1.gathered (slotsFrom base values (heldAfter values.length (k + 1)))) := by
  obtain ⟨insn', there', -, nodes⟩ := refills.insn
  cases there.symm.trans there'
  obtain ⟨g', rest, here', locals, stack⟩ := refills.frame
  cases here.symm.trans here'
  have spills := refills.spills
  have node : (stores ++ loads.reverse)[k]? = some y.node := by
    rw [← nodes, List.getElem?_map, inside, Option.map_some]
  rw [List.getElem?_append, spills.counts.1] at node
  split at node
  · next early =>
    exact h.store spills locals stack room (List.getElem?_eq_getElem early) node body index s
  · next late =>
    have few := (List.getElem?_eq_some_iff.mp node).1
    rw [List.length_reverse, spills.counts.2] at few
    rw [List.getElem?_reverse (by rw [spills.counts.2]; exact few), spills.counts.2] at node
    exact h.load spills locals room (List.getElem?_eq_getElem (by omega)) node (by omega) body index s

/-- Two frames inside the block can be joined. -/
theorem Refilling.merge {g x y : Frame} {k : Nat} (h : Refilling width base values g k x)
    (h' : Refilling width base values g k y) (matched : g.Every Value.Matched) (s : Store) :
    Leads False (x.merge y s) fun e => Refilling width base values g k e.1.1 := by
  have height : x.stack.length = y.stack.length := by
    have := h.shadow.tracks.stack.length_eq.trans h'.shadow.tracks.stack.length_eq.symm
    simpa [Frame.gathered] using this
  obtain ⟨⟨⟨joined, changed⟩, t⟩, merged⟩ := frameMerge_of_height height s
  obtain ⟨-, limit, locals, stack⟩ := frameMerge_joins merged
  rw [merged]
  refine ⟨h.shadow.join_of h'.shadow (comparison_within True) (fun _ => matched) locals
    (gathered_joins locals stack) limit, fun early w behind => ?_⟩
  cases found : joined.locals[w]? with
  | none => rfl
  | some v =>
    obtain ⟨old, there, same | ⟨new, s', t', -, merged⟩⟩ := locals.slot w v found
    · have narrow := h.clear early w behind
      rw [there, ← same] at narrow
      exact narrow
    · -- a join takes two words only where both values do
      have narrow := h.clear early w behind
      rw [there, Option.any_some] at narrow
      rw [Option.any_some]
      refine eq_false_of_ne_true fun wide => ?_
      have := wide_of_merge merged wide
      rw [narrow] at this
      cases this

/-- In front of the block a shadow of the frame is refilled from no slot yet. -/
theorem refilling_first {g x : Frame} (h : Shadows True (Value.Within True) width x g)
    (locals : g.locals.length = base) (spills : Spills base values stores loads) :
    Refilling width base values g 0 x where
  shadow := by
    have none_ : heldAfter values.length 0 = 0 := Nat.zero_min _
    rw [none_]
    exact h
  clear := fun some_ k behind => by
    have behind : k + 1 = base := behind
    have small : base + values[0].size ≤ 65535 := spills.fits 0 _ (List.getElem?_eq_getElem some_)
    cases found : x.locals[k]? with
    | none => rfl
    | some u =>
      -- the second word of such a value would lie behind all slots of the old frame
      refine eq_false_of_ne_true fun wide => ?_
      have room := h.tracks.room k u found (by omega) wide
      rw [behind, Nat.mod_eq_of_lt (by omega), locals] at room
      exact Nat.lt_irrefl _ room

/-- Behind the block all entries are back. -/
theorem refilling_last {g x : Frame} :
    Refilling width base values g (2 * values.length) x ↔ Shadows True (Value.Within True) width x g := by
  have none_ : heldAfter values.length (2 * values.length) = 0 := by unfold heldAfter; omega
  refine ⟨fun h => ?_, fun h => ⟨by rw [none_]; exact h, fun early => by omega⟩⟩
  have shadow := h.shadow
  rw [none_] at shadow
  exact shadow

end

end Bytecode.Analysis
