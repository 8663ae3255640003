import Bytecode.Analysis.Inspection
import Bytecode.Proofs.Verification.Reachability
import Bytecode.Proofs.Verification.Visits

/-!
# The slots that instructions occupy

The frames of an analysis have one width, the number of slots that the method works with, and what a
reached instruction accesses lies within that width (`occupied_lt_slotsOf`).

For the first word of a value this is what the simulation checks at every access. For the second word
it is checked when the value is stored only, so that the frames have to be `Roomy`: every value of two
words in a local variable has a slot for its second word.
-/

namespace Bytecode

/-- The local variable slots that a node accesses: for an operand of two words both. -/
def Node.slots : Node → List Nat
  | .var op slot =>
    if op ∈ [Opcode.lload, Opcode.dload, Opcode.lstore, Opcode.dstore] then [slot.toNat, slot.toNat + 1]
    else [slot.toNat]
  | .increment slot _ => [slot.toNat]
  | _ => []

/-- A node needs the slots up to the last one that it accesses. -/
theorem Node.slotsNeeded_of_mem {node : Node} {w : Nat} (member : w ∈ node.slots) (small : w < 65535) :
    w < node.slotsNeeded := by
  cases node with
  | var op slot =>
    simp only [slots, List.mem_cons, List.not_mem_nil, or_false] at member
    simp only [slotsNeeded, Bool.or_eq_true, beq_iff_eq]
    split at member
    · next wide =>
      have wide : ((op = Opcode.lload ∨ op = Opcode.dload) ∨ op = Opcode.lstore) ∨ op = Opcode.dstore := by
        tauto
      rw [if_pos wide]
      simp only [List.mem_cons, List.not_mem_nil, or_false] at member
      omega
    · simp only [List.mem_cons, List.not_mem_nil, or_false] at member
      split <;> omega
  | increment slot amount =>
    simp only [slots, List.mem_cons, List.not_mem_nil, or_false] at member
    simp only [slotsNeeded]
    omega
  | _ => cases member

/-- A body needs what its nodes need. -/
theorem Body.slotsNeeded_of_mem {body : Body} {insn : Insn} (member : insn ∈ body) :
    insn.node.slotsNeeded ≤ body.slotsNeeded := by
  rw [slotsNeeded, ← Array.foldl_toList]
  have grows (insns : List Insn) (n : Nat) :
      n ≤ insns.foldl (fun n insn => max n insn.node.slotsNeeded) n := by
    induction insns generalizing n with
    | nil => exact Nat.le_refl n
    | cons first rest ih => exact Nat.le_trans (Nat.le_max_left _ _) (ih _)
  suffices listed : ∀ (insns : List Insn) (n : Nat), insn ∈ insns →
      insn.node.slotsNeeded ≤ insns.foldl (fun n insn => max n insn.node.slotsNeeded) n from
    listed _ 0 (Array.mem_toList_iff.mpr member)
  intro insns
  induction insns with
  | nil => exact fun _ none => absurd none List.not_mem_nil
  | cons first rest ih =>
    intro n here
    rcases List.mem_cons.mp here with rfl | later
    · exact Nat.le_trans (Nat.le_max_right _ _) (grows rest _)
    · exact ih _ later

namespace Analysis

open Machine (Code codeOf?)
open Tokens (Change Movement fieldMovement movement? storeChange typeMovement)

/-- Only stores move values as stores do. -/
theorem store_of_movement {node : Node} {slot : UInt16} (h : movement? node = some (.store slot)) :
    ∃ op kind, node = .var op slot ∧ SlotAccess.ofOpcode op = .store kind := by
  cases node with
  | var op other =>
    rw [movement?] at h
    cases moved : SlotAccess.ofOpcode op with
    | store kind =>
      rw [moved] at h
      cases h
      exact ⟨op, kind, rfl, moved⟩
    | _ =>
      rw [moved] at h
      cases h
  | simple op =>
    rw [movement?] at h
    cases operation : Operation.ofOpcode op with
    | leave kind =>
      rw [operation] at h
      cases kind <;> cases h
    | _ =>
      rw [operation] at h
      cases h
  | jump op target =>
    rw [movement?] at h
    cases form : JumpForm.ofOpcode op <;> rw [form] at h <;> cases h
  | field op owner name descriptor =>
    rw [movement?, fieldMovement] at h
    split at h
    · cases h
    · split at h
      · cases h
      · split at h <;> cases h
  | type op name =>
    rw [movement?, typeMovement] at h
    split at h
    · cases h
    · split at h
      · cases h
      · split at h <;> cases h
  | call | dynamicCall =>
    obtain ⟨d, -, same⟩ := Option.map_eq_some_iff.mp h
    cases same
  | int op operand =>
    rw [movement?] at h
    split at h <;> cases h
  | _ => cases h

/-! ## Frames with room -/

/-- Every value of two words in a local variable has a slot for its second word. -/
def Frame.Roomy (f : Frame) : Prop :=
  ∀ k v, f.locals[k]? = some v → v.isWide = true → k + 1 < f.locals.length

namespace Frame

variable {f g : Frame} {body : Body} {i : Nat} {insn : Insn} {op : Opcode} {slot : UInt16} {s s' : Store}

/-- A frame that claims less has room too. -/
theorem Roomy.mono (roomy : f.Roomy) (below : f.Le g) : g.Roomy := by
  intro k v found wide
  obtain ⟨u, there, le⟩ := getElem?_of_forall₂ below.locals found
  rcases le.kind with same | unknown
  · rw [← below.locals.length_eq]
    refine roomy k u there ?_
    rwa [Value.isWide, ← same]
  · rw [Value.isWide, unknown] at wide
    cases wide

/-- A store checks both words. -/
theorem store_inside {v : Value} (executed : f.store slot v s = .ok (g, s')) :
    slot.toNat < f.locals.length ∧ (v.isWide = true → (slot + 1).toNat < f.locals.length) := by
  obtain ⟨f₁, s₁, first, executed⟩ := Step.bind_eq_ok executed
  obtain ⟨set, rfl⟩ := Step.liftExcept_eq_ok first
  obtain ⟨inside, rfl⟩ := setLocal_eq_ok set
  refine ⟨inside, fun wide => ?_⟩
  simp only [if_pos wide] at executed
  obtain ⟨e, s₂, -, executed⟩ := Step.bind_eq_ok executed
  obtain ⟨f₂, s₃, second, -⟩ := Step.bind_eq_ok executed
  obtain ⟨set, -⟩ := Step.liftExcept_eq_ok second
  simpa using (setLocal_eq_ok set).1

/-- An access to a local variable lies inside the frame, with both words of the value that it moves. -/
theorem access_inside (roomy : f.Roomy) (short : f.locals.length ≤ 65535)
    (executed : f.execute body i insn s = .ok (g, s')) (access : insn.node = .var op slot) :
    slot.toNat < f.locals.length ∧
      ∀ v ∈ copied f insn.node, v.isWide = true → slot.toNat + 1 < f.locals.length := by
  obtain ⟨id, node⟩ := insn
  obtain rfl : node = .var op slot := access
  unfold execute at executed
  cases moved : SlotAccess.ofOpcode op with
  | load kind =>
    simp only [moved] at executed
    obtain ⟨v, s₁, loading, -⟩ := Step.bind_eq_ok executed
    have found := getLocal_eq_ok (Step.liftExcept_eq_ok loading).1
    refine ⟨(List.getElem?_eq_some_iff.mp found).1, fun u member wide => ?_⟩
    simp only [copied, moved, found, Option.toList_some, List.mem_singleton] at member
    exact roomy _ u (member ▸ found) wide
  | store kind =>
    simp only [moved] at executed
    obtain ⟨⟨v, f₁⟩, s₁, popping, executed⟩ := Step.bind_eq_ok executed
    obtain ⟨stack, rest⟩ := pop_eq_ok (Step.liftExcept_eq_ok popping).1
    obtain ⟨u, s₂, copying, executed⟩ := Step.bind_eq_ok executed
    obtain ⟨inside, second⟩ := store_inside executed
    have same : f₁.locals = f.locals := by rw [rest]
    rw [same] at inside second
    refine ⟨inside, fun v' member wide => ?_⟩
    simp only [copied, moved, stack, List.head?_cons, Option.toList_some, List.mem_singleton] at member
    have kind := (copies_copy (Nat.zero_le _) (Step.lift_eq_ok copying)).1
    have second := second (by rw [Value.isWide, kind, ← member]; exact wide)
    rw [UInt16.toNat_add] at second
    have one : (1 : UInt16).toNat = 1 := rfl
    omega
  | other =>
    simp only [moved] at executed
    cases executed

/-- An increment lies inside the frame. -/
theorem increment_inside {amount : Int16} (executed : f.execute body i insn s = .ok (g, s'))
    (access : insn.node = .increment slot amount) : slot.toNat < f.locals.length := by
  obtain ⟨id, node⟩ := insn
  obtain rfl : node = .increment slot amount := access
  obtain ⟨v, s₁, loading, -⟩ := Step.bind_eq_ok executed
  exact (List.getElem?_eq_some_iff.mp (getLocal_eq_ok (Step.liftExcept_eq_ok loading).1)).1

/-- A call leaves the local variables as they are. -/
theorem applyCall_locals {count : Nat} (executed : f.applyCall insn count s = .ok (g, s')) :
    g.locals = f.locals := by
  obtain ⟨⟨taken, f₁⟩, s₁, popping, executed⟩ := Step.bind_eq_ok executed
  obtain ⟨-, -, rfl⟩ := popMany_eq_ok (Step.liftExcept_eq_ok popping).1
  obtain ⟨o, s₂, -, executed⟩ := Step.bind_eq_ok executed
  rw [push?_eq_ok (Step.liftExcept_eq_ok executed).1]

/-- Only a store fills a local variable with a value of two words, with one of the kind that it takes. -/
theorem wide_of_filled {m : Movement} {node : Node} {k : Nat} {kind : Kind}
    (movement : movement? node = some m) (filled : m.change f.slotKind f.kinds k = .filled kind)
    (wide : kind.isWide = true) :
    ∃ op slot, node = .var op slot ∧ k = slot.toNat ∧ ∃ v ∈ copied f node, v.kind = kind := by
  cases m with
  | store slot =>
    obtain ⟨op, kind', rfl, moved⟩ := store_of_movement movement
    refine ⟨op, slot, rfl, ?_⟩
    cases stack : f.stack with
    | nil =>
      rw [Movement.change, kinds, stack] at filled
      cases filled
    | cons v rest =>
      rw [Movement.change, kinds, stack] at filled
      simp only [List.map_cons, List.head?_cons, Option.elim_some, storeChange] at filled
      split at filled
      · next here =>
        cases filled
        exact ⟨here, v, by simp [copied, moved, stack], rfl⟩
      · split at filled
        · cases filled
        · split at filled <;> cases filled
  | increment slot =>
    rw [Movement.change] at filled
    split at filled
    · cases filled
      cases wide
    · cases filled
  | _ => cases filled

/-- Behind an instruction there are as many slots as before it, and there is room again. -/
theorem execute_roomy (roomy : f.Roomy) (short : f.locals.length ≤ 65535)
    (executed : f.execute body i insn s = .ok (g, s')) :
    g.Roomy ∧ g.locals.length = f.locals.length := by
  have called (descriptor : String) (receiver : Nat)
      (executed : (do f.applyCall insn ((← argumentCount descriptor) + receiver) : Step Frame) s =
        .ok (g, s')) :
      g.Roomy ∧ g.locals.length = f.locals.length := by
    obtain ⟨count, s₁, -, executed⟩ := Step.bind_eq_ok executed
    have same := applyCall_locals executed
    refine ⟨?_, congrArg List.length same⟩
    rw [Roomy, same]
    exact roomy
  have moved (plain : PlainReturn insn.node) : g.Roomy ∧ g.locals.length = f.locals.length := by
    obtain ⟨m, x, moves⟩ := moves_of_execute plain executed
    refine ⟨fun k v found wide => ?_, moves.width⟩
    rw [moves.width]
    have remains := moves.locals k v found
    have movement := moves.movement
    cases change : m.change f.slotKind f.kinds k with
    | kept =>
      rw [change] at remains
      exact roomy k v remains wide
    | emptied =>
      rw [change] at remains
      rw [Value.isWide, show v.kind = .uninitialized from remains] at wide
      cases wide
    | filled kind =>
      rw [change] at remains
      obtain ⟨rfl, -⟩ : v.kind = kind ∧ _ := remains
      obtain ⟨op, slot, access, rfl, u, top, same⟩ := wide_of_filled moves.movement change wide
      exact (access_inside roomy short executed access).2 u top (by rwa [Value.isWide, same])
  obtain ⟨id, node⟩ := insn
  cases node with
  | call op owner name descriptor isInterface => exact called descriptor _ executed
  | dynamicCall name descriptor bootstrap arguments => exact called descriptor 0 executed
  | _ => exact moved fun _ _ described => by cases described

end Frame

/-! ## The frames of a method -/

theorem length_entryKinds {text : String} {d : MethodDescriptor}
    (parsed : MethodDescriptor.parse text = .ok d) (isStatic : Bool) :
    (entryKinds isStatic d.arguments).length = d.words isStatic := by
  have passed (types : List Descriptor) (known : ∀ type ∈ types, (Kind.ofDescriptor type).isSome) :
      (entryKinds true types).length = total Descriptor.size types := by
    induction types with
    | nil => rfl
    | cons type types ih =>
      obtain ⟨first, rest⟩ := List.forall_mem_cons.mp known
      have one : (entryKinds true (type :: types)).length =
          (entryKinds true [type]).length + (entryKinds true types).length := by
        simp [entryKinds]
      rw [one, ih rest, total_cons]
      congr 1
      cases type <;> first | rfl | cases first
  have arguments := passed d.arguments fun _ member => MethodDescriptor.kind_of_argument parsed member
  cases isStatic with
  | true => simpa [MethodDescriptor.words] using arguments
  | false =>
    have receiver : (entryKinds false d.arguments).length = 1 + (entryKinds true d.arguments).length := by
      simp [entryKinds, Nat.add_comm]
    rw [receiver, arguments]
    rfl

/-- Behind an argument of two words the next slot is empty. -/
theorem second_of_entryKinds {isStatic : Bool} {arguments : List Descriptor} {k : Nat} {kind : Kind}
    (found : (entryKinds isStatic arguments)[k]? = some kind) (wide : kind.isWide = true) :
    (entryKinds isStatic arguments)[k + 1]? = some .uninitialized := by
  have single (type : Descriptor) (k : Nat) (found : (entryKinds true [type])[k]? = some kind) :
      (entryKinds true [type])[k + 1]? = some .uninitialized := by
    cases type with
    | long | double =>
      rcases k with _ | _ | k
      · rfl
      · cases found
        cases wide
      · cases found
    | _ =>
      rcases k with _ | k
      · cases found
        cases wide
      · cases found
  have passed (types : List Descriptor) (k : Nat) (found : (entryKinds true types)[k]? = some kind) :
      (entryKinds true types)[k + 1]? = some .uninitialized := by
    induction types generalizing k with
    | nil => cases found
    | cons type types ih =>
      have parts : entryKinds true (type :: types) = entryKinds true [type] ++ entryKinds true types := by
        simp [entryKinds]
      rw [parts, List.getElem?_append] at found
      rw [parts]
      split at found
      · have second := single type k found
        rwa [List.getElem?_append_left (List.getElem?_eq_some_iff.mp second).1]
      · next behind =>
        have second := ih _ found
        rwa [List.getElem?_append_right (by omega), Nat.sub_add_comm (Nat.le_of_not_lt behind)]
  cases isStatic with
  | true => exact passed arguments k found
  | false =>
    have receiver : entryKinds false arguments = .reference :: entryKinds true arguments := by
      simp [entryKinds]
    rw [receiver] at found ⊢
    cases k with
    | zero =>
      cases found
      cases wide
    | succ k => exact passed arguments k found

/-- The arguments of a method have room for their second words. -/
theorem room_of_entryKinds {isStatic : Bool} {arguments : List Descriptor} {k : Nat} {kind : Kind}
    (found : (entryKinds isStatic arguments)[k]? = some kind) (wide : kind.isWide = true) :
    k + 1 < (entryKinds isStatic arguments).length :=
  (List.getElem?_eq_some_iff.mp (second_of_entryKinds found wide)).1

section

variable {owner : String} {m : Method} {r : Frames} {d : MethodDescriptor} {i : Nat} {f : Frame}

/-- The slots of a method can be counted with 16 bits. -/
theorem slotsOf_le (m : Method) (d : MethodDescriptor) : slotsOf m d ≤ 65535 := by
  have := m.maxLocals.toNat_lt
  have := (d.slots m.isStatic).toNat_lt
  have := m.body.slotsNeeded_le
  rw [slotsOf]
  split <;> omega

/-- The kinds in the slots at the entry of a method. -/
theorem kinds_entryOf (owner : String) (m : Method) (d : MethodDescriptor) :
    (entryOf owner m d).1.locals.map Value.kind = entryKinds m.isStatic d.arguments ++
      List.replicate (slotsOf m d - (entryKinds m.isStatic d.arguments).length) .uninitialized := by
  obtain ⟨made, -, -, unknown⟩ := entryOf_records True owner m d
  exact unknown.2

/-- At the entry of a method there is room. -/
theorem roomy_entryOf (owner : String) (m : Method) (d : MethodDescriptor) :
    (entryOf owner m d).1.Roomy := by
  intro k v found wide
  have kinds := kinds_entryOf owner m d
  have kind : ((entryOf owner m d).1.locals.map Value.kind)[k]? = some v.kind := by
    rw [List.getElem?_map, found, Option.map_some]
  rw [← List.length_map Value.kind, kinds, List.length_append]
  rw [kinds, List.getElem?_append] at kind
  split at kind
  · exact Nat.lt_add_right _ (room_of_entryKinds kind wide)
  · rw [Value.isWide, List.eq_of_mem_replicate (List.mem_of_getElem? kind)] at wide
    cases wide

/-- All frames have the slots of the method, and room for second words. -/
theorem frameAt_roomy (analyzed : analyze owner m = .ok r)
    (parsed : MethodDescriptor.parse m.descriptor = .ok d) (short : d.words m.isStatic ≤ 65535)
    (here : r.frameAt i = some f) : f.Roomy ∧ f.locals.length = slotsOf m d := by
  obtain ⟨code, found, reached⟩ := (frameAt_iff_reached analyzed i).mp (by rw [here]; rfl)
  have nonempty : 0 < m.body.size := by
    by_contra empty
    exact m.not_reaches_of_isEmpty (by simpa using empty) i ⟨code, found, reached⟩
  obtain ⟨d', ranges, made, fuel, flow, parsed', covered, closed, valid, run, done, frames, -⟩ :=
    loop_of_analyze analyzed nonempty fun _ _ _ => True.intro
  obtain rfl : d = d' := Except.ok.inj (parsed.symm.trans parsed')
  obtain ⟨made', valid'⟩ := Flow.run_valid closed valid run
  have entered : (entryOf owner m d).1.locals.length = slotsOf m d := by
    have kinds := congrArg List.length (kinds_entryOf owner m d)
    have counted : (d.slots m.isStatic).toNat ≤ slotsOf m d := Nat.le_max_right _ _
    rw [MethodDescriptor.slots, UInt16.toNat_ofNat_of_lt' (by simpa [UInt16.size] using Nat.lt_succ_of_le short)]
      at counted
    rw [List.length_map, List.length_append, List.length_replicate, length_entryKinds parsed] at kinds
    omega
  have width (i : Nat) (f : Frame) (here : r.frameAt i = some f) : f.locals.length = slotsOf m d :=
    (valid'.sound.width i f (frames ▸ here)).trans entered
  refine ⟨frameAt_inherits analyzed parsed (fun roomy below => roomy.mono below) (roomy_entryOf owner m d) ?_
    (fun roomy => roomy) here, width i f here⟩
  intro j insn f g s s' _ here roomy executed
  exact (Frame.execute_roomy roomy (width j f here ▸ slotsOf_le m d) executed).1

/-- What a reached instruction accesses is a slot of the method. The second word of an operand of two words
is one if the value in it has two words, and if the method does not tell its slots itself. -/
theorem occupied_lt_slotsOf {insn : Insn} {w : Nat} (analyzed : analyze owner m = .ok r)
    (parsed : MethodDescriptor.parse m.descriptor = .ok d) (short : d.words m.isStatic ≤ 65535)
    (at_position : m.body[i]? = some insn) (here : r.frameAt i = some f) (member : w ∈ insn.node.slots)
    (small : w < 65535) (counted : insn.node.slots.head? = some w ∨ m.maxStack = none ∨
      ∃ v ∈ copied f insn.node, v.isWide = true) : w < slotsOf m d := by
  obtain ⟨roomy, width⟩ := frameAt_roomy analyzed parsed short here
  have limit := width ▸ slotsOf_le m d
  obtain ⟨s, g, s', executed⟩ : ∃ s g s', f.execute m.body i insn s = .ok (g, s') := by
    have nonempty : 0 < m.body.size := Nat.lt_of_le_of_lt (Nat.zero_le i) (Array.getElem?_eq_some_iff.mp at_position).1
    have any : ∀ insn ∈ m.body, insn.node = .type Opcode.new builderClass → True := fun _ _ _ => trivial
    obtain ⟨d', ranges, made, entry, count, -, -, -, -, fixpoint⟩ := postFixpoint_of_analyze analyzed nonempty any
    obtain @⟨insn', _, s, after, s', _, at_position', -, -, executed, -, -, -, -⟩ := fixpoint.settled i f here
    obtain rfl : insn = insn' := Option.some.inj (at_position.symm.trans at_position')
    exact ⟨s, after, s', executed⟩
  rw [← width]
  rcases counted with first | undeclared | ⟨v, moved, wide⟩
  · obtain ⟨id, node⟩ := insn
    cases node with
    | var op slot =>
      obtain ⟨inside, -⟩ := Frame.access_inside roomy limit executed rfl
      have same : slot.toNat = w := by
        simp only [Node.slots] at first
        split at first <;> exact Option.some.inj first
      exact same ▸ inside
    | increment slot amount =>
      obtain rfl : slot.toNat = w := Option.some.inj first
      exact Frame.increment_inside executed rfl
    | _ => cases first
  · have needed := Nat.lt_of_lt_of_le (Node.slotsNeeded_of_mem member small)
      (Body.slotsNeeded_of_mem (Array.mem_of_getElem? at_position))
    rw [width, slotsOf, undeclared]
    exact Nat.lt_of_lt_of_le needed (Nat.le_max_left _ _)
  · obtain ⟨id, node⟩ := insn
    cases node with
    | var op slot =>
      obtain ⟨-, both⟩ := Frame.access_inside roomy limit executed rfl
      have inside := both v moved wide
      have near : w ≤ slot.toNat + 1 := by
        simp only [Node.slots] at member
        split at member <;> simp at member <;> omega
      omega
    | increment => cases moved
    | _ => cases member

/-- The number of slots that an analysis reports. -/
theorem maxLocals_of_analyze (analyzed : analyze owner m = .ok r)
    (parsed : MethodDescriptor.parse m.descriptor = .ok d) : r.maxLocals = slotsOf m d := by
  obtain ⟨d', flow, parsed', rfl⟩ := exists_result analyzed
  obtain rfl : d = d' := Except.ok.inj (parsed.symm.trans parsed')
  rfl

/-- Slots from the number of slots of the method on are free everywhere in it. -/
theorem nextFreeLocal_eq_slotsOf (analyzed : analyze owner m = .ok r)
    (parsed : MethodDescriptor.parse m.descriptor = .ok d) (short : d.words m.isStatic ≤ 65535)
    (id : InsnId) : Inspection.nextFreeLocal ⟨owner, m, r⟩ id = slotsOf m d := by
  rw [Inspection.nextFreeLocal]
  cases here : r.frame id with
  | none =>
    exact maxLocals_of_analyze analyzed parsed
  | some f =>
    obtain ⟨i, -, here⟩ := Option.bind_eq_some_iff.mp here
    rw [Option.elim_some, (frameAt_roomy analyzed parsed short here).2]
    exact Nat.min_eq_left (slotsOf_le m d)

end

end Analysis

end Bytecode
