import Bytecode.Proofs.Analysis.Occupancy
import Bytecode.Proofs.Inlining.Leaves
import Bytecode.Proofs.Machine.Run

/-!
# Blocks live in slots of their own

The block in the place of a call keeps everything behind the slots of the caller: first the returned
value, then the receiver, the arguments and the variables of the callee (`Housed`). What a reached node
of the caller accesses lies before them, and the nodes that are not replaced stay as they are
(`inlineAll_houses`).

The sums that place a block have 16 bits and wrap around (`inlineMethod_wrapped`). That no sum does so
follows from the method at the end: every slot that begins a block, the last one apart, is accessed in
it, so that all sums fit if the method makes do with 65535 slots.
-/

namespace Bytecode

/-- Whether a node returns from its method. -/
def Node.isReturn : Node → Bool
  | .simple op => op.isReturn
  | _ => false

/-- A method makes do with 65535 local variable slots. -/
structure Method.SlotsFit (m : Method) : Prop where
  arguments : ∀ d, MethodDescriptor.parse m.descriptor = .ok d → d.words m.isStatic ≤ 65535
  body : ∀ insn ∈ m.body, ∀ w ∈ insn.node.slots, w < 65535

namespace Inlining

open Analysis (Frames Inspection analyze copied exists_of_mem_right slotsOf)

/-! ## The slots of a block -/

/-- What the nodes of a block access. The stores in front, one for the receiver and for each argument, fill
slots behind those of the returned value, and so does what becomes of a node of the callee unless that
returns; a return and the load at the end use the slots of the returned value. -/
def Housed (site : CallSite) (free : Nat) (callee : List Node) (block : List Node) : Prop :=
  ∃ d stores body exit result, MethodDescriptor.parse site.descriptor = .ok d ∧
    block = stores ++ List.flatten body ++ exit ++ result ∧
    stores.length = d.arguments.length + (if site.hasReceiver then 1 else 0) ∧
    (∀ node ∈ stores, ∀ w ∈ node.slots, free + d.returnType.size ≤ w) ∧
    List.Forall₂ (fun (node : Node) nodes => ∀ moved ∈ nodes, ∀ w ∈ moved.slots,
      if node.isReturn then free ≤ w ∧ w < free + d.returnType.size else free + d.returnType.size ≤ w)
      callee body ∧
    (∀ node ∈ exit, node.slots = []) ∧
    ∀ node ∈ result, ∀ w ∈ node.slots, free ≤ w ∧ w < free + d.returnType.size

/-- Nothing in a block accesses a slot before the first free one. -/
theorem Housed.le {site : CallSite} {free : Nat} {callee block : List Node}
    (h : Housed site free callee block) : ∀ node ∈ block, ∀ w ∈ node.slots, free ≤ w := by
  obtain ⟨d, stores, body, exit, result, -, rfl, -, stored, moved, left, loaded⟩ := h
  intro node member w accessed
  rcases List.mem_append.mp member with member | last
  · rcases List.mem_append.mp member with member | middle
    · rcases List.mem_append.mp member with first | inside
      · have := stored node first w accessed
        omega
      · obtain ⟨nodes, there, here⟩ := List.mem_flatten.mp inside
        obtain ⟨origin, -, away⟩ := exists_of_mem_right moved there
        have := away node here w accessed
        split at this <;> omega
    · rw [left node middle] at accessed
      cases accessed
  · exact (loaded node last w accessed).1

theorem mem_slots_storeOpcode {type : Descriptor} (value : type ≠ .void) {slot : UInt16} {w : Nat} :
    w ∈ (Node.var type.storeOpcode slot).slots ↔ slot.toNat ≤ w ∧ w < slot.toNat + type.size := by
  cases type with
  | void => exact absurd rfl value
  | long | double =>
    show w ∈ [slot.toNat, slot.toNat + 1] ↔ _ ∧ _ < slot.toNat + 2
    simp only [List.mem_cons, List.not_mem_nil, or_false]
    omega
  | _ =>
    show w ∈ [slot.toNat] ↔ _ ∧ _ < slot.toNat + 1
    rw [List.mem_singleton]
    omega

theorem mem_slots_loadOpcode {type : Descriptor} (value : type ≠ .void) {slot : UInt16} {w : Nat} :
    w ∈ (Node.var type.loadOpcode slot).slots ↔ slot.toNat ≤ w ∧ w < slot.toNat + type.size := by
  cases type with
  | void => exact absurd rfl value
  | long | double =>
    show w ∈ [slot.toNat, slot.toNat + 1] ↔ _ ∧ _ < slot.toNat + 2
    simp only [List.mem_cons, List.not_mem_nil, or_false]
    omega
  | _ =>
    show w ∈ [slot.toNat] ↔ _ ∧ _ < slot.toNat + 1
    rw [List.mem_singleton]
    omega

namespace Layout

variable {l : Layout}

/-- The stores of arguments fill the slots from the first one on. -/
theorem le_of_mem_argumentStores {arguments : List Descriptor} {slot : UInt16} {low : Nat}
    (values : ∀ type ∈ arguments, type ≠ .void)
    (fits : ∀ node ∈ argumentStores slot arguments, ∀ w ∈ node.slots, w < 65535)
    (above : low ≤ slot.toNat) : ∀ node ∈ argumentStores slot arguments, ∀ w ∈ node.slots, low ≤ w := by
  induction arguments generalizing slot with
  | nil => exact nofun
  | cons type arguments ih =>
    obtain ⟨value, values⟩ := List.forall_mem_cons.mp values
    obtain ⟨first, fits⟩ := List.forall_mem_cons.mp fits
    refine List.forall_mem_cons.mpr ⟨fun w accessed => ?_, ih values fits ?_⟩
    · exact Nat.le_trans above ((mem_slots_storeOpcode value).mp accessed).1
    · have size : 0 < type.size ∧ type.size ≤ 2 := by
        cases type with
        | void => exact absurd rfl value
        | _ => exact ⟨Nat.succ_pos _, by simp [Descriptor.size]⟩
      have last := first (slot.toNat + type.size - 1)
        ((mem_slots_storeOpcode value).mpr ⟨by omega, by omega⟩)
      rw [UInt16.toNat_add, UInt16.toNat_ofNat_of_lt' (by simp [UInt16.size]; omega)]
      omega

/-- The returned value is kept in its slots. -/
theorem slots_storeResult : ∀ part ∈ l.storeResult, ∀ w ∈ part.node.slots,
    l.returnSlot.toNat ≤ w ∧ w < l.returnSlot.toNat + l.returnType.size := by
  unfold storeResult
  split
  · exact nofun
  · next value =>
    intro part member w accessed
    rw [List.mem_singleton.mp member] at accessed
    exact (mem_slots_storeOpcode value).mp accessed

theorem slots_loadResult : ∀ part ∈ l.loadResult, ∀ w ∈ part.node.slots,
    l.returnSlot.toNat ≤ w ∧ w < l.returnSlot.toNat + l.returnType.size := by
  unfold loadResult
  split
  · exact nofun
  · next value =>
    intro part member w accessed
    rw [List.mem_singleton.mp member] at accessed
    exact (mem_slots_loadOpcode value).mp accessed

/-- The slots of the callee begin behind those of the returned value. -/
theorem toNat_offset (fits : ∀ part ∈ l.loadResult, ∀ w ∈ part.node.slots, w < 65535) :
    l.offset.toNat = l.returnSlot.toNat + l.returnType.size := by
  rw [offset]
  by_cases value : l.returnType = .void
  · rw [value]
    exact congrArg UInt16.toNat (UInt16.add_zero _)
  · have size : 0 < l.returnType.size ∧ l.returnType.size ≤ 2 := by
      cases type : l.returnType with
      | void => exact absurd type value
      | _ => exact ⟨Nat.succ_pos _, by simp [Descriptor.size]⟩
    have last := fits (.new (.var l.returnType.loadOpcode l.returnSlot))
      (by rw [loadResult, if_neg value]; exact List.mem_singleton_self _)
      (l.returnSlot.toNat + l.returnType.size - 1)
      ((mem_slots_loadOpcode value).mpr ⟨by omega, by omega⟩)
    rw [UInt16.toNat_add, UInt16.toNat_ofNat_of_lt' (by simp [UInt16.size]; omega)]
    omega

/-- The receiver and the arguments are stored from the offset on. -/
theorem le_of_mem_entry {hasReceiver : Bool} {arguments : List Descriptor}
    (values : ∀ type ∈ arguments, type ≠ .void)
    (fits : ∀ part ∈ l.entry hasReceiver arguments, ∀ w ∈ part.node.slots, w < 65535) :
    ∀ part ∈ l.entry hasReceiver arguments, ∀ w ∈ part.node.slots, l.offset.toNat ≤ w := by
  have stores (first : UInt16) (above : l.offset.toNat ≤ first.toNat)
      (fits : ∀ part ∈ (argumentStores first arguments).reverse.map Part.new,
        ∀ w ∈ part.node.slots, w < 65535) :
      ∀ part ∈ (argumentStores first arguments).reverse.map Part.new,
        ∀ w ∈ part.node.slots, l.offset.toNat ≤ w := by
    rintro part member w accessed
    obtain ⟨node, inside, rfl⟩ := List.mem_map.mp member
    refine le_of_mem_argumentStores values (fun node inside => ?_) above node (List.mem_reverse.mp inside)
      w accessed
    exact fits (.new node) (List.mem_map_of_mem (List.mem_reverse.mpr inside))
  cases hasReceiver with
  | false =>
    have entry_ : l.entry false arguments = (argumentStores l.offset arguments).reverse.map Part.new := by
      simp [entry]
    rw [entry_] at fits ⊢
    exact stores _ (Nat.le_refl _) fits
  | true =>
    have entry_ : l.entry true arguments = (argumentStores (l.offset + 1) arguments).reverse.map Part.new ++
        [Part.new (.var Opcode.astore l.offset)] := by
      simp [entry]
    rw [entry_] at fits ⊢
    have receiver : l.offset.toNat < 65535 :=
      fits _ (List.mem_append_right _ (List.mem_singleton_self _)) _ (List.mem_singleton_self _)
    intro part member w accessed
    rcases List.mem_append.mp member with stored | last
    · refine stores _ ?_ (fun part member => fits part (List.mem_append_left _ member)) part stored w accessed
      have one : (1 : UInt16).toNat = 1 := rfl
      rw [UInt16.toNat_add, one]
      omega
    · rw [List.mem_singleton.mp last] at accessed
      exact Nat.le_of_eq (List.mem_singleton.mp accessed).symm

theorem length_entry (l : Layout) (hasReceiver : Bool) (arguments : List Descriptor) :
    (l.entry hasReceiver arguments).length = arguments.length + (if hasReceiver then 1 else 0) := by
  have stores (slot : UInt16) : (argumentStores slot arguments).length = arguments.length := by
    induction arguments generalizing slot with
    | nil => rfl
    | cons type arguments ih => exact congrArg (· + 1) (ih _)
  cases hasReceiver <;> simp [entry, stores]

/-- A slot of the callee goes as far behind the offset as it is behind the first slot. -/
theorem toNat_relocate {slot moved : UInt16} (h : l.relocate slot = .ok moved) :
    moved.toNat = slot.toNat + l.offset.toNat := by
  unfold relocate at h
  split at h
  · next inside =>
    cases h
    rw [UInt16.toNat_add]
    exact Nat.mod_eq_of_lt (by simpa [UInt16.size] using inside)
  · cases h

/-- What becomes of a node of the callee uses the slots of the returned value if it returns, and slots from
the offset on if not. -/
theorem slots_part {isLast : Bool} {insn : Insn} {parts : List Part} (h : l.part isLast insn = .ok parts) :
    ∀ part ∈ parts, ∀ w ∈ part.node.slots,
      if insn.node.isReturn then
        l.returnSlot.toNat ≤ w ∧ w < l.returnSlot.toNat + l.returnType.size
      else l.offset.toNat ≤ w := by
  obtain ⟨id, node⟩ := insn
  cases node with
  | simple op =>
    have h : (if op.isReturn then _ else _) = Except.ok parts := h
    by_cases returns : op.isReturn = true
    · rw [if_pos returns] at h
      cases h
      intro part member w accessed
      dsimp only
      rw [if_pos (show (Node.simple op).isReturn = true from returns)]
      rcases List.mem_append.mp member with stored | jump
      · exact slots_storeResult part stored w accessed
      · split at jump
        · cases jump
        · rw [List.mem_singleton.mp jump] at accessed
          cases accessed
    · rw [if_neg returns] at h
      cases h
      intro part member w accessed
      rw [List.mem_singleton.mp member] at accessed
      cases accessed
  | var op slot =>
    obtain ⟨moved, relocated, same⟩ := ok_of_bind h
    cases same
    intro part member w accessed
    rw [List.mem_singleton.mp member] at accessed
    have from_ : moved.toNat ≤ w := by
      simp only [Part.node, Node.slots] at accessed
      split at accessed <;> simp at accessed <;> omega
    have := toNat_relocate relocated
    exact Nat.le_trans (by omega) from_
  | increment slot amount =>
    obtain ⟨moved, relocated, same⟩ := ok_of_bind h
    cases same
    intro part member w accessed
    rw [List.mem_singleton.mp member] at accessed
    have := toNat_relocate relocated
    have here : w = moved.toNat := List.mem_singleton.mp accessed
    show l.offset.toNat ≤ w
    omega
  | line =>
    cases h
    exact List.forall_mem_nil _
  | _ =>
    cases h
    intro part member w accessed
    rw [List.mem_singleton.mp member] at accessed
    cases accessed

/-- The parts of a body are what becomes of its nodes, one after the other. -/
theorem parts_eq_ok {insns : List Insn} {parts : List Part} (h : l.parts insns = .ok parts) :
    ∃ groups : List (List Part), parts = groups.flatten ∧
      List.Forall₂ (fun insn group => ∃ isLast, l.part isLast insn = .ok group) insns groups := by
  induction insns generalizing parts with
  | nil =>
    cases h
    exact ⟨[], rfl, .nil⟩
  | cons insn rest ih =>
    obtain ⟨first, moved, h⟩ := ok_of_bind h
    obtain ⟨others, behind, h⟩ := ok_of_bind h
    cases h
    obtain ⟨groups, rfl, each⟩ := ih behind
    exact ⟨first :: groups, rfl, .cons ⟨_, moved⟩ each⟩

end Layout

/-- The block of a splice keeps everything behind the slots of the caller. -/
theorem splice_houses {site : CallSite} {slot : UInt16} {callee : Method} {s : Splice}
    {supply supply' : Supply} (run : (splice site slot callee).run supply = .ok (s, supply'))
    (fits : ∀ insn ∈ s.block, ∀ w ∈ insn.node.slots, w < 65535) :
    Housed site slot.toNat (callee.body.toList.map Insn.node) (s.block.map Insn.node) := by
  obtain ⟨d, body, parsed, moved, nodes, -, -⟩ := splice_eq_ok run
  dsimp only at moved nodes
  generalize layout : (⟨d.returnType, slot, (Fresh.labelId.run supply).1⟩ : Layout) = l at moved nodes
  have returned : l.returnType = d.returnType := by rw [← layout]
  have first : l.returnSlot = slot := by rw [← layout]
  rw [show (Fresh.labelId.run supply).1 = l.exit by rw [← layout]] at nodes
  have fits {part : Part} (member : part ∈ l.entry site.hasReceiver d.arguments ++ body ++
      (if returnsEarly callee.body then [Part.new (.label l.exit)] else []) ++ l.loadResult) :
      ∀ w ∈ part.node.slots, w < 65535 := by
    have there := List.mem_map_of_mem (f := Part.node) member
    rw [← nodes] at there
    obtain ⟨insn, inside, same⟩ := List.mem_map.mp there
    rw [← same]
    exact fits insn inside
  have offset : l.offset.toNat = slot.toNat + d.returnType.size := by
    rw [l.toNat_offset fun part member => fits (List.mem_append_right _ member), first, returned]
  obtain ⟨groups, rfl, each⟩ := l.parts_eq_ok moved
  refine ⟨d, (l.entry site.hasReceiver d.arguments).map Part.node, groups.map (List.map Part.node),
    (if returnsEarly callee.body then [Part.new (.label l.exit)] else []).map Part.node,
    l.loadResult.map Part.node, parsed, by rw [nodes]; simp, by rw [List.length_map, l.length_entry], ?_, ?_,
    ?_, ?_⟩
  · rintro node member w accessed
    obtain ⟨part, inside, rfl⟩ := List.mem_map.mp member
    rw [← offset]
    exact Layout.le_of_mem_entry (MethodDescriptor.chars_of_parse parsed).2
      (fun part member => fits (List.mem_append_left _ (List.mem_append_left _ (List.mem_append_left _ member))))
      part inside w accessed
  · rw [List.forall₂_map_left_iff, List.forall₂_map_right_iff]
    refine each.imp fun insn group ⟨isLast, became⟩ node member w accessed => ?_
    obtain ⟨part, inside, rfl⟩ := List.mem_map.mp member
    have away := Layout.slots_part became part inside w accessed
    rwa [offset, first, returned] at away
  · rintro node member
    obtain ⟨part, inside, rfl⟩ := List.mem_map.mp member
    split at inside
    · rw [List.mem_singleton.mp inside]
      rfl
    · cases inside
  · rintro node member w accessed
    obtain ⟨part, inside, rfl⟩ := List.mem_map.mp member
    have kept := Layout.slots_loadResult part inside w accessed
    rwa [first, returned] at kept

/-! ## The method around the blocks -/

/-- A slot that a node accesses at a position that control reaches. The second word of an operand of two words
counts if the value in it has two words, and if the method does not tell its slots itself. -/
def Occupied (m : Method) (frames : Frames) (i w : Nat) : Prop :=
  ∃ insn f, m.body[i]? = some insn ∧ frames.frameAt i = some f ∧ w ∈ insn.node.slots ∧
    (insn.node.slots.head? = some w ∨ m.maxStack = none ∨ ∃ v ∈ copied f insn.node, v.isWide = true)

/-- What inlining makes of a method: nothing, or a method in which blocks that begin behind all occupied slots
stand in the places of calls, and all other nodes stand as they did. -/
inductive Houses (owner : String) (m : Method) : Method → Prop
  | same : Houses owner m m
  | replaced {m' : Method} {frames : Frames} {blocks : List (Option Splice)} {free : Nat}
      (analyzed : analyze owner m = .ok frames) (length : blocks.length = m.body.size)
      (body : m'.body.toList = splicedBody m.body.toList blocks)
      (unoccupied : ∀ i w, Occupied m frames i w → w < free)
      (houses : ∀ (i : Nat) insn s, m.body[i]? = some insn → blocks[i]? = some (some s) →
        Inspection.nextFreeLocal ⟨owner, m, frames⟩ insn.id = free ∧
        ∃ site callee, CallSite.ofNode? insn.node = some site ∧
          Housed site free callee (s.block.map Insn.node)) : Houses owner m m'

variable {policy : TrustPolicy} {p : ClassPath} {P : TargetKey → Method → Prop} {a : Inspection} {n n' i : Nat}
  {insn : Insn} {insns : List Insn} {o : Option Splice} {os : List (Option Splice)} {owner : String}
  {m m' : Method}

/-- What takes the place of a node is part of the body. -/
theorem mem_splicedBody_of_mem {x : Insn} (there : insns[i]? = some insn) (here : os[i]? = some o)
    (member : x ∈ spliced insn o) : x ∈ splicedBody insns os := by
  refine List.mem_flatten.mpr ⟨spliced insn o, List.mem_of_getElem? (i := i) ?_, member⟩
  rw [List.getElem?_zipWith, there, here]

/-- Where a block stands, there was a call. -/
theorem Replaced.inserted_at {s : Splice} (h : Replaced policy p P a n insns os n')
    (there : insns[i]? = some insn) (here : os[i]? = some (some s)) :
    ∃ site k k', CallSite.ofNode? insn.node = some site ∧
      Inserted policy p P site (UInt16.ofNat (a.nextFreeLocal insn.id)) k s k' := by
  induction h generalizing i with
  | nil => cases there
  | left _ _ ih =>
    cases i with
    | zero => cases here
    | succ i => exact ih there here
  | inserted call made _ ih =>
    cases i with
    | zero =>
      cases there
      cases here
      exact ⟨_, _, _, call, made⟩
    | succ i => exact ih there here

/-- A call accesses no slot. -/
theorem slots_of_call {site : CallSite} {node : Node} (call : CallSite.ofNode? node = some site) :
    node.slots = [] := by
  cases node <;> first | rfl | cases call

/-- In what inlining makes of a method, blocks live in slots of their own. -/
theorem Inlines.houses (h : Inlines policy p P owner m m') (fits : m'.SlotsFit) : Houses owner m m' := by
  cases h with
  | same => exact .same
  | @replaced frames n n' os analyzed distinct below calls =>
    obtain ⟨d, parsed⟩ := Analysis.parse_of_analyze analyzed
    have short : d.words m.isStatic ≤ 65535 := fits.arguments d parsed
    have free (id : InsnId) := Analysis.nextFreeLocal_eq_slotsOf analyzed parsed short id
    have few := Analysis.slotsOf_le m d
    have inside {i : Nat} {insn x : Insn} {o : Option Splice} (there : m.body[i]? = some insn)
        (here : os[i]? = some o) (member : x ∈ spliced insn o) : ∀ w ∈ x.node.slots, w < 65535 := by
      refine fits.body x (Array.mem_toList_iff.mp ?_)
      exact mem_splicedBody_of_mem (by rwa [Array.getElem?_toList]) here member
    refine @Houses.replaced owner m _ frames os (slotsOf m d) analyzed ?_ List.toList_toArray ?_ ?_
    · rw [calls.length_eq, Array.length_toList]
    · rintro i w ⟨insn, f, there, here, member, counted⟩
      refine Analysis.occupied_lt_slotsOf analyzed parsed short there here member ?_ counted
      obtain ⟨o, at_⟩ : ∃ o, os[i]? = some o := by
        refine ⟨_, List.getElem?_eq_getElem ?_⟩
        rw [calls.length_eq, Array.length_toList]
        exact (Array.getElem?_eq_some_iff.mp there).1
      cases o with
      | none => exact inside there at_ (List.mem_singleton_self insn) w member
      | some s =>
        obtain ⟨site, k, k', call, -⟩ := calls.inserted_at (by rwa [Array.getElem?_toList]) at_
        rw [slots_of_call call] at member
        cases member
    · intro i insn s there here
      obtain ⟨site, k, k', call, t, body, first, -, -, -, run⟩ :=
        calls.inserted_at (by rwa [Array.getElem?_toList]) here
      have housed := splice_houses run fun x member => inside there here member
      rw [free, UInt16.toNat_ofNat_of_lt' (by simpa [UInt16.size] using Nat.lt_succ_of_le few)] at housed
      exact ⟨free insn.id, site, _, call, housed⟩

/-- **Blocks live in slots of their own.** Let an inliner start with nothing kept, and inline into any number
of methods. In what it makes of a method, if that makes do with 65535 slots, blocks stand behind all slots that
reached nodes occupy, and in a block the returned value, the receiver, the arguments and the variables of the
callee do not overlap. -/
theorem inlineAll_houses (uncached : p.cache = []) (barred : Std.HashSet TargetKey) {supply : Supply}
    {methods : List (String × Method)} (distinct : Distinct supply methods) :
    List.Forall₂ (fun entry attempt => ∀ count, attempt.result = .ok count → attempt.value.SlotsFit →
      Houses entry.1 entry.2 attempt.value) methods
      (inlineAll methods ⟨{ policy, classPath := p, barred }, {}, supply⟩).1 :=
  (inlineAll_inlines (P := fun _ _ => True) (fun _ _ _ _ _ _ => trivial) uncached barred distinct).imp
    fun _ _ inlines count same fits => (inlines count same).houses fits

/-- A method that calls another one, with arguments and a result of two words. -/
def wideMethod : Method where
  id := ⟨0⟩
  access := 9
  name := "m"
  descriptor := "(JI)J"
  body := Analysis.numbered [.var Opcode.lload 0, .call Opcode.invokestatic "kotlin/F" "f" "(J)J" false,
    .simple 0xad]

/-- A trusted class with a method that adds one. -/
def addingClasses : ClassPath where
  sources := [.memory [{ name := "kotlin/F", superName := some "java/lang/Object", methods := [{
        id := ⟨1⟩
        access := 9
        name := "f"
        descriptor := "(J)J"
        maxLocals := 2
        body := Analysis.numbered [.var Opcode.lload 0, .simple 0x0a, .simple 0x61, .simple 0xad] }] }]]

/-- The value that is added to lives behind the slots of the caller. -/
theorem inlineAll_houses_wide : Distinct ⟨3⟩ [("A", wideMethod)] ∧
    List.Forall₂ (fun entry attempt => ∀ count, attempt.result = .ok count → attempt.value.SlotsFit →
        Houses entry.1 entry.2 attempt.value) [("A", wideMethod)]
      (inlineAll [("A", wideMethod)]
        ⟨{ policy := ⟨["kotlin/"]⟩, classPath := addingClasses, barred := ∅ }, {}, ⟨3⟩⟩).1 := by
  have distinct : Distinct ⟨3⟩ [("A", wideMethod)] := by
    constructor <;> decide
  exact ⟨distinct, inlineAll_houses rfl ∅ distinct⟩

/-! ## Operands of two words that are none -/

/-- A method that loads a long from its only slot, in which there is none. -/
def tornMethod : Method where
  id := ⟨0⟩
  access := 9
  name := "m"
  descriptor := "()V"
  maxLocals := 1
  maxStack := some 2
  body := Analysis.numbered [.var Opcode.lload 0, .simple 0x57,
    .call Opcode.invokestatic "kotlin/F" "f" "()V" false, .simple Opcode.vreturn]

/-- A method with a variable. -/
def storingMethod : Method where
  id := ⟨1⟩
  access := 9
  name := "f"
  descriptor := "()V"
  maxLocals := 1
  body := Analysis.numbered [.simple 0x04, .var Opcode.istore 0, .simple Opcode.vreturn]

/-- A trusted class with a method that has a variable. -/
def storingClasses : ClassPath where
  sources := [.memory [{
    name := "kotlin/F"
    superName := some "java/lang/Object"
    methods := [storingMethod] }]]

/-- The second word of the long that a reached node loads is the slot of the variable of the block. -/
theorem inlineMethod_torn : ∃ m' block, (inlineMethod "A" tornMethod
      ⟨{ policy := ⟨["kotlin/"]⟩, classPath := storingClasses }, {}, ⟨4⟩⟩).1 = ⟨m', .ok 1⟩ ∧ m'.SlotsFit ∧
    m'.body.toList = [⟨⟨0⟩, .var Opcode.lload 0⟩, ⟨⟨1⟩, .simple 0x57⟩] ++ block ++
      [⟨⟨3⟩, .simple Opcode.vreturn⟩] ∧
    block.map (fun insn => insn.node.slots) = [[], [1]] ∧
    tornMethod.Reaches 0 ∧ tornMethod.body[0]? = some ⟨⟨0⟩, .var Opcode.lload 0⟩ ∧
    1 ∈ (Node.var Opcode.lload 0).slots := by
  have evaluated : (analyze "A" tornMethod).toOption.isSome = true := by
    unfold analyze
    rw [Body.ofTable_labelTable]
    decide +kernel
  obtain ⟨frames, analyzed⟩ := Option.isSome_iff_exists.mp evaluated
  have analyzed := Analysis.toOption_eq_some.mp analyzed
  have parsed : (MethodDescriptor.parse "()V").toOption = some ⟨[], .void⟩ := by decide +kernel
  have parsed := Analysis.toOption_eq_some.mp parsed
  have free : Inspection.nextFreeLocal ⟨"A", tornMethod, frames⟩ ⟨2⟩ = 1 :=
    Analysis.nextFreeLocal_eq_slotsOf analyzed parsed (by decide) _
  let s : Session := ⟨{ policy := ⟨["kotlin/"]⟩, classPath := storingClasses }, {}, ⟨4⟩⟩
  let site : CallSite := ⟨Opcode.invokestatic, "kotlin/F", "f", "()V"⟩
  let t : Target := ⟨"kotlin/F", storingMethod⟩
  have spliced_ : (leafSplice s site 1 t).toOption.any (fun made =>
      decide (made.1.block.map (fun insn => insn.node.slots) = [[], [1]])) = true := by
    decide +kernel
  obtain ⟨⟨sp, supply⟩, made, slots⟩ := Analysis.exists_of_any spliced_
  have slots := of_decide_eq_true slots
  let before : List Insn := [⟨⟨0⟩, .var Opcode.lload 0⟩, ⟨⟨1⟩, .simple 0x57⟩]
  let insn : Insn := ⟨⟨2⟩, .call Opcode.invokestatic "kotlin/F" "f" "()V" false⟩
  let behind : List Insn := [⟨⟨3⟩, .simple Opcode.vreturn⟩]
  have others (other : Insn) (member : other ∈ before ++ behind) : CallSite.ofNode? other.node = none := by
    simp only [before, behind, List.cons_append, List.nil_append, List.mem_cons, List.not_mem_nil, or_false]
      at member
    rcases member with rfl | rfl | rfl <;> rfl
  have call : LeafCall ⟨["kotlin/"]⟩ storingClasses "A" tornMethod s before insn behind site t :=
    .of_fresh rfl rfl (by decide) (fun other member site call => by rw [others other member] at call; cases call)
      rfl (by decide +kernel) rfl (by decide +kernel)
  refine ⟨_, sp.block, inlineMethod_leaf call analyzed (by rw [free]; exact made)
    (fun other member site call => by rw [others other member] at call; cases call), ⟨fun d parsed' => ?_, ?_⟩,
    List.toList_toArray, slots, ⟨_, rfl, .first (by decide)⟩, rfl, by decide⟩
  · obtain rfl : d = ⟨[], .void⟩ := Except.ok.inj (parsed'.symm.trans parsed)
    show (⟨[], .void⟩ : MethodDescriptor).words tornMethod.isStatic ≤ 65535
    decide
  · intro x member w accessed
    have member : x ∈ before ++ sp.block ++ behind := Array.mem_toList_iff.mpr member
    rcases List.mem_append.mp member with member | back
    · rcases List.mem_append.mp member with front | inside
      · have few : ∀ y ∈ before, ∀ w ∈ y.node.slots, w < 65535 := by decide
        exact few x front w accessed
      · have listed : x.node.slots ∈ sp.block.map (fun insn => insn.node.slots) := List.mem_map_of_mem inside
        rw [slots] at listed
        have few : ∀ ws ∈ ([[], [1]] : List (List Nat)), ∀ w ∈ ws, w < 65535 := by decide
        exact few _ listed w accessed
    · have few : ∀ y ∈ behind, ∀ w ∈ y.node.slots, w < 65535 := by decide
      exact few x back w accessed

/-! ## Sums that wrap around -/

section

open Analysis Machine

/-- A method that returns its argument behind a call, and declares all slots but one. -/
def crowdedMethod : Method where
  id := ⟨0⟩
  access := 9
  name := "m"
  descriptor := "(I)I"
  maxLocals := 65535
  maxStack := some 1
  body := Analysis.numbered [.call Opcode.invokestatic "kotlin/F" "f" "()I" false, .simple 0x57,
    .var Opcode.iload 0, .simple 0xac]

/-- A method with a variable and a result. -/
def clobberingMethod : Method where
  id := ⟨1⟩
  access := 9
  name := "f"
  descriptor := "()I"
  maxLocals := 1
  body := Analysis.numbered [.simple 0x08, .var Opcode.istore 0, .simple 0x04, .simple 0xac]

/-- A trusted class with a method that has a variable and a result. -/
def clobberingClasses : ClassPath where
  sources := [.memory [{ name := "kotlin/F", superName := some "java/lang/Object", methods := [clobberingMethod] }]]

theorem analyzed_crowded : ∃ frames, analyze "A" crowdedMethod = .ok frames := by
  have parsed : (MethodDescriptor.parse "(I)I").toOption = some ⟨[.int], .int⟩ := by decide +kernel
  have parsed := toOption_eq_some.mp parsed
  have called : (MethodDescriptor.parse "()I").toOption = some ⟨[], .int⟩ := by decide +kernel
  have called := toOption_eq_some.mp called
  have made : Transfer.resultKind (.call Opcode.invokestatic "kotlin/F" "f" "()I" false) = some .int := by
    decide +kernel
  have kinds := kinds_entryOf "A" crowdedMethod ⟨[.int], .int⟩
  have empty : (entryOf "A" crowdedMethod ⟨[.int], .int⟩).1.stack = [] := rfl
  have one : (entryOf "A" crowdedMethod ⟨[.int], .int⟩).1.limit = some 1 := rfl
  generalize entered : entryOf "A" crowdedMethod ⟨[.int], .int⟩ = entry at kinds empty one
  obtain ⟨⟨locals, stack, limit⟩, s⟩ := entry
  obtain rfl : stack = [] := empty
  obtain rfl : limit = some 1 := one
  obtain ⟨v, rest, rfl, int, -⟩ : ∃ v rest, locals = v :: rest ∧ v.kind = .int ∧ _ := by
    rw [show crowdedMethod.isStatic = true from rfl, show entryKinds true [.int] = [.int] from rfl] at kinds
    exact List.map_eq_cons_iff.mp kinds
  let body := crowdedMethod.body
  let f : Frame := ⟨v :: rest, [], some 1⟩
  have count : Frame.argumentCount "()I" = .ok 0 := by
    rw [Frame.argumentCount, called]
    rfl
  obtain ⟨x, s₁, first, narrow⟩ : ∃ x s₁,
      f.execute body 0 ⟨⟨0⟩, .call Opcode.invokestatic "kotlin/F" "f" "()I" false⟩ s =
        .ok ({ f with stack := [x] }, s₁) ∧ x.kind = .int := by
    unfold Frame.execute
    dsimp only
    rw [count]
    unfold Frame.applyCall Transfer.call
    simp only [made]
    exact ⟨_, _, rfl, rfl⟩
  have second : Frame.execute { f with stack := [x] } body 1 ⟨⟨1⟩, .simple 0x57⟩ s₁ = .ok (f, s₁) := by
    show (if x.isWide then throw _ else pure f : Step Frame) s₁ = _
    rw [Value.isWide, narrow]
    rfl
  obtain ⟨y, s₂, third⟩ : ∃ y s₂, f.execute body 2 ⟨⟨2⟩, .var Opcode.iload 0⟩ s₁ =
      .ok ({ f with stack := [y] }, s₂) := by
    obtain ⟨id, kind, sources, key, literal⟩ := v
    obtain rfl : kind = .int := int
    cases literal with
    | none => exact ⟨_, _, rfl⟩
    | some l => cases l <;> exact ⟨_, _, rfl⟩
  obtain ⟨s₃, last⟩ : ∃ s₃, Frame.execute { f with stack := [y] } body 3 ⟨⟨3⟩, .simple 0xac⟩ s₂ = .ok (f, s₃) :=
    ⟨_, rfl⟩
  have covered : crowdedMethod.coveredRanges crowdedMethod.body.lastLabels = some [] := rfl
  let frames : Array (Option Frame) := #[some f, some { f with stack := [x] }, some f, some { f with stack := [y] }]
  have run : Flow.run ⟨body, body.lastLabels, []⟩
      (visitBound body.size (entryOf "A" crowdedMethod ⟨[.int], .int⟩).1.locals.length)
      (Flow.start body (entryOf "A" crowdedMethod ⟨[.int], .int⟩)) = .ok ⟨frames, [], s₃⟩ := by
    rw [entered]
    obtain ⟨fuel, more⟩ : ∃ fuel, visitBound body.size (v :: rest).length = fuel + 5 := by
      refine Nat.exists_eq_add_of_le' ?_
      show 5 ≤ 4 * _ + 1
      omega
    dsimp only
    rw [more]
    refine (Flow.run_next rfl rfl rfl first rfl rfl).trans ?_
    refine (Flow.run_next rfl rfl rfl second rfl rfl).trans ?_
    refine (Flow.run_next rfl rfl rfl third rfl rfl).trans ?_
    exact Flow.run_last rfl rfl last rfl rfl
  exact analyze_of_run (by decide) parsed covered run rfl

/-- A return of a number. -/
theorem effect_ireturn (locals : Nat → Option Datum) (rest : List Datum) (i : Int32) :
    effect (.simple 0xac) ⟨locals, .int i :: rest⟩ = some (.leave (some (.int i))) := by
  have operation : Operation.ofOpcode 0xac = .leave (some .int) := by
    simp [Operation.ofOpcode]
    rfl
  have kinds : operands (.simple 0xac) = some [.int] := by
    rw [operands, operation]
    rfl
  have acts : action (.simple 0xac) [.int i] = some (.leave (some (.int i))) := by
    show operationAction (Operation.ofOpcode 0xac) [.int i] = _
    rw [operation]
    rfl
  rw [effect_of_operands kinds]
  simp [operandEffect, take, Datum.kind, acts, Action.effect]

/-- What a run of the method with a call returns is its argument. -/
theorem returned_crowded {W : Type} {env : Environment W} {code : Code} {w w' : W} {v : Option Datum} {i : Int32}
    (same : codeOf? crowdedMethod = some code)
    (runs : Runs env code ⟨0, .ofArguments [.int i], w⟩ (.returned v) w') : v = some (.int i) := by
  obtain rfl : (⟨crowdedMethod.body, crowdedMethod.body.lastLabels, []⟩ : Code) = code := Option.some.inj same
  have called : (MethodDescriptor.parse "()I").toOption = some ⟨[], .int⟩ := by decide +kernel
  -- what is known before each node, and what the node does then
  let known (c : Config W) : Prop := c.activation.locals 0 = some (.int i) ∧
    (c.pc < 3 ∨ c.pc = 3 ∧ c.activation.stack.head? = some (.int i))
  have effects (c : Config W) (h : known c) (insn : Insn) (there : crowdedMethod.body[c.pc]? = some insn) :
      c.pc = 0 ∧ effect insn.node c.activation = some (.ask [] (.value .int) c.activation) ∨
      c.pc = 1 ∧ effect insn.node c.activation = (cut 1 c.activation.stack).map (fun cut =>
        .next { c.activation with stack := cut.2 }) ∨
      c.pc = 2 ∧ effect insn.node c.activation = some (.next (c.activation.push? (some (.int i)))) ∨
      c.pc = 3 ∧ effect insn.node c.activation = some (.leave (some (.int i))) := by
    obtain ⟨pc, a, w⟩ := c
    obtain ⟨kept, before | ⟨rfl, top⟩⟩ := h
    · obtain rfl | rfl | rfl : pc = 0 ∨ pc = 1 ∨ pc = 2 := by
        dsimp only at before
        omega
      · cases there
        have kinds : operands (.call Opcode.invokestatic "kotlin/F" "f" "()I" false) = some [] := by
          rw [operands, called]
          rfl
        have acts : action (.call Opcode.invokestatic "kotlin/F" "f" "()I" false) [] = some (.ask (.value .int)) := by
          show (MethodDescriptor.parse "()I").toOption.map _ = _
          rw [called]
          rfl
        refine .inl ⟨rfl, (effect_of_operands kinds a).trans ?_⟩
        show (action _ []).bind (fun act => some (act.effect [] a)) = _
        rw [acts]
        rfl
      · cases there
        refine .inr (.inl ⟨rfl, ?_⟩)
        show ((cut 1 a.stack).map Prod.snd).map _ = _
        rw [Option.map_map]
        rfl
      · cases there
        refine .inr (.inr (.inl ⟨rfl, ?_⟩))
        show (a.locals 0).bind _ = _
        rw [show a.locals 0 = some (.int i) from kept]
        rfl
    · cases there
      obtain ⟨locals, stack⟩ := a
      cases stack with
      | nil => cases top
      | cons d rest =>
        cases top
        exact .inr (.inr (.inr ⟨rfl, effect_ireturn locals rest i⟩))
  obtain ⟨d, reached, ends⟩ := runs
  have last : known d := by
    clear ends
    induction reached with
    | refl => exact ⟨rfl, .inl (Nat.zero_lt_succ 2)⟩
    | tail _ step ih =>
      cases step with
      | next there goes =>
        rcases effects _ ih _ there with ⟨-, told⟩ | ⟨rfl, told⟩ | ⟨rfl, told⟩ | ⟨-, told⟩
        · cases told.symm.trans goes
        · obtain ⟨cut, -, same⟩ := Option.map_eq_some_iff.mp (told.symm.trans goes)
          cases same
          exact ⟨ih.1, .inl (Nat.lt_succ_self 2)⟩
        · cases told.symm.trans goes
          exact ⟨ih.1, .inr ⟨rfl, rfl⟩⟩
        · cases told.symm.trans goes
      | jump there goes _ =>
        rcases effects _ ih _ there with ⟨-, told⟩ | ⟨-, told⟩ | ⟨-, told⟩ | ⟨-, told⟩
        · cases told.symm.trans goes
        · obtain ⟨cut, -, same⟩ := Option.map_eq_some_iff.mp (told.symm.trans goes)
          cases same
        · cases told.symm.trans goes
        · cases told.symm.trans goes
      | answered there asks _ _ =>
        rcases effects _ ih _ there with ⟨rfl, told⟩ | ⟨-, told⟩ | ⟨-, told⟩ | ⟨-, told⟩
        · cases told.symm.trans asks
          exact ⟨ih.1, .inl (Nat.succ_lt_succ (Nat.zero_lt_succ 1))⟩
        · obtain ⟨cut, -, same⟩ := Option.map_eq_some_iff.mp (told.symm.trans asks)
          cases same
        · cases told.symm.trans asks
        · cases told.symm.trans asks
      | caught _ taken => cases taken
  cases ends with
  | leave there leaves =>
    rcases effects _ last _ there with ⟨-, told⟩ | ⟨-, told⟩ | ⟨-, told⟩ | ⟨-, told⟩
    · cases told.symm.trans leaves
    · obtain ⟨cut, -, same⟩ := Option.map_eq_some_iff.mp (told.symm.trans leaves)
      cases same
    · cases told.symm.trans leaves
    · cases told.symm.trans leaves
      rfl
  | inside _ _ _ open_ => rcases open_ with same | same <;> cases same

/-- What a run of the method with the block returns is what the variable of the block was. -/
theorem runs_wrapped {W : Type} (env : Environment W) {code : Code} (w : W) (i : Int32)
    (nodes : code.body.toList.map Insn.node = [.simple 0x08, .var Opcode.istore 0, .simple 0x04,
      .var Opcode.istore 65535, .var Opcode.iload 65535, .simple 0x57, .var Opcode.iload 0, .simple 0xac]) :
    Runs env code ⟨0, .ofArguments [.int i], w⟩ (.returned (some (.int 5))) w := by
  have at_ {pc : Nat} {node : Node} (there : (code.body.toList.map Insn.node)[pc]? = some node) :
      ∃ insn, code.body[pc]? = some insn ∧ insn.node = node := by
    rw [List.getElem?_map, Array.getElem?_toList] at there
    exact Option.map_eq_some_iff.mp there
  have next {pc : Nat} {node : Node} {a b : Activation}
      (there : (code.body.toList.map Insn.node)[pc]? = some node) (goes : effect node a = some (.next b)) :
      Step env code ⟨pc, a, w⟩ ⟨pc + 1, b, w⟩ := by
    obtain ⟨insn, position, rfl⟩ := at_ there
    exact .next position goes
  rw [nodes] at at_ next
  let l := (Activation.ofArguments [.int i]).locals
  let l₁ := write l 0 (.int 5)
  let l₂ := write l₁ 65535 (.int 1)
  refine ⟨⟨7, ⟨l₂, [.int 5]⟩, w⟩, ?_, ?_⟩
  · have first : Step env code ⟨0, ⟨l, []⟩, w⟩ ⟨1, ⟨l, [.int 5]⟩, w⟩ := next rfl rfl
    have second : Step env code ⟨1, ⟨l, [.int 5]⟩, w⟩ ⟨2, ⟨l₁, []⟩, w⟩ := next rfl rfl
    have third : Step env code ⟨2, ⟨l₁, []⟩, w⟩ ⟨3, ⟨l₁, [.int 1]⟩, w⟩ := next rfl rfl
    have fourth : Step env code ⟨3, ⟨l₁, [.int 1]⟩, w⟩ ⟨4, ⟨l₂, []⟩, w⟩ := next rfl rfl
    have fifth : Step env code ⟨4, ⟨l₂, []⟩, w⟩ ⟨5, ⟨l₂, [.int 1]⟩, w⟩ := next rfl rfl
    have sixth : Step env code ⟨5, ⟨l₂, [.int 1]⟩, w⟩ ⟨6, ⟨l₂, []⟩, w⟩ := next rfl rfl
    have seventh : Step env code ⟨6, ⟨l₂, []⟩, w⟩ ⟨7, ⟨l₂, [.int 5]⟩, w⟩ := next rfl rfl
    exact ((((((Relation.ReflTransGen.single first).tail second).tail third).tail fourth).tail fifth).tail
      sixth).tail seventh
  · obtain ⟨insn, position, same⟩ := @at_ 7 _ rfl
    refine .leave position ?_
    rw [same]
    exact effect_ireturn l₂ [] 5

/-- The slot behind the returned value has the number 0: the variable of the block is the argument of the
method, which returns what the block left there. -/
theorem inlineMethod_wrapped : ∃ m' code code', (inlineMethod "A" crowdedMethod
      ⟨{ policy := ⟨["kotlin/"]⟩, classPath := clobberingClasses }, {}, ⟨4⟩⟩).1 = ⟨m', .ok 1⟩ ∧
    codeOf? crowdedMethod = some code ∧ codeOf? m' = some code' ∧
    ∀ (W : Type) (env : Environment W) (w : W) (i : Int32),
      (∀ v w', Runs env code ⟨0, .ofArguments [.int i], w⟩ (.returned v) w' → v = some (.int i)) ∧
      Runs env code' ⟨0, .ofArguments [.int i], w⟩ (.returned (some (.int 5))) w := by
  obtain ⟨frames, analyzed⟩ := analyzed_crowded
  have parsed : (MethodDescriptor.parse "(I)I").toOption = some ⟨[.int], .int⟩ := by decide +kernel
  have parsed := Analysis.toOption_eq_some.mp parsed
  have free : Inspection.nextFreeLocal ⟨"A", crowdedMethod, frames⟩ ⟨0⟩ = 65535 :=
    Analysis.nextFreeLocal_eq_slotsOf analyzed parsed (by decide) _
  let s : Session := ⟨{ policy := ⟨["kotlin/"]⟩, classPath := clobberingClasses }, {}, ⟨4⟩⟩
  let site : CallSite := ⟨Opcode.invokestatic, "kotlin/F", "f", "()I"⟩
  let t : Target := ⟨"kotlin/F", clobberingMethod⟩
  have evaluated : (leafSplice s site 65535 t).toOption.any (fun made =>
      made.1.block.map Insn.node == [.simple 0x08, .var Opcode.istore 0, .simple 0x04,
        .var Opcode.istore 65535, .var Opcode.iload 65535] && made.1.exceptions.isEmpty) = true := by
    decide +kernel
  obtain ⟨⟨⟨block, exceptions, named⟩, supply⟩, made, shape⟩ := Analysis.exists_of_any evaluated
  simp only [Bool.and_eq_true, List.isEmpty_iff] at shape
  obtain ⟨nodes, rfl⟩ := shape
  have nodes := Node.eq_of_beq_all (by simp) nodes
  let insn : Insn := ⟨⟨0⟩, .call Opcode.invokestatic "kotlin/F" "f" "()I" false⟩
  let behind : List Insn := [⟨⟨1⟩, .simple 0x57⟩, ⟨⟨2⟩, .var Opcode.iload 0⟩, ⟨⟨3⟩, .simple 0xac⟩]
  have others (other : Insn) (member : other ∈ behind) : CallSite.ofNode? other.node = none := by
    simp only [behind, List.mem_cons, List.not_mem_nil, or_false] at member
    rcases member with rfl | rfl | rfl <;> rfl
  have call : LeafCall ⟨["kotlin/"]⟩ clobberingClasses "A" crowdedMethod s [] insn behind site t :=
    .of_fresh rfl rfl (by decide) (fun other member site call => by rw [others other member] at call; cases call)
      rfl (by decide +kernel) rfl (by decide +kernel)
  refine ⟨_, _, _, inlineMethod_leaf call analyzed (by rw [free]; exact made)
    (fun other member site call => by rw [others other member] at call; cases call), rfl, rfl,
    fun W env w i => ⟨fun v w' runs => returned_crowded rfl runs, runs_wrapped env w i ?_⟩⟩
  show (block ++ behind).toArray.toList.map Insn.node = _
  rw [List.toList_toArray, List.map_append, nodes]
  rfl

end

end Inlining

end Bytecode
