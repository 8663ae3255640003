import Bytecode.Proofs.Analysis.Rebuilding
import Bytecode.Proofs.Inlining.Slots
import Mathlib.Data.List.TakeWhile

/-!
# Slot numbers as sums

The numbers of slots for arguments, for the variables of an inlined method and for stack entries that are
put aside are sums: each begins where the one before it ends (`beginnings`). The sums are made with 16 bits.
A sum that is carried along stands for the exact one modulo 65536, and so does every number that comes of
it: the numbers are the sums exactly where these have 16 bits (`counted_exactly`). Only the last sum for a
variable of an inlined method is checked, and the offset in it may have wrapped around already
(`slots_wrapped`).
-/

namespace Bytecode

/-- Where each of some values begins, if they follow each other from a slot on. -/
def beginnings {α : Type} (size : α → Nat) (first : Nat) : List α → List Nat
  | [] => []
  | a :: rest => first :: beginnings size (first + size a) rest

/-- The slot that a node names. -/
def Node.slot? : Node → Option UInt16
  | .var _ slot | .increment slot _ => some slot
  | _ => none

/-- The numbers of the slots that nodes name. -/
def slotNumbers (nodes : List Node) : List Nat :=
  nodes.filterMap fun node => node.slot?.map UInt16.toNat

/-- What is left of sums in 16 bits. -/
def wrapped (sums : List Nat) : List Nat :=
  sums.map (· % 65536)

theorem slotNumbers_append (nodes more : List Node) :
    slotNumbers (nodes ++ more) = slotNumbers nodes ++ slotNumbers more :=
  List.filterMap_append

theorem slotNumbers_cons (node : Node) (nodes : List Node) :
    slotNumbers (node :: nodes) = slotNumbers [node] ++ slotNumbers nodes :=
  slotNumbers_append [node] nodes

theorem slotNumbers_reverse (nodes : List Node) : slotNumbers nodes.reverse = (slotNumbers nodes).reverse :=
  List.filterMap_reverse

/-- A number that stands for a sum stands for the next one after an addition. -/
theorem toNat_add_ofNat {slot : UInt16} {n : Nat} (carried : slot.toNat = n % 65536) (size : Nat) :
    (slot + .ofNat size).toNat = (n + size) % 65536 := by
  rw [UInt16.toNat_add, UInt16.toNat_ofNat', carried]
  exact (Nat.add_mod n size 65536).symm

theorem toNat_self (slot : UInt16) : slot.toNat = slot.toNat % 65536 :=
  (Nat.mod_eq_of_lt slot.toNat_lt).symm

namespace Inlining

namespace Layout

variable {l : Layout} {slot : UInt16} {n first : Nat} {arguments : List Descriptor}

/-- The slots of the arguments are the sums of the sizes before them. -/
theorem slotNumbers_argumentStores (carried : slot.toNat = n % 65536) :
    slotNumbers (argumentStores slot arguments) = wrapped (beginnings Descriptor.size n arguments) := by
  induction arguments generalizing slot n with
  | nil => rfl
  | cons type arguments ih =>
    rw [argumentStores, slotNumbers_cons, ih (toNat_add_ofNat carried type.size)]
    exact congrArg (fun k => k :: _) carried

/-- The slots that the instructions in front of a block name: those of the arguments, the last one first, and
of the receiver. -/
def entrySums (first : Nat) (hasReceiver : Bool) (arguments : List Descriptor) : List Nat :=
  (beginnings Descriptor.size (first + if hasReceiver then 1 else 0) arguments).reverse ++
    if hasReceiver then [first] else []

theorem slotNumbers_entry (carried : l.offset.toNat = first % 65536) (hasReceiver : Bool)
    (arguments : List Descriptor) :
    slotNumbers ((l.entry hasReceiver arguments).map Part.node) =
      wrapped (entrySums first hasReceiver arguments) := by
  rw [entry, Part.map_node_new, slotNumbers_append, slotNumbers_reverse, entrySums, wrapped, List.map_append,
    List.map_reverse]
  cases hasReceiver with
  | false =>
    rw [slotNumbers_argumentStores (n := first) (by simpa using carried)]
    rfl
  | true =>
    have next : (l.offset + 1).toNat = (first + 1) % 65536 := toNat_add_ofNat carried 1
    rw [if_pos rfl, if_pos rfl, if_pos rfl, if_pos rfl, slotNumbers_argumentStores next]
    exact congrArg (fun k => _ ++ [k]) carried

/-- The slots that the returned value takes. -/
def resultSums (free : Nat) (type : Descriptor) : List Nat :=
  if type = .void then [] else [free]

theorem slotNumbers_storeResult :
    slotNumbers (l.storeResult.map Part.node) = wrapped (resultSums l.returnSlot.toNat l.returnType) := by
  unfold storeResult resultSums
  split
  · rfl
  · exact congrArg (fun k => [k]) (toNat_self l.returnSlot)

theorem slotNumbers_loadResult :
    slotNumbers (l.loadResult.map Part.node) = wrapped (resultSums l.returnSlot.toNat l.returnType) := by
  unfold loadResult resultSums
  split
  · rfl
  · exact congrArg (fun k => [k]) (toNat_self l.returnSlot)

/-- The slots that become of a node of the callee: those of the returned value if it returns, and its own, as
far behind the first one as they were, if not. -/
def nodeSums (free : Nat) (type : Descriptor) (first : Nat) (node : Node) : List Nat :=
  if node.isReturn then resultSums free type else (slotNumbers [node]).map (· + first)

/-- A slot can be moved if that leaves it below the last number. -/
theorem relocate_isOk (carried : l.offset.toNat = first % 65536) :
    (∃ moved, l.relocate slot = .ok moved) ↔ slot.toNat + first % 65536 < 65536 := by
  unfold relocate
  rw [carried]
  split
  · next fits => exact ⟨fun _ => fits, fun _ => ⟨_, rfl⟩⟩
  · next beyond => exact ⟨nofun, fun fits => (beyond fits).elim⟩

/-- A slot that is moved has the number of the sum. -/
theorem toNat_relocate_mod {moved : UInt16} (carried : l.offset.toNat = first % 65536)
    (h : l.relocate slot = .ok moved) : moved.toNat = (slot.toNat + first) % 65536 := by
  have exact_ := toNat_relocate h
  -- the check leaves no room for another wrap: the number is below 65536
  have small := moved.toNat_lt
  rw [exact_, carried] at small ⊢
  rw [← Nat.add_mod_mod, Nat.mod_eq_of_lt small]

/-- What becomes of a node of the callee names the slots that are due. -/
theorem slotNumbers_part {isLast : Bool} {insn : Insn} {parts : List Part}
    (carried : l.offset.toNat = first % 65536) (h : l.part isLast insn = .ok parts) :
    slotNumbers (parts.map Part.node) = wrapped (nodeSums l.returnSlot.toNat l.returnType first insn.node) := by
  obtain ⟨id, node⟩ := insn
  cases node with
  | simple op =>
    have h : (if op.isReturn then _ else _) = Except.ok parts := h
    rw [nodeSums, show (Node.simple op).isReturn = op.isReturn from rfl]
    split at h
    · next returns =>
      cases h
      have jump : slotNumbers ((if isLast then [] else [Part.new (.jump Opcode.goto l.exit)]).map Part.node) = [] := by
        cases isLast <;> rfl
      rw [if_pos returns, List.map_append, slotNumbers_append, slotNumbers_storeResult, jump, List.append_nil]
    · next stays =>
      cases h
      rw [if_neg stays]
      rfl
  | var op slot =>
    obtain ⟨moved, relocated, same⟩ := ok_of_bind h
    cases same
    exact congrArg (fun k => [k]) (toNat_relocate_mod carried relocated)
  | increment slot amount =>
    obtain ⟨moved, relocated, same⟩ := ok_of_bind h
    cases same
    exact congrArg (fun k => [k]) (toNat_relocate_mod carried relocated)
  | _ =>
    cases h
    rfl

theorem slotNumbers_parts {insns : List Insn} {parts : List Part} (carried : l.offset.toNat = first % 65536)
    (h : l.parts insns = .ok parts) : slotNumbers (parts.map Part.node) =
      wrapped ((insns.map Insn.node).flatMap (nodeSums l.returnSlot.toNat l.returnType first)) := by
  induction insns generalizing parts with
  | nil =>
    cases h
    rfl
  | cons insn rest ih =>
    obtain ⟨group, moved, h⟩ := ok_of_bind h
    obtain ⟨others, behind, h⟩ := ok_of_bind h
    cases h
    rw [List.map_append, slotNumbers_append, slotNumbers_part carried moved, ih behind, List.map_cons,
      List.flatMap_cons, wrapped, wrapped, wrapped, List.map_append]

/-- A node of the callee can be moved if its slot can. -/
theorem part_isOk (carried : l.offset.toNat = first % 65536) (isLast : Bool) (insn : Insn) :
    (∃ parts, l.part isLast insn = .ok parts) ↔
      ∀ slot ∈ slotNumbers [insn.node], slot + first % 65536 < 65536 := by
  obtain ⟨id, node⟩ := insn
  have moves (slot : UInt16) (next : UInt16 → List Part) :
      (∃ parts, (l.relocate slot >>= fun moved => Except.ok (next moved)) = .ok parts) ↔
        ∀ k ∈ [slot.toNat], k + first % 65536 < 65536 := by
    rw [List.forall_mem_singleton, ← relocate_isOk carried]
    constructor
    · rintro ⟨parts, h⟩
      obtain ⟨moved, relocated, -⟩ := ok_of_bind h
      exact ⟨moved, relocated⟩
    · rintro ⟨moved, relocated⟩
      exact ⟨next moved, by rw [relocated]; rfl⟩
  cases node with
  | simple op =>
    refine ⟨fun _ => List.forall_mem_nil _, fun _ => ?_⟩
    simp only [part]
    split <;> exact ⟨_, rfl⟩
  | var op slot => exact moves slot _
  | increment slot amount => exact moves slot _
  | _ => exact ⟨fun _ => List.forall_mem_nil _, fun _ => ⟨_, rfl⟩⟩

theorem parts_isOk (carried : l.offset.toNat = first % 65536) (insns : List Insn) :
    (∃ parts, l.parts insns = .ok parts) ↔
      ∀ slot ∈ slotNumbers (insns.map Insn.node), slot + first % 65536 < 65536 := by
  induction insns with
  | nil => exact ⟨fun _ => List.forall_mem_nil _, fun _ => ⟨_, rfl⟩⟩
  | cons insn rest ih =>
    rw [List.map_cons, slotNumbers_cons, List.forall_mem_append, ← ih, ← part_isOk carried rest.isEmpty insn]
    constructor
    · rintro ⟨parts, h⟩
      obtain ⟨group, moved, h⟩ := ok_of_bind h
      obtain ⟨others, behind, -⟩ := ok_of_bind h
      exact ⟨⟨group, moved⟩, others, behind⟩
    · rintro ⟨⟨group, moved⟩, others, behind⟩
      exact ⟨group ++ others, by rw [parts, moved, behind]; rfl⟩

theorem moveVariables_isOk (carried : l.offset.toNat = first % 65536) (named : List LocalVariable) :
    (∃ moved, named.mapM l.moveVariable = .ok moved) ↔
      ∀ v ∈ named, v.index.toNat + first % 65536 < 65536 := by
  induction named with
  | nil => exact ⟨fun _ => List.forall_mem_nil _, fun _ => ⟨_, rfl⟩⟩
  | cons v rest ih =>
    rw [List.forall_mem_cons, ← ih, ← relocate_isOk carried, List.mapM_cons]
    constructor
    · rintro ⟨moved, h⟩
      obtain ⟨v', here, h⟩ := ok_of_bind h
      obtain ⟨others, behind, -⟩ := ok_of_bind h
      obtain ⟨slot, relocated, -⟩ := ok_of_bind here
      exact ⟨⟨slot, relocated⟩, others, behind⟩
    · rintro ⟨⟨slot, relocated⟩, others, behind⟩
      have here : l.moveVariable v = .ok { v with index := slot } := by
        rw [moveVariable, relocated]
        rfl
      exact ⟨_ :: others, by rw [here, behind]; rfl⟩

theorem indices_moveVariables {named moved : List LocalVariable} (carried : l.offset.toNat = first % 65536)
    (h : named.mapM l.moveVariable = .ok moved) : moved.map (fun v => v.index.toNat) =
      wrapped (named.map fun v => v.index.toNat + first) := by
  induction named generalizing moved with
  | nil =>
    cases h
    rfl
  | cons v rest ih =>
    rw [List.mapM_cons] at h
    obtain ⟨v', here, h⟩ := ok_of_bind h
    obtain ⟨others, behind, h⟩ := ok_of_bind h
    cases h
    obtain ⟨slot, relocated, same⟩ := ok_of_bind here
    cases same
    rw [List.map_cons, ih behind]
    exact congrArg (fun k => k :: _) (toNat_relocate_mod carried relocated)

end Layout

/-- The slots that a block names: those of the receiver and the arguments, of what becomes of the callee, and
of the returned value. -/
def blockSums (site : CallSite) (d : MethodDescriptor) (free : Nat) (callee : List Node) : List Nat :=
  Layout.entrySums (free + d.returnType.size) site.hasReceiver d.arguments ++
    callee.flatMap (Layout.nodeSums free d.returnType (free + d.returnType.size)) ++
    Layout.resultSums free d.returnType

variable {site : CallSite} {free : UInt16} {callee : Method} {d : MethodDescriptor} {s : Splice}
  {supply supply' : Supply}

theorem carried_offset (free : UInt16) (type : Descriptor) (exit : LabelId) :
    (Layout.offset ⟨type, free, exit⟩).toNat = (free.toNat + type.size) % 65536 :=
  toNat_add_ofNat (toNat_self free) type.size

/-- The slots of a splice are the sums, as far as they have 16 bits. -/
theorem slotNumbers_splice (parsed : MethodDescriptor.parse site.descriptor = .ok d)
    (run : (splice site free callee).run supply = .ok (s, supply')) :
    slotNumbers (s.block.map Insn.node) =
        wrapped (blockSums site d free.toNat (callee.body.toList.map Insn.node)) ∧
      s.localVariables.map (fun v => v.index.toNat) =
        wrapped (callee.localVariables.map fun v => v.index.toNat + (free.toNat + d.returnType.size)) := by
  obtain ⟨d', body, parsed', moved, nodes, -, named⟩ := splice_eq_ok run
  obtain rfl : d' = d := Except.ok.inj (parsed'.symm.trans parsed)
  have carried := carried_offset free d'.returnType (Fresh.labelId.run supply).1
  have exit (early : Bool) (exit : LabelId) :
      slotNumbers ((if early then [Part.new (.label exit)] else []).map Part.node) = [] := by
    cases early <;> rfl
  refine ⟨?_, Layout.indices_moveVariables carried named⟩
  rw [nodes, List.map_append, List.map_append, List.map_append, slotNumbers_append, slotNumbers_append,
    slotNumbers_append, Layout.slotNumbers_entry carried, Layout.slotNumbers_parts carried moved, exit,
    Layout.slotNumbers_loadResult, List.append_nil, blockSums, wrapped, wrapped, wrapped, wrapped,
    List.map_append, List.map_append]

/-- A splice succeeds if what the slots of the callee are moved by, as far as it has 16 bits, leaves them below
the last number. -/
theorem splice_isOk (parsed : MethodDescriptor.parse site.descriptor = .ok d) :
    (∃ s supply', (splice site free callee).run supply = .ok (s, supply')) ↔
      ∀ slot ∈ slotNumbers (callee.body.toList.map Insn.node) ++
        callee.localVariables.map (fun v => v.index.toNat),
        slot + (free.toNat + d.returnType.size) % 65536 < 65536 := by
  have carried := carried_offset free d.returnType (Fresh.labelId.run supply).1
  rw [List.forall_mem_append, List.forall_mem_map, ← Layout.parts_isOk carried,
    ← Layout.moveVariables_isOk carried]
  constructor
  · rintro ⟨s, supply', run⟩
    obtain ⟨d', body, parsed', moved, -, -, named⟩ := splice_eq_ok run
    obtain rfl : d' = d := Except.ok.inj (parsed'.symm.trans parsed)
    exact ⟨⟨body, moved⟩, _, named⟩
  · rintro ⟨body, named⟩
    exact splice_exists parsed body named

end Inlining

namespace Analysis

/-- Whether values of a kind can be stored in a local variable and loaded again. -/
def Value.isSpillable (v : Value) : Bool :=
  v.kind.storeOpcode.isSome && v.kind.loadOpcode.isSome

namespace Inspection

variable {slot : UInt16} {n : Nat}

theorem spillFrom_of_stuck {v : Value} (stuck : v.isSpillable = false) (slot : UInt16) (values : List Value) :
    spillFrom slot (v :: values) = ([], .error (.unspillable v.kind)) := by
  unfold spillFrom
  split
  · next store load =>
    rw [Value.isSpillable, store, load] at stuck
    cases stuck
  · rfl

theorem spillFrom_of_spillable {v : Value} (spillable : v.isSpillable = true) (slot : UInt16) (values : List Value) :
    ∃ store load, spillFrom slot (v :: values) =
      (.var store slot :: (spillFrom (slot + .ofNat v.size) values).1,
        (spillFrom (slot + .ofNat v.size) values).2.map (.var load slot :: ·)) := by
  rw [Value.isSpillable, Bool.and_eq_true, Option.isSome_iff_exists, Option.isSome_iff_exists] at spillable
  obtain ⟨⟨store, isStore⟩, load, isLoad⟩ := spillable
  refine ⟨store, load, ?_⟩
  rw [spillFrom, isStore, isLoad]

/-- The stores put the entries up to the first one that has none into slots that are sums of sizes, as far as
these have 16 bits. There are loads exactly if every entry has one, and they name the slots of the stores. -/
theorem slotNumbers_spillFrom (values : List Value) (carried : slot.toNat = n % 65536) :
    slotNumbers (spillFrom slot values).1 =
        wrapped (beginnings Value.size n (values.takeWhile Value.isSpillable)) ∧
      ((∃ loads, (spillFrom slot values).2 = .ok loads) ↔ ∀ v ∈ values, v.isSpillable) ∧
      ∀ loads, (spillFrom slot values).2 = .ok loads →
        slotNumbers loads = slotNumbers (spillFrom slot values).1 := by
  induction values generalizing slot n with
  | nil => exact ⟨rfl, ⟨fun _ => List.forall_mem_nil _, fun _ => ⟨[], rfl⟩⟩, fun loads h => by cases h; rfl⟩
  | cons v values ih =>
    rw [List.forall_mem_cons, List.takeWhile_cons]
    cases spillable : v.isSpillable with
    | false =>
      rw [spillFrom_of_stuck spillable]
      exact ⟨rfl, ⟨nofun, nofun⟩, nofun⟩
    | true =>
      obtain ⟨stored, all, same⟩ := ih (toNat_add_ofNat carried v.size)
      obtain ⟨store, load, more⟩ := spillFrom_of_spillable spillable slot values
      rw [more, if_pos rfl]
      refine ⟨?_, ?_, fun loads h => ?_⟩
      · rw [slotNumbers_cons, stored]
        exact congrArg (fun k => k :: _) carried
      · rw [← all, eq_self, true_and]
        cases (spillFrom (slot + .ofNat v.size) values).2 with
        | error e => exact ⟨nofun, nofun⟩
        | ok loads => exact ⟨fun _ => ⟨_, rfl⟩, fun _ => ⟨_, rfl⟩⟩
      · cases rest : (spillFrom (slot + .ofNat v.size) values).2 with
        | error e =>
          rw [rest] at h
          cases h
        | ok loads' =>
          rw [rest] at h
          cases h
          rw [slotNumbers_cons, slotNumbers_cons (.var store slot), same loads' rest]
          rfl

/-- The slots of entries that are put aside are the sums, as far as they have 16 bits. -/
theorem slotNumbers_spill {a : Inspection} {id : InsnId} {depth : Nat} {f : Frame}
    (here : a.frames.frame id = some f) (positive : 0 < depth) (enough : depth ≤ f.stack.length) :
    slotNumbers (a.spill id depth).1 = wrapped (beginnings Value.size (a.nextFreeLocal id)
        ((f.stack.take depth).takeWhile Value.isSpillable)) ∧
      ((∃ loads, (a.spill id depth).2 = .ok loads) ↔ ∀ v ∈ f.stack.take depth, v.isSpillable) ∧
      ∀ loads, (a.spill id depth).2 = .ok loads → slotNumbers loads = slotNumbers (a.spill id depth).1 := by
  have spilled : a.spill id depth =
      ((spillFrom (.ofNat (a.nextFreeLocal id)) (f.stack.take depth)).1,
        (spillFrom (.ofNat (a.nextFreeLocal id)) (f.stack.take depth)).2.mapError
          (.analysis a.owner a.method.signature)) := by
    rw [spill, here]
    dsimp only
    rw [if_neg (by omega)]
  have carried : (UInt16.ofNat (a.nextFreeLocal id)).toNat = a.nextFreeLocal id % 65536 := UInt16.toNat_ofNat'
  obtain ⟨stored, all, same⟩ := slotNumbers_spillFrom (f.stack.take depth) carried
  rw [spilled]
  refine ⟨stored, ?_, fun loads h => same loads (ok_of_mapError h)⟩
  rw [← all]
  constructor
  · rintro ⟨loads, h⟩
    exact ⟨loads, ok_of_mapError h⟩
  · rintro ⟨loads, h⟩
    exact ⟨loads, by rw [h]; rfl⟩

end Inspection

end Analysis

/-! ## What 16 bits count -/

/-- The numbers that operations give to slots when they succeed, or that they give before they fail, and the sums
that these numbers stand for. -/
inductive SlotSums : List Nat → List Nat → Prop
  /-- The words that a call passes. -/
  | words {text : String} {d : MethodDescriptor} (isStatic : Bool) (parsed : MethodDescriptor.parse text = .ok d) :
    SlotSums [(d.slots isStatic).toNat] [d.words isStatic]
  /-- The slots in the block of a splice. -/
  | block {site : Inlining.CallSite} {free : UInt16} {callee : Method} {d : MethodDescriptor} {s : Inlining.Splice}
      {supply supply' : Supply} (parsed : MethodDescriptor.parse site.descriptor = .ok d)
      (run : (Inlining.splice site free callee).run supply = .ok (s, supply')) :
    SlotSums (slotNumbers (s.block.map Insn.node))
      (Inlining.blockSums site d free.toNat (callee.body.toList.map Insn.node))
  /-- The slots of the named variables of a splice. -/
  | named {site : Inlining.CallSite} {free : UInt16} {callee : Method} {d : MethodDescriptor} {s : Inlining.Splice}
      {supply supply' : Supply} (parsed : MethodDescriptor.parse site.descriptor = .ok d)
      (run : (Inlining.splice site free callee).run supply = .ok (s, supply')) :
    SlotSums (s.localVariables.map fun v => v.index.toNat)
      (callee.localVariables.map fun v => v.index.toNat + (free.toNat + d.returnType.size))
  /-- The slots into which entries of the stack are put aside, up to the first one that cannot be stored. -/
  | stores {a : Analysis.Inspection} {id : InsnId} {depth : Nat} {f : Analysis.Frame}
      (here : a.frames.frame id = some f) (positive : 0 < depth) (enough : depth ≤ f.stack.length) :
    SlotSums (slotNumbers (a.spill id depth).1)
      (beginnings Analysis.Value.size (a.nextFreeLocal id) ((f.stack.take depth).takeWhile Analysis.Value.isSpillable))
  /-- The slots from which entries of the stack are brought back. -/
  | loads {a : Analysis.Inspection} {id : InsnId} {depth : Nat} {f : Analysis.Frame} {loads : List Node}
      (here : a.frames.frame id = some f) (positive : 0 < depth) (enough : depth ≤ f.stack.length)
      (spilled : (a.spill id depth).2 = .ok loads) :
    SlotSums (slotNumbers loads) (beginnings Analysis.Value.size (a.nextFreeLocal id) (f.stack.take depth))

variable {numbers sums : List Nat}

/-- All numbers of slots are what 16 bits leave of the sums. -/
theorem SlotSums.eq_wrapped (h : SlotSums numbers sums) : numbers = wrapped sums := by
  cases h with
  | words isStatic parsed => exact congrArg (fun k => [k]) UInt16.toNat_ofNat'
  | block parsed run => exact (Inlining.slotNumbers_splice parsed run).1
  | named parsed run => exact (Inlining.slotNumbers_splice parsed run).2
  | stores here positive enough => exact (Analysis.Inspection.slotNumbers_spill here positive enough).1
  | loads here positive enough spilled =>
    obtain ⟨stored, all, same⟩ := Analysis.Inspection.slotNumbers_spill here positive enough
    have whole := List.takeWhile_eq_self_iff.mpr (all.mp ⟨_, spilled⟩)
    rw [same _ spilled, stored, whole]

theorem wrapped_eq_self : wrapped sums = sums ↔ ∀ n ∈ sums, n ≤ 65535 := by
  induction sums with
  | nil => exact ⟨fun _ => List.forall_mem_nil _, fun _ => rfl⟩
  | cons n sums ih =>
    have kept : n % 65536 = n ↔ n ≤ 65535 := by omega
    rw [List.forall_mem_cons, ← ih, ← kept, wrapped, List.map_cons, List.cons.injEq, ← wrapped]

/-- **Slots are counted with 16 bits.** The numbers that operations give to slots are the sums of the sizes before
them exactly if all these sums have 16 bits; otherwise they have wrapped around. -/
theorem counted_exactly (h : SlotSums numbers sums) :
    numbers = wrapped sums ∧ (numbers = sums ↔ ∀ n ∈ sums, n ≤ 65535) :=
  ⟨h.eq_wrapped, by rw [h.eq_wrapped, wrapped_eq_self]⟩

/-! ## Samples -/

section

open Analysis

/-- A method that puts two numbers on the stack, with some number of slots. -/
def pairingMethod (slots : UInt16) : Method where
  id := ⟨0⟩
  access := 9
  name := "m"
  descriptor := "()V"
  maxLocals := slots
  maxStack := some 2
  body := numbered [.simple 0x04, .simple 0x05, .simple 0x58, .simple Opcode.vreturn]

/-- The two numbers lie on the stack before they are taken off. -/
theorem analyzed_pairing (slots : UInt16) : ∃ r, analyze "A" (pairingMethod slots) = .ok r ∧
    r.kindsAt 2 2 slots.toNat [.int, .int] = true := by
  have parsed : (MethodDescriptor.parse "()V").toOption = some ⟨[], .void⟩ := by decide +kernel
  have parsed := toOption_eq_some.mp parsed
  -- the number of slots is not known, so that the run is followed step by step
  let m := pairingMethod slots
  have static : m.isStatic = true := show ((9 : UInt16) &&& 0x0008 != 0) = true by decide
  have count : slotsOf m ⟨[], .void⟩ = slots.toNat := by
    have none : (MethodDescriptor.slots ⟨[], .void⟩ true).toNat = 0 := rfl
    rw [slotsOf, static, none]
    exact Nat.max_eq_left (Nat.zero_le _)
  have width : (entryOf "A" m ⟨[], .void⟩).1.locals.length = slots.toNat := by
    have kinds := congrArg List.length (kinds_entryOf "A" m ⟨[], .void⟩)
    rw [List.length_map, count, static] at kinds
    simpa [entryKinds] using kinds
  have empty : (entryOf "A" m ⟨[], .void⟩).1.stack = [] := rfl
  have two : (entryOf "A" m ⟨[], .void⟩).1.limit = some 2 := rfl
  generalize entered : entryOf "A" m ⟨[], .void⟩ = entry at width empty two
  obtain ⟨⟨locals, stack, limit⟩, s⟩ := entry
  obtain rfl : stack = [] := empty
  obtain rfl : limit = some 2 := two
  let f : Frame := ⟨locals, [], some 2⟩
  obtain ⟨x, s₁, first, int⟩ : ∃ x s₁, f.execute m.body 0 ⟨⟨0⟩, .simple 0x04⟩ s =
      .ok ({ f with stack := [x] }, s₁) ∧ x.kind = .int := ⟨_, _, rfl, rfl⟩
  obtain ⟨y, s₂, second, int'⟩ : ∃ y s₂, Frame.execute { f with stack := [x] } m.body 1 ⟨⟨1⟩, .simple 0x05⟩ s₁ =
      .ok ({ f with stack := [y, x] }, s₂) ∧ y.kind = .int := by
    obtain ⟨id, kind, sources, key, literal⟩ := x
    obtain rfl : kind = .int := int
    exact ⟨_, _, rfl, rfl⟩
  have third : Frame.execute { f with stack := [y, x] } m.body 2 ⟨⟨2⟩, .simple 0x58⟩ s₂ = .ok (f, s₂) := by
    obtain ⟨id, kind, sources, key, literal⟩ := y
    obtain rfl : kind = .int := int'
    obtain ⟨id', kind, sources', key', literal'⟩ := x
    obtain rfl : kind = .int := int
    rfl
  obtain ⟨s₃, last⟩ : ∃ s₃, f.execute m.body 3 ⟨⟨3⟩, .simple Opcode.vreturn⟩ s₂ = .ok (f, s₃) := ⟨_, rfl⟩
  have covered : m.coveredRanges m.body.lastLabels = some [] := rfl
  let frames : Array (Option Frame) :=
    #[some f, some { f with stack := [x] }, some { f with stack := [y, x] }, some f]
  have run : Flow.run ⟨m.body, m.body.lastLabels, []⟩
      (visitBound m.body.size (entryOf "A" m ⟨[], .void⟩).1.locals.length)
      (Flow.start m.body (entryOf "A" m ⟨[], .void⟩)) = .ok ⟨frames, [], s₃⟩ := by
    rw [entered]
    obtain ⟨fuel, more⟩ : ∃ fuel, visitBound m.body.size locals.length = fuel + 5 := by
      refine Nat.exists_eq_add_of_le' ?_
      show 5 ≤ 4 * _ + 1
      omega
    dsimp only
    rw [more]
    refine (Flow.run_next rfl rfl rfl first rfl rfl).trans ?_
    refine (Flow.run_next rfl rfl rfl second rfl rfl).trans ?_
    refine (Flow.run_next rfl rfl rfl third rfl rfl).trans ?_
    exact Flow.run_last rfl rfl last rfl rfl
  refine ⟨Flow.result ⟨frames, [], s₃⟩ m ⟨[], .void⟩, ?_, ?_⟩
  · rw [analyze_eq (show 0 < m.body.size from Nat.zero_lt_succ 3) parsed covered, run]
    rfl
  · exact decide_eq_true ⟨Nat.le_refl 2, width, by rw [List.take_of_length_le (Nat.le_refl 2)]; simp [int, int']⟩

/-- The arguments of a descriptor are any number of longs. -/
theorem parse_longs (n : Nat) :
    MethodDescriptor.parse (String.ofList ('(' :: (List.replicate n 'J' ++ [')', 'V']))) =
      .ok ⟨List.replicate n .long, .void⟩ := by
  have arguments (whole : String) : MethodDescriptor.parseArguments whole (List.replicate n 'J' ++ [')', 'V']) =
      .ok (List.replicate n .long, ['V']) := by
    induction n with
    | zero =>
      unfold MethodDescriptor.parseArguments
      rfl
    | succ n ih =>
      have read (rest : List Char) : Descriptor.parsePrefix ('J' :: rest) = .ok (.long, rest) := rfl
      rw [List.replicate_succ, List.replicate_succ, List.cons_append]
      unfold MethodDescriptor.parseArguments
      split
      · next same => exact absurd (List.cons.inj same).1 (by decide)
      · split
        · next failed =>
          rw [read] at failed
          cases failed
        · next void =>
          rw [read] at void
          cases void
        · next long =>
          rw [read] at long
          cases long
          rw [ih]
  simp only [MethodDescriptor.parse, String.toList_ofList, arguments]
  rfl

theorem words_longs (n : Nat) :
    MethodDescriptor.words ⟨List.replicate n .long, .void⟩ true = 2 * n := by
  have all : total Descriptor.size (List.replicate n .long) = 2 * n := by
    induction n with
    | zero => rfl
    | succ n ih =>
      rw [List.replicate_succ, total_cons, ih]
      show 2 + 2 * n = 2 * (n + 1)
      omega
  rw [MethodDescriptor.words, all]
  exact Nat.zero_add _

/-- A descriptor with arguments of three words, a method that is spliced behind three slots, and two numbers
that are put aside behind seven. -/
theorem counted_exactly_narrow :
    (∃ d, MethodDescriptor.parse "(IJ)V" = .ok d ∧ (d.slots false).toNat = 4) ∧
    (∃ s supply', (Inlining.splice ⟨Opcode.invokestatic, "kotlin/F", "f", "()I"⟩ 3 Inlining.clobberingMethod).run ⟨4⟩ =
      .ok (s, supply') ∧ slotNumbers (s.block.map Insn.node) = [4, 3, 3]) ∧
    ∃ r, analyze "A" (pairingMethod 7) = .ok r ∧
      slotNumbers (Inspection.spill ⟨"A", pairingMethod 7, r⟩ ⟨2⟩ 2).1 = [7, 8] := by
  refine ⟨?_, ?_, ?_⟩
  · have parsed : (MethodDescriptor.parse "(IJ)V").toOption = some ⟨[.int, .long], .void⟩ := by decide +kernel
    have parsed := toOption_eq_some.mp parsed
    have counted := (counted_exactly (.words false parsed)).2.mpr (by decide)
    exact ⟨_, parsed, List.head_eq_of_cons_eq counted⟩
  · have parsed : (MethodDescriptor.parse "()I").toOption = some ⟨[], .int⟩ := by decide +kernel
    have parsed := toOption_eq_some.mp parsed
    let site : Inlining.CallSite := ⟨Opcode.invokestatic, "kotlin/F", "f", "()I"⟩
    obtain ⟨s, supply', run⟩ : ∃ s supply', (Inlining.splice site 3 Inlining.clobberingMethod).run ⟨4⟩ =
        .ok (s, supply') := (Inlining.splice_isOk parsed).mpr (by decide)
    have counted : SlotSums (slotNumbers (s.block.map Insn.node)) [4, 3, 3] :=
      .block (d := ⟨[], .int⟩) parsed run
    exact ⟨s, supply', run, (counted_exactly counted).2.mpr (by decide)⟩
  · obtain ⟨r, analyzed, kinds⟩ := analyzed_pairing 7
    obtain ⟨f, here, known⟩ := (Option.any_eq_true _ _).mp kinds
    obtain ⟨enough, width, kinds⟩ := of_decide_eq_true known
    have there : (pairingMethod 7).body[2]? = some ⟨⟨2⟩, .simple 0x58⟩ := rfl
    have frame : r.frame ⟨2⟩ = some f := (frame_eq_frameAt analyzed (by decide) there).trans here
    let a : Inspection := ⟨"A", pairingMethod 7, r⟩
    have free : a.nextFreeLocal ⟨2⟩ = 7 := by
      rw [Inspection.nextFreeLocal, frame, Option.elim_some, width]
      rfl
    have sums : beginnings Value.size (a.nextFreeLocal ⟨2⟩) ((f.stack.take 2).takeWhile Value.isSpillable) = [7, 8] := by
      obtain ⟨y, rest, split, int, kinds⟩ := List.map_eq_cons_iff.mp kinds
      obtain ⟨x, rest, rfl, int', kinds⟩ := List.map_eq_cons_iff.mp kinds
      obtain rfl := List.map_eq_nil_iff.mp kinds
      have spillable : y.isSpillable = true ∧ x.isSpillable = true := by
        rw [Value.isSpillable, Value.isSpillable, int, int']
        exact ⟨rfl, rfl⟩
      have one : y.size = 1 := by
        rw [Value.size, int]
        rfl
      rw [split, List.takeWhile_cons_of_pos spillable.1, List.takeWhile_cons_of_pos spillable.2, beginnings, one, free]
      rfl
    have counted : SlotSums (slotNumbers (a.spill ⟨2⟩ 2).1) [7, 8] :=
      sums ▸ .stores frame (Nat.zero_lt_succ 1) enough
    exact ⟨r, analyzed, (counted_exactly counted).2.mpr (by decide)⟩

/-- The sums wrap around, and nothing fails: the 65536 words of 32768 longs are counted as none, the slot of a
variable behind a returned value in the last slot is the first slot, and so is that of an entry behind one that
is put aside there. -/
theorem slots_wrapped :
    (∃ text d, MethodDescriptor.parse text = .ok d ∧ d.words true = 65536 ∧ d.slots true = 0) ∧
    (∃ r s supply', analyze "A" Inlining.crowdedMethod = .ok r ∧
      (Inlining.splice ⟨Opcode.invokestatic, "kotlin/F", "f", "()I"⟩
        (.ofNat (Inspection.nextFreeLocal ⟨"A", Inlining.crowdedMethod, r⟩ ⟨0⟩)) Inlining.clobberingMethod).run ⟨4⟩ =
        .ok (s, supply') ∧ slotNumbers (s.block.map Insn.node) = [0, 65535, 65535]) ∧
    ∃ r, analyze "A" (pairingMethod 65535) = .ok r ∧
      Inspection.spill ⟨"A", pairingMethod 65535, r⟩ ⟨2⟩ 2 =
        ([.var Opcode.istore 65535, .var Opcode.istore 0], .ok [.var Opcode.iload 65535, .var Opcode.iload 0]) := by
  refine ⟨⟨_, _, parse_longs 32768, words_longs 32768, ?_⟩, ?_, ?_⟩
  · rw [MethodDescriptor.slots, words_longs]
    rfl
  · obtain ⟨r, analyzed⟩ := Inlining.analyzed_crowded
    have parsed : (MethodDescriptor.parse "(I)I").toOption = some ⟨[.int], .int⟩ := by decide +kernel
    have parsed := toOption_eq_some.mp parsed
    have called : (MethodDescriptor.parse "()I").toOption = some ⟨[], .int⟩ := by decide +kernel
    have called := toOption_eq_some.mp called
    have free : Inspection.nextFreeLocal ⟨"A", Inlining.crowdedMethod, r⟩ ⟨0⟩ = 65535 :=
      nextFreeLocal_eq_slotsOf analyzed parsed (by decide) _
    let site : Inlining.CallSite := ⟨Opcode.invokestatic, "kotlin/F", "f", "()I"⟩
    obtain ⟨s, supply', run⟩ : ∃ s supply', (Inlining.splice site 65535 Inlining.clobberingMethod).run ⟨4⟩ =
        .ok (s, supply') := (Inlining.splice_isOk called).mpr (by decide)
    have numbers : slotNumbers (s.block.map Insn.node) = [0, 65535, 65535] :=
      (Inlining.slotNumbers_splice (d := ⟨[], .int⟩) called run).1
    exact ⟨r, s, supply', analyzed, by rw [free]; exact run, numbers⟩
  · obtain ⟨r, analyzed, kinds⟩ := analyzed_pairing 65535
    have there : (pairingMethod 65535).body[2]? = some ⟨⟨2⟩, .simple 0x58⟩ := rfl
    obtain ⟨f, -, -, spilled⟩ := spill_of_kindsAt analyzed (by decide) there (Nat.zero_lt_succ 1) kinds
    exact ⟨r, analyzed, spilled⟩

end

end Bytecode
