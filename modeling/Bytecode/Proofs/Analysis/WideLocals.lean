import Bytecode.Proofs.Analysis.Constants
import Bytecode.Proofs.Analysis.Inversion
import Bytecode.Proofs.Analysis.Occupancy

/-!
# Local variables of two words

A value of two words in a slot is followed by a slot in which there is nothing. Stores see to that: they
empty the slot behind such a value, and the slot before if the value there loses its second word. Joins and
handlers keep it.

Increments do not look at the slot before. `locals_whole` says that nothing else tears a value apart, and
`torn_local` shows a method in which an increment does.
-/

namespace Bytecode.Analysis

open Tokens (Movement movement?)

/-- If a slot holds a value of two words, then there is a slot for the second word, which holds nothing unless
values are torn apart. -/
def Frame.WholeAt (torn : Prop) (k : Nat) (f : Frame) : Prop :=
  ∀ v, f.locals[k]? = some v → v.isWide = true →
    ∃ w, f.locals[k + 1]? = some w ∧ (torn ∨ w.kind = .uninitialized)

/-- A node increments the slot of the second word of a value. -/
def Frame.TornBy (k : Nat) (f : Frame) (node : Node) : Prop :=
  (∃ slot amount, node = .increment slot amount ∧ slot.toNat = k + 1) ∧
    f.locals[k]?.any Value.isWide = true

namespace Frame

variable {torn : Prop} {f g : Frame} {body : Body} {i k : Nat} {insn : Insn} {slot : UInt16} {v : Value}
  {s s' : Store}

/-- A frame that claims less has no more values of two words. -/
theorem WholeAt.mono (whole : f.WholeAt torn k) (below : f.Le g) : g.WholeAt torn k := by
  intro v found wide
  obtain ⟨u, there, le⟩ := getElem?_of_forall₂ below.locals found
  have wide : u.isWide = true := by
    rcases le.kind with same | unknown
    · rwa [Value.isWide, ← same]
    · rw [Value.isWide, unknown] at wide
      cases wide
  obtain ⟨w, behind, empty⟩ := whole u there wide
  obtain ⟨w', behind', le⟩ := getElem?_of_forall₂ below.locals.flip behind
  refine ⟨w', behind', empty.imp_right fun empty => ?_⟩
  rcases le.kind with same | unknown
  · rw [same, empty]
  · exact unknown

/-- A store leaves values whole, wherever it overlaps them. -/
theorem WholeAt.store (whole : f.WholeAt torn k) (small : k < 65535) (written : Written f slot v g) :
    g.WholeAt torn k := by
  intro u found wide
  have last : (slot + 1).toNat = (slot.toNat + 1) % 65536 := UInt16.toNat_add slot 1
  have exists_ (inside : k + 1 < f.locals.length) : ∃ w, g.locals[k + 1]? = some w :=
    ⟨_, List.getElem?_eq_getElem (written.width ▸ inside)⟩
  have here := written.slots k u found
  unfold WrittenAt at here
  split at here
  · next same =>
    -- the value was stored, and the slot behind it emptied
    subst same here
    have next : (slot + 1).toNat = slot.toNat + 1 := by omega
    obtain ⟨w, behind⟩ := exists_ (next ▸ written.second wide)
    have blank := written.slots _ w behind
    unfold WrittenAt at blank
    rw [if_neg (by omega), if_pos (.inl ⟨next.symm, wide⟩)] at blank
    exact ⟨w, behind, .inr blank.1⟩
  · next away =>
    split at here
    · rw [Value.isWide, here.1] at wide
      cases wide
    · next apart =>
      -- the value was there before, and the store has not reached its second word
      obtain ⟨w₀, there, empty⟩ := whole u here wide
      obtain ⟨w, behind⟩ := exists_ (List.getElem?_eq_some_iff.mp there).1
      refine ⟨w, behind, ?_⟩
      have kept := written.slots _ w behind
      unfold WrittenAt at kept
      split at kept
      · next same => exact absurd (.inr ⟨same, by rw [here, Option.any_some, wide]⟩) apart
      · split at kept
        · exact .inr kept.1
        · obtain rfl : w₀ = w := Option.some.inj (there.symm.trans kept)
          exact empty

/-- Only stores and increments change local variables. -/
theorem change_eq_kept {m : Movement} (moves : movement? insn.node = some m)
    (access : ∀ op slot, insn.node = .var op slot → ∃ kind, SlotAccess.ofOpcode op = .load kind)
    (increment : ∀ slot amount, insn.node ≠ .increment slot amount) (slots : Nat → Option Kind)
    (kinds : List Kind) (k : Nat) : m.change slots kinds k = .kept := by
  rcases rearranges_of_movement moves with ⟨count, result, rfl⟩ | rearranges
  · rfl
  · cases rearranges with
    | store node stores =>
      obtain ⟨kind, loads⟩ := access _ _ node
      cases stores.symm.trans loads
    | increment node => exact absurd node (increment _ _)
    | _ => rfl

/-- The local variables behind an instruction: a store has written into them, an increment has put an int into
one, and everything else leaves them as they are. -/
theorem locals_of_execute (executed : f.execute body i insn s = .ok (g, s')) :
    g.locals = f.locals ∨ (∃ slot v rest, Written { f with stack := rest } slot v g) ∨
      ∃ slot amount w, insn.node = .increment slot amount ∧ w.kind = .int ∧
        g.locals = f.locals.set slot.toNat w := by
  have called (descriptor : String) (receiver : Nat)
      (executed : (do f.applyCall insn ((← argumentCount descriptor) + receiver) : Step Frame) s =
        .ok (g, s')) : g.locals = f.locals := by
    obtain ⟨count, s₁, -, executed⟩ := Step.bind_eq_ok executed
    exact applyCall_locals executed
  have unmoved (plain : PlainReturn insn.node)
      (access : ∀ op slot, insn.node = .var op slot → ∃ kind, SlotAccess.ofOpcode op = .load kind)
      (increment : ∀ slot amount, insn.node ≠ .increment slot amount) : g.locals = f.locals := by
    obtain ⟨m, x, moves⟩ := moves_of_execute plain executed
    refine List.ext_getElem? fun k => ?_
    cases found : g.locals[k]? with
    | none =>
      rw [List.getElem?_eq_none_iff, moves.width] at found
      exact (List.getElem?_eq_none found).symm
    | some u =>
      have remains := moves.locals k u found
      rw [change_eq_kept moves.movement access increment] at remains
      exact remains.symm
  obtain ⟨id, node⟩ := insn
  cases node with
  | var op slot =>
    cases access : SlotAccess.ofOpcode op with
    | load kind => exact .inl (unmoved nofun (fun _ _ same => by cases same; exact ⟨kind, access⟩) nofun)
    | store kind =>
      unfold execute at executed
      simp only [access] at executed
      obtain ⟨u, w, rest, t, -, -, written⟩ := popStore_eq_ok executed
      exact .inr (.inl ⟨slot, w, rest, written⟩)
    | other =>
      unfold execute at executed
      simp only [access] at executed
      cases executed
  | increment slot amount =>
    obtain ⟨u, w, t, -, -, int, rfl⟩ := increment_eq_ok executed
    exact .inr (.inr ⟨slot, amount, w, rfl, int, rfl⟩)
  | call op owner name descriptor isInterface => exact .inl (called descriptor _ executed)
  | dynamicCall name descriptor bootstrap arguments => exact .inl (called descriptor 0 executed)
  | _ => exact .inl (unmoved nofun nofun nofun)

/-- An instruction leaves a value whole unless it increments the slot of its second word. -/
theorem WholeAt.execute (whole : f.WholeAt torn k) (small : k < 65535) (tears : f.TornBy k insn.node → torn)
    (executed : f.execute body i insn s = .ok (g, s')) : g.WholeAt torn k := by
  rcases locals_of_execute executed with same | ⟨slot, v, rest, written⟩ | ⟨slot, amount, x, node, int, same⟩
  · rw [WholeAt, same]
    exact whole
  · exact WholeAt.store (f := { f with stack := rest }) whole small written
  · intro v found wide
    rw [same, List.getElem?_set] at found
    split at found
    · split at found
      · cases found
        rw [Value.isWide, int] at wide
        cases wide
      · cases found
    · obtain ⟨w, behind, empty⟩ := whole v found wide
      rw [same, List.getElem?_set]
      split
      · next second =>
        rw [if_pos (second ▸ (List.getElem?_eq_some_iff.mp behind).1)]
        exact ⟨x, rfl, .inl (tears ⟨⟨slot, amount, node, second⟩, by rw [found, Option.any_some, wide]⟩)⟩
      · exact ⟨w, behind, empty⟩

end Frame

/-! ## The frames of a method -/

section

variable {torn : Prop} {owner : String} {m : Method} {r : Frames} {i k : Nat} {f : Frame} {v : Value}

/-- At the entry of a method the arguments are whole. -/
theorem wholeAt_entryOf (torn : Prop) (owner : String) (m : Method) (d : MethodDescriptor) (k : Nat) :
    (entryOf owner m d).1.WholeAt torn k := by
  intro v found wide
  have kinds := kinds_entryOf owner m d
  have kind : ((entryOf owner m d).1.locals.map Value.kind)[k]? = some v.kind := by
    rw [List.getElem?_map, found, Option.map_some]
  have second : ((entryOf owner m d).1.locals.map Value.kind)[k + 1]? = some .uninitialized := by
    rw [kinds, List.getElem?_append] at kind
    split at kind
    · have second := second_of_entryKinds kind wide
      rwa [kinds, List.getElem?_append_left (List.getElem?_eq_some_iff.mp second).1]
    · rw [Value.isWide, List.eq_of_mem_replicate (List.mem_of_getElem? kind)] at wide
      cases wide
  rw [List.getElem?_map] at second
  obtain ⟨w, behind, empty⟩ := Option.map_eq_some_iff.mp second
  exact ⟨w, behind, .inr empty⟩

/-- **Values of two words are whole.** Whenever a slot holds a long or a double, the next slot is there, and it
holds nothing unless a reached instruction increments that slot while a value of two words is in the slot before.
This is about the slots below 65535, which are all that a method can have whose arguments can be counted with
16 bits. -/
theorem locals_whole (analyzed : analyze owner m = .ok r) (here : r.frameAt i = some f) (small : k < 65535)
    (found : f.locals[k]? = some v) (wide : v.kind = .long ∨ v.kind = .double) :
    ∃ w, f.locals[k + 1]? = some w ∧ ((∃ j insn g, m.body[j]? = some insn ∧ r.frameAt j = some g ∧
      g.TornBy k insn.node) ∨ w.kind = .uninitialized) := by
  obtain ⟨d, parsed⟩ := parse_of_analyze analyzed
  refine frameAt_inherits analyzed parsed (fun whole below => whole.mono below)
    (wholeAt_entryOf _ owner m d k) ?_ (fun whole => whole) here v found ?_
  · intro j insn f g s s' at_position here whole executed
    exact whole.execute small (fun tears => ⟨j, insn, f, at_position, here, tears⟩) executed
  · rcases wide with wide | wide <;> rw [Value.isWide, wide] <;> rfl

/-- The kinds of the local variables before a position. -/
def Frames.localKinds (r : Frames) (i : Nat) : Option (List Kind) :=
  (r.frameAt i).map fun f => f.locals.map Value.kind

theorem exists_of_localKinds {r : Frames} {kinds : List Kind} {kind : Kind} (h : r.localKinds i = some kinds)
    (there : kinds[k]? = some kind) :
    ∃ f v, r.frameAt i = some f ∧ f.locals.map Value.kind = kinds ∧ f.locals[k]? = some v ∧ v.kind = kind := by
  obtain ⟨f, here, rfl⟩ := Option.map_eq_some_iff.mp h
  rw [List.getElem?_map] at there
  obtain ⟨v, found, same⟩ := Option.map_eq_some_iff.mp there
  exact ⟨f, v, here, rfl, found, same⟩

end

/-- A method that stores a long over the second word of another one. -/
def overlappingMethod : Method where
  id := ⟨0⟩
  access := 9
  name := "m"
  descriptor := "()V"
  body := numbered [.simple 0x09, .var Opcode.lstore 0, .simple 0x0a, .var Opcode.lstore 1, .simple Opcode.vreturn]

/-- The long that was stored last is whole. -/
theorem locals_whole_overlapping : ∃ r f v w, analyze "A" overlappingMethod = .ok r ∧ r.frameAt 4 = some f ∧
    f.locals[1]? = some v ∧ v.kind = .long ∧ f.locals[2]? = some w ∧ w.kind = .uninitialized := by
  have evaluated : (analyze "A" overlappingMethod).toOption.any (fun r =>
      decide (r.localKinds 4 = some [.uninitialized, .long, .uninitialized])) = true := by
    unfold analyze
    rw [Body.ofTable_labelTable]
    decide +kernel
  obtain ⟨r, analyzed, kinds⟩ := exists_of_any evaluated
  obtain ⟨f, v, here, -, found, long⟩ := exists_of_localKinds (k := 1) (of_decide_eq_true kinds) rfl
  obtain ⟨w, behind, torn | empty⟩ := locals_whole analyzed here (by decide) found (.inl long)
  · obtain ⟨j, insn, g, at_position, -, ⟨slot, amount, node, -⟩, -⟩ := torn
    have none_ : ∀ insn ∈ overlappingMethod.body, ∀ slot amount, insn.node ≠ .increment slot amount := by
      simp [overlappingMethod, numbered]
    exact absurd node (none_ insn (Array.mem_of_getElem? at_position) slot amount)
  · exact ⟨r, f, v, w, analyzed, here, found, long, behind, empty⟩

/-- A method that increments the second slot of a long. -/
def incrementingMethod : Method where
  id := ⟨0⟩
  access := 9
  name := "m"
  descriptor := "()V"
  body := numbered [.simple 0x09, .var Opcode.lstore 0, .increment 1 1, .simple Opcode.vreturn]

/-- Behind the increment the long is still there, and its second word is an int. -/
theorem torn_local : ∃ r f v w, analyze "A" incrementingMethod = .ok r ∧ r.frameAt 3 = some f ∧
    f.locals[0]? = some v ∧ v.kind = .long ∧ f.locals[1]? = some w ∧ w.kind = .int := by
  have evaluated : (analyze "A" incrementingMethod).toOption.any (fun r =>
      decide (r.localKinds 3 = some [.long, .int])) = true := by
    unfold analyze
    rw [Body.ofTable_labelTable]
    decide +kernel
  obtain ⟨r, analyzed, kinds⟩ := exists_of_any evaluated
  obtain ⟨f, v, here, all, found, long⟩ := exists_of_localKinds (k := 0) (of_decide_eq_true kinds) rfl
  have second : (f.locals.map Value.kind)[1]? = some .int := by rw [all]; rfl
  rw [List.getElem?_map] at second
  obtain ⟨w, behind, int⟩ := Option.map_eq_some_iff.mp second
  exact ⟨r, f, v, w, analyzed, here, found, long, behind, int⟩

end Bytecode.Analysis
