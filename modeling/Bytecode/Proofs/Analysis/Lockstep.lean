import Bytecode.Proofs.Analysis.Inversion
import Bytecode.Proofs.Analysis.Tracking

/-!
# Instructions simulated side by side

If an instruction can be simulated on a frame, then it can on another frame that tracks it, and the frames
behind it can be compared again (`execute_follows`): entries that stay are related as before, and new
entries come in twins. For this both frames have to agree on the kinds of the entries whose sizes the
instruction asks for.

The proof has one part for each way in which instructions move values: they take operands, they access
a local variable, they drop words, or they rearrange entries.
-/

namespace Bytecode.Analysis

open Tokens (Movement movement? shuffledWords operationMovement accessMovement cut)

variable {f f' g g' : Frame} {s t t' : Store} {insn : Insn} {body body' : Body} {index index' : Nat}

/-! ## Entries that are made -/

/-- Whether a node with some operands makes a value of them. -/
def yields (node : Node) (operands : Nat) : Bool :=
  if calls node then (Transfer.resultKind node).isSome
  else match operands with
    | 0 => pushes node
    | 1 => (Transfer.unaryKind node).isSome
    | 2 => (binaryKind node).isSome
    | _ => false

/-- Whether a node puts an entry on the stack that it makes. -/
def makes (node : Node) : Bool :=
  match movement? node with
  | some (.operate operands _) => yields node operands
  | some (.load _) | some (.shuffle _) => true
  | _ => false

theorem yields_of_calls {node : Node} (call : calls node = true) (operands : Nat) :
    yields node operands = (Transfer.resultKind node).isSome := by
  unfold yields
  rw [if_pos call]

/-- Whether an instruction makes a value depends on the number of its operands. -/
theorem isSome_resultOf (insn : Insn) (taken : List Value) (s : Store) :
    (resultOf insn taken s).1.isSome = yields insn.node taken.length := by
  cases call : calls insn.node with
  | true =>
    rw [resultOf_of_calls call, yields_of_calls call]
    obtain ⟨s', literal, -, made⟩ := call_fst insn taken s
    cases kind : Transfer.resultKind insn.node with
    | none =>
      rw [kind] at made
      exact congrArg Option.isSome made
    | some kind' =>
      rw [kind] at made
      obtain ⟨t, made⟩ := made
      exact congrArg Option.isSome made
  | false =>
    unfold yields
    rw [resultOf_of_not_calls call, if_neg (ne_true_of_eq_false call)]
    rcases taken with _ | ⟨u, _ | ⟨v, _ | ⟨w, rest⟩⟩⟩
    · show ((if pushes insn.node = true then some <$> Transfer.push insn else return none) s).1.isSome =
        pushes insn.node
      split
      · next pushing => exact pushing.symm
      · next quiet => exact (eq_false_of_ne_true quiet).symm
    · show (Transfer.unary insn u s).1.isSome = (Transfer.unaryKind insn.node).isSome
      unfold Transfer.unary
      cases Transfer.unaryKind insn.node <;> rfl
    · show (Transfer.binary insn u v s).1.isSome = (binaryKind insn.node).isSome
      unfold Transfer.binary binaryKind
      cases insn.node with
      | simple op =>
        dsimp only
        cases Operation.ofOpcode op <;> rfl
      | _ => rfl
    · rfl

/-! ## Steps side by side -/

section

variable {exact : Prop} {R : Value → Value → Prop}

/-- The nodes that put no entry on the stack but one that they make: all but the shuffles other than
DUP. -/
def Shallow (node : Node) : Prop :=
  ∀ form, movement? node = some (.shuffle form) → form = .dup

instance (node : Node) : Decidable (Shallow node) :=
  match moves : movement? node with
  | some (.shuffle form) => decidable_of_iff (form = .dup)
      ⟨fun h form' moves' => by cases moves.symm.trans moves'; exact h, fun h => h form moves⟩
  | none | some (.operate ..) | some (.load _) | some (.store _) | some (.increment _) | some (.drop _) =>
    .isTrue fun form moves' => by cases moves.symm.trans moves'

/-- The frames behind an instruction that was simulated on two frames. The entries on top are related as
before, or the instruction has made both; those below are related as before. An instruction that makes
an entry leaves the local variables alone. If it is `Shallow`, then what it makes is the only entry
on top. -/
structure Steps (exact : Prop) (R : Value → Value → Prop) (insn : Insn) (f g f' g' : Frame) : Prop where
  stack : ∃ us us' vs vs', f'.stack = us ++ us' ∧ g'.stack = vs ++ vs' ∧
    List.Forall₂ (fun u v => R u v ∨ u.Twins exact insn.id v) us vs ∧ List.Forall₂ R us' vs' ∧
    (Shallow insn.node → us.length = (makes insn.node).toNat ∧ List.Forall₂ (Value.Twins exact insn.id) us vs)
  kept : makes insn.node = true → f'.locals = f.locals ∧ g'.locals = g.locals
  locals : ∀ (k : Nat) u v, f'.locals[k]? = some u → g'.locals[k]? = some v → u.Within exact v
  room : ∀ (k : Nat) u, f'.locals[k]? = some u → k < g'.locals.length → u.isWide = true →
    (k + 1) % 65536 < g'.locals.length
  width : f'.locals.length = f.locals.length ∧ g'.locals.length = g.locals.length
  limit : f'.limit = f.limit

/-- Frames behind an instruction can be compared if what it makes can. -/
theorem Steps.tracks (h : Steps exact R insn f g f' g') (made : ∀ u v, u.Twins exact insn.id v → R u v) :
    f'.Tracks exact R g' where
  stack := by
    obtain ⟨us, us', vs, vs', stack, stack', top, rest, -⟩ := h.stack
    rw [stack, stack']
    exact List.rel_append (top.imp fun u v related => related.elim (fun old => old) (made u v)) rest
  locals := h.locals
  room := h.room

/-- Behind a shallow instruction that makes an entry, the others are related as before. -/
theorem Steps.tail (h : Steps exact R insn f g f' g') (shallow : Shallow insn.node)
    (made : makes insn.node = true) : ∃ u us v vs, f'.stack = u :: us ∧ g'.stack = v :: vs ∧
      u.Twins exact insn.id v ∧ List.Forall₂ R us vs := by
  obtain ⟨us, us', vs, vs', stack, stack', -, rest, one⟩ := h.stack
  obtain ⟨length, twins⟩ := one shallow
  rw [made] at length
  obtain ⟨u, rfl⟩ := List.length_eq_one_iff.mp length
  obtain ⟨v, vs, twin, none, rfl⟩ := List.forall₂_cons_left_iff.mp twins
  obtain rfl := List.forall₂_nil_left_iff.mp none
  exact ⟨u, us', v, vs', stack, stack', twin, rest⟩

/-- An instruction that works on the stack only. -/
theorem steps_of_stack (h : f.Tracks exact R g) {us us' vs vs' : List Value}
    (top : List.Forall₂ (fun u v => R u v ∨ u.Twins exact insn.id v) us vs) (rest : List.Forall₂ R us' vs')
    (one : Shallow insn.node →
      us.length = (makes insn.node).toNat ∧ List.Forall₂ (Value.Twins exact insn.id) us vs) :
    Steps exact R insn f g { f with stack := us ++ us' } { g with stack := vs ++ vs' } :=
  ⟨⟨us, us', vs, vs', rfl, rfl, top, rest, one⟩, fun _ => ⟨rfl, rfl⟩, h.locals, h.room, ⟨rfl, rfl⟩, rfl⟩

/-- The slots that an instruction accesses exist in a frame, also that of a second word. -/
structure Frame.Reaches (f : Frame) (node : Node) : Prop where
  slot : ∀ slot, movement? node ∈ [some (.load slot), some (.store slot), some (.increment slot)] →
    slot.toNat < f.locals.length
  second : ∀ slot v, movement? node = some (.store slot) → f.stack.head? = some v → v.isWide = true →
    (slot + 1).toNat < f.locals.length

/-- A simulation on a first frame follows one on a second frame: its results can be compared, and without
a limit it has a result if the slots are there. -/
structure Follows (exact : Prop) (R : Value → Value → Prop) (insn : Insn) (f g : Frame) (x : Step Frame)
    (g' : Frame) : Prop where
  steps : ∀ s f' s', x s = .ok (f', s') → Steps exact R insn f g f' g'
  succeeds : f.limit = none → f.Reaches insn.node → ∀ s, ∃ r, x s = .ok r

theorem push_of_unlimited (unlimited : f.limit = none) (v : Value) :
    f.push v = .ok { f with stack := v :: f.stack } := by
  unfold Frame.push
  rw [unlimited]

theorem forall₂_toList {α β : Type} {S : α → β → Prop} {o : Option α} {p : Option β} (h : Option.Rel S o p) :
    List.Forall₂ S o.toList p.toList := by
  cases h with
  | none => exact .nil
  | some related => exact .cons related .nil

/-- An instruction that makes an entry exactly if there is one. -/
theorem made_of_toList {o p : Option Value} (twins : Option.Rel (Value.Twins exact insn.id) o p)
    (made : p.isSome = makes insn.node) :
    o.toList.length = (makes insn.node).toNat ∧ List.Forall₂ (Value.Twins exact insn.id) o.toList p.toList := by
  refine ⟨?_, forall₂_toList twins⟩
  rw [← made]
  cases twins <;> rfl

section

variable (h : f.Tracks exact R g) (compares : Comparison exact R) (hf : exact → f.Every Value.Matched)
  (hg : exact → g.Every Value.Matched)

include h compares hg in
/-- An instruction that takes operands. -/
theorem apply_follows {count : Nat} {result : Option Kind}
    (movement : movement? insn.node = some (.operate count result))
    (allowed : exact → insn.node ≠ .type Opcode.new builderClass)
    (executed : g.apply insn count t = .ok (g', t')) :
    Follows exact R insn f g (f.apply insn count) g' := by
  obtain ⟨enough, o, made, rfl⟩ := Frame.apply_eq_ok executed
  have twins (s : Store) : Option.Rel (Value.Twins exact insn.id)
      (resultOf insn (f.stack.take count).reverse s).1 o := by
    have taken : List.Forall₂ (Value.Within exact) (f.stack.take count).reverse (g.stack.take count).reverse :=
      List.forall₂_reverse_iff.mpr (h.stack.imp (fun u v => compares.within) |> List.forall₂_take count)
    have counted : (g.stack.take count).reverse.length = count := by simpa using enough
    have := resultOf_twins (by rw [counted]; exact movement) allowed taken
      (fun compared v member => (hg compared).stack v (List.mem_of_mem_take (List.mem_reverse.mp member))) s t
    rwa [made] at this
  refine ⟨fun s f' s' run => ?_, fun unlimited _ s => ?_⟩
  · obtain ⟨-, o', made', rfl⟩ := Frame.apply_eq_ok run
    have twins := twins s
    rw [made'] at twins
    have yielded := isSome_resultOf insn (g.stack.take count).reverse t
    rw [made, List.length_reverse, List.length_take, Nat.min_eq_left enough] at yielded
    exact steps_of_stack h ((forall₂_toList twins).imp fun u v => .inr) (List.forall₂_drop count h.stack)
      fun _ => made_of_toList twins (by rw [yielded, makes, movement])
  · refine Step.bind_exists ?_ fun r s₁ popping => ?_
    · rw [Frame.popMany, if_neg (by rw [h.stack.length_eq]; omega)]
      exact ⟨_, rfl⟩
    refine Step.bind_exists ⟨_, rfl⟩ fun o s₂ _ => ?_
    obtain ⟨popped, -⟩ := Step.liftExcept_eq_ok popping
    have same : r.2.limit = none := by
      obtain ⟨taken, f₁⟩ := r
      obtain ⟨-, -, rfl⟩ := Frame.popMany_eq_ok popped
      exact unlimited
    cases o with
    | none => exact ⟨_, rfl⟩
    | some v =>
      rw [Frame.push?, push_of_unlimited same]
      exact ⟨_, rfl⟩

include h hf hg in
/-- A load of a local variable. -/
theorem load_follows {slot : UInt16} (movement : movement? insn.node = some (.load slot))
    (executed : (do
      let v ← g.getLocal slot.toNat
      g.push (← Transfer.copy body' index' insn.id v) : Step Frame) t = .ok (g', t')) :
    Follows exact R insn f g (do
      let v ← f.getLocal slot.toNat
      f.push (← Transfer.copy body index insn.id v)) g' := by
  obtain ⟨v, w, t₁, found, copied, rfl⟩ := load_eq_ok executed
  refine ⟨fun s f' s' run => ?_, fun unlimited reaches s => ?_⟩
  · obtain ⟨u, w', s₁, found', copied', rfl⟩ := load_eq_ok run
    have twins := copy_twins (h.locals _ u v found' found)
      (fun compared => (hf compared).locals u (List.mem_of_getElem? found'))
      (fun compared => (hg compared).locals v (List.mem_of_getElem? found)) copied' copied
    have twins : Option.Rel (Value.Twins exact insn.id) (some w') (some w) := .some twins
    exact steps_of_stack h ((forall₂_toList twins).imp fun u v => .inr) h.stack
      fun _ => made_of_toList twins (by rw [makes, movement]; rfl)
  · have inside := reaches.slot slot (by simp [movement])
    refine Step.bind_exists ?_ fun v s₁ _ => Step.bind_exists ⟨_, rfl⟩ fun w s₂ _ => ?_
    · rw [Frame.getLocal, List.getElem?_eq_getElem inside]
      exact ⟨_, rfl⟩
    · rw [push_of_unlimited unlimited]
      exact ⟨_, rfl⟩

include h hf hg in
/-- The slots behind two stores can be compared. -/
theorem writtenAt_within {slot : UInt16} {w w' x y : Value} {k : Nat} (wide : w'.isWide = w.isWide)
    (within : w'.Within exact w) (left : WrittenAt f slot w' k x) (right : WrittenAt g slot w k y) :
    x.Within exact y := by
  unfold WrittenAt at left right
  rw [wide] at left
  split at left
  · next here =>
    rw [if_pos here] at right
    rw [left, right]
    exact within
  · next other =>
    rw [if_neg other] at right
    split at right
    · next emptied => exact ⟨.inr right.1, fun _ l known => by simp [right.2] at known⟩
    · next kept =>
      split at left
      · next emptied =>
        -- what is torn apart on one side only is a value of unknown kind on the other
        obtain ⟨before, torn⟩ := emptied.resolve_left fun behind => kept (.inl behind)
        obtain ⟨old, held⟩ : ∃ old, f.locals[k]? = some old :=
          Option.isSome_iff_exists.mp (Option.isSome_of_any torn)
        rw [held, Option.any_some] at torn
        have narrow : y.isWide = false := by
          refine eq_false_of_ne_true fun wide_y => kept (.inr ⟨before, ?_⟩)
          rw [right, Option.any_some, wide_y]
        obtain ⟨unknown, literal⟩ := (h.locals k old y held right).literal_of_wide
          (fun compared => (hf compared).locals old (List.mem_of_getElem? held))
          (fun compared => (hg compared).locals y (List.mem_of_getElem? right)) torn narrow
        exact ⟨.inr unknown, fun compared l known => by simp [literal compared] at known⟩
      · exact h.locals k x y left right

include h in
/-- Where a value of two words is behind a store, the second frame has room for it. -/
theorem writtenAt_room {slot : UInt16} {w w' x : Value} {k : Nat} (wide : w'.isWide = w.isWide)
    (second : w.isWide = true → (slot + 1).toNat < g.locals.length) (left : WrittenAt f slot w' k x)
    (inside : k < g.locals.length) (double : x.isWide = true) : (k + 1) % 65536 < g.locals.length := by
  unfold WrittenAt at left
  split at left
  · next here =>
    have room := second (by rw [← wide, ← left, double])
    rwa [UInt16.toNat_add, UInt16.toNat_one, ← here] at room
  · split at left
    · rw [Value.isWide, left.1] at double
      cases double
    · exact h.room k x left inside double

include h hf hg in
/-- A store into a local variable. -/
theorem store_follows {slot : UInt16} (movement : movement? insn.node = some (.store slot))
    (asked : f.kinds.take 1 = g.kinds.take 1) (compares : Comparison exact R)
    (executed : (do
      let (v, f) ← g.pop
      f.store slot (← Transfer.copy body' index' insn.id v) : Step Frame) t = .ok (g', t')) :
    Follows exact R insn f g (do
      let (v, f) ← f.pop
      f.store slot (← Transfer.copy body index insn.id v)) g' := by
  obtain ⟨v, w, below, t₁, stack, copied, written⟩ := popStore_eq_ok executed
  refine ⟨fun s f' s' run => ?_, fun unlimited reaches s => ?_⟩
  · obtain ⟨u, w', below', s₁, stack', copied', written'⟩ := popStore_eq_ok run
    obtain ⟨related, rest⟩ : R u v ∧ List.Forall₂ R below' below := by
      have := h.stack
      rw [stack, stack'] at this
      exact List.forall₂_cons.mp this
    have same : u.kind = v.kind := by simpa [Frame.kinds, stack, stack'] using asked
    have twins := copy_twins (compares.within related)
      (fun compared => (hf compared).stack u (by simp [stack']))
      (fun compared => (hg compared).stack v (by simp [stack])) copied' copied
    have wide : w'.isWide = w.isWide := by
      rw [Value.isWide, Value.isWide, (copy_eq copied).1, (copy_eq copied').1, same]
    have quiet : makes insn.node = false := by rw [makes, movement]
    refine ⟨⟨[], f'.stack, [], g'.stack, rfl, rfl, .nil, ?_, fun _ => ⟨by rw [quiet]; rfl, .nil⟩⟩,
      fun made => by simp [quiet] at made, fun k x y hx hy => ?_, fun k x hx inside double => ?_,
      ⟨written'.width, written.width⟩, written'.limit⟩
    · rw [written.stack, written'.stack]
      exact rest
    · exact writtenAt_within h hf hg wide twins.within (written'.slots k x hx) (written.slots k y hy)
    · rw [written.width] at inside ⊢
      exact writtenAt_room h wide written.second (written'.slots k x hx) inside double
  · have inside := reaches.slot slot (by simp [movement])
    have second (u : Value) := reaches.second slot u movement
    refine Step.bind_exists ?_ fun r s₁ popping => ?_
    · unfold Frame.pop
      cases stack' : f.stack with
      | nil => simpa [stack, stack'] using h.stack.length_eq
      | cons u rest => exact ⟨_, rfl⟩
    obtain ⟨u, f₁⟩ := r
    obtain ⟨popped, -⟩ := Step.liftExcept_eq_ok popping
    obtain ⟨stack', same⟩ := Frame.pop_eq_ok popped
    have locals : f₁.locals = f.locals := by rw [same]
    refine Step.bind_exists ⟨_, rfl⟩ fun w' s₂ copying => ?_
    refine store_of_inside (by rwa [locals]) (fun wide => ?_) s₂
    rw [locals]
    refine second u (by rw [stack']; rfl) ?_
    rwa [Value.isWide, ← (copy_eq (Step.lift_eq_ok copying)).1]

include h in
/-- An increment of a local variable. -/
theorem increment_follows {id : InsnId} {slot : UInt16} {amount : Int16}
    (executed : g.execute body' index' ⟨id, .increment slot amount⟩ t = .ok (g', t')) :
    Follows exact R ⟨id, .increment slot amount⟩ f g (f.execute body index ⟨id, .increment slot amount⟩) g' := by
  obtain ⟨v, w, t₁, found, made, -, rfl⟩ := increment_eq_ok executed
  refine ⟨fun s f' s' run => ?_, fun _ reaches s => ?_⟩
  · obtain ⟨u, w', s₁, found', made', narrow, rfl⟩ := increment_eq_ok run
    have twins : Option.Rel (Value.Twins exact (Insn.id ⟨id, .increment slot amount⟩))
        (Transfer.unary ⟨id, .increment slot amount⟩ u s₁).1
        (Transfer.unary ⟨id, .increment slot amount⟩ v t₁).1 :=
      unary_twins (h.locals _ u v found' found) s₁ t₁
    rw [made, made'] at twins
    obtain ⟨twins⟩ := twins
    refine ⟨⟨[], f.stack, [], g.stack, rfl, rfl, .nil, h.stack, fun _ => ⟨rfl, .nil⟩⟩, nofun,
      fun k x y hx hy => ?_, fun k x hx inside wide => ?_, ⟨by simp, by simp⟩, rfl⟩
    · rw [List.getElem?_set] at hx hy
      split at hx
      · next here =>
        rw [if_pos here] at hy
        split at hx <;> cases hx
        split at hy <;> cases hy
        exact twins.within
      · next other =>
        rw [if_neg other] at hy
        exact h.locals k x y hx hy
    · rw [List.length_set] at inside ⊢
      rw [List.getElem?_set] at hx
      split at hx
      · split at hx <;> cases hx
        rw [Value.isWide, narrow] at wide
        cases wide
      · exact h.room k x hx inside wide
  · have inside := reaches.slot slot (by simp [movement?])
    refine Step.bind_exists ?_ fun u s₁ _ => Step.bind_exists ⟨_, rfl⟩ fun o s₂ computing => ?_
    · rw [Frame.getLocal, List.getElem?_eq_getElem inside]
      exact ⟨_, rfl⟩
    · obtain ⟨w, s₃, computed, -⟩ := unary_increment id slot amount u s₁
      have made : Transfer.unary ⟨id, .increment slot amount⟩ u s₁ = (o, s₂) := Step.lift_eq_ok computing
      rw [computed] at made
      cases made
      dsimp only
      rw [Frame.setLocal, if_pos inside]
      exact ⟨_, rfl⟩

include h in
/-- An instruction that drops words. -/
theorem drop_follows {words : Nat} (drops : Rearranges insn (.drop words))
    (asked : f.kinds.take (entriesIn words g.kinds) = g.kinds.take (entriesIn words g.kinds))
    (executed : g.execute body' index' insn t = .ok (g', t')) :
    Follows exact R insn f g (f.execute body index insn) g' := by
  have quiet : makes insn.node = false := by
    cases drops <;> simp [makes, movement?, operationMovement, *]
  have same : cut words f.kinds = cut words g.kinds :=
    cut_congr (by simp [Frame.kinds, h.stack.length_eq]) asked
  obtain ⟨count, fits, runs⟩ | ⟨-, fails⟩ := drop_cases drops g body' index'
  · rw [runs] at executed
    cases executed
    obtain ⟨count', fits', runs'⟩ | ⟨fits', -⟩ := drop_cases drops f body index
    · obtain rfl : count' = count := Option.some.inj (fits'.symm.trans (same.trans fits))
      refine ⟨fun s f' s' run => ?_, fun _ _ s => ⟨_, runs' s⟩⟩
      rw [runs'] at run
      cases run
      exact steps_of_stack h .nil (List.forall₂_drop count' h.stack) fun _ => ⟨by rw [quiet]; rfl, .nil⟩
    · cases fits'.symm.trans (same.trans fits)
  · obtain ⟨e, failed⟩ := fails t
    rw [failed] at executed
    cases executed

end

/-- Entries on their way back that are related: both are kept, or copies are made of both. -/
inductive Moved.Rel (R : Value → Value → Prop) : Moved → Moved → Prop where
  | kept {u v : Value} : R u v → Moved.Rel R (.kept u) (.kept v)
  | duplicate {u v : Value} : R u v → Moved.Rel R (.duplicate u) (.duplicate v)

attribute [simp] Moved.Rel.kept Moved.Rel.duplicate

theorem Kind.size_eq (kind : Kind) : kind.size = if kind.isWide then 2 else 1 := by
  cases kind <;> rfl

theorem plan_follows {R : Value → Value → Prop} {us vs rest' : List Value} {moved' : List Moved}
    {form : Bytecode.Shuffle} (related : List.Forall₂ R us vs)
    (asked : (us.map Value.kind).take (askedOf (vs.map Value.kind) (.shuffle form)) =
      (vs.map Value.kind).take (askedOf (vs.map Value.kind) (.shuffle form)))
    (planned : Shuffle.plan form vs = .ok (rest', moved')) :
    ∃ rest moved, Shuffle.plan form us = .ok (rest, moved) ∧ List.Forall₂ R rest rest' ∧
      List.Forall₂ (Moved.Rel R) moved moved' := by
  unfold Shuffle.plan at planned
  repeat' split at planned
  all_goals cases planned
  all_goals repeat
    rw [List.forall₂_cons_right_iff] at related
    obtain ⟨_, _, _, related, rfl⟩ := related
  all_goals
    simp_all [Shuffle.plan, askedOf, shuffledWords, entriesIn, Value.isWide, Kind.size_eq]

/-- The plan of a DUP. -/
theorem plan_dup {stack rest : List Value} {moved : List Moved}
    (planned : Shuffle.plan .dup stack = .ok (rest, moved)) :
    ∃ a, stack = a :: rest ∧ moved = [.kept a, .duplicate a] := by
  cases stack with
  | nil => cases planned
  | cons a below =>
    simp only [Shuffle.plan] at planned
    split at planned <;> cases planned
    exact ⟨a, rfl, rfl⟩

/-- A moved entry, or its copy. -/
def Moved.settle (body : Body) (index : Nat) (id : InsnId) : Moved → Step Value
  | .kept v => pure v
  | .duplicate v => Step.lift (Transfer.copy body index id v)

/-- Two values are related, and matched if literals are to be compared. -/
def Comparable (exact : Prop) (R : Value → Value → Prop) (u v : Value) : Prop :=
  R u v ∧ (exact → u.Matched) ∧ (exact → v.Matched)

/-- Entries that were moved on both sides are related or made by the instruction. -/
theorem settle_follows (compares : Comparison exact R) {id : InsnId} {moved moved' : List Moved}
    (related : List.Forall₂ (Moved.Rel (Comparable exact R)) moved moved') {values values' : List Value}
    {s' : Store}
    (settled : moved.mapM (Moved.settle body index id) s = .ok (values, s'))
    (settled' : moved'.mapM (Moved.settle body' index' id) t = .ok (values', t')) :
    List.Forall₂ (fun u v => R u v ∨ u.Twins exact id v) values values' := by
  induction related generalizing values values' s t with
  | nil =>
    cases settled
    cases settled'
    exact .nil
  | @cons m m' moved moved' first rest ih =>
    rw [List.mapM_cons] at settled settled'
    obtain ⟨u, s₁, settling, more⟩ := Step.bind_eq_ok settled
    obtain ⟨us, s₂, settling₂, done⟩ := Step.bind_eq_ok more
    obtain ⟨v, t₁, settling', more'⟩ := Step.bind_eq_ok settled'
    obtain ⟨vs, t₂, settling₂', done'⟩ := Step.bind_eq_ok more'
    cases done
    cases done'
    refine .cons ?_ (ih settling₂ settling₂')
    cases first with
    | kept related =>
      cases settling
      cases settling'
      exact .inl related.1
    | duplicate related =>
      exact .inr (copy_twins (compares.within related.1) related.2.1 related.2.2
        (Step.lift_eq_ok settling) (Step.lift_eq_ok settling'))

/-- Moving entries always succeeds. -/
theorem settle_succeeds {id : InsnId} (moved : List Moved) (s : Store) :
    ∃ r, moved.mapM (Moved.settle body index id) s = .ok r := by
  induction moved generalizing s with
  | nil => exact ⟨_, rfl⟩
  | cons m moved ih =>
    rw [List.mapM_cons]
    refine Step.bind_exists ?_ fun v s₁ _ => Step.bind_exists (ih s₁) fun vs s₂ _ => ⟨_, rfl⟩
    cases m <;> exact ⟨_, rfl⟩

/-- Values can be pushed without a limit. -/
theorem pushAll_succeeds (unlimited : f.limit = none) (values : List Value) (s : Store) :
    ∃ r, values.foldlM (fun f v => (liftM (f.push v) : Step Frame)) f s = .ok r := by
  induction values generalizing f with
  | nil => exact ⟨_, rfl⟩
  | cons v values ih =>
    rw [List.foldlM_cons, push_of_unlimited unlimited]
    exact ih unlimited

theorem shuffle_eq (f : Frame) (form : Bytecode.Shuffle) (id : InsnId) : f.shuffle body index id form = (do
    let (rest, moved) ← Shuffle.plan form f.stack
    let values ← moved.mapM (Moved.settle body index id)
    values.foldlM (fun f v => f.push v) { f with stack := rest }) :=
  rfl

/-- DUP makes one copy. -/
theorem settle_dup {id : InsnId} {a : Value} {values : List Value}
    (settled : [Moved.kept a, .duplicate a].mapM (Moved.settle body index id) s = .ok (values, t)) :
    ∃ w, Transfer.copy body index id a s = (w, t) ∧ values = [a, w] := by
  simp only [List.mapM_cons, List.mapM_nil, Moved.settle, pure_bind] at settled
  obtain ⟨copies, s₁, more, done⟩ := Step.bind_eq_ok settled
  obtain ⟨w, s₂, copying, made⟩ := Step.bind_eq_ok more
  cases made
  cases done
  exact ⟨w, Step.lift_eq_ok copying, rfl⟩

theorem shuffle_eq_ok {form : Bytecode.Shuffle} {id : InsnId}
    (h : f.shuffle body index id form s = .ok (g, t)) : ∃ rest moved values s',
      Shuffle.plan form f.stack = .ok (rest, moved) ∧
      moved.mapM (Moved.settle body index id) s = .ok (values, s') ∧
      g = { f with stack := values.reverse ++ rest } := by
  rw [shuffle_eq] at h
  obtain ⟨⟨rest, moved⟩, s₁, planning, run⟩ := Step.bind_eq_ok h
  obtain ⟨planned, rfl⟩ := Step.liftExcept_eq_ok planning
  dsimp only at run
  obtain ⟨values, s₂, moving, pushing⟩ := Step.bind_eq_ok run
  exact ⟨rest, moved, values, s₂, planned, moving, (Frame.pushAll_eq_ok pushing).1⟩

/-- An instruction that rearranges the topmost entries. -/
theorem shuffle_follows {form : Bytecode.Shuffle} (h : f.Tracks exact R g) (compares : Comparison exact R)
    (hf : exact → f.Every Value.Matched) (hg : exact → g.Every Value.Matched)
    (movement : movement? insn.node = some (.shuffle form))
    (asked : f.kinds.take (askedOf g.kinds (.shuffle form)) = g.kinds.take (askedOf g.kinds (.shuffle form)))
    (executed : g.shuffle body' index' insn.id form t = .ok (g', t')) :
    Follows exact R insn f g (f.shuffle body index insn.id form) g' := by
  obtain ⟨rest', moved', values', t₁, planned', settled', rfl⟩ := shuffle_eq_ok executed
  have related : List.Forall₂ (Comparable exact R) f.stack g.stack :=
    forall₂_of_getElem? h.stack.length_eq fun k u v hu hv => ⟨rel_of_getElem? h.stack hu hv,
      fun compared => (hf compared).stack u (List.mem_of_getElem? hu),
      fun compared => (hg compared).stack v (List.mem_of_getElem? hv)⟩
  obtain ⟨rest, moved, planned, below, moves⟩ := plan_follows related asked planned'
  have below : List.Forall₂ R rest rest' := below.imp fun u v => And.left
  refine ⟨fun s f' s' run => ?_, fun unlimited _ s => ?_⟩
  · obtain ⟨rest₁, moved₁, values, s₁, planned₁, settled, rfl⟩ := shuffle_eq_ok run
    cases planned.symm.trans planned₁
    have settles := settle_follows compares moves settled settled'
    by_cases dup : form = .dup
    · -- DUP leaves its operand where it is
      subst dup
      obtain ⟨a, stack, rfl⟩ := plan_dup planned
      obtain ⟨b, stack', rfl⟩ := plan_dup planned'
      obtain ⟨u, copied, rfl⟩ := settle_dup settled
      obtain ⟨v, copied', rfl⟩ := settle_dup settled'
      rw [stack, stack'] at related
      obtain ⟨first, -⟩ := List.forall₂_cons.mp related
      have twins := copy_twins (compares.within first.1) first.2.1 first.2.2 copied copied'
      have top : List.Forall₂ (fun u v => R u v ∨ u.Twins exact insn.id v) [u] [v] :=
        .cons (.inr twins) .nil
      have behind : Steps exact R insn f g { f with stack := [u] ++ a :: rest }
          { g with stack := [v] ++ b :: rest' } :=
        steps_of_stack h top (.cons first.1 below) fun _ =>
          ⟨by rw [makes, movement]; rfl, .cons twins .nil⟩
      exact behind
    · exact steps_of_stack h (List.forall₂_reverse_iff.mpr settles) below
        fun shallow => absurd (shallow form movement) dup
  · rw [shuffle_eq, planned, liftM_ok, pure_bind]
    exact Step.bind_exists (settle_succeeds moved s) fun values s₁ _ =>
      pushAll_succeeds (f := { f with stack := rest }) unlimited values s₁

/-- **Instructions side by side.** If an instruction can be simulated on a frame, then it can on another
frame that tracks it and agrees with it on the entries whose sizes matter. -/
theorem execute_follows (h : f.Tracks exact R g) (compares : Comparison exact R)
    (hf : exact → f.Every Value.Matched) (hg : exact → g.Every Value.Matched)
    (allowed : exact → insn.node ≠ .type Opcode.new builderClass)
    (asked : f.kinds.take (askedBy insn.node g.kinds) = g.kinds.take (askedBy insn.node g.kinds))
    (executed : g.execute body' index' insn t = .ok (g', t')) :
    Follows exact R insn f g (f.execute body index insn) g' := by
  obtain ⟨m, movement⟩ := movement_of_execute executed
  have asks : f.kinds.take (askedOf g.kinds m) = g.kinds.take (askedOf g.kinds m) := by
    simpa only [askedBy, movement, Option.elim_some] using asked
  obtain ⟨count, result, rfl⟩ | rearranges := rearranges_of_movement movement
  · rw [Frame.execute_eq_apply_of_movement movement] at executed ⊢
    exact apply_follows h compares hg movement allowed executed
  obtain ⟨id, node⟩ := insn
  cases rearranges with
  | load node access =>
    cases node
    simp only [Frame.execute, access] at executed ⊢
    exact load_follows h hf hg movement executed
  | store node access =>
    cases node
    simp only [Frame.execute, access] at executed ⊢
    exact store_follows h hf hg movement asks compares executed
  | increment node =>
    cases node
    exact increment_follows h executed
  | pop node operation => exact drop_follows h (.pop node operation) asks executed
  | pop2 node operation => exact drop_follows h (.pop2 node operation) asks executed
  | @shuffle op form node operation =>
    cases node
    simp only [Frame.execute, Frame.executeSimple, operation] at executed ⊢
    exact shuffle_follows h compares hf hg movement asks executed

/-- The slots that an instruction accesses exist in the frame on which it is simulated. -/
theorem reaches_of_execute (executed : f.execute body index insn s = .ok (f', t)) : f.Reaches insn.node := by
  obtain ⟨m, movement⟩ := movement_of_execute executed
  obtain ⟨count, result, rfl⟩ | rearranges := rearranges_of_movement movement
  · exact ⟨fun slot moves => by simp [movement] at moves, fun slot v moves => by simp [movement] at moves⟩
  obtain ⟨id, node⟩ := insn
  cases rearranges with
  | @load _ accessed _ node access =>
    cases node
    simp only [Frame.execute, access] at executed
    obtain ⟨u, -, -, found, -⟩ := load_eq_ok executed
    refine ⟨fun slot moves => ?_, fun slot v moves => by simp [movement] at moves⟩
    obtain rfl : accessed = slot := by simpa [movement] using moves
    exact (List.getElem?_eq_some_iff.mp found).1
  | @store _ accessed _ node access =>
    cases node
    simp only [Frame.execute, access] at executed
    obtain ⟨u, w, below, s₁, stack, copied, written⟩ := popStore_eq_ok executed
    refine ⟨fun slot moves => ?_, fun slot v moves head wide => ?_⟩
    · obtain rfl : accessed = slot := by simpa [movement] using moves
      exact written.inside
    · obtain rfl : accessed = slot := by simpa [movement] using moves
      obtain rfl : u = v := by simpa [stack] using head
      exact written.second (by rwa [Value.isWide, (copy_eq copied).1])
  | @increment accessed _ node =>
    cases node
    obtain ⟨u, -, -, found, -⟩ := increment_eq_ok executed
    refine ⟨fun slot moves => ?_, fun slot v moves => by simp [movement] at moves⟩
    obtain rfl : accessed = slot := by simpa [movement] using moves
    exact (List.getElem?_eq_some_iff.mp found).1
  | _ => exact ⟨fun slot moves => by simp [movement] at moves, fun slot v moves => by simp [movement] at moves⟩

/-- The slots that an instruction accesses on a frame exist in a wider frame with which it agrees. -/
theorem Frame.Reaches.wider (h : g.Reaches insn.node) (height : f.stack.length = g.stack.length)
    (asked : f.kinds.take (askedBy insn.node g.kinds) = g.kinds.take (askedBy insn.node g.kinds))
    (wider : g.locals.length ≤ f.locals.length) : f.Reaches insn.node where
  slot := fun slot moves => Nat.lt_of_lt_of_le (h.slot slot moves) wider
  second := fun slot u moves head wide => by
    rw [askedBy, moves] at asked
    cases stack : f.stack with
    | nil => simp [stack] at head
    | cons u' us =>
      cases stack' : g.stack with
      | nil => simp [stack, stack'] at height
      | cons v vs =>
        obtain rfl : u' = u := by simpa [stack] using head
        have same : u'.kind = v.kind := by simpa [Frame.kinds, stack, stack', askedOf] using asked
        refine Nat.lt_of_lt_of_le (h.second slot v moves (by rw [stack']; rfl) ?_) wider
        rwa [Value.isWide, ← same]

end

end Bytecode.Analysis
