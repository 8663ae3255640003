import Bytecode.Proofs.Analysis.Movements

/-!
# Simulated instructions read backwards

What a successful simulation tells of the frames around it, for those instructions that move values
other than as operands: stores write a slot and may empty the slots beside it (`store_eq_ok`), and drops
take the entries that fill their words exactly (`drop_cases`).

With that goes when a store succeeds (`store_of_inside`).
-/

namespace Bytecode.Analysis

open Tokens (Movement movement? operationMovement accessMovement cut)

/-! ## Stores -/

/-- What a slot holds behind a store: the value, or nothing if the store overlaps the slot or tears apart
what it holds. -/
def WrittenAt (f : Frame) (slot : UInt16) (v : Value) (k : Nat) (u : Value) : Prop :=
  if k = slot.toNat then u = v
  else if k = (slot + 1).toNat ∧ v.isWide = true ∨
      k + 1 = slot.toNat ∧ f.locals[k]?.any Value.isWide = true then u.Blank
  else f.locals[k]? = some u

/-- The frame behind a store. -/
structure Written (f : Frame) (slot : UInt16) (v : Value) (g : Frame) : Prop where
  stack : g.stack = f.stack
  limit : g.limit = f.limit
  width : g.locals.length = f.locals.length
  inside : slot.toNat < f.locals.length
  second : v.isWide = true → (slot + 1).toNat < f.locals.length
  slots : ∀ (k : Nat) u, g.locals[k]? = some u → WrittenAt f slot v k u

theorem empty_blank (s : Store) : (Store.empty s).1.Blank :=
  ⟨rfl, rfl⟩

/-- A slot is neither the one behind it nor the one before it. -/
theorem slot_apart (slot : UInt16) :
    slot.toNat ≠ (slot + 1).toNat ∧ slot.toNat ≠ (slot + 1).toNat + 1 := by
  rw [UInt16.toNat_add]
  have := slot.toNat_lt
  simp only [UInt16.toNat_one]
  constructor <;> omega

section

variable {f g : Frame} {slot : UInt16} {v : Value} {s t : Store}

/-- Emptying a slot. -/
theorem clearLocal_eq_ok {k : Nat} (h : (do f.setLocal k (← Store.empty) : Step Frame) s = .ok (g, t)) :
    k < f.locals.length ∧ ∃ e : Value, e.Blank ∧ g = { f with locals := f.locals.set k e } := by
  obtain ⟨e, s₁, making, setting⟩ := Step.bind_eq_ok h
  obtain ⟨set, -⟩ := Step.liftExcept_eq_ok setting
  obtain ⟨inside, rfl⟩ := Frame.setLocal_eq_ok set
  have made : Store.empty s = (e, s₁) := Step.lift_eq_ok making
  have blank := empty_blank s
  rw [made] at blank
  exact ⟨inside, e, blank, rfl⟩

/-- The last step of a store changes nothing, or empties the slot before. -/
theorem tornBefore_eq (f : Frame) (slot : UInt16) :
    f.tornBefore slot = pure f ∧ (∀ k, k + 1 = slot.toNat → f.locals[k]?.any Value.isWide = false) ∨
      ∃ k, k + 1 = slot.toNat ∧ k < f.locals.length ∧ f.locals[k]?.any Value.isWide = true ∧
        f.tornBefore slot = (do f.setLocal k (← Store.empty)) := by
  unfold Frame.tornBefore
  split
  · exact .inl ⟨rfl, fun k next => by omega⟩
  · next before at_slot =>
    have here (k : Nat) (next : k + 1 = slot.toNat) : k = before := by omega
    split
    · next previous found =>
      split
      · next wide =>
        refine .inr ⟨before, at_slot.symm, (List.getElem?_eq_some_iff.mp found).1, ?_, rfl⟩
        rw [found, Option.any_some, wide]
      · next narrow =>
        refine .inl ⟨rfl, fun k next => ?_⟩
        rw [here k next, found, Option.any_some, eq_false_of_ne_true narrow]
    · next missing =>
      refine .inl ⟨rfl, fun k next => ?_⟩
      rw [here k next, missing, Option.any_none]

/-- The second step of a store: the slot behind a value of two words is emptied. -/
def Frame.emptiedBehind (f : Frame) (slot : UInt16) (v : Value) : Step Frame :=
  if v.isWide then do f.setLocal (slot + 1).toNat (← Store.empty) else pure f

/-- A store in three steps. -/
theorem store_eq (f : Frame) (slot : UInt16) (v : Value) : f.store slot v = (do
    let f ← f.setLocal slot.toNat v
    let f ← f.emptiedBehind slot v
    f.tornBefore slot) := by
  by_cases wide : v.isWide = true
  · simp only [Frame.store, Frame.emptiedBehind, if_pos wide, bind_assoc]
    rfl
  · simp only [Frame.store, Frame.emptiedBehind, if_neg wide, pure_bind]
    rfl

/-- What a store does. -/
theorem store_eq_ok (stored : f.store slot v s = .ok (g, t)) : Written f slot v g := by
  rw [store_eq] at stored
  obtain ⟨f₁, s₁, first, rest⟩ := Step.bind_eq_ok stored
  obtain ⟨set, rfl⟩ := Step.liftExcept_eq_ok first
  obtain ⟨inside, rfl⟩ := Frame.setLocal_eq_ok set
  obtain ⟨apart, apart'⟩ := slot_apart slot
  -- the slot before the stored one is looked at last, when it still holds what it held
  have after (f₂ : Frame) (s₂ : Store) (stack : f₂.stack = f.stack) (limit : f₂.limit = f.limit)
      (width : f₂.locals.length = f.locals.length)
      (second : v.isWide = true → (slot + 1).toNat < f.locals.length)
      (slots : ∀ (k : Nat) u, f₂.locals[k]? = some u → if k = slot.toNat then u = v
        else if k = (slot + 1).toNat ∧ v.isWide = true then u.Blank else f.locals[k]? = some u)
      (torn : f₂.tornBefore slot s₂ = .ok (g, t)) : Written f slot v g := by
    have same (k : Nat) (next : k + 1 = slot.toNat) : f₂.locals[k]? = f.locals[k]? := by
      have here := List.getElem?_eq_getElem (l := f₂.locals) (i := k) (by omega)
      have known := slots k _ here
      rw [if_neg (by omega), if_neg (by omega)] at known
      rw [here, known]
    rcases tornBefore_eq f₂ slot with ⟨same_frame, narrow⟩ | ⟨before, next, -, wide, clears⟩
    · rw [same_frame] at torn
      cases torn
      refine ⟨stack, limit, width, inside, second, fun k u hu => ?_⟩
      have known := slots k u hu
      have := narrow k
      have := same k
      unfold WrittenAt
      grind
    · rw [clears] at torn
      obtain ⟨-, e, blank, rfl⟩ := clearLocal_eq_ok torn
      refine ⟨stack, limit, by rw [List.length_set, width], inside, second, fun k u hu => ?_⟩
      have known := slots k u
      have := same before next
      unfold WrittenAt
      grind
  obtain ⟨f₂, s₂, clearing, torn⟩ := Step.bind_eq_ok rest
  unfold Frame.emptiedBehind at clearing
  split at clearing
  · next wide =>
    obtain ⟨inside', e, blank, rfl⟩ := clearLocal_eq_ok clearing
    rw [List.length_set] at inside'
    refine after _ s₂ (by rfl) (by rfl) (by simp) (fun _ => inside') (fun k u hu => ?_) torn
    grind
  · next narrow =>
    cases clearing
    refine after _ s₁ (by rfl) (by rfl) (by simp) (fun h => absurd h narrow) (fun k u hu => ?_) torn
    grind

/-- A step has a result if its first part has one and the rest has one behind that. -/
theorem Step.bind_exists {α β : Type} {x : Step α} {next : α → Step β} (first : ∃ r, x s = .ok r)
    (rest : ∀ a t, x s = .ok (a, t) → ∃ r, next a t = .ok r) : ∃ r, (x >>= next) s = .ok r := by
  obtain ⟨⟨a, t⟩, done⟩ := first
  change ∃ r, (x s >>= fun p => next p.1 p.2) = .ok r
  rw [done]
  exact rest a t done

/-- Emptying a slot that exists succeeds. -/
theorem clearLocal_of_inside {k : Nat} (inside : k < f.locals.length) (s : Store) :
    ∃ r, (do f.setLocal k (← Store.empty) : Step Frame) s = .ok r := by
  refine Step.bind_exists ⟨_, rfl⟩ fun e t _ => ?_
  rw [Frame.setLocal, if_pos inside]
  exact ⟨_, rfl⟩

/-- A store into slots that exist succeeds. -/
theorem store_of_inside (inside : slot.toNat < f.locals.length)
    (second : v.isWide = true → (slot + 1).toNat < f.locals.length) (s : Store) :
    ∃ r, f.store slot v s = .ok r := by
  rw [store_eq]
  refine Step.bind_exists ?_ fun f₁ s₁ first => ?_
  · rw [Frame.setLocal, if_pos inside]
    exact ⟨_, rfl⟩
  obtain ⟨set, -⟩ := Step.liftExcept_eq_ok first
  obtain ⟨-, rfl⟩ := Frame.setLocal_eq_ok set
  refine Step.bind_exists ?_ fun f₂ s₂ clearing => ?_
  · unfold Frame.emptiedBehind
    split
    · next wide => exact clearLocal_of_inside (by simpa using second wide) s₁
    · exact ⟨_, rfl⟩
  rcases tornBefore_eq f₂ slot with ⟨same, -⟩ | ⟨before, -, inside', -, clears⟩
  · rw [same]
    exact ⟨_, rfl⟩
  · rw [clears]
    exact clearLocal_of_inside inside' s₂

end

/-! ## Ways to move values -/

variable {f g : Frame} {s t : Store} {insn : Insn} {body : Body} {index : Nat}

/-- How nodes move values that do not take operands and make a result of them. -/
inductive Rearranges (insn : Insn) : Movement → Prop where
  | load {op : Opcode} {slot : UInt16} {kind : Kind} (node : insn.node = .var op slot)
    (access : SlotAccess.ofOpcode op = .load kind) : Rearranges insn (.load slot)
  | store {op : Opcode} {slot : UInt16} {kind : Kind} (node : insn.node = .var op slot)
    (access : SlotAccess.ofOpcode op = .store kind) : Rearranges insn (.store slot)
  | increment {slot : UInt16} {amount : Int16} (node : insn.node = .increment slot amount) :
    Rearranges insn (.increment slot)
  | pop {op : Opcode} (node : insn.node = .simple op) (operation : Operation.ofOpcode op = .pop) :
    Rearranges insn (.drop 1)
  | pop2 {op : Opcode} (node : insn.node = .simple op) (operation : Operation.ofOpcode op = .pop2) :
    Rearranges insn (.drop 2)
  | shuffle {op : Opcode} {form : Bytecode.Shuffle} (node : insn.node = .simple op)
    (operation : Operation.ofOpcode op = .shuffle form) : Rearranges insn (.shuffle form)

/-- A movement takes operands, or it is one of a few nodes. -/
theorem rearranges_of_movement {m : Movement} (h : movement? insn.node = some m) :
    (∃ count result, m = .operate count result) ∨ Rearranges insn m := by
  obtain ⟨id, node⟩ := insn
  have call {receivers : Nat} {text : String} (h : Tokens.callMovement receivers text = some m) :
      ∃ count result, m = .operate count result := by
    obtain ⟨d, -, rfl⟩ := Option.map_eq_some_iff.mp h
    exact ⟨_, _, rfl⟩
  cases node with
  | simple op =>
    have h : operationMovement (.ofOpcode op) = some m := h
    cases operation : Operation.ofOpcode op with
    | pop =>
      rw [operation] at h
      cases h
      exact .inr (.pop rfl operation)
    | pop2 =>
      rw [operation] at h
      cases h
      exact .inr (.pop2 rfl operation)
    | shuffle form =>
      rw [operation] at h
      cases h
      exact .inr (.shuffle rfl operation)
    | leave kind =>
      rw [operation] at h
      cases kind <;> cases h <;> exact .inl ⟨_, _, rfl⟩
    | _ =>
      rw [operation] at h
      cases h <;> exact .inl ⟨_, _, rfl⟩
  | var op slot =>
    have h : accessMovement slot (.ofOpcode op) = some m := h
    cases access : SlotAccess.ofOpcode op with
    | load kind =>
      rw [access] at h
      cases h
      exact .inr (.load rfl access)
    | store kind =>
      rw [access] at h
      cases h
      exact .inr (.store rfl access)
    | other =>
      rw [access] at h
      cases h
  | increment slot amount =>
    cases h
    exact .inr (.increment rfl)
  | call => exact .inl (call h)
  | dynamicCall => exact .inl (call h)
  | jump op target =>
    rw [movement?] at h
    cases form : JumpForm.ofOpcode op <;> rw [form] at h <;> cases h <;> exact .inl ⟨_, _, rfl⟩
  | field op owner name descriptor =>
    cases h
    unfold Tokens.fieldMovement
    repeat' split
    all_goals exact .inl ⟨_, _, rfl⟩
  | type op name =>
    cases h
    unfold Tokens.typeMovement
    repeat' split
    all_goals exact .inl ⟨_, _, rfl⟩
  | int op operand =>
    cases h
    split <;> exact .inl ⟨_, _, rfl⟩
  | _ =>
    cases h
    exact .inl ⟨_, _, rfl⟩

/-- Of an instruction that can be simulated it is known how it moves values. -/
theorem movement_of_execute (executed : f.execute body index insn s = .ok (g, t)) :
    ∃ m, movement? insn.node = some m := by
  obtain ⟨id, node⟩ := insn
  have call {α : Type} {receivers : Nat} {text : String} {next : Nat → Step α} {r : α × Store}
      (h : (liftM (Frame.argumentCount text) >>= next) s = .ok r) :
      ∃ m, Tokens.callMovement receivers text = some m := by
    obtain ⟨count, s', counting, -⟩ := Step.bind_eq_ok h
    obtain ⟨counted, -⟩ := Step.liftExcept_eq_ok counting
    unfold Frame.argumentCount at counted
    cases parsed : MethodDescriptor.parse text with
    | ok d => exact ⟨_, by rw [Tokens.callMovement, parsed]; rfl⟩
    | error e =>
      rw [parsed] at counted
      cases counted
  cases node with
  | simple op =>
    rw [movement?]
    cases operation : Operation.ofOpcode op with
    | other =>
      have executed : f.executeSimple body index ⟨id, .simple op⟩ op s = .ok (g, t) := executed
      unfold Frame.executeSimple at executed
      rw [operation] at executed
      cases executed
    | leave kind => cases kind <;> exact ⟨_, rfl⟩
    | _ => exact ⟨_, rfl⟩
  | var op slot =>
    rw [movement?]
    cases access : SlotAccess.ofOpcode op with
    | other =>
      unfold Frame.execute at executed
      simp only [access] at executed
      cases executed
    | _ => exact ⟨_, rfl⟩
  | jump op target =>
    rw [movement?]
    cases form : JumpForm.ofOpcode op with
    | subroutine =>
      unfold Frame.execute at executed
      simp only [form] at executed
      cases executed
    | _ => exact ⟨_, rfl⟩
  | call op owner name descriptor isInterface => exact call executed
  | dynamicCall name descriptor bootstrap constants => exact call executed
  | _ => exact ⟨_, rfl⟩

/-- A drop takes the topmost entries that fill its words exactly. -/
theorem drop_cases {words : Nat} (drops : Rearranges insn (.drop words)) (f : Frame) (body : Body)
    (index : Nat) :
    (∃ count, cut words f.kinds = some count ∧
      ∀ s, f.execute body index insn s = .ok ({ f with stack := f.stack.drop count }, s)) ∨
      cut words f.kinds = none ∧ ∀ s, ∃ e, f.execute body index insn s = .error e := by
  have operation (op : Opcode) (node : insn.node = .simple op) :
      f.execute body index insn = f.executeSimple body index insn op := by
    unfold Frame.execute
    rw [node]
  obtain ⟨locals, stack, limit⟩ := f
  cases drops with
  | @pop op node pops =>
    rw [operation op node, Frame.executeSimple, pops]
    cases stack with
    | nil => exact .inr ⟨rfl, fun s => ⟨_, rfl⟩⟩
    | cons v rest =>
      by_cases wide : v.isWide = true
      · refine .inr ⟨by simp [Frame.kinds, cut, Value.size_of_wide wide], fun s => ⟨.wordSize "POP" 1, ?_⟩⟩
        simp only [Frame.pop, liftM_ok, pure_bind, if_pos wide]
        rfl
      · refine .inl ⟨1, by simp [Frame.kinds, cut, Value.size_of_narrow wide], fun s => ?_⟩
        simp only [Frame.pop, liftM_ok, pure_bind, if_neg wide]
        rfl
  | @pop2 op node pops =>
    rw [operation op node, Frame.executeSimple, pops]
    cases stack with
    | nil => exact .inr ⟨rfl, fun s => ⟨_, rfl⟩⟩
    | cons v rest =>
      by_cases wide : v.isWide = true
      · refine .inl ⟨1, by simp [Frame.kinds, cut, Value.size_of_wide wide], fun s => ?_⟩
        simp only [Frame.pop, liftM_ok, pure_bind, if_pos wide]
        rfl
      · cases rest with
        | nil =>
          refine .inr ⟨by simp [Frame.kinds, cut, Value.size_of_narrow wide], fun s => ⟨.underflow, ?_⟩⟩
          simp only [Frame.pop, liftM_ok, pure_bind, if_neg wide]
          rfl
        | cons w rest =>
          by_cases wide' : w.isWide = true
          · refine .inr ⟨by simp [Frame.kinds, cut, Value.size_of_narrow wide, Value.size_of_wide wide'],
              fun s => ⟨.wordSize "POP2" 1, ?_⟩⟩
            simp only [Frame.pop, liftM_ok, pure_bind, if_neg wide, if_pos wide']
            rfl
          · refine .inl ⟨2, by simp [Frame.kinds, cut, Value.size_of_narrow wide, Value.size_of_narrow wide'],
              fun s => ?_⟩
            simp only [Frame.pop, liftM_ok, pure_bind, if_neg wide, if_neg wide']
            rfl

/-! ## Local variables -/

section

variable {id : InsnId} {slot : UInt16}

/-- A load pushes a copy of a local variable. -/
theorem load_eq_ok (run : (do
      let v ← f.getLocal slot.toNat
      f.push (← Transfer.copy body index id v) : Step Frame) s = .ok (g, t)) :
    ∃ u w s', f.locals[slot.toNat]? = some u ∧ Transfer.copy body index id u s = (w, s') ∧
      g = { f with stack := w :: f.stack } := by
  obtain ⟨u, s₁, getting, more⟩ := Step.bind_eq_ok run
  obtain ⟨found, rfl⟩ := Step.liftExcept_eq_ok getting
  obtain ⟨w, s₂, copying, pushing⟩ := Step.bind_eq_ok more
  obtain ⟨pushed, rfl⟩ := Step.liftExcept_eq_ok pushing
  exact ⟨u, w, _, Frame.getLocal_eq_ok found, Step.lift_eq_ok copying, Frame.push_eq_ok pushed⟩

/-- A store takes the topmost entry and writes a copy of it. -/
theorem popStore_eq_ok (run : (do
      let (v, f) ← f.pop
      f.store slot (← Transfer.copy body index id v) : Step Frame) s = .ok (g, t)) :
    ∃ u w rest s', f.stack = u :: rest ∧ Transfer.copy body index id u s = (w, s') ∧
      Written { f with stack := rest } slot w g := by
  obtain ⟨⟨u, f₁⟩, s₁, popping, more⟩ := Step.bind_eq_ok run
  obtain ⟨popped, rfl⟩ := Step.liftExcept_eq_ok popping
  obtain ⟨stack, same⟩ := Frame.pop_eq_ok popped
  dsimp only at more
  obtain ⟨w, s₂, copying, storing⟩ := Step.bind_eq_ok more
  refine ⟨u, w, f₁.stack, s₂, stack, Step.lift_eq_ok copying, ?_⟩
  have written := store_eq_ok storing
  rwa [same] at written

/-- An increment makes an int. -/
theorem unary_increment (id : InsnId) (slot : UInt16) (amount : Int16) (u : Value) (s : Store) : ∃ w s',
    Transfer.unary ⟨id, .increment slot amount⟩ u s = (some w, s') ∧ w.kind = .int :=
  ⟨_, _, rfl, rfl⟩

/-- An increment replaces a local variable. -/
theorem increment_eq_ok {amount : Int16}
    (run : f.execute body index ⟨id, .increment slot amount⟩ s = .ok (g, t)) :
    ∃ (u w : Value) (s₁ : Store), f.locals[slot.toNat]? = some u ∧
      (Transfer.unary ⟨id, .increment slot amount⟩ u s₁).1 = some w ∧ w.kind = .int ∧
      g = { f with locals := f.locals.set slot.toNat w } := by
  obtain ⟨u, s₁, getting, more⟩ := Step.bind_eq_ok run
  obtain ⟨found, rfl⟩ := Step.liftExcept_eq_ok getting
  obtain ⟨o, s₂, computing, setting⟩ := Step.bind_eq_ok more
  obtain ⟨w, s₃, computed, kind⟩ := unary_increment id slot amount u s₁
  have made : Transfer.unary ⟨id, .increment slot amount⟩ u s₁ = (o, s₂) := Step.lift_eq_ok computing
  rw [computed] at made
  cases made
  obtain ⟨set, -⟩ := Step.liftExcept_eq_ok setting
  exact ⟨u, w, s₁, Frame.getLocal_eq_ok found, by rw [computed], kind, (Frame.setLocal_eq_ok set).2⟩

end

end Bytecode.Analysis
