import Bytecode.Proofs.Analysis.Execution
import Mathlib.Data.List.Forall2

/-!
# Frames of good values

If the transfer functions lead from good values to good values, then so does the simulation of an
instruction: `execute_kept` follows the definitions from single steps on a frame up to
`Frame.execute`. What has to be known of the transfer functions is the structure `Supplies`.

The frames behind a shuffle and behind a store are described slot by slot on the way, in `Shuffled`
and `Stored`.
-/

namespace Bytecode.Analysis

/-- A property of all values of a frame. -/
structure Frame.Every (p : Value → Prop) (f : Frame) : Prop where
  locals : ∀ v ∈ f.locals, p v
  stack : ∀ v ∈ f.stack, p v

theorem Frame.Every.mono {p q : Value → Prop} {f : Frame} (h : f.Every p) (weaker : ∀ v, p v → q v) :
    f.Every q :=
  ⟨fun v member => weaker v (h.locals v member), fun v member => weaker v (h.stack v member)⟩

/-- A property of a value that may be missing. -/
def IfAny (p : Value → Prop) (o : Option Value) : Prop :=
  ∀ v, o = some v → p v

/-- Nothing is known about a value. -/
def Value.Blank (v : Value) : Prop :=
  v.kind = .uninitialized ∧ v.literal = none

/-! ## Copies -/

/-- A copy has the kind of the original and its literal. A builder that is not shared gets another
buffer, which is not among the first `n`. -/
def Copies (shared : Bool) (n : Nat) (v w : Value) : Prop :=
  w.kind = v.kind ∧ (w.literal = v.literal ∨
    shared = false ∧ ∃ i j : BufferId, v.literal = some (.builder i) ∧
      w.literal = some (.builder j) ∧ n ≤ j.val)

/-- The copy that an instruction makes is one. -/
theorem copies_copy {body : Body} {index n : Nat} {id : InsnId} {v w : Value} {s s' : Store}
    (enough : n ≤ s.buffers.texts.size) (h : Transfer.copy body index id v s = (w, s')) :
    Copies (Transfer.followsAllocation body index) n v w := by
  unfold Transfer.copy at h
  split at h
  · next i builder =>
    by_cases shares : Transfer.followsAllocation body index = true
    · simp only [if_pos shares] at h
      cases h
      exact ⟨rfl, .inl builder.symm⟩
    · simp only [if_neg shares] at h
      cases h
      exact ⟨rfl, .inr ⟨eq_false_of_ne_true shares, i, _, builder, rfl, enough⟩⟩
  · cases h
    exact ⟨rfl, .inl rfl⟩

/-- The value of an entry on its way back to the stack. -/
def Moved.value : Moved → Value
  | .kept v | .duplicate v => v

/-- The original of a value of which a copy comes back to the stack. -/
def Moved.original? : Moved → Option Value
  | .kept _ => none
  | .duplicate v => some v

/-- An entry comes back as it is, or as its copy. -/
def Moved.Becomes (shared : Bool) (n : Nat) : Moved → Value → Prop
  | .kept v, w => w = v
  | .duplicate v, w => Copies shared n v w

/-- A shuffle works on the entries of the stack. -/
theorem mem_of_plan {form : Bytecode.Shuffle} {stack rest : List Value} {moved : List Moved}
    (h : Shuffle.plan form stack = .ok (rest, moved)) :
    (∀ v ∈ rest, v ∈ stack) ∧ ∀ m ∈ moved, m.value ∈ stack := by
  unfold Shuffle.plan at h
  repeat' split at h
  all_goals cases h
  all_goals
    simp only [Moved.value, List.mem_cons]
    aesop

/-- The values of which an instruction makes copies. -/
def copied (f : Frame) : Node → List Value
  | .simple op =>
    match Operation.ofOpcode op with
    | .shuffle form => (Shuffle.plan form f.stack).toOption.elim [] fun p => p.2.filterMap Moved.original?
    | _ => []
  | .var op slot =>
    match SlotAccess.ofOpcode op with
    | .load _ => f.locals[slot.toNat]?.toList
    | .store _ => f.stack.head?.toList
    | .other => []
  | _ => []

/-- Only values of the frame are copied. -/
theorem mem_of_copied {f : Frame} {node : Node} {v : Value} (member : v ∈ copied f node) :
    v ∈ f.locals ∨ v ∈ f.stack := by
  unfold copied at member
  split at member
  · split at member
    · next form _ =>
      cases planned : Shuffle.plan form f.stack with
      | error e =>
        rw [planned] at member
        cases member
      | ok p =>
        rw [planned] at member
        obtain ⟨m, moved, same⟩ := List.mem_filterMap.mp member
        have inside := (mem_of_plan planned).2 m moved
        cases m with
        | kept u => cases same
        | duplicate u =>
          cases same
          exact .inr inside
    · cases member
  · split at member
    · exact .inl (List.mem_of_getElem? (Option.mem_toList.mp member))
    · exact .inr (List.mem_of_mem_head? (Option.mem_toList.mp member))
    · cases member
  · cases member

/-! ## Single steps -/

/-- A frame of good values that has the slots and the limit of another one. -/
structure Frame.Kept {ω : Type} (f : Frame) (P : Phases ω) (w : ω) (g : Frame) : Prop where
  good : g.Every (P.good w)
  width : g.locals.length = f.locals.length
  limit : g.limit = f.limit

/-- What the transfer functions of an instruction have to do so that its simulation leads from good
values to good values. Only an allocation among the instructions about a class pushes without taking
a value. -/
structure Supplies {ω : Type} (P : Phases ω) (body : Body) (index : Nat) (insn : Insn) (f : Frame) :
    Prop where
  unknown : ∀ w kind, P.Ensures w (Store.make kind [] none) fun w' v =>
    P.good w' v ∧ v.kind = kind ∧ v.literal = none
  consume : ∀ w id v, P.Ensures w (Store.consume id v) fun _ _ => True
  push : (∀ op name, insn.node = .type op name → op = Opcode.new) → ∀ w,
    P.Ensures w (Transfer.push insn) P.good
  copy : ∀ w v, v ∈ copied f insn.node → P.good w v →
    P.Ensures w (Transfer.copy body index insn.id v) P.good
  unary : ∀ w v, P.good w v → P.Ensures w (Transfer.unary insn v) fun w' => IfAny (P.good w')
  binary : ∀ w u v, P.good w u → P.good w v →
    P.Ensures w (Transfer.binary insn u v) fun w' => IfAny (P.good w')
  call : ∀ w taken, (∀ v ∈ taken, P.good w v) →
    P.Ensures w (Transfer.call insn taken) fun w' => IfAny (P.good w')

namespace Frame

variable {ω : Type} {P : Phases ω} {w : ω} {f f₀ : Frame} {body : Body} {index : Nat} {insn : Insn}

theorem Every.later {w' : ω} (h : f.Every (P.good w)) (later : P.later w w') : f.Every (P.good w') :=
  h.mono fun _ good => P.mono good later

theorem Kept.trans {g h : Frame} {w' : ω} (first : f.Kept P w g) (second : g.Kept P w' h) :
    f.Kept P w' h :=
  ⟨second.good, second.width.trans first.width, second.limit.trans first.limit⟩

theorem Kept.refl (h : f.Every (P.good w)) : f.Kept P w f :=
  ⟨h, rfl, rfl⟩

/-- A frame whose stack is another one of good values. -/
theorem kept_of_stack (h : f.Every (P.good w)) {stack : List Value}
    (member : ∀ v ∈ stack, P.good w v) : f.Kept P w { f with stack } :=
  ⟨⟨h.locals, member⟩, rfl, rfl⟩

theorem push_kept (h : f.Every (P.good w)) {v : Value} (hv : P.good w v) :
    P.StepEnsures w (liftM (f.push v)) (f.Kept P) := by
  refine .liftExcept fun g pushed => ?_
  rw [push_eq_ok pushed]
  exact kept_of_stack h (List.forall_mem_cons.mpr ⟨hv, h.stack⟩)

theorem push?_kept (h : f.Every (P.good w)) {o : Option Value} (ho : IfAny (P.good w) o) :
    P.StepEnsures w (liftM (f.push? o)) (f.Kept P) := by
  cases o with
  | none => exact .liftExcept fun g pushed => Except.ok.inj pushed ▸ .refl h
  | some v => exact push_kept h (ho v rfl)

/-- Popping a value and going on with it. -/
theorem pop_bind_kept {α : Type} {result : ω → α → Prop} {next : Value × Frame → Step α}
    (h : f.Every (P.good w)) (hnext : ∀ v g, f.stack = v :: g.stack → P.good w v →
      f.Kept P w g → P.StepEnsures w (next (v, g)) result) :
    P.StepEnsures w (liftM f.pop >>= next) result := by
  intro s phase a s' both
  obtain ⟨⟨v, g⟩, s₁, popping, run⟩ := Step.bind_eq_ok both
  obtain ⟨popped, rfl⟩ := Step.liftExcept_eq_ok popping
  obtain ⟨stack, rest⟩ := pop_eq_ok popped
  obtain ⟨top, below⟩ := List.forall_mem_cons.mp (stack ▸ h.stack)
  exact hnext v g stack top (rest ▸ kept_of_stack h below) _ phase a s' run

section

variable (supply : Supplies P body index insn f₀)

include supply

theorem pushed_kept (h : f.Every (P.good w))
    (allocation : ∀ op name, insn.node = .type op name → op = Opcode.new) :
    P.StepEnsures w (do f.push (← Transfer.push insn)) (f.Kept P) :=
  .bind (.lift (supply.push allocation w)) fun _ _ later hv =>
    (push_kept (h.later later) hv).mono fun _ _ _ kept => ⟨kept.good, kept.width, kept.limit⟩

theorem applyUnary_kept (h : f.Every (P.good w)) :
    P.StepEnsures w (f.applyUnary insn) (f.Kept P) := by
  refine pop_bind_kept h fun v g _ hv hg => ?_
  refine .bind (.lift (supply.unary w v hv)) fun w' o later ho => ?_
  exact (push?_kept (hg.good.later later) ho).mono fun _ _ _ kept =>
    hg.trans ⟨kept.good, kept.width, kept.limit⟩

theorem discard_kept (h : f.Every (P.good w)) :
    P.StepEnsures w (f.discard insn) (f.Kept P) := by
  refine pop_bind_kept h fun v g _ hv hg => ?_
  refine .bind (.lift (supply.consume w _ _)) fun w' _ later _ => ?_
  exact .pure (hg.trans (.refl (hg.good.later later)))

theorem applyBinary_kept (h : f.Every (P.good w)) :
    P.StepEnsures w (f.applyBinary insn) (f.Kept P) := by
  refine pop_bind_kept h fun v g _ hv hg => ?_
  refine pop_bind_kept hg.good fun u g' _ hu hg' => ?_
  refine .bind (.lift (supply.binary w u v hu hv)) fun w' o later ho => ?_
  exact (push?_kept (hg'.good.later later) ho).mono fun _ _ _ kept =>
    (hg.trans hg').trans ⟨kept.good, kept.width, kept.limit⟩

theorem applyCall_kept (h : f.Every (P.good w)) (count : Nat) :
    P.StepEnsures w (f.applyCall insn count) (f.Kept P) := by
  refine .bind (q := fun w' p => (∀ v ∈ p.1, P.good w' v) ∧ f.Kept P w' p.2)
    (.liftExcept fun p popped => ?_) fun w' p later hp => ?_
  · obtain ⟨-, taken, rest⟩ := popMany_eq_ok popped
    rw [taken, rest]
    exact ⟨fun v member => h.stack v (List.mem_of_mem_take (List.mem_reverse.mp member)),
      kept_of_stack h fun v member => h.stack v (List.mem_of_mem_drop member)⟩
  · obtain ⟨htaken, kept⟩ := hp
    refine .bind (.lift (supply.call w' p.1 htaken)) fun w'' o later' ho => ?_
    exact (push?_kept (kept.good.later later') ho).mono fun _ _ _ kept' =>
      kept.trans ⟨kept'.good, kept'.width, kept'.limit⟩

theorem consumeAll_ensures (taken : List Value) :
    P.Ensures w (taken.forM (Store.consume insn.id)) fun _ _ => True := by
  induction taken generalizing w with
  | nil => exact .pure trivial
  | cons v rest ih => exact .bind (supply.consume w _ v) fun _ _ _ _ => ih

end

/-! ## Shuffles -/

/-- The frame behind a shuffle: some entries are gone, and copies or the entries themselves lie on
the rest. -/
def Shuffled (f : Frame) (shared : Bool) (n : Nat) (form : Bytecode.Shuffle) (g : Frame) : Prop :=
  ∃ rest moved values, Shuffle.plan form f.stack = .ok (rest, moved) ∧
    List.Forall₂ (Moved.Becomes shared n) moved values ∧ g = { f with stack := values.reverse ++ rest }

/-- Values that are pushed one after the other lie on the stack in reverse order. -/
theorem pushAll_eq_ok {values : List Value} {f g : Frame} {s s' : Store}
    (h : values.foldlM (fun f v => (liftM (f.push v) : Step Frame)) f s = .ok (g, s')) :
    g = { f with stack := values.reverse ++ f.stack } ∧ s' = s := by
  induction values generalizing f with
  | nil =>
    cases h
    exact ⟨rfl, rfl⟩
  | cons v values ih =>
    rw [List.foldlM_cons] at h
    cases pushed : f.push v with
    | error e =>
      rw [pushed] at h
      cases h
    | ok f' =>
      rw [pushed] at h
      obtain ⟨hg, hs⟩ := ih h
      rw [hg, push_eq_ok pushed]
      exact ⟨by simp, hs⟩

/-! ## Stores -/

/-- What a slot holds behind a store: the stored value, nothing, or what it held if the store does
not tear that apart. -/
def StoredAt (f : Frame) (slot : UInt16) (v : Value) (k : Nat) (w : Value) : Prop :=
  k = slot.toNat ∧ w = v ∨ w.Blank ∨
    f.locals[k]? = some w ∧ k ≠ slot.toNat ∧ (v.isWide = true → k ≠ (slot + 1).toNat) ∧
      (k + 1 = slot.toNat → w.isWide = false)

/-- The frame behind a store. -/
def Stored (f : Frame) (slot : UInt16) (v : Value) (g : Frame) : Prop :=
  g.stack = f.stack ∧ ∀ k w, g.locals[k]? = some w → f.StoredAt slot v k w

theorem setLocal_kept {slot : Nat} {v : Value} (h : f.Every (P.good w)) (hv : P.good w v) :
    P.StepEnsures w (liftM (f.setLocal slot v)) fun w' g =>
      f.Kept P w' g ∧ g.stack = f.stack ∧ slot < f.locals.length ∧
        ∀ k, g.locals[k]? = if k = slot then some v else f.locals[k]? := by
  refine .liftExcept fun g set => ?_
  obtain ⟨inside, rfl⟩ := setLocal_eq_ok set
  refine ⟨⟨⟨fun w member => ?_, h.stack⟩, by simp, rfl⟩, rfl, inside, fun k => ?_⟩
  · rcases List.mem_or_eq_of_mem_set member with old | rfl
    · exact h.locals w old
    · exact hv
  · rw [List.getElem?_set]
    by_cases same : k = slot
    · rw [if_pos same, if_pos same.symm, if_pos (same ▸ inside)]
    · rw [if_neg same, if_neg (Ne.symm same)]

section

variable (supply : Supplies P body index insn f₀)

include supply

/-- The entries on their way back are good, and copies of what was taken. -/
theorem moved_kept {n : Nat} (enough : ∀ w s, P.of w s → n ≤ s.buffers.texts.size)
    {moved : List Moved} (h : ∀ m ∈ moved, P.good w m.value)
    (originals : ∀ m ∈ moved, ∀ v, m.original? = some v → v ∈ copied f₀ insn.node) :
    P.StepEnsures w (moved.mapM fun
        | .kept v => pure v
        | .duplicate v => Step.lift (Transfer.copy body index insn.id v))
      fun w' values => (∀ v ∈ values, P.good w' v) ∧
        List.Forall₂ (Moved.Becomes (Transfer.followsAllocation body index) n) moved values := by
  induction moved generalizing w with
  | nil => exact .pure ⟨by simp, .nil⟩
  | cons m moved ih =>
    obtain ⟨first, rest⟩ := List.forall_mem_cons.mp h
    obtain ⟨original, others⟩ := List.forall_mem_cons.mp originals
    rw [List.mapM_cons]
    refine .bind (q := fun w' u => P.good w' u ∧
      m.Becomes (Transfer.followsAllocation body index) n u) ?_ fun w' u later hu => ?_
    · cases m with
      | kept v => exact .pure ⟨first, rfl⟩
      | duplicate v =>
        refine (Phases.StepEnsures.lift (supply.copy w v (original v rfl) first)).and fun s phase u t run => ?_
        exact copies_copy (enough w s phase) (Step.lift_eq_ok run)
    · refine .bind (ih (fun m member => P.mono (rest m member) later) others)
        fun w'' values later' hvalues => ?_
      exact .pure ⟨List.forall_mem_cons.mpr ⟨P.mono hu.1 later', hvalues.1⟩, .cons hu.2 hvalues.2⟩

/-- The simulation of a shuffle. -/
theorem shuffle_kept {n : Nat} (enough : ∀ w s, P.of w s → n ≤ s.buffers.texts.size) {op : Opcode}
    {form : Bytecode.Shuffle} (h : f₀.Every (P.good w))
    (node : insn.node = .simple op) (operation : Operation.ofOpcode op = .shuffle form) :
    P.StepEnsures w (f₀.shuffle body index insn.id form) fun w' g =>
      f₀.Kept P w' g ∧ f₀.Shuffled (Transfer.followsAllocation body index) n form g := by
  intro s phase g s' shuffling
  obtain ⟨⟨rest, moved⟩, s₁, planning, run⟩ := Step.bind_eq_ok shuffling
  obtain ⟨planned, rfl⟩ := Step.liftExcept_eq_ok planning
  dsimp only at run
  obtain ⟨values, s₂, moving, pushing⟩ := Step.bind_eq_ok run
  obtain ⟨hrest, hmoved⟩ := mem_of_plan planned
  have originals : ∀ m ∈ moved, ∀ v, m.original? = some v → v ∈ copied f₀ insn.node := by
    intro m member v original
    have all : copied f₀ insn.node = moved.filterMap Moved.original? := by
      simp only [copied, node, operation, planned]
      rfl
    rw [all]
    exact List.mem_filterMap.mpr ⟨m, member, original⟩
  obtain ⟨w', later, phase', hvalues, becomes⟩ :=
    moved_kept supply enough (fun m member => h.stack _ (hmoved m member)) originals _ phase values s₂ moving
  obtain ⟨rfl, rfl⟩ := pushAll_eq_ok pushing
  refine ⟨w', later, phase', kept_of_stack (h.later later) fun v member => ?_,
    rest, moved, values, planned, becomes, rfl⟩
  rcases List.mem_append.mp member with pushed | below
  · exact hvalues v (List.mem_reverse.mp pushed)
  · exact P.mono (h.stack v (hrest v below)) later

/-- Emptying a slot keeps the rest. -/
theorem clearLocal_kept {slot : Nat} (h : f.Every (P.good w)) :
    P.StepEnsures w (do f.setLocal slot (← Store.empty)) fun w' g =>
      f.Kept P w' g ∧ g.stack = f.stack ∧ slot < f.locals.length ∧
        ∃ e : Value, e.Blank ∧ ∀ k, g.locals[k]? = if k = slot then some e else f.locals[k]? := by
  refine .bind (.lift (supply.unknown w _)) fun w' e later he => ?_
  refine (setLocal_kept (h.later later) he.1).mono fun _ g _ hg => ?_
  exact ⟨⟨hg.1.good, hg.1.width, hg.1.limit⟩, hg.2.1, hg.2.2.1, e, he.2, hg.2.2.2⟩

/-- The last step of a store: a wide value in the slot before is torn apart. -/
def tornBefore (g : Frame) (slot : UInt16) : Step Frame :=
  match slot.toNat with
  | 0 => return g
  | before + 1 =>
    match g.locals[before]? with
    | some previous => if previous.isWide then do g.setLocal before (← Store.empty) else return g
    | none => return g

/-- The simulation of a store. -/
theorem store_kept {slot : UInt16} {v : Value} (h : f.Every (P.good w)) (hv : P.good w v) :
    P.StepEnsures w (f.store slot v) fun w' g => f.Kept P w' g ∧ f.Stored slot v g := by
  refine .bind (setLocal_kept h hv) fun w₁ g₁ later₁ h₁ => ?_
  obtain ⟨kept₁, stack₁, -, locals₁⟩ := h₁
  have after (w₂ : ω) (g₂ : Frame) (kept₂ : g₁.Kept P w₂ g₂) (stack₂ : g₂.stack = g₁.stack)
      (locals₂ : ∀ k u, g₂.locals[k]? = some u → k = slot.toNat ∧ u = v ∨ u.Blank ∨
        f.locals[k]? = some u ∧ k ≠ slot.toNat ∧ (v.isWide = true → k ≠ (slot + 1).toNat)) :
      P.StepEnsures w₂ (g₂.tornBefore slot) fun w' g => f.Kept P w' g ∧ f.Stored slot v g := by
    have unchanged (narrow : ∀ k u, g₂.locals[k]? = some u → k + 1 = slot.toNat → u.isWide = false) :
        P.StepEnsures w₂ (return g₂) fun w' g => f.Kept P w' g ∧ f.Stored slot v g := by
      refine .pure ⟨kept₁.trans kept₂, stack₂.trans stack₁, fun k u found => ?_⟩
      rcases locals₂ k u found with stored | blank | ⟨old, away, tail⟩
      · exact .inl stored
      · exact .inr (.inl blank)
      · exact .inr (.inr ⟨old, away, tail, narrow k u found⟩)
    unfold tornBefore
    split
    · next zero => exact unchanged fun k u _ next => by omega
    · next before slotBefore =>
      split
      · next previous found =>
        split
        · refine (clearLocal_kept supply kept₂.good).mono fun w₃ g₃ _ h₃ => ?_
          obtain ⟨kept₃, stack₃, -, e, blank, locals₃⟩ := h₃
          refine ⟨(kept₁.trans kept₂).trans kept₃, (stack₃.trans stack₂).trans stack₁, fun k u hu => ?_⟩
          rw [locals₃] at hu
          split at hu
          · cases hu
            exact .inr (.inl blank)
          · next other =>
            rcases locals₂ k u hu with stored | blank | ⟨old, away, tail⟩
            · exact .inl stored
            · exact .inr (.inl blank)
            · exact .inr (.inr ⟨old, away, tail, fun next => absurd (by omega) other⟩)
        · next narrow =>
          refine unchanged fun k u hu next => ?_
          obtain rfl : k = before := by omega
          rw [found] at hu
          cases hu
          exact eq_false_of_ne_true narrow
      · next missing =>
        refine unchanged fun k u hu next => ?_
        obtain rfl : k = before := by omega
        rw [missing] at hu
        cases hu
  by_cases wide : v.isWide = true
  · simp only [if_pos wide]
    refine .bind (.lift (supply.unknown w₁ _)) fun w₂ e later₂ he => ?_
    refine .bind (setLocal_kept (kept₁.good.later later₂) he.1) fun w₃ g₂ _ h₂ => ?_
    obtain ⟨kept₂, stack₂, -, locals₂⟩ := h₂
    refine after w₃ g₂ ⟨kept₂.good, kept₂.width, kept₂.limit⟩ stack₂ fun k u hu => ?_
    rw [locals₂] at hu
    split at hu
    · cases hu
      exact .inr (.inl he.2)
    · next other =>
      rw [locals₁] at hu
      split at hu
      · next same =>
        cases hu
        exact .inl ⟨same, rfl⟩
      · next away => exact .inr (.inr ⟨hu, away, fun _ => other⟩)
  · simp only [if_neg wide]
    refine .bind (q := fun w' g => w' = w₁ ∧ g = g₁) (.pure ⟨rfl, rfl⟩) fun w₂ g₂ _ h₂ => ?_
    obtain ⟨rfl, rfl⟩ := h₂
    refine after w₂ g₂ (.refl kept₁.good) rfl fun k u hu => ?_
    rw [locals₁] at hu
    split at hu
    · next same =>
      cases hu
      exact .inl ⟨same, rfl⟩
    · next away => exact .inr (.inr ⟨hu, away, fun isWide => absurd isWide wide⟩)

end

/-! ## Instructions -/

section

variable (supply : Supplies P body index insn f)

include supply

/-- The simulation of an operation that takes operands from the stack. -/
theorem executeSimple_kept {op : Opcode} (h : f.Every (P.good w)) (node : insn.node = .simple op) :
    P.StepEnsures w (f.executeSimple body index insn op) (f.Kept P) := by
  have pushed : P.StepEnsures w (do f.push (← Transfer.push insn)) (f.Kept P) :=
    pushed_kept supply h fun _ _ other => by rw [node] at other; cases other
  have fails {α : Type} {e : FlowError} {next : α → Step Frame} :
      P.StepEnsures w (throw e >>= next) (f.Kept P) :=
    .bind (q := fun _ _ => False) .error fun _ _ _ h => h.elim
  unfold executeSimple
  split
  · exact .pure (.refl h)
  · exact .pure (.refl h)
  · exact pushed
  · exact pushed
  · exact applyBinary_kept supply h
  · exact applyBinary_kept supply h
  · refine pop_bind_kept h fun value g₁ _ _ kept₁ => ?_
    refine pop_bind_kept kept₁.good fun position g₂ _ _ kept₂ => ?_
    refine pop_bind_kept kept₂.good fun array g₃ _ _ kept₃ => ?_
    refine .bind (.lift (consumeAll_ensures supply [array, position, value]))
      fun _ _ later _ => .pure ?_
    exact ((kept₁.trans kept₂).trans kept₃).trans (.refl (kept₃.good.later later))
  · refine pop_bind_kept h fun v g _ _ kept => ?_
    dsimp only
    split
    · exact fails
    · exact .pure kept
  · refine pop_bind_kept h fun v g₁ _ _ kept₁ => ?_
    dsimp only
    split
    · exact .pure kept₁
    · refine pop_bind_kept kept₁.good fun u g₂ _ _ kept₂ => ?_
      dsimp only
      split
      · exact fails
      · exact .pure (kept₁.trans kept₂)
  · next form operation => exact (shuffle_kept supply (fun _ _ _ => Nat.zero_le _) h node operation).mono fun _ _ _ result => result.1
  · exact applyUnary_kept supply h
  · exact applyUnary_kept supply h
  · exact discard_kept supply h
  · exact discard_kept supply h
  · exact discard_kept supply h
  · exact .error

/-- The simulation of an access to a local variable. -/
theorem access_kept {op : Opcode} {slot : UInt16} (h : f.Every (P.good w))
    (node : insn.node = .var op slot) :
    P.StepEnsures w (match SlotAccess.ofOpcode op with
      | .load _ => do
        let v ← f.getLocal slot.toNat
        f.push (← Transfer.copy body index insn.id v)
      | .store _ => do
        let (v, f) ← f.pop
        f.store slot (← Transfer.copy body index insn.id v)
      | .other => throw (.unsupported "RET")) (f.Kept P) := by
  split
  · next access =>
    refine .bind (q := fun w' v => w' = w ∧ f.locals[slot.toNat]? = some v)
      (.liftExcept fun v found => ⟨rfl, getLocal_eq_ok found⟩) fun w' v _ found => ?_
    obtain ⟨rfl, found⟩ := found
    have member : v ∈ copied f insn.node := by simp [copied, node, access, found]
    refine .bind (.lift (supply.copy w' v member (h.locals v (List.mem_of_getElem? found))))
      fun _ u later hu => ?_
    exact (push_kept (h.later later) hu).mono fun _ _ _ kept => ⟨kept.good, kept.width, kept.limit⟩
  · next access =>
    refine pop_bind_kept h fun v g stack hv kept => ?_
    have member : v ∈ copied f insn.node := by simp [copied, node, access, stack]
    refine .bind (.lift (supply.copy w v member hv)) fun _ u later hu => ?_
    exact (store_kept supply (kept.good.later later) hu).mono fun _ _ _ result =>
      kept.trans ⟨result.1.good, result.1.width, result.1.limit⟩
  · exact .error

/-- The frame behind a simulated instruction consists of good values, and has as many slots as the
one before. -/
theorem execute_kept (h : f.Every (P.good w)) :
    P.StepEnsures w (f.execute body index insn) (f.Kept P) := by
  have counted (descriptor : String) (receiver : Nat) :
      P.StepEnsures w (do f.applyCall insn ((← argumentCount descriptor) + receiver)) (f.Kept P) := by
    refine .bind (q := fun w' _ => w' = w) (.liftExcept fun _ _ => rfl) fun _ _ _ same => ?_
    subst same
    exact applyCall_kept supply h _
  have pushed (allocation : ∀ op name, insn.node = .type op name → op = Opcode.new) :
      P.StepEnsures w (do f.push (← Transfer.push insn)) (f.Kept P) :=
    pushed_kept supply h allocation
  obtain ⟨id, node⟩ := insn
  cases node with
  | label | line => exact .pure (.refl h)
  | simple op => exact executeSimple_kept supply h rfl
  | int op operand =>
    unfold execute
    dsimp only
    split
    · exact applyUnary_kept supply h
    · exact pushed nofun
  | constant value => exact pushed nofun
  | var op slot => exact access_kept supply h rfl
  | increment slot amount =>
    unfold execute
    dsimp only
    refine .bind (q := fun w' v => w' = w ∧ P.good w v) (.liftExcept fun v found =>
      ⟨rfl, h.locals v (List.mem_of_getElem? (getLocal_eq_ok found))⟩) fun _ v _ hv => ?_
    obtain ⟨rfl, hv⟩ := hv
    refine .bind (.lift (supply.unary _ v hv)) fun _ o later ho => ?_
    split
    · next u => exact (setLocal_kept (h.later later) (ho u rfl)).mono fun _ _ _ result =>
        ⟨result.1.good, result.1.width, result.1.limit⟩
    · exact .pure (.refl (h.later later))
  | jump op target =>
    unfold execute
    dsimp only
    split
    · exact .pure (.refl h)
    · exact .pure (.refl h)
    · exact .error
    · exact applyBinary_kept supply h
    · exact discard_kept supply h
    · exact discard_kept supply h
  | tableSwitch | lookupSwitch => exact discard_kept supply h
  | field op owner name descriptor =>
    unfold execute
    dsimp only
    split
    · exact pushed nofun
    · split
      · exact discard_kept supply h
      · split
        · exact applyUnary_kept supply h
        · exact applyBinary_kept supply h
  | call op owner name descriptor isInterface => exact counted descriptor _
  | dynamicCall name descriptor bootstrap arguments => exact counted descriptor 0
  | type op name =>
    unfold execute
    dsimp only
    split
    · next new => exact pushed fun op' _ same => by cases same; exact new
    · exact applyUnary_kept supply h
  | newArrays descriptor dimensions => exact applyCall_kept supply h _

end

end Frame

end Bytecode.Analysis
