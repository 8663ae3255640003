import Bytecode.Proofs.Verification.Visits
import Bytecode.Proofs.Verification.Words

/-!
# What stands in inferred frames

Two things about the types in a frame that no instruction looks at, but that stack maps rely on. In the
locals, the slot behind the first word of a wide value holds `top`, so that the second word can be left
out (`Paired`). And an object that is not initialized yet was created by a `NEW` that control reaches, so
that its position has an offset in the code (`InferenceState.Allocates`).

`TypeFrame.Tidy` says both of a frame. Every instruction keeps it (`Tidy.execute`), with the position of a
`NEW` as the only one that is added, and so does every join of frames (`Tidy.merge`). The loop of the
inference therefore keeps it for all frames (`inferFrames_tidy`).
-/

namespace Bytecode

namespace VerificationType

/-- The position at which an object was created that is not initialized yet satisfies a condition. -/
def Allocated (Q : Nat → Prop) : VerificationType → Prop
  | uninitialized creation => Q creation
  | _ => True

variable {Q R : Nat → Prop} {type : VerificationType}

theorem Allocated.mono (h : type.Allocated Q) (weaker : ∀ i, Q i → R i) : type.Allocated R := by
  cases type with
  | uninitialized creation => exact weaker creation h
  | _ => trivial

theorem allocated_typeOf (kind : Kind) : (TypeFrame.typeOf kind).Allocated Q := by
  cases kind <;> trivial

theorem allocated_elementType (array : VerificationType) :
    (TypeFrame.elementType array).Allocated Q := by
  cases array with
  | object name =>
    rw [TypeFrame.elementType]
    split <;> trivial
  | _ => trivial

theorem allocated_ofDescriptor {d : Descriptor} (described : ofDescriptor d = some type) :
    type.Allocated Q := by
  cases d <;> cases described <;> trivial

theorem isWide_of_merge {h : Hierarchy} {a b : VerificationType}
    (wide : (h.merge a b).isWide = true) : h.merge a b = a := by
  unfold Hierarchy.merge at wide ⊢
  split
  · rfl
  · rename_i different
    rw [if_neg different] at wide
    split at wide <;> first | rfl | cases wide

theorem merge_top (h : Hierarchy) (b : VerificationType) : h.merge .top b = .top := by
  unfold Hierarchy.merge
  split
  · rfl
  · rfl

/-- A join of two types names no creation that the first type does not name. -/
theorem Allocated.merge (h : Hierarchy) {a b : VerificationType} (allocated : a.Allocated Q) :
    (h.merge a b).Allocated Q := by
  unfold Hierarchy.merge
  split
  · exact allocated
  · rename_i different
    split
    · trivial
    · trivial
    · trivial
    · trivial

end VerificationType

open VerificationType (Allocated)

/-- Behind the first word of a wide value stands `top`, unless the list ends there. -/
def Paired (types : List VerificationType) : Prop :=
  ∀ k type, types[k]? = some type → type.isWide = true → k + 1 < types.length →
    types[k + 1]? = some .top

namespace TypeFrame

/-- The locals of a frame are paired, and the creations that its types name satisfy a condition. -/
structure Tidy (Q : Nat → Prop) (f : TypeFrame) : Prop where
  paired : Paired f.locals
  locals : ∀ type ∈ f.locals, type.Allocated Q
  stack : ∀ type ∈ f.stack, type.Allocated Q

/-- The result of a step is tidy. -/
def Tidies (Q : Nat → Prop) (x : Inferred TypeFrame) : Prop :=
  ∀ g, x = .ok g → g.Tidy Q

variable {Q : Nat → Prop} {f g : TypeFrame} {type : VerificationType}

namespace Tidies

theorem pure (h : f.Tidy Q) : Tidies Q (Pure.pure f) := by
  intro g ran
  cases ran
  exact h

theorem error (cause : InferenceError) : Tidies Q (.error cause) := by
  intro g ran
  cases ran

/-- A step behind a computation. -/
theorem bind {α : Type} {x : Inferred α} {next : α → Inferred TypeFrame}
    (h : ∀ a, x = .ok a → Tidies Q (next a)) : Tidies Q (x >>= next) := by
  intro g ran
  obtain ⟨a, first, ran⟩ := ok_of_bind ran
  exact h a first g ran

end Tidies

namespace Tidy

theorem mono {R : Nat → Prop} (h : f.Tidy Q) (weaker : ∀ i, Q i → R i) : f.Tidy R where
  paired := h.paired
  locals := fun type member => (h.locals type member).mono weaker
  stack := fun type member => (h.stack type member).mono weaker

/-- Only words that were there are left on the stack. -/
theorem withStack (h : f.Tidy Q) {stack : List VerificationType} (old : stack ⊆ f.stack) :
    Tidy Q { f with stack } :=
  ⟨h.paired, h.locals, fun type member => h.stack type (old member)⟩

theorem push (h : f.Tidy Q) (allocated : type.Allocated Q) : (f.push type).Tidy Q := by
  refine ⟨h.paired, h.locals, ?_⟩
  rw [TypeFrame.push]
  dsimp only
  split
  · exact List.forall_mem_cons.mpr ⟨trivial, List.forall_mem_cons.mpr ⟨allocated, h.stack⟩⟩
  · exact List.forall_mem_cons.mpr ⟨allocated, h.stack⟩

theorem push? (h : f.Tidy Q) {type : Option VerificationType}
    (allocated : ∀ t, type = some t → t.Allocated Q) : (f.push? type).Tidy Q := by
  cases type with
  | none => exact h
  | some t => exact h.push (allocated t rfl)

theorem pop (h : f.Tidy Q) (words : Nat) : Tidies Q (f.pop words) := by
  intro g ran
  rw [(pop_eq_ok ran).2]
  exact h.withStack (List.drop_subset ..)

theorem popPush (h : f.Tidy Q) (words : Nat) (allocated : type.Allocated Q) :
    Tidies Q (f.popPush words type) :=
  .bind fun g popped => .pure ((h.pop words g popped).push allocated)

theorem popWord (h : f.Tidy Q) (ran : f.popWord = .ok (type, g)) : type.Allocated Q ∧ g.Tidy Q := by
  obtain ⟨shape, rfl⟩ := popWord_eq_ok ran
  exact ⟨h.stack type (shape ▸ List.mem_cons_self), h.withStack (List.drop_subset ..)⟩

end Tidy

/-! ## Stores -/

/-- No wide value has its second word in a slot whose value is stored. -/
theorem paired_set {types : List VerificationType} (paired : Paired types) {slot : Nat}
    (before : ∀ k t, slot = k + 1 → types[k]? = some t → t.isWide = false ∨ type = .top)
    (behind : type.isWide = true → slot + 1 < types.length → types[slot + 1]? = some .top) :
    Paired (types.set slot type) := by
  intro k t found wide inside
  rw [List.length_set] at inside
  rw [List.getElem?_set] at found
  by_cases here : slot = k
  · -- The stored value itself: what stands behind it has not changed.
    rw [if_pos here, if_pos (by omega)] at found
    cases found
    rw [List.getElem?_set_ne (by omega), ← here]
    exact behind wide (here ▸ inside)
  · rw [if_neg here] at found
    by_cases next : slot = k + 1
    · rcases before k t next found with narrow | rfl
      · rw [narrow] at wide
        cases wide
      · rw [next, List.getElem?_set_self inside]
    · rw [List.getElem?_set_ne (by omega)]
      exact paired k t found wide inside

theorem paired_set_top {types : List VerificationType} (paired : Paired types) (slot : Nat) :
    Paired (types.set slot .top) :=
  paired_set paired (fun _ _ _ _ => .inr rfl) fun wide => by cases wide

theorem invalidateBefore_eq (types : List VerificationType) (slot : Nat) :
    invalidateBefore types slot = types ∨ ∃ k, slot = k + 1 ∧
      invalidateBefore types slot = types.set k .top := by
  cases slot with
  | zero => exact .inl rfl
  | succ k =>
    rw [invalidateBefore]
    split
    · exact .inr ⟨k, rfl, rfl⟩
    · exact .inl rfl

/-- In front of a slot that is stored into stands no wide value. -/
theorem narrow_invalidateBefore {types : List VerificationType} {k : Nat} {t : VerificationType}
    (found : (invalidateBefore types (k + 1))[k]? = some t) : t.isWide = false := by
  rw [invalidateBefore] at found
  split at found
  · rw [List.getElem?_set] at found
    split at found
    · split at found <;> cases found
      rfl
    · exact absurd rfl ‹_›
  · rename_i narrow
    rw [found] at narrow
    simpa using narrow

theorem Tidy.setLocal (h : f.Tidy Q) (slot : Nat) (allocated : type.Allocated Q) :
    Tidies Q (f.setLocal slot type) := by
  have stored {types : List VerificationType} {new : VerificationType} (k : Nat)
      (all : ∀ t ∈ types, t.Allocated Q) (here : new.Allocated Q) :
      ∀ t ∈ types.set k new, t.Allocated Q := fun t member =>
    (List.mem_or_eq_of_mem_set member).elim (all t) fun same => same ▸ here
  -- First the wide value in front is forgotten, then the second word is stored, and the first one last.
  have first : Paired (invalidateBefore f.locals slot) ∧
      ∀ t ∈ invalidateBefore f.locals slot, t.Allocated Q := by
    rcases invalidateBefore_eq f.locals slot with same | ⟨k, -, same⟩
    · rw [same]
      exact ⟨h.paired, h.locals⟩
    · rw [same]
      exact ⟨paired_set_top h.paired k, stored k h.locals trivial⟩
  have narrow : ∀ k t, slot = k + 1 → (invalidateBefore f.locals slot)[k]? = some t →
      t.isWide = false := by
    rintro k t rfl found
    exact narrow_invalidateBefore found
  intro g ran
  rw [TypeFrame.setLocal] at ran
  by_cases outside : f.locals.length < slot + if type.isWide then 2 else 1
  · rw [if_pos outside] at ran
    cases ran
  · rw [if_neg outside] at ran
    cases ran
    cases wide : type.isWide with
    | false =>
      simp only [Bool.false_eq_true, if_false]
      refine ⟨paired_set first.1 (fun k t same found => .inl (narrow k t same found)) ?_,
        stored slot first.2 allocated, h.stack⟩
      rw [wide]
      exact fun same => absurd same Bool.false_ne_true
    | true =>
      simp only [if_true]
      have second := paired_set_top first.1 (slot + 1)
      refine ⟨paired_set second (fun k t same found => .inl (narrow k t same ?_)) ?_,
        stored slot (stored (slot + 1) first.2 trivial) allocated, h.stack⟩
      · rwa [List.getElem?_set_ne (by omega)] at found
      · intro _ inside
        rw [List.length_set] at inside
        exact List.getElem?_set_self inside

/-! ## Instructions -/

theorem Tidy.replace (h : f.Tidy Q) {source target : VerificationType} (narrow : source ≠ .top)
    (target_ : target.isWide = false) (allocated : target.Allocated Q) :
    (f.replace source target).Tidy Q := by
  have change {types : List VerificationType} (all : ∀ t ∈ types, t.Allocated Q) :
      ∀ t ∈ types.map fun t => if t = source then target else t, t.Allocated Q := by
    intro t member
    obtain ⟨old, there, rfl⟩ := List.mem_map.mp member
    split
    · exact allocated
    · exact all old there
  refine ⟨fun k t found wide inside => ?_, change h.locals, change h.stack⟩
  rw [TypeFrame.replace] at found inside ⊢
  rw [List.length_map] at inside
  rw [List.getElem?_map] at found ⊢
  obtain ⟨old, there, rfl⟩ := Option.map_eq_some_iff.mp found
  have wide_ : old.isWide = true := by
    split at wide
    · rw [target_] at wide
      cases wide
    · exact wide
  rw [h.paired k old there wide_ inside, Option.map_some, if_neg (Ne.symm narrow)]

theorem Tidy.pushDescribed (h : f.Tidy Q) (descriptor : String) :
    Tidies Q (f.pushDescribed descriptor) :=
  .bind fun _ _ => .pure (h.push? fun _ => VerificationType.allocated_ofDescriptor)

theorem Tidy.popArguments (h : f.Tidy Q) {descriptor : String} {result : Option VerificationType}
    (ran : f.popArguments descriptor = .ok (result, g)) :
    (∀ t, result = some t → t.Allocated Q) ∧ g.Tidy Q := by
  obtain ⟨d, -, ran⟩ := ok_of_bind ran
  obtain ⟨popped, taken, ran⟩ := ok_of_bind ran
  cases ran
  exact ⟨fun t => VerificationType.allocated_ofDescriptor, h.pop _ _ taken⟩

theorem Tidy.shuffle (h : f.Tidy Q) (form : Shuffle) : Tidies Q (f.shuffle form) := by
  have dup (take under : Nat) : Tidies Q (f.dup take under) := by
    rw [TypeFrame.dup]
    split
    · exact .error _
    · refine .pure (h.withStack ?_)
      exact List.append_subset.mpr ⟨List.append_subset.mpr ⟨List.take_subset .., List.take_subset ..⟩,
        List.drop_subset ..⟩
  cases form with
  | swap =>
    rw [TypeFrame.shuffle, TypeFrame.swap]
    split
    · next a b rest shape =>
      refine .pure (h.withStack ?_)
      rw [shape]
      exact (List.Perm.swap a b rest).subset
    · exact .error _
  | _ => exact dup _ _

theorem Tidy.executeSimple (h : f.Tidy Q) (op : Opcode) : Tidies Q (f.executeSimple op) := by
  rw [TypeFrame.executeSimple]
  cases Operation.ofOpcode op with
  | nop => exact .pure h
  | null => exact .pure (h.push trivial)
  | constant value => cases value <;> exact .pure (h.push trivial)
  | arrayLoad kind =>
    cases kind with
    | reference =>
      refine .bind fun g popped => .bind fun p taken => .pure ?_
      exact ((h.pop 1 g popped).popWord taken).2.push (VerificationType.allocated_elementType _)
    | _ => exact h.popPush _ (VerificationType.allocated_typeOf _)
  | binary operation => exact h.popPush _ (VerificationType.allocated_typeOf _)
  | unary operation => exact h.popPush _ (VerificationType.allocated_typeOf _)
  | arrayLength => exact h.popPush _ trivial
  | shuffle form => exact h.shuffle form
  | leave kind =>
    cases kind with
    | none => exact .pure h
    | some kind => exact h.pop _
  | other => exact .error _
  | _ => exact h.pop _

theorem Tidy.executeConstant (h : f.Tidy Q) (value : Constant) :
    Tidies Q (f.executeConstant value) := by
  cases value with
  | dynamic name descriptor bootstrap arguments => exact h.pushDescribed descriptor
  | _ => exact .pure (h.push trivial)

theorem Tidy.executeVar (h : f.Tidy Q) (op : Opcode) (slot : Nat) :
    Tidies Q (f.executeVar op slot) := by
  rw [TypeFrame.executeVar]
  cases SlotAccess.ofOpcode op with
  | load kind =>
    cases kind with
    | reference =>
      refine .bind fun type found => .pure (h.push (h.locals type ?_))
      rw [getLocal] at found
      split at found
      · next there =>
        cases found
        exact List.mem_of_getElem? there
      · cases found
    | _ => exact .pure (h.push (VerificationType.allocated_typeOf _))
  | store kind =>
    dsimp only
    split
    · exact .bind fun g popped =>
        (h.pop 2 g popped).setLocal slot (VerificationType.allocated_typeOf _)
    · refine .bind fun p taken => ?_
      obtain ⟨allocated, rest⟩ := h.popWord taken
      exact rest.setLocal slot allocated
  | other => exact .error _

theorem Tidy.executeType (h : f.Tidy Q) {index : Nat} {op : Opcode} (name : String)
    (created : op = Opcode.new → Q index) : Tidies Q (f.executeType index op name) := by
  rw [TypeFrame.executeType]
  split_ifs with new
  · exact .pure (h.push (created new))
  · exact h.popPush _ trivial
  · exact h.popPush _ trivial
  · exact h.popPush _ trivial

theorem Tidy.executeField (h : f.Tidy Q) (op : Opcode) (descriptor : String) :
    Tidies Q (f.executeField op descriptor) := by
  rw [TypeFrame.executeField]
  refine .bind fun type _ => ?_
  dsimp only
  split_ifs
  · exact h.pushDescribed descriptor
  · exact h.pop _
  · exact .bind fun g popped => (h.pop 1 g popped).pushDescribed descriptor
  · exact h.pop _

/-- Behind its constructor an object has the type of its class. -/
theorem constructedType_eq_ok {body : Body} {owner callOwner : String} {receiver : VerificationType}
    (ran : constructedType body owner callOwner receiver = .ok type) :
    receiver ≠ .top ∧ ∃ name, type = .object name := by
  unfold constructedType at ran
  split at ran
  · cases ran
    exact ⟨nofun, _, rfl⟩
  · split at ran <;> cases ran
    · exact ⟨nofun, _, rfl⟩
    · exact ⟨nofun, _, rfl⟩
  · cases ran

theorem Tidy.executeCall (h : f.Tidy Q) (body : Body) (owner : String) (op : Opcode)
    (callOwner name descriptor : String) :
    Tidies Q (f.executeCall body owner op callOwner name descriptor) := by
  rw [TypeFrame.executeCall]
  refine .bind fun p taken => ?_
  obtain ⟨result, called⟩ := h.popArguments taken
  dsimp only
  split
  · exact .pure (called.push? result)
  refine .bind fun q received => ?_
  obtain ⟨-, rest⟩ := called.popWord received
  split
  · refine .bind fun type made => .pure ?_
    obtain ⟨other, constructed, rfl⟩ := constructedType_eq_ok made
    have plain : (VerificationType.object constructed).Allocated Q := trivial
    exact (rest.replace other rfl plain).push? result
  · exact .pure (rest.push? result)

/-- An instruction keeps a frame tidy. It adds a creation only if it is a `NEW`. -/
theorem Tidy.execute (h : f.Tidy Q) (body : Body) (owner : String) {index : Nat} {node : Node}
    (created : ∀ name, node = .type Opcode.new name → Q index) :
    Tidies Q (f.execute body owner index node) := by
  cases node with
  | simple op => exact h.executeSimple op
  | int op operand =>
    rw [TypeFrame.execute]
    split
    · refine .bind fun g popped => .bind fun type primitive => .pure ((h.pop 1 g popped).push ?_)
      rw [primitiveArray] at primitive
      split at primitive <;> cases primitive <;> trivial
    · exact .pure (h.push trivial)
  | constant value => exact h.executeConstant value
  | var op slot => exact h.executeVar op _
  | type op name => exact h.executeType name fun new => created name (new ▸ rfl)
  | field op fieldOwner name descriptor => exact h.executeField op descriptor
  | call op callOwner name descriptor isInterface => exact h.executeCall body owner op _ _ _
  | dynamicCall name descriptor bootstrap arguments =>
    refine .bind fun p taken => .pure ?_
    obtain ⟨result, called⟩ := h.popArguments taken
    exact called.push? result
  | jump op target =>
    rw [TypeFrame.execute, executeJump]
    cases JumpForm.ofOpcode op with
    | test => exact h.pop _
    | compare => exact h.pop _
    | always => exact .pure h
    | _ => exact .error _
  | tableSwitch => exact h.pop _
  | lookupSwitch => exact h.pop _
  | newArrays descriptor dimensions => exact h.popPush _ trivial
  | _ => exact .pure h

/-! ## Joins -/

/-- What stands in a slot of a join comes from the slot of the first frame. -/
theorem getElem?_mergeSlots {h : Hierarchy} {old incoming : List VerificationType} {k : Nat}
    {t : VerificationType} (found : (mergeSlots h old incoming)[k]? = some t) :
    ∃ a, old[k]? = some a ∧ (t = a ∨ ∃ b, t = h.merge a b) := by
  rw [mergeSlots] at found
  rcases Nat.lt_or_ge k ((old.zip incoming).map fun p => h.merge p.1 p.2).length with inside | behind
  · rw [List.getElem?_append_left inside, List.getElem?_map] at found
    obtain ⟨⟨a, b⟩, there, rfl⟩ := Option.map_eq_some_iff.mp found
    exact ⟨a, (List.getElem?_zip_eq_some.mp there).1, .inr ⟨b, rfl⟩⟩
  · rw [List.getElem?_append_right behind, List.getElem?_drop] at found
    refine ⟨t, ?_, .inl rfl⟩
    rw [List.length_map, List.length_zip] at behind found
    have inside := (List.getElem?_eq_some_iff.mp found).1
    rw [show incoming.length + (k - min old.length incoming.length) = k by omega] at found
    exact found

theorem paired_mergeSlots {h : Hierarchy} {old : List VerificationType} (paired : Paired old)
    (incoming : List VerificationType) : Paired (mergeSlots h old incoming) := by
  intro k t found wide inside
  rw [length_mergeSlots] at inside
  obtain ⟨a, there, from_⟩ := getElem?_mergeSlots found
  have wide_ : a.isWide = true := by
    rcases from_ with rfl | ⟨b, rfl⟩
    · exact wide
    · exact VerificationType.isWide_of_merge wide ▸ wide
  have second := paired k a there wide_ inside
  have some_ : k + 1 < (mergeSlots h old incoming).length := by
    rwa [length_mergeSlots]
  obtain ⟨a', there', from_'⟩ := getElem?_mergeSlots (List.getElem?_eq_getElem some_)
  rw [second] at there'
  cases there'
  rw [List.getElem?_eq_getElem some_]
  rcases from_' with same | ⟨b, same⟩
  · rw [same]
  · rw [same, VerificationType.merge_top]

theorem allocated_mergeSlots {h : Hierarchy} {old : List VerificationType}
    (all : ∀ t ∈ old, t.Allocated Q) (incoming : List VerificationType) :
    ∀ t ∈ mergeSlots h old incoming, t.Allocated Q := by
  intro t member
  obtain ⟨k, found⟩ := List.mem_iff_getElem?.mp member
  obtain ⟨a, there, from_⟩ := getElem?_mergeSlots found
  have allocated := all a (List.mem_of_getElem? there)
  rcases from_ with rfl | ⟨b, rfl⟩
  · exact allocated
  · exact allocated.merge h

/-- A join with another frame keeps a frame tidy. -/
theorem Tidy.merge {h : Hierarchy} {incoming : TypeFrame} (tidy : f.Tidy Q)
    (ran : f.merge h incoming = .ok g) : g.Tidy Q := by
  rw [TypeFrame.merge] at ran
  split at ran
  · cases ran
  · cases ran
    exact ⟨paired_mergeSlots tidy.paired _, allocated_mergeSlots tidy.locals _,
      allocated_mergeSlots tidy.stack _⟩

end TypeFrame

/-! ## The entry of a method -/

theorem paired_cons {types : List VerificationType} {type : VerificationType} (paired : Paired types)
    (behind : type.isWide = true → ∀ t ∈ types.head?, t = .top) : Paired (type :: types) := by
  intro k t found wide inside
  rw [List.getElem?_cons_succ]
  cases k with
  | zero =>
    cases found
    have some_ : 0 < types.length := Nat.lt_of_succ_lt_succ inside
    rw [List.getElem?_eq_getElem some_]
    exact congrArg some (behind wide _ (by rw [List.head?_eq_getElem?, List.getElem?_eq_getElem some_]; rfl))
  | succ k => exact paired k t found wide (Nat.lt_of_succ_lt_succ inside)

theorem paired_take {types : List VerificationType} (paired : Paired types) (n : Nat) :
    Paired (types.take n) := by
  intro k t found wide inside
  rw [List.length_take] at inside
  rw [List.getElem?_take_of_lt (by omega)] at found ⊢
  exact paired k t found wide (by omega)

theorem paired_append_tops {types : List VerificationType} (paired : Paired types) (n : Nat) :
    Paired (types ++ List.replicate n .top) := by
  intro k t found wide inside
  rw [List.length_append, List.length_replicate] at inside
  have front : k < types.length := by
    by_contra behind
    rw [List.getElem?_append_right (Nat.le_of_not_lt behind)] at found
    rw [List.eq_of_mem_replicate (List.mem_of_getElem? found)] at wide
    cases wide
  rw [List.getElem?_append_left front] at found
  rcases Nat.lt_or_ge (k + 1) types.length with next | last
  · rw [List.getElem?_append_left next]
    exact paired k t found wide next
  · rw [List.getElem?_append_right last, List.getElem?_replicate_of_lt (by omega)]

/-- The words of some values are paired. -/
theorem paired_values (types : List VerificationType) :
    Paired (types.flatMap fun type => if type.isWide then [type, .top] else [type]) := by
  induction types with
  | nil => exact fun k t found => by cases found
  | cons type types ih =>
    rw [List.flatMap_cons]
    cases wide : type.isWide with
    | true =>
      exact paired_cons (paired_cons ih fun absurd_ => by cases absurd_) fun _ t member => by
        cases member
        rfl
    | false =>
      refine paired_cons ih fun absurd_ => ?_
      rw [wide] at absurd_
      cases absurd_

/-- The frame at the entry of a method is tidy, and names no creation. -/
theorem Method.tidy_entryFrame (m : Method) (owner : String) (arguments : List Descriptor)
    (maxLocals : Nat) (Q : Nat → Prop) : (m.entryFrame owner arguments maxLocals).Tidy Q := by
  have values {type : VerificationType}
      (member : type ∈ (arguments.filterMap VerificationType.ofDescriptor).flatMap fun type =>
        if type.isWide then [type, .top] else [type]) : type.Allocated Q := by
    obtain ⟨value, listed, inside⟩ := List.mem_flatMap.mp member
    obtain ⟨d, -, described⟩ := List.mem_filterMap.mp listed
    have allocated := VerificationType.allocated_ofDescriptor (Q := Q) described
    split at inside
    · rcases List.mem_cons.mp inside with rfl | inside
      · exact allocated
      · rw [List.mem_singleton.mp inside]
        trivial
    · rw [List.mem_singleton.mp inside]
      exact allocated
  refine ⟨paired_append_tops (paired_take ?_ _) _, fun type member => ?_, nofun⟩
  · split
    · exact paired_values _
    · split
      · exact paired_cons (paired_values _) nofun
      · exact paired_cons (paired_values _) nofun
  · rcases List.mem_append.mp member with passed | filled
    · rcases List.mem_append.mp (List.mem_of_mem_take passed) with receiver | value
      · split at receiver
        · cases receiver
        · split at receiver
          · rw [List.mem_singleton.mp receiver]
            trivial
          · rw [List.mem_singleton.mp receiver]
            trivial
      · exact values value
    · rw [List.eq_of_mem_replicate filled]
      trivial

namespace InferenceContext

variable {ctx : InferenceContext} {s s' : InferenceState} {i : Nat}

/-- A position that control reaches and at which an object is created. -/
def Creation (ctx : InferenceContext) (s : InferenceState) (i : Nat) : Prop :=
  s.Live i ∧ ∃ insn name, ctx.body[i]? = some insn ∧ insn.node = .type Opcode.new name

/-- All frames of an inference are tidy. -/
def AllTidy (ctx : InferenceContext) (s : InferenceState) : Prop :=
  ∀ j f, s.frameAt j = some f → f.Tidy (ctx.Creation s)

theorem AllTidy.mergeInto {target : Nat} {incoming : TypeFrame} (tidy : ctx.AllTidy s)
    (carried : incoming.Tidy (ctx.Creation s)) (ran : ctx.mergeInto s target incoming = .ok s') :
    ctx.AllTidy s' := by
  have later : ∀ j, ctx.Creation s j → ctx.Creation s' j := fun j created =>
    ⟨(mergeInto_grows ran).1.live j created.1, created.2⟩
  obtain ⟨-, frames⟩ := mergeInto_cases ran
  intro j f found
  rcases frames j f found with before | ⟨-, rfl | ⟨existing, here, joined⟩⟩
  · exact (tidy j f before).mono later
  · exact carried.mono later
  · exact ((tidy target existing here).merge joined).mono later

theorem AllTidy.visit (tidy : ctx.AllTidy s) (ran : ctx.visit i s = .ok s') : ctx.AllTidy s' := by
  rcases visit_eq_ok ran with ⟨insn, before, after, targets, between, visited⟩ | ⟨rfl, -⟩
  · have alive : s.Live i := by
      rw [InferenceState.Live, show s.frames[i]?.join = some before from visited.frame]
      rfl
    have before_ := tidy i before visited.frame
    have after_ : after.Tidy (ctx.Creation s) :=
      before_.execute ctx.body ctx.owner
        (fun name new => ⟨alive, insn, name, visited.present, new⟩) after visited.execute
    -- Positions stay reached during the visit, so that what was tidy at its start stays so.
    refine (visited.invariant (I := fun t => ctx.AllTidy t ∧ ∀ j, s.Live j → t.Live j)
      ⟨tidy, fun j => id⟩ (fun target _ t t' both carried => ?_)
      fun range _ _ t t' both carried => ?_).1
    · have onward : after.Tidy (ctx.Creation t) :=
        after_.mono fun j created => ⟨both.2 j created.1, created.2⟩
      exact ⟨both.1.mergeInto onward carried,
        fun j live => (mergeInto_grows carried).1.live j (both.2 j live)⟩
    · have handled : (handlerFrame before range).Tidy (ctx.Creation t) := by
        have now := before_.mono fun j created =>
          show ctx.Creation t j from ⟨both.2 j created.1, created.2⟩
        refine ⟨now.paired, now.locals, fun type member => ?_⟩
        rw [List.mem_singleton.mp member]
        trivial
      exact ⟨both.1.mergeInto handled carried,
        fun j live => (mergeInto_grows carried).1.live j (both.2 j live)⟩
  · exact tidy

end InferenceContext

/-- **Inferred frames are tidy.** In the frames that are inferred for a method the locals are paired, and
an object that is not initialized yet comes from a reachable `NEW`. -/
theorem inferFrames_tidy {h : Hierarchy} {owner : String} {m : Method} {frames : MethodFrames}
    (ran : inferFrames h owner m = .ok frames) {i : Nat} {f : TypeFrame}
    (here : frames.frames[i]?.join = some f) :
    f.Tidy fun creation => (frames.frames[creation]?.join).isSome = true ∧
      ∃ insn name, m.body[creation]? = some insn ∧ insn.node = .type Opcode.new name := by
  cases some_ : m.body.isEmpty with
  | true =>
    rw [inferFrames] at ran
    obtain ⟨descriptor, -, ran⟩ := ok_of_bind ran
    simp only [some_, if_true] at ran
    cases ran
    cases here
  | false =>
    obtain ⟨descriptor, ranges, fuel, final, -, -, loop, -, same, -⟩ := run_of_inferFrames some_ ran
    have begun : InferenceContext.AllTidy
        ⟨h, owner, m.signature, m.body, m.body.lastLabels, ranges⟩
        { frames := (Array.replicate m.body.size none).setIfInBounds 0
            (some (m.entryFrame owner descriptor.arguments frames.maxLocals)), queue := [0] } := by
      intro j g found
      rw [InferenceState.frameAt, InferenceContext.entered _ _ _ (Body.size_pos some_)] at found
      split at found
      · cases found
        exact m.tidy_entryFrame _ _ _ _
      · cases found
    have tidy := InferenceContext.run_induction (I := InferenceContext.AllTidy _)
      (fun {s} {_} {_} {queue} kept _ visited =>
        have waiting : InferenceContext.AllTidy _ { s with queue } := kept
        waiting.visit visited) begun loop
    rw [same] at here ⊢
    exact tidy i f here

end Bytecode
