import Bytecode.Proofs.Verification.Ascents
import Bytecode.Proofs.Verification.Words

/-!
# The weight of what instructions bring

An instruction raises the stack by at most two words, and the types that it leaves are no heavier than
those before it and those that it names (`TypeFrame.Bounded.execute`). `Leads rank most height x` says this of
the result of a step; there is a rule for every way in which steps are put together.
-/

namespace Bytecode

variable {rank : String → Nat} {most height : Nat}

namespace VerificationType

@[simp]
theorem light_objectClass : (object objectClass).Light rank most := by
  rw [Light, Hierarchy.weight_objectClass]
  exact Nat.zero_le _

theorem light_typeOf (kind : Kind) : (TypeFrame.typeOf kind).Light rank most := by
  cases kind <;> first | exact trivial | exact light_objectClass

/-- The type of the elements of an array is no heavier than that of the array. -/
theorem light_elementType {array : VerificationType} (light : array.Light rank most) :
    (TypeFrame.elementType array).Light rank most := by
  cases array with
  | object name =>
    rw [TypeFrame.elementType]
    split
    · next element chars =>
      cases elements : Hierarchy.elementName element with
      | none => exact light_objectClass
      | some x =>
        have light : Hierarchy.weight rank name.toList ≤ most := light
        rw [chars, Hierarchy.weight_array elements] at light
        show Hierarchy.weight rank (String.ofList x).toList ≤ most
        rw [String.toList_ofList]
        omega
    · exact light_objectClass
  | null => exact trivial
  | _ => exact light_objectClass

end VerificationType

namespace TypeFrame

/-- The types of a frame are light, and its stack has at most a number of words. -/
structure Bounded (rank : String → Nat) (most height : Nat) (f : TypeFrame) : Prop where
  locals : ∀ type ∈ f.locals, type.Light rank most
  stack : ∀ type ∈ f.stack, type.Light rank most
  height : f.stack.length ≤ height

/-- The result of a step is bounded. -/
def Leads (rank : String → Nat) (most height : Nat) (x : Inferred TypeFrame) : Prop :=
  ∀ g, x = .ok g → g.Bounded rank most height

variable {f g : TypeFrame} {type : VerificationType}

theorem Bounded.mono {height' : Nat} (h : f.Bounded rank most height) (more : height ≤ height') :
    f.Bounded rank most height' :=
  ⟨h.locals, h.stack, Nat.le_trans h.height more⟩

theorem Bounded.drop (h : f.Bounded rank most height) (words : Nat) :
    Bounded rank most height { f with stack := f.stack.drop words } :=
  ⟨h.locals, fun _ member => h.stack _ (List.mem_of_mem_drop member),
    Nat.le_trans (List.length_drop ▸ Nat.sub_le _ _) h.height⟩

theorem Bounded.push (h : f.Bounded rank most height) (light : type.Light rank most) :
    (f.push type).Bounded rank most (height + 2) := by
  have short := h.height
  refine ⟨h.locals, fun t member => ?_, ?_⟩
  · simp only [TypeFrame.push] at member
    split at member
    · rcases List.mem_cons.mp member with rfl | member
      · exact trivial
      · exact (List.mem_cons.mp member).elim (fun same => same ▸ light) (h.stack t)
    · exact (List.mem_cons.mp member).elim (fun same => same ▸ light) (h.stack t)
  · simp only [TypeFrame.push]
    split
    · exact Nat.succ_le_succ (Nat.succ_le_succ short)
    · exact Nat.le_succ_of_le (Nat.succ_le_succ short)

theorem Bounded.push? (h : f.Bounded rank most height) {type : Option VerificationType}
    (light : ∀ t, type = some t → t.Light rank most) :
    (f.push? type).Bounded rank most (height + 2) := by
  cases type with
  | none => exact h.mono (Nat.le_add_right _ _)
  | some t => exact h.push (light t rfl)

theorem Bounded.replace (h : f.Bounded rank most height) (source : VerificationType)
    (light : type.Light rank most) : (f.replace source type).Bounded rank most height := by
  have change {types : List VerificationType} (all : ∀ t ∈ types, t.Light rank most) :
      ∀ t ∈ types.map fun t => if t = source then type else t, t.Light rank most := by
    intro t member
    obtain ⟨old, there, rfl⟩ := List.mem_map.mp member
    split
    · exact light
    · exact all old there
  refine ⟨change h.locals, change h.stack, ?_⟩
  rw [TypeFrame.replace, List.length_map]
  exact h.height

namespace Leads

theorem pure (h : f.Bounded rank most height) : Leads rank most height (Pure.pure f) := by
  intro g ran
  cases ran
  exact h

theorem error (cause : InferenceError) : Leads rank most height (.error cause) := by
  intro g ran
  cases ran

theorem mono {x : Inferred TypeFrame} {height' : Nat} (h : Leads rank most height x)
    (more : height ≤ height') : Leads rank most height' x :=
  fun g ran => (h g ran).mono more

/-- A step behind a computation. -/
theorem bind {α : Type} {x : Inferred α} {next : α → Inferred TypeFrame}
    (h : ∀ a, x = .ok a → Leads rank most height (next a)) : Leads rank most height (x >>= next) := by
  intro g ran
  obtain ⟨a, first, ran⟩ := ok_of_bind ran
  exact h a first g ran

end Leads

/-! ## The building blocks -/

theorem Bounded.pop (h : f.Bounded rank most height) (words : Nat) :
    Leads rank most height (f.pop words) := by
  intro g ran
  rw [(pop_eq_ok ran).2]
  exact h.drop words

theorem Bounded.popPush (h : f.Bounded rank most height) (words : Nat)
    (light : type.Light rank most) : Leads rank most (height + 2) (f.popPush words type) :=
  .bind fun g popped => .pure ((h.pop words g popped).push light)

theorem Bounded.popWord (h : f.Bounded rank most height) (ran : f.popWord = .ok (type, g)) :
    type.Light rank most ∧ g.Bounded rank most height := by
  obtain ⟨shape, rfl⟩ := popWord_eq_ok ran
  exact ⟨h.stack type (shape ▸ List.mem_cons_self), h.drop 1⟩

theorem Bounded.setLocal (h : f.Bounded rank most height) (slot : Nat)
    (light : type.Light rank most) : Leads rank most height (f.setLocal slot type) := by
  have set {types : List VerificationType} (new : VerificationType) (k : Nat)
      (all : ∀ t ∈ types, t.Light rank most) (here : new.Light rank most) :
      ∀ t ∈ types.set k new, t.Light rank most := fun t member =>
    (List.mem_or_eq_of_mem_set member).elim (all t) (fun same => same ▸ here)
  have invalidated : ∀ t ∈ invalidateBefore f.locals slot, t.Light rank most := by
    cases slot with
    | zero => exact h.locals
    | succ before =>
      rw [invalidateBefore]
      split
      · exact set .top before h.locals trivial
      · exact h.locals
  intro g ran
  rw [TypeFrame.setLocal] at ran
  by_cases outside : f.locals.length < slot + if type.isWide then 2 else 1
  · rw [if_pos outside] at ran
    cases ran
  · rw [if_neg outside] at ran
    cases ran
    refine ⟨set type slot ?_ light, h.stack, h.height⟩
    split
    · exact set .top _ invalidated trivial
    · exact invalidated

theorem Bounded.shuffle (h : f.Bounded rank most height) (form : Shuffle) :
    Leads rank most (height + 2) (f.shuffle form) := by
  have dup (take under : Nat) (two : take ≤ 2) : Leads rank most (height + 2) (f.dup take under) := by
    rw [TypeFrame.dup]
    split
    · exact .error _
    · have short := h.height
      refine .pure ⟨h.locals, fun t member => ?_, ?_⟩
      · rcases List.mem_append.mp member with member | member
        · exact (List.mem_append.mp member).elim (fun m => h.stack t (List.mem_of_mem_take m))
            (fun m => h.stack t (List.mem_of_mem_take m))
        · exact h.stack t (List.mem_of_mem_drop member)
      · simp only [List.length_append, List.length_take, List.length_drop]
        omega
  cases form with
  | swap =>
    rw [TypeFrame.shuffle, TypeFrame.swap]
    split
    · next a b rest shape =>
      have short := h.height
      rw [shape] at short
      have all := h.stack
      rw [shape] at all
      simp only [List.forall_mem_cons] at all
      refine .pure ⟨h.locals, ?_, Nat.le_add_right_of_le short⟩
      simp only [List.forall_mem_cons]
      exact ⟨all.2.1, all.1, all.2.2⟩
    · exact .error _
  | dup2 | dup2X1 | dup2X2 => exact dup 2 _ (Nat.le_refl _)
  | _ => exact dup 1 _ (Nat.le_succ _)

/-! ## Names -/

section

variable {names : Nat} (short : ∀ name : List Char, name.length ≤ names → Hierarchy.weight rank name ≤ most)

include short

theorem light_of_length {name : String} (few : name.length ≤ names) :
    (VerificationType.object name).Light rank most :=
  short _ (by rwa [String.length_toList])

/-- A type that a part of a text describes. -/
theorem light_ofDescriptor {d : Descriptor} (few : d.chars.length ≤ names) :
    ∀ type, VerificationType.ofDescriptor d = some type → type.Light rank most := by
  intro type described
  cases d with
  | object name =>
    cases described
    refine light_of_length short ?_
    rw [← String.length_toList]
    simp only [Descriptor.chars, List.length_cons, List.length_append, List.length_nil] at few
    omega
  | array element =>
    cases described
    refine light_of_length short ?_
    rw [Descriptor.text, String.length_ofList]
    exact few
  | _ => cases described <;> exact trivial

theorem Bounded.pushDescribed (h : f.Bounded rank most height) {descriptor : String}
    (few : descriptor.length ≤ names) :
    Leads rank most (height + 2) (f.pushDescribed descriptor) := by
  refine .bind fun d parsed => .pure (h.push? (light_ofDescriptor short ?_))
  rw [← Descriptor.chars_of_parseChars (ok_of_mapError parsed), String.length_toList]
  exact few

theorem Bounded.popArguments (h : f.Bounded rank most height) {descriptor : String}
    (few : descriptor.length ≤ names) {result : Option VerificationType}
    (ran : f.popArguments descriptor = .ok (result, g)) :
    (∀ type, result = some type → type.Light rank most) ∧ g.Bounded rank most height := by
  obtain ⟨d, parsed, ran⟩ := ok_of_bind ran
  obtain ⟨popped, taken, ran⟩ := ok_of_bind ran
  cases ran
  refine ⟨light_ofDescriptor short ?_, h.pop _ _ taken⟩
  have text := congrArg List.length (MethodDescriptor.chars_of_parse (ok_of_mapError parsed)).1
  rw [String.length_toList, MethodDescriptor.chars] at text
  simp only [List.length_append, List.length_cons] at text
  omega

/-! ## Instructions -/

omit short in
theorem Bounded.executeSimple (h : f.Bounded rank most height) (op : Opcode) :
    Leads rank most (height + 2) (f.executeSimple op) := by
  have same : Leads rank most (height + 2) (Pure.pure f) := .pure (h.mono (Nat.le_add_right _ _))
  have pop (words : Nat) : Leads rank most (height + 2) (f.pop words) :=
    (h.pop words).mono (Nat.le_add_right _ _)
  rw [TypeFrame.executeSimple]
  cases Operation.ofOpcode op with
  | nop => exact same
  | null => exact .pure (h.push trivial)
  | constant value => cases value <;> exact .pure (h.push trivial)
  | arrayLoad kind =>
    cases kind with
    | reference =>
      refine .bind fun g popped => .bind fun p taken => .pure ?_
      obtain ⟨light, rest⟩ := (h.pop 1 g popped).popWord taken
      exact rest.push (VerificationType.light_elementType light)
    | _ => exact h.popPush _ (VerificationType.light_typeOf _)
  | arrayStore kind => exact pop _
  | pop => exact pop _
  | pop2 => exact pop _
  | shuffle form => exact h.shuffle form
  | binary operation => exact h.popPush _ (VerificationType.light_typeOf _)
  | unary operation => exact h.popPush _ (VerificationType.light_typeOf _)
  | arrayLength => exact h.popPush _ trivial
  | leave kind =>
    cases kind with
    | none => exact same
    | some kind => exact pop _
  | throw => exact pop _
  | monitor => exact pop _
  | other => exact .error _

theorem Bounded.executeConstant (h : f.Bounded rank most height) {value : Constant}
    (known : longestKnownClass.length ≤ names) (few : (Node.constant value).nameLength ≤ names) :
    Leads rank most (height + 2) (f.executeConstant value) := by
  cases value with
  | string | classRef | methodType | handle =>
    exact .pure (h.push (light_of_length short (Nat.le_trans (by decide) known)))
  | dynamic name descriptor bootstrap arguments => exact h.pushDescribed short few
  | _ => exact .pure (h.push trivial)

omit short in
theorem Bounded.executeVar (h : f.Bounded rank most height) (op : Opcode) (slot : Nat) :
    Leads rank most (height + 2) (f.executeVar op slot) := by
  rw [TypeFrame.executeVar]
  cases SlotAccess.ofOpcode op with
  | load kind =>
    cases kind with
    | reference =>
      refine .bind fun type found => .pure (h.push (h.locals type ?_))
      rw [getLocal] at found
      split at found
      · next there =>
        cases found
        exact List.mem_of_getElem? there
      · cases found
    | _ => exact .pure (h.push (VerificationType.light_typeOf _))
  | store kind =>
    dsimp only
    split
    · exact .bind fun g popped =>
        ((h.pop 2 g popped).setLocal slot (VerificationType.light_typeOf _)).mono (Nat.le_add_right _ _)
    · refine .bind fun p taken => ?_
      obtain ⟨light, rest⟩ := h.popWord taken
      exact (rest.setLocal slot light).mono (Nat.le_add_right _ _)
  | other => exact .error _

theorem Bounded.executeType (h : f.Bounded rank most height) (index : Nat) (op : Opcode)
    {name : String} (few : name.length + 3 ≤ names) :
    Leads rank most (height + 2) (f.executeType index op name) := by
  rw [TypeFrame.executeType]
  split_ifs
  · exact .pure (h.push trivial)
  · refine h.popPush _ (light_of_length short ?_)
    have most : (Hierarchy.arrayOf name.toList).length ≤ name.toList.length + 3 := by
      unfold Hierarchy.arrayOf
      split
      · exact Nat.add_le_add_left (by decide) _
      · simp
    rw [String.length_toList] at most
    rw [String.length_ofList]
    exact Nat.le_trans most few
  · exact h.popPush _ (light_of_length short (by omega))
  · exact h.popPush _ trivial

theorem Bounded.executeField (h : f.Bounded rank most height) (op : Opcode) {descriptor : String}
    (few : descriptor.length ≤ names) :
    Leads rank most (height + 2) (f.executeField op descriptor) := by
  rw [TypeFrame.executeField]
  refine .bind fun type _ => ?_
  dsimp only
  split_ifs
  · exact h.pushDescribed short few
  · exact (h.pop _).mono (Nat.le_add_right _ _)
  · exact .bind fun g popped => (h.pop 1 g popped).pushDescribed short few
  · exact (h.pop _).mono (Nat.le_add_right _ _)

theorem light_constructedType {body : Body} {owner callOwner : String}
    (bodyFew : ∀ insn ∈ body, insn.node.nameLength ≤ names) (ownerFew : owner.length ≤ names)
    (few : callOwner.length ≤ names) {receiver : VerificationType}
    (ran : constructedType body owner callOwner receiver = .ok type) : type.Light rank most := by
  unfold constructedType at ran
  split at ran
  · cases ran
    exact light_of_length short ownerFew
  · next creation =>
    split at ran
    · next op name made =>
      cases ran
      obtain ⟨insn, there, node⟩ := Option.map_eq_some_iff.mp made
      have few := bodyFew insn (Array.mem_of_getElem? there)
      rw [node, Node.nameLength] at few
      exact light_of_length short (by omega)
    · cases ran
      exact light_of_length short few
  · cases ran

theorem Bounded.executeCall (h : f.Bounded rank most height) {body : Body} {owner : String}
    (op : Opcode) {callOwner name descriptor : String}
    (bodyFew : ∀ insn ∈ body, insn.node.nameLength ≤ names) (ownerFew : owner.length ≤ names)
    (few : max callOwner.length descriptor.length ≤ names) :
    Leads rank most (height + 2) (f.executeCall body owner op callOwner name descriptor) := by
  have descriptorFew := (Nat.max_le.mp few).2
  have callFew := (Nat.max_le.mp few).1
  rw [TypeFrame.executeCall]
  refine .bind fun p taken => ?_
  obtain ⟨result, called⟩ := h.popArguments short descriptorFew taken
  dsimp only
  split
  · exact .pure (called.push? result)
  refine .bind fun q received => ?_
  obtain ⟨-, rest⟩ := called.popWord received
  split
  · exact .bind fun type made => .pure
      ((rest.replace q.1 (light_constructedType short bodyFew ownerFew callFew made)).push? result)
  · exact .pure (rest.push? result)

/-- An instruction raises the stack by at most two words, and what it leaves is light. -/
theorem Bounded.execute (h : f.Bounded rank most height) {body : Body} {owner : String} (index : Nat)
    {node : Node} (known : longestKnownClass.length ≤ names)
    (bodyFew : ∀ insn ∈ body, insn.node.nameLength ≤ names) (ownerFew : owner.length ≤ names)
    (few : node.nameLength ≤ names) :
    Leads rank most (height + 2) (f.execute body owner index node) := by
  have same : Leads rank most (height + 2) (Pure.pure f) := .pure (h.mono (Nat.le_add_right _ _))
  have pop (words : Nat) : Leads rank most (height + 2) (f.pop words) :=
    (h.pop words).mono (Nat.le_add_right _ _)
  cases node with
  | simple op => exact h.executeSimple op
  | int op operand =>
    rw [TypeFrame.execute]
    split
    · refine .bind fun g popped => .bind fun type primitive => .pure ((h.pop 1 g popped).push ?_)
      rw [primitiveArray] at primitive
      split at primitive <;> cases primitive
      all_goals exact light_of_length short (Nat.le_trans (by decide) known)
    · exact .pure (h.push trivial)
  | constant value => exact h.executeConstant short known few
  | var op slot => exact h.executeVar op _
  | type op name => exact h.executeType short index op few
  | field op fieldOwner name descriptor => exact h.executeField short op few
  | call op callOwner name descriptor isInterface =>
    exact h.executeCall short op bodyFew ownerFew few
  | dynamicCall name descriptor bootstrap arguments =>
    refine .bind fun p taken => .pure ?_
    obtain ⟨result, called⟩ := h.popArguments short few taken
    exact called.push? result
  | jump op target =>
    rw [TypeFrame.execute, executeJump]
    cases JumpForm.ofOpcode op with
    | test => exact pop _
    | compare => exact pop _
    | always => exact same
    | _ => exact .error _
  | tableSwitch => exact pop _
  | lookupSwitch => exact pop _
  | newArrays descriptor dimensions => exact h.popPush _ (light_of_length short few)
  | label => exact same
  | increment => exact same
  | line => exact same

end

end TypeFrame

end Bytecode
