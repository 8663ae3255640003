import Bytecode.Proofs.Coding.Results
import Bytecode.Verification.Frame

/-!
# Local variable slots

Instructions change what is in the local variable slots, but not how many there are
(`TypeFrame.keeps_execute`). `Keeps n x` says this of a step and a number of slots; there is a rule for
every way in which steps are put together.
-/

namespace Bytecode

namespace TypeFrame

variable {f : TypeFrame}

/-- A step that keeps a number of local variable slots. -/
def Keeps (n : Nat) (x : Inferred TypeFrame) : Prop :=
  ∀ f, x = .ok f → f.locals.length = n

namespace Keeps

variable {n : Nat}

theorem pure (same : f.locals.length = n) : Keeps n (Pure.pure f) := by
  intro f' ran
  cases ran
  exact same

theorem error (cause : InferenceError) : Keeps n (.error cause) := by
  intro f' ran
  cases ran

/-- A step behind a computation. -/
theorem bind {α : Type} {x : Inferred α} {next : α → Inferred TypeFrame}
    (h : ∀ a, x = .ok a → Keeps n (next a)) : Keeps n (x >>= next) := by
  intro f' ran
  obtain ⟨a, first, ran⟩ := ok_of_bind ran
  exact h a first f' ran

end Keeps

@[simp]
theorem locals_push (f : TypeFrame) (type : VerificationType) : (f.push type).locals = f.locals :=
  rfl

@[simp]
theorem locals_push? (f : TypeFrame) (type : Option VerificationType) :
    (f.push? type).locals = f.locals := by
  cases type <;> rfl

theorem keeps_pushDescribed (f : TypeFrame) (descriptor : String) :
    Keeps f.locals.length (f.pushDescribed descriptor) :=
  .bind fun type _ => .pure (by rw [locals_push?])

theorem keeps_pop (f : TypeFrame) (words : Nat) : Keeps f.locals.length (f.pop words) := by
  rw [pop]
  split
  · exact .error _
  · exact .pure rfl

theorem keeps_popPush (f : TypeFrame) (words : Nat) (type : VerificationType) :
    Keeps f.locals.length (f.popPush words type) :=
  .bind fun g popped => .pure (keeps_pop f words g popped)

theorem locals_of_popWord {g : TypeFrame} {type : VerificationType}
    (ran : f.popWord = .ok (type, g)) : g.locals = f.locals := by
  rw [popWord] at ran
  split at ran
  · cases ran
  · cases ran
    rfl

theorem keeps_setLocal (f : TypeFrame) (slot : Nat) (type : VerificationType) :
    Keeps f.locals.length (f.setLocal slot type) := by
  have invalidated (locals : List VerificationType) :
      (invalidateBefore locals slot).length = locals.length := by
    cases slot with
    | zero => rfl
    | succ before =>
      rw [invalidateBefore]
      split
      · exact List.length_set
      · rfl
  intro g ran
  rw [setLocal] at ran
  by_cases outside : f.locals.length < slot + if type.isWide then 2 else 1
  · rw [if_pos outside] at ran
    cases ran
  · rw [if_neg outside] at ran
    cases ran
    cases wide : type.isWide <;> simp [invalidated]

theorem keeps_shuffle (f : TypeFrame) (form : Shuffle) : Keeps f.locals.length (f.shuffle form) := by
  have dup (take under : Nat) : Keeps f.locals.length (f.dup take under) := by
    rw [TypeFrame.dup]
    split
    · exact .error _
    · exact .pure rfl
  cases form with
  | swap =>
    rw [shuffle, swap]
    split
    · exact .pure rfl
    · exact .error _
  | _ => exact dup _ _

theorem keeps_executeSimple (f : TypeFrame) (op : Opcode) :
    Keeps f.locals.length (f.executeSimple op) := by
  rw [executeSimple]
  cases Operation.ofOpcode op with
  | nop => exact .pure rfl
  | null => exact .pure rfl
  | constant value => cases value <;> exact .pure rfl
  | arrayLoad kind =>
    cases kind with
    | reference =>
      refine .bind fun g popped => .bind fun p taken => .pure ?_
      rw [locals_push, locals_of_popWord taken, keeps_pop f 1 g popped]
    | _ => exact keeps_popPush f _ _
  | arrayStore kind => exact keeps_pop f _
  | pop => exact keeps_pop f _
  | pop2 => exact keeps_pop f _
  | shuffle form => exact keeps_shuffle f form
  | binary operation => exact keeps_popPush f _ _
  | unary operation => exact keeps_popPush f _ _
  | arrayLength => exact keeps_popPush f _ _
  | leave kind =>
    cases kind with
    | none => exact .pure rfl
    | some kind => exact keeps_pop f _
  | throw => exact keeps_pop f _
  | monitor => exact keeps_pop f _
  | other => exact .error _

theorem keeps_executeConstant (f : TypeFrame) (value : Constant) :
    Keeps f.locals.length (f.executeConstant value) := by
  cases value with
  | dynamic name descriptor bootstrap arguments => exact keeps_pushDescribed f descriptor
  | _ => exact .pure rfl

theorem keeps_executeVar (f : TypeFrame) (op : Opcode) (slot : Nat) :
    Keeps f.locals.length (f.executeVar op slot) := by
  rw [executeVar]
  cases SlotAccess.ofOpcode op with
  | load kind =>
    cases kind with
    | reference => exact .bind fun type _ => .pure rfl
    | _ => exact .pure rfl
  | store kind =>
    dsimp only
    split
    · refine .bind fun g popped => ?_
      rw [← keeps_pop f 2 g popped]
      exact keeps_setLocal g _ _
    · refine .bind fun p taken => ?_
      rw [← locals_of_popWord taken]
      exact keeps_setLocal p.2 _ _
  | other => exact .error _

theorem keeps_executeType (f : TypeFrame) (index : Nat) (op : Opcode) (name : String) :
    Keeps f.locals.length (f.executeType index op name) := by
  rw [executeType]
  split_ifs
  · exact .pure rfl
  · exact keeps_popPush f _ _
  · exact keeps_popPush f _ _
  · exact keeps_popPush f _ _

theorem keeps_executeField (f : TypeFrame) (op : Opcode) (descriptor : String) :
    Keeps f.locals.length (f.executeField op descriptor) := by
  rw [executeField]
  refine .bind fun type _ => ?_
  dsimp only
  split_ifs
  · exact keeps_pushDescribed f descriptor
  · exact keeps_pop f _
  · refine .bind fun g popped => ?_
    rw [← keeps_pop f 1 g popped]
    exact keeps_pushDescribed g descriptor
  · exact keeps_pop f _

theorem locals_of_popArguments {g : TypeFrame} {descriptor : String}
    {result : Option VerificationType} (ran : f.popArguments descriptor = .ok (result, g)) :
    g.locals.length = f.locals.length := by
  obtain ⟨parsed, -, ran⟩ := ok_of_bind ran
  obtain ⟨popped, first, ran⟩ := ok_of_bind ran
  cases ran
  exact keeps_pop f _ _ first

theorem keeps_executeCall (f : TypeFrame) (body : Body) (owner : String) (op : Opcode)
    (callOwner name descriptor : String) :
    Keeps f.locals.length (f.executeCall body owner op callOwner name descriptor) := by
  rw [executeCall]
  refine .bind fun p taken => ?_
  rw [← locals_of_popArguments taken]
  dsimp only
  split
  · exact .pure (by rw [locals_push?])
  refine .bind fun q received => ?_
  rw [← locals_of_popWord received]
  split
  · exact .bind fun type _ => .pure (by rw [locals_push?, replace, List.length_map])
  · exact .pure (by rw [locals_push?])

/-- An instruction keeps the number of local variable slots. -/
theorem keeps_execute (f : TypeFrame) (body : Body) (owner : String) (index : Nat) (node : Node) :
    Keeps f.locals.length (f.execute body owner index node) := by
  cases node with
  | simple op => exact keeps_executeSimple f op
  | int op operand =>
    rw [execute]
    split
    · refine .bind fun g popped => .bind fun type _ => .pure ?_
      exact keeps_pop f 1 g popped
    · exact .pure rfl
  | constant value => exact keeps_executeConstant f value
  | var op slot => exact keeps_executeVar f op _
  | type op name => exact keeps_executeType f index op name
  | field op fieldOwner name descriptor => exact keeps_executeField f op descriptor
  | call op callOwner name descriptor isInterface => exact keeps_executeCall f body owner op _ _ _
  | dynamicCall name descriptor bootstrap arguments =>
    refine .bind fun p taken => .pure ?_
    rw [locals_push?, locals_of_popArguments taken]
  | jump op target =>
    rw [execute, executeJump]
    cases JumpForm.ofOpcode op with
    | test => exact keeps_pop f _
    | compare => exact keeps_pop f _
    | always => exact .pure rfl
    | _ => exact .error _
  | tableSwitch => exact keeps_pop f _
  | lookupSwitch => exact keeps_pop f _
  | newArrays descriptor dimensions => exact keeps_popPush f _ _
  | label => exact .pure rfl
  | increment => exact .pure rfl
  | line => exact .pure rfl

end TypeFrame

end Bytecode
