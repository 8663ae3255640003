import Bytecode.Analysis.Transfer
import Bytecode.Proofs.Machine.Run

/-!
# Calls whose result is known

Three ways in which compiled programs concatenate texts return a text that their operands determine.
`expectedText` says which one, and an environment is `Faithful` if it answers so. About every other
call a faithful environment promises nothing.

A call of a known method with an opcode that does not fit it never returns, so that `expectedText`
need not look at the opcode.
-/

namespace Bytecode.Machine

open Analysis

/-- The text of an argument list, one argument after the other. -/
def joined (typed : List (Descriptor × Datum)) : Option (List Nat) :=
  (typed.mapM fun ((type, d) : Descriptor × Datum) => d.textAs type).map List.flatten

/-- The text that a concatenation call site makes of its operands. -/
def concatenated (descriptor : String) (bootstrap : Handle) (constants : List Constant)
    (operands : List Datum) : Option (List Nat) := do
  let parsed ← (MethodDescriptor.parse descriptor).toOption
  let typed := parsed.arguments.zip operands
  match bootstrap.name, constants with
  | "makeConcat", _ => joined typed
  | "makeConcatWithConstants", .string recipe :: constants => fillIn recipe.toList typed constants
  | _, _ => none

/-- The text that a call returns, where its operands determine it. -/
def expectedText : Node → List Datum → Option (List Nat)
  | .call _ owner name descriptor _, d :: e :: _ =>
    if owner = concatHelpers ∧ name = "stringPlus" ∧
        descriptor = "(Ljava/lang/String;Ljava/lang/Object;)Ljava/lang/String;" then
      return (← d.text?) ++ (← e.text?)
    else if owner = "java/lang/String" ∧ name = "concat" ∧
        descriptor = "(Ljava/lang/String;)Ljava/lang/String;" then
      match d, e with
      | .ref (.text _ units), .ref (.text _ others) => some (units ++ others)
      | _, _ => none
    else none
  | .dynamicCall _ descriptor bootstrap constants, operands =>
    if bootstrap.owner = concatFactory then concatenated descriptor bootstrap constants operands
    else none
  | _, _ => none

/-- An environment in which calls that concatenate texts return the text that their operands
determine. -/
def Environment.Faithful {W : Type} (env : Environment W) : Prop :=
  ∀ ⦃node operands w v w'⦄, env.answers node operands w (.returned v) w' →
    ∀ units, expectedText node operands = some units → ∃ identity, v = some (.ref (.text identity units))

/-- An environment that answers nothing. -/
def Environment.silent : Environment Unit where
  answers _ _ _ _ _ := False
  interrupts _ _ _ := False
  catches _ _ := false

theorem Environment.silent_faithful : silent.Faithful :=
  fun _ _ _ _ _ answer => answer.elim

/-! ## String builders

A string builder is an object with a text. An environment `Builds` if an allocation gives a new
object with the empty text, constructors and `append` add the text of their argument, `append`
returns its receiver, `toString` returns the text, and nothing else changes a text. What the other
methods of a builder do to their receiver is left open.
-/

open Analysis

/-- Whether a node calls a method of a string builder. -/
def callsBuilder : Node → Bool
  | .call _ owner _ _ _ => owner == builderClass
  | _ => false

/-- The text of an argument of a type: a builder among them shows the text that it has. -/
def shownText (texts : Nat → Option (List Nat)) (type : Descriptor) : Datum → Option (List Nat)
  | .ref (.object address) => texts address
  | d => d.textAs type

/-- The text that a constructor or an `append` adds to a builder, where its argument determines it. A
capacity adds nothing. -/
def addedText (texts : Nat → Option (List Nat)) (name descriptor : String) (arguments : List Datum) :
    Option (List Nat) :=
  if name = "<init>" ∧ (descriptor = "()V" ∨ descriptor = "(I)V") then some []
  else if name = "append" ∨ name = "<init>" then
    match (MethodDescriptor.parse descriptor).toOption.map MethodDescriptor.arguments with
    | some [type] => arguments.head?.bind (shownText texts type)
    | _ => none
  else none

/-- An environment in which string builders collect text. `contents` tells the text of the builder at
an address. -/
structure Environment.Builds {W : Type} (env : Environment W) (contents : W → Nat → Option (List Nat)) :
    Prop where
  allocated : ∀ ⦃operands w v w'⦄,
    env.answers (.type Opcode.new builderClass) operands w (.returned v) w' →
      ∃ address, v = some (.ref (.object address)) ∧ contents w address = none ∧
        contents w' address = some []
  kept : ∀ ⦃node operands w v w'⦄, env.answers node operands w (.returned v) w' →
    ∀ address text, contents w address = some text →
      (callsBuilder node = true → operands.head? ≠ some (.ref (.object address))) →
      contents w' address = some text
  added : ∀ ⦃op name descriptor isInterface address arguments w v w'⦄,
    env.answers (.call op builderClass name descriptor isInterface)
      (.ref (.object address) :: arguments) w (.returned v) w' →
    ∀ text units, contents w address = some text →
      addedText (contents w) name descriptor arguments = some units →
      contents w' address = some (text ++ units) ∧
        (name = "append" → v = some (.ref (.object address)))
  shown : ∀ ⦃op isInterface address arguments w v w'⦄,
    env.answers (.call op builderClass "toString" "()Ljava/lang/String;" isInterface)
      (.ref (.object address) :: arguments) w (.returned v) w' →
    ∀ text, contents w address = some text →
      contents w' address = some text ∧ ∃ identity, v = some (.ref (.text identity text))

/-! ## A machine with builders -/

/-- The answers of a machine that knows nothing but string builders. Its state lists their texts. -/
inductive BuilderAnswers : Node → List Datum → List (List Nat) → Outcome → List (List Nat) → Prop
  | new {operands texts} : BuilderAnswers (.type Opcode.new builderClass) operands texts
      (.returned (some (.ref (.object texts.length)))) (texts ++ [[]])
  | add {op name descriptor isInterface address arguments texts text units}
      (there : texts[address]? = some text)
      (added : addedText (texts[·]?) name descriptor arguments = some units) :
      BuilderAnswers (.call op builderClass name descriptor isInterface)
        (.ref (.object address) :: arguments) texts
        (.returned (if name = "append" then some (.ref (.object address)) else none))
        (texts.set address (text ++ units))
  | show_ {op isInterface address arguments texts text} (there : texts[address]? = some text) :
      BuilderAnswers (.call op builderClass "toString" "()Ljava/lang/String;" isInterface)
        (.ref (.object address) :: arguments) texts (.returned (some (.ref (.text 1 text)))) texts

/-- An environment that answers about string builders only. -/
def Environment.building : Environment (List (List Nat)) where
  answers := BuilderAnswers
  interrupts _ _ _ := False
  catches _ _ := false

theorem Environment.building_builds : building.Builds fun texts address => texts[address]? where
  allocated := fun operands w v w' answer => by
    cases answer
    exact ⟨w.length, rfl, by simp, by simp⟩
  kept := fun node operands w v w' answer address text there other => by
    have inside : address < w.length := (List.getElem?_eq_some_iff.mp there).1
    cases answer with
    | new => rwa [List.getElem?_append_left inside]
    | @add op name descriptor isInterface receiver =>
      have apart : receiver ≠ address := by
        rintro rfl
        exact other (beq_self_eq_true _) rfl
      rwa [List.getElem?_set_ne apart]
    | show_ => exact there
  added := fun op name descriptor isInterface address arguments w v w' answer text units there added => by
    cases answer with
    | add there' added' =>
      obtain rfl := Option.some.inj (there.symm.trans there')
      obtain rfl := Option.some.inj (added.symm.trans added')
      have inside : address < w.length := (List.getElem?_eq_some_iff.mp there).1
      exact ⟨by simp [inside], fun append => if_pos append⟩
    | show_ => cases added
  shown := fun op isInterface address arguments w v w' answer text there => by
    cases answer with
    | add _ added => cases added
    | show_ there' =>
      obtain rfl := Option.some.inj (there.symm.trans there')
      exact ⟨there, 1, rfl⟩

/-- No method of a builder is one of the calls whose text is known from their operands alone. -/
theorem expectedText_builder (op : Opcode) (name descriptor : String) (isInterface : Bool)
    (operands : List Datum) :
    expectedText (.call op builderClass name descriptor isInterface) operands = none := by
  have foreign : builderClass ≠ concatHelpers ∧ builderClass ≠ "java/lang/String" := by decide
  rcases operands with _ | ⟨left, _ | ⟨right, rest⟩⟩
  · rfl
  · rfl
  · unfold expectedText
    dsimp only
    rw [if_neg fun h => foreign.1 h.1, if_neg fun h => foreign.2 h.1]

theorem Environment.building_faithful : building.Faithful := by
  intro node operands w v w' answer units expected
  cases answer with
  | new => cases expected
  | add => cases (expectedText_builder ..).symm.trans expected
  | show_ => cases (expectedText_builder ..).symm.trans expected

end Bytecode.Machine
