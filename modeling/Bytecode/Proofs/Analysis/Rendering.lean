import Bytecode.Proofs.Analysis.Folding
import Bytecode.Proofs.Coding.ModifiedUtf8
import Bytecode.Proofs.Machine.Library

/-!
# Rendering is what a running program prints

The analysis renders literals as strings, a running program renders data in UTF-16 units. Where the
analysis knows a text the two agree: first for one literal, then for recipes by recursion on the
recipe, and at the end for every call that `callLiteral` folds.
-/

namespace Bytecode.Machine

open Analysis

/-- The character that an int stands for is one unit of text. -/
theorem unitsOf_charOf {v : Int32} {c : Char} (h : Literal.charOf? v = some c) :
    unitsOf (String.ofList [c]) = [(v.toInt % 65536).toNat] := by
  simp only [Literal.charOf?] at h
  have small : v.toUInt32.toUInt16.toNat < 65536 := v.toUInt32.toUInt16.toNat_lt
  have low := toNat_toUInt16 v
  split at h
  · cases h
  · next single =>
    simp only [Option.some.injEq] at h
    rw [unitsOf_ofList, Text.utf16, List.flatMap_singleton, ← h,
      Text.unitsOf_single (by omega) small, ← low, Int.toNat_natCast]

/-- A rendered literal is the text of its datum. -/
theorem text_of_render {b : Buffers} {l : Literal} {d : Datum} {text : String}
    (denotes : Denotes l d) (h : l.render b = some text) : d.text? = some (unitsOf text) := by
  cases denotes <;> simp only [Literal.render, Option.some.injEq, reduceCtorEq] at h <;>
    subst h <;> rfl

/-- A literal that is rendered as a value of a type is the text of its datum. -/
theorem textAs_of_renderAs {b : Buffers} {type : Descriptor} {l : Literal} {d : Datum}
    {text : String} (denotes : Denotes l d) (h : l.renderAs b type = some text) :
    d.textAs type = some (unitsOf text) := by
  have plain : l.render b = some text → d.text? = some (unitsOf text) := text_of_render denotes
  cases type
  case boolean =>
    cases denotes <;> simp only [Literal.renderAs, Option.some.injEq] at h
    case int => subst h; rfl
    all_goals exact plain h
  case char =>
    cases denotes <;> simp only [Literal.renderAs, Option.map_eq_some_iff] at h
    case int =>
      obtain ⟨c, char, rfl⟩ := h
      rw [unitsOf_charOf char]
      rfl
    all_goals exact plain h
  all_goals cases denotes <;> exact plain h

/-- A typed literal stands for a typed datum. -/
def DenotesTyped (x : Descriptor × Literal) (y : Descriptor × Datum) : Prop :=
  x.1 = y.1 ∧ Denotes x.2 y.2

/-- Arguments of known types stand for each other if the arguments do. -/
theorem denotesTyped_zip (types : List Descriptor) {ls : List Literal} {ds : List Datum}
    (h : List.Forall₂ Denotes ls ds) :
    List.Forall₂ DenotesTyped (types.zip ls) (types.zip ds) := by
  induction h generalizing types with
  | nil => cases types <;> exact .nil
  | cons denotes _ ih =>
    cases types with
    | nil => exact .nil
    | cons type types => exact .cons ⟨rfl, denotes⟩ (ih types)

/-- A rendered constant is the text of its datum. -/
theorem text_of_renderConstant {c : Constant} {text : String}
    (h : Fold.renderConstant c = some text) :
    ∃ d, ofConstant c = some d ∧ d.text? = some (unitsOf text) := by
  cases c <;> simp only [Fold.renderConstant, Option.some.injEq, reduceCtorEq] at h <;>
    exact ⟨_, rfl, by rw [← h]; rfl⟩

/-- A recipe that the analysis follows is filled in with the same text. -/
theorem fillIn_of_followRecipe {b : Buffers} {recipe : List Char}
    {ls : List (Descriptor × Literal)} {ds : List (Descriptor × Datum)} {constants : List Constant}
    {text : List Char} (denotes : List.Forall₂ DenotesTyped ls ds)
    (h : Fold.followRecipe b recipe ls constants = some text) :
    fillIn recipe ds constants = some (Text.utf16 text) := by
  fun_induction Fold.followRecipe b recipe ls constants generalizing ds text with
  | case1 =>
    cases h
    cases denotes <;> rfl
  | case2 => cases h
  | case3 recipe type l rest constants ih =>
    obtain ⟨argument, rendered, others, followed, rfl⟩ :
        ∃ argument : String, l.renderAs b type = some argument ∧ ∃ others, Fold.followRecipe b recipe rest constants = some others ∧
          argument.toList ++ others = text := by simpa [Option.bind_eq_some_iff] using h
    rcases denotes with _ | ⟨⟨same, denotes⟩, denotesRest⟩
    next d ds =>
      obtain ⟨type', d⟩ := d
      obtain rfl : type = type' := same
      rw [fillIn, textAs_of_renderAs denotes rendered, ih denotesRest followed]
      simp [Text.utf16, unitsOf]
  | case4 => cases h
  | case5 recipe arguments c constants ih =>
    obtain ⟨constant, rendered, others, followed, rfl⟩ :
        ∃ constant : String, Fold.renderConstant c = some constant ∧
          ∃ others, Fold.followRecipe b recipe arguments constants = some others ∧
            constant.toList ++ others = text := by simpa [Option.bind_eq_some_iff] using h
    obtain ⟨d, known, printed⟩ := text_of_renderConstant rendered
    rw [fillIn, ih denotes followed]
    simp [known, printed, Text.utf16, unitsOf]
  | case6 c recipe arguments constants noArgument argument noConstant constant ih =>
    obtain ⟨others, followed, rfl⟩ :
        ∃ others, Fold.followRecipe b recipe arguments constants = some others ∧ c :: others = text := by
      simpa [Option.bind_eq_some_iff] using h
    have notArgument : c ≠ '\x01' := fun e => by
      cases arguments with
      | nil => exact noArgument rfl e
      | cons x rest => exact argument x.1 x.2 rest rfl e
    have notConstant : c ≠ '\x02' := fun e => by
      cases constants with
      | nil => exact noConstant rfl e
      | cons d rest => exact constant d rest rfl e
    rw [fillIn, ih denotes followed]
    · simp [Text.utf16]
    all_goals simp_all

/-! ## Calls -/

/-- Texts that the analysis joins are joined to the same text. -/
theorem joined_of_renderAs {b : Buffers} {ls : List (Descriptor × Literal)}
    {ds : List (Descriptor × Datum)} {texts : List String}
    (denotes : List.Forall₂ DenotesTyped ls ds)
    (h : ls.mapM (fun (type, l) => l.renderAs b type) = some texts) :
    joined ds = some (unitsOf (String.join texts)) := by
  have each : ds.mapM (fun ((type, d) : Descriptor × Datum) => d.textAs type) =
      some (texts.map unitsOf) := by
    induction denotes generalizing texts with
    | nil =>
      cases h
      rfl
    | cons first _ ih =>
      obtain ⟨text, rendered, others, rest, rfl⟩ := by
        simpa [List.mapM_cons, Option.bind_eq_some_iff] using h
      obtain ⟨same, denotes⟩ := first
      simp only [List.mapM_cons, ih rest, ← same, textAs_of_renderAs denotes rendered]
      rfl
  rw [joined, each]
  simp [unitsOf, Text.utf16, List.flatMap_assoc, List.flatten_eq_flatMap, List.flatMap_map]

/-- The text that the analysis gives to a concatenation call site is the one of the operands. -/
theorem concatenated_of_concatText {b : Buffers} {descriptor text : String} {bootstrap : Handle}
    {constants : List Constant} {ls : List Literal} {ds : List Datum}
    (denotes : List.Forall₂ Denotes ls ds)
    (h : Transfer.concatText b descriptor bootstrap constants ls = some text) :
    concatenated descriptor bootstrap constants ds = some (unitsOf text) := by
  unfold Transfer.concatText at h
  unfold concatenated
  cases parsed : (MethodDescriptor.parse descriptor).toOption with
  | none => simp [parsed] at h
  | some d =>
    have typed := denotesTyped_zip d.arguments denotes
    simp only [parsed, Option.bind_eq_bind, Option.bind_some] at h ⊢
    split at h
    · cases h
    · split at h
      · next name =>
        obtain ⟨texts, rendered, rfl⟩ := by simpa [Option.bind_eq_some_iff] using h
        rw [name]
        exact joined_of_renderAs typed rendered
      · next name =>
        rw [name]
        split at h
        · obtain ⟨cs, followed, rfl⟩ := Option.map_eq_some_iff.mp h
          rw [unitsOf_ofList]
          exact fillIn_of_followRecipe typed followed
        · cases h
      · cases h

/-- A call that the analysis folds without a builder returns the text of its literal. -/
theorem expectedText_of_callLiteral {node : Node} {ls : List Literal} {ds : List Datum}
    {l : Literal} {s s' : Store} (denotes : List.Forall₂ Denotes ls ds)
    (h : Transfer.callLiteral node ls s = (some l, s')) :
    ∃ text, l = .string text ∧ expectedText node ds = some (unitsOf text) := by
  cases node with
  | call op owner name descriptor isInterface =>
    simp only [Transfer.callLiteral] at h
    split at h
    · -- no literal of the arguments is a builder
      cases denotes with
      | nil => cases h
      | cons first rest => cases first <;> cases h
    · split at h
      · next other known =>
        rcases denotes with _ | ⟨first, _ | ⟨second, rest⟩⟩
        · cases h
        · cases h
        · obtain ⟨text, rendered, joined⟩ := Option.bind_eq_some_iff.mp (congrArg Prod.fst h)
          obtain ⟨text', rendered', same⟩ := Option.bind_eq_some_iff.mp joined
          obtain rfl : Literal.string (text ++ text') = l := Option.some.inj same
          refine ⟨_, rfl, ?_⟩
          simp [expectedText, known, text_of_render first rendered, text_of_render second rendered',
            unitsOf_append]
      · next other unknown =>
        split at h
        · next known =>
          rcases denotes with _ | ⟨first, _ | ⟨second, rest⟩⟩
          · cases h
          · cases h
          · cases first <;> cases second <;> cases h
            refine ⟨_, rfl, ?_⟩
            simp [expectedText, known, unitsOf_append]
        · cases h
  | dynamicCall name descriptor bootstrap constants =>
    by_cases factory : bootstrap.owner = concatFactory
    · simp only [Transfer.callLiteral, if_pos factory] at h
      obtain ⟨text, folded, rfl⟩ := Option.map_eq_some_iff.mp (congrArg Prod.fst h)
      exact ⟨text, rfl, by
        rw [expectedText, if_pos factory]
        exact concatenated_of_concatText denotes folded⟩
    · simp only [Transfer.callLiteral, if_neg factory] at h
      cases h
  | _ => cases h

end Bytecode.Machine
