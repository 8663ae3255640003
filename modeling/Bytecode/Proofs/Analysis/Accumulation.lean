import Bytecode.Proofs.Analysis.Following
import Bytecode.Proofs.Analysis.Simulation
import Bytecode.Proofs.Machine.Library

/-!
# Texts of builders in a run

The analysis has a buffer for a builder, a run has an object with a text. `Collected` says where the
two agree: for each buffer of a set there is an object that it stands for, whose text is the one in the
buffer, and different buffers stand for different objects.

`KnownCall` lists the calls of builders whose effect the analysis knows, and `collected_of_call` says
that the agreement outlasts them: whatever the analysis adds to the buffer of the receiver, the run adds
to its object, and what the analysis makes of the result is what the run returns.
-/

namespace Bytecode.Analysis

open Machine

/-- A builder stands for the object at its address, and for any reference if it has none. -/
def standing (address : BufferId → Nat → Prop) (i : BufferId) (r : Ref) : Prop :=
  ∀ k, address i k → r = .object k

/-- The buffers of a set have the texts of different objects. -/
structure Collected {W : Type} (contents : W → Nat → Option (List Nat)) (address : BufferId → Nat → Prop)
    (live : BufferId → Prop) (b : Buffers) (w : W) : Prop where
  placed : ∀ i, live i → ∃ k, address i k
  texts : ∀ i k, live i → address i k → contents w k = some (unitsOf (b.contents i))
  apart : ∀ i j k, live i → live j → address i k → address j k → i = j

/-- What describes a run with much said about builders describes it with less said. -/
theorem Value.Describes.weaken {stands stands' : BufferId → Ref → Prop} {v : Value} {o : Option Datum}
    (h : v.Describes stands o) (weaker : ∀ b r, v.literal = some (.builder b) → stands b r → stands' b r) :
    v.Describes stands' o := by
  refine ⟨fun l known => ?_, h.kind⟩
  obtain ⟨d, holds, means⟩ := h.literal l known
  cases means with
  | plain denotes => exact ⟨d, holds, .plain denotes⟩
  | builder told => exact ⟨_, holds, .builder (weaker _ _ known told)⟩

theorem Frame.Describes.weaken {stands stands' : BufferId → Ref → Prop} {f : Frame} {a : Activation}
    (h : f.Describes stands a) (weaker : ∀ b r, f.Holds b → stands b r → stands' b r) :
    f.Describes stands' a := by
  refine ⟨fun k v found => ?_, List.forall₂_iff_get.mpr ⟨h.stack.length_eq, fun k inside inside' => ?_⟩⟩
  · refine (h.locals k v found).weaken fun b r builder => weaker b r ?_
    exact Frame.holds_of_locals (List.mem_of_getElem? found) builder
  · refine (h.stack.get inside inside').weaken fun b r builder => weaker b r ?_
    exact Frame.holds_of_stack (List.getElem_mem inside) builder

/-- Where nothing is said about builders, a value that claims no more describes the same. -/
theorem Value.Describes.forget {stands stands' : BufferId → Ref → Prop} {v w : Value}
    {o : Option Datum} (h : v.Describes stands o) (below : v.Le w) (free : Free stands') :
    w.Describes stands' o := by
  have meant {l : Literal} {d : Datum} (means : Means stands l d) : Means stands' l d := by
    cases means with
    | plain denotes => exact .plain denotes
    | builder => exact .builder (free _ _)
  refine ⟨fun l known => ?_, fun d holds => ?_⟩
  · rcases below.literal l known with same | ⟨builder, m, same, builder'⟩
    · obtain ⟨d, holds, means⟩ := h.literal l same
      exact ⟨d, holds, meant means⟩
    · obtain ⟨d, holds, means⟩ := h.literal m same
      cases l with
      | builder i =>
        cases means with
        | plain denotes => cases denotes <;> cases builder'
        | builder => exact ⟨_, holds, .builder (free _ _)⟩
      | _ => cases builder
  · rcases below.kind with same | unknown
    · rw [same]
      exact h.kind d holds
    · exact .inl unknown

theorem Frame.Describes.forget {stands stands' : BufferId → Ref → Prop} {f g : Frame} {a : Activation}
    (h : f.Describes stands a) (below : f.Le g) (free : Free stands') : g.Describes stands' a := by
  have length := below.stack.length_eq
  refine ⟨fun k w found => ?_, List.forall₂_iff_get.mpr ⟨length ▸ h.stack.length_eq, fun k inside inside' => ?_⟩⟩
  · obtain ⟨inside, rfl⟩ := List.getElem?_eq_some_iff.mp found
    have inside' : k < f.locals.length := below.locals.length_eq ▸ inside
    exact (h.locals k _ (List.getElem?_eq_getElem inside')).forget (below.locals.get inside' inside) free
  · have before : k < f.stack.length := length ▸ inside
    exact (h.stack.get before inside').forget (below.stack.get before inside) free

/-- A builder literal means a reference that the builder stands for. -/
theorem Means.of_builder {stands : BufferId → Ref → Prop} {i : BufferId} {d : Datum}
    (h : Means stands (.builder i) d) : ∃ r, d = .ref r ∧ stands i r := by
  cases h with
  | plain denotes => cases denotes
  | builder told => exact ⟨_, rfl, told⟩

/-! ## Added texts -/

/-- The text that an append adds is that of its argument, as a value of the type of the parameter. -/
theorem renderAs_of_appendedText {b : Buffers} {descriptor text : String} {l : Literal}
    (h : Transfer.appendedText b descriptor l = some text) :
    ∃ type, (MethodDescriptor.parse descriptor).toOption.map MethodDescriptor.arguments = some [type] ∧
      l.renderAs b type = some text := by
  have parsed {descriptor : String} (type : Descriptor)
      (known : (MethodDescriptor.parse descriptor).toOption.map MethodDescriptor.arguments = some [type])
      (rendered : l.renderAs b type = some text) :
      ∃ type, (MethodDescriptor.parse descriptor).toOption.map MethodDescriptor.arguments = some [type] ∧
        l.renderAs b type = some text := ⟨type, known, rendered⟩
  have plain {type : Descriptor} (other : type ≠ .boolean ∧ type ≠ .char) (rendered : l.render b = some text) :
      l.renderAs b type = some text := by
    cases type <;> first | exact rendered | exact absurd rfl other.1 | exact absurd rfl other.2
  unfold Transfer.appendedText at h
  split at h
  · exact parsed (.object "java/lang/Object") (by decide +kernel) (plain (by decide) h)
  · exact parsed (.object "java/lang/String") (by decide +kernel) (plain (by decide) h)
  · exact parsed (.object "java/lang/CharSequence") (by decide +kernel) (plain (by decide) h)
  · exact parsed .int (by decide +kernel) (plain (by decide) h)
  · exact parsed .long (by decide +kernel) (plain (by decide) h)
  · exact parsed .float (by decide +kernel) (plain (by decide) h)
  · exact parsed .double (by decide +kernel) (plain (by decide) h)
  · exact parsed .short (by decide +kernel) (plain (by decide) h)
  · refine parsed .boolean (by decide +kernel) ?_
    cases l <;> first | exact h | cases h
  · refine parsed .char (by decide +kernel) ?_
    cases l <;> first | exact h | cases h
  · cases h

section

variable {W : Type} {contents : W → Nat → Option (List Nat)} {address : BufferId → Nat → Prop}
  {live : BufferId → Prop} {b : Buffers} {w : W}

/-- A rendered literal is the text that its datum shows, if the builders among the literals are live. -/
theorem shownText_of_renderAs (collected : Collected contents address live b w) {l : Literal} {d : Datum}
    (means : Means (standing address) l d) (lives : ∀ i ∈ l.builder?, live i) {type : Descriptor}
    {text : String} (rendered : l.renderAs b type = some text) :
    shownText (contents w) type d = some (unitsOf text) := by
  cases means with
  | plain denotes =>
    have known := textAs_of_renderAs denotes rendered
    cases denotes <;> exact known
  | @builder i r stands =>
    obtain ⟨k, there⟩ := collected.placed i (lives i rfl)
    obtain rfl := stands k there
    have same : (Literal.builder i).renderAs b type = some (b.contents i) := by
      cases type <;> rfl
    rw [same] at rendered
    cases rendered
    exact collected.texts i k (lives i rfl) there

/-! ## Calls of builders -/

/-- A call of a builder of a set whose effect the analysis knows: a constructor without a text or with
a known one, an `append` of a known text, or `toString`. -/
def KnownCall (live : BufferId → Prop) (b : Buffers) (ls : List Literal) : Node → Prop
  | .call _ _ name descriptor _ =>
    ls.head?.any Literal.isBuilder ∧ (∀ l ∈ ls, ∀ i ∈ l.builder?, live i) ∧
      (name = "<init>" ∧ (descriptor = "()V" ∨ descriptor = "(I)V") ∨
        name = "<init>" ∧
          (descriptor = "(Ljava/lang/String;)V" ∨ descriptor = "(Ljava/lang/CharSequence;)V") ∧
          (ls.tail.head?.bind (·.render b)).isSome ∨
        name = "append" ∧ (ls.tail.head?.bind (Transfer.appendedText b descriptor)).isSome ∨
        name = "toString" ∧ descriptor = "()Ljava/lang/String;")
  | _ => False

instance (live : BufferId → Prop) [DecidablePred live] (b : Buffers) (ls : List Literal) :
    ∀ node, Decidable (KnownCall live b ls node)
  | .call .. => inferInstanceAs (Decidable (_ ∧ _ ∧ _))
  | .simple _ | .int .. | .var .. | .increment .. | .type .. | .field .. | .dynamicCall ..
  | .jump .. | .tableSwitch .. | .lookupSwitch .. | .label _ | .line .. | .constant _
  | .newArrays .. => inferInstanceAs (Decidable False)

/-- A known call has a builder among the live ones as its receiver. -/
theorem KnownCall.receiver {ls : List Literal} {node : Node} (h : KnownCall live b ls node) :
    ∃ i rest, ls = .builder i :: rest ∧ live i := by
  cases node with
  | call =>
    obtain ⟨first, lives, -⟩ := h
    cases ls with
    | nil => cases first
    | cons l rest =>
      cases l with
      | builder i => exact ⟨i, rest, rfl, lives _ List.mem_cons_self i rfl⟩
      | _ => cases first
  | _ => cases h

/-- What a known call does: it adds a text to the receiver, which the machine adds as well, or it shows
the text of the receiver. -/
inductive KnownEffect (name descriptor : String) (i : BufferId) (added : Option (List Nat)) (b : Buffers) :
    Option Literal → Buffers → Prop
  | adds {o b'} (text : String) (self : b'.contents i = b.contents i ++ text)
      (others : ∀ j, j ≠ i → b'.contents j = b.contents j) (agrees : added = some (unitsOf text))
      (result : o = none ∨ o = some (.builder i) ∧ name = "append") :
      KnownEffect name descriptor i added b o b'
  | shows (named : name = "toString") (typed : descriptor = "()Ljava/lang/String;") :
      KnownEffect name descriptor i added b (some (.string (b.contents i))) b

/-- The effect of a known call of a live builder. -/
theorem KnownCall.effect (collected : Collected contents address live b w) {op : Opcode}
    {name descriptor : String} {isInterface : Bool} {i : BufferId} {rest : List Literal}
    {arguments : List Datum} (inside : i.val < b.texts.size)
    (h : KnownCall live b (.builder i :: rest) (.call op builderClass name descriptor isInterface))
    (means : List.Forall₂ (Means (standing address)) rest arguments) {s s' : Store} {o : Option Literal}
    (same : s.buffers = b) (folds : Transfer.builderCall name descriptor (.builder i :: rest) s = (o, s')) :
    KnownEffect name descriptor i (addedText (contents w) name descriptor arguments) b o s'.buffers := by
  subst same
  obtain ⟨-, lives, kinds⟩ := h
  -- a rendered argument is shown by the machine in the same way
  have shown {type : Descriptor} {l : Literal} {text : String} (first : rest.head? = some l)
      (rendered : l.renderAs s.buffers type = some text) :
      arguments.head?.bind (shownText (contents w) type) = some (unitsOf text) := by
    obtain ⟨rest, rfl⟩ := List.head?_eq_some_iff.mp first
    obtain _ | ⟨known, -⟩ := means
    exact shownText_of_renderAs collected known (lives l (by simp)) rendered
  have adds {text : String} {o : Option Literal} (buffers : s'.buffers = s.buffers.append i text)
      (agrees : addedText (contents w) name descriptor arguments = some (unitsOf text))
      (result : o = none ∨ o = some (.builder i) ∧ name = "append") :
      KnownEffect name descriptor i (addedText (contents w) name descriptor arguments) s.buffers o
        s'.buffers := by
    rw [buffers]
    exact .adds text (Buffers.contents_append_self inside)
      (fun j other => Buffers.contents_append_of_ne (Ne.symm other)) agrees result
  rcases kinds with ⟨rfl, typed⟩ | ⟨rfl, typed, known⟩ | ⟨rfl, known⟩ | ⟨rfl, rfl⟩
  · -- a constructor without a text
    have other : ¬(descriptor = "(Ljava/lang/String;)V" ∨ descriptor = "(Ljava/lang/CharSequence;)V") := by
      rcases typed with rfl | rfl <;> decide
    simp only [Transfer.builderCall, if_neg other] at folds
    cases folds
    refine .adds "" (String.append_empty).symm (fun _ _ => rfl) ?_ (.inl rfl)
    rw [addedText, if_pos ⟨rfl, typed⟩]
    rfl
  · -- a constructor with a text
    obtain ⟨text, known⟩ := Option.isSome_iff_exists.mp known
    obtain ⟨l, first, rendered⟩ := Option.bind_eq_some_iff.mp known
    have given : rest.head?.bind (·.render s.buffers) = some text := known
    have other : ¬(descriptor = "()V" ∨ descriptor = "(I)V") := by
      rcases typed with rfl | rfl <;> decide
    unfold Transfer.builderCall at folds
    simp only [bind, StateT.bind, get, getThe, MonadStateOf.get, StateT.get, pure, if_pos typed, given]
      at folds
    cases folds
    refine adds rfl ?_ (.inl rfl)
    rw [addedText, if_neg fun both => other both.2, if_pos (.inr rfl)]
    rcases typed with rfl | rfl
    · have parsed : (MethodDescriptor.parse "(Ljava/lang/String;)V").toOption.map
          MethodDescriptor.arguments = some [.object "java/lang/String"] := by decide +kernel
      rw [parsed]
      exact shown first rendered
    · have parsed : (MethodDescriptor.parse "(Ljava/lang/CharSequence;)V").toOption.map
          MethodDescriptor.arguments = some [.object "java/lang/CharSequence"] := by decide +kernel
      rw [parsed]
      exact shown first rendered
  · -- an append
    obtain ⟨text, known⟩ := Option.isSome_iff_exists.mp known
    obtain ⟨l, first, rendered⟩ := Option.bind_eq_some_iff.mp known
    have given : rest.head?.bind (Transfer.appendedText s.buffers descriptor) = some text := known
    unfold Transfer.builderCall at folds
    simp only [bind, StateT.bind, get, getThe, MonadStateOf.get, StateT.get, pure, given] at folds
    cases folds
    refine adds rfl ?_ (.inr ⟨rfl, rfl⟩)
    obtain ⟨type, parsed, rendered⟩ := renderAs_of_appendedText rendered
    rw [addedText, if_neg fun both => absurd both.1 (by decide), if_pos (.inl rfl), parsed]
    exact shown first rendered
  · -- the text is shown
    cases folds
    exact .shows rfl rfl

/-- **A known call keeps the agreement.** If the machine answers a known call of a live builder, the
buffers have the texts of the objects behind it as well, and a literal that the call is folded to means
the result. -/
theorem collected_of_call {env : Environment W} (builds : env.Builds contents)
    (collected : Collected contents address live b w) (inside : ∀ i, live i → i.val < b.texts.size)
    {node : Node} {ls : List Literal} {taken : List Datum} (calls : callsBuilder node = true)
    (known : KnownCall live b ls node) (means : List.Forall₂ (Means (standing address)) ls taken)
    {s s' : Store} {o : Option Literal} (same : s.buffers = b)
    (folds : Transfer.callLiteral node ls s = (o, s')) {v : Option Datum} {w' : W}
    (answer : env.answers node taken w (.returned v) w') :
    Collected contents address live s'.buffers w' ∧
      ∀ l d, o = some l → v = some d → Means (standing address) l d := by
  obtain ⟨i, rest, rfl, lives⟩ := known.receiver
  obtain ⟨d, arguments, called, passed, rfl⟩ := List.forall₂_cons_left_iff.mp means
  obtain ⟨r, rfl, stands⟩ := called.of_builder
  obtain ⟨k, there⟩ := collected.placed i lives
  obtain rfl := stands k there
  have collects := collected.texts i k lives there
  cases node with
  | call op owner name descriptor isInterface =>
    obtain rfl : owner = builderClass := beq_iff_eq.mp calls
    simp only [Transfer.callLiteral, if_pos] at folds
    have effect := known.effect collected (inside i lives) passed same folds
    -- the objects of the other builders are not called
    have others {j : BufferId} {k' : Nat} (livesToo : live j) (other : j ≠ i) (there' : address j k') :
        contents w' k' = some (unitsOf (b.contents j)) := by
      refine builds.kept answer k' _ (collected.texts j k' livesToo there') fun _ called => other ?_
      cases called
      exact collected.apart j i k livesToo lives there' there
    have receiver {k' : Nat} (there' : address i k') : k' = k := by
      cases stands k' there'
      rfl
    cases effect with
    | adds text self unchanged agrees result =>
      obtain ⟨collects', returned⟩ := builds.added answer _ _ collects agrees
      refine ⟨⟨collected.placed, fun j k' livesToo there' => ?_, collected.apart⟩,
        fun l d known' answered => ?_⟩
      · by_cases same : j = i
        · subst same
          rw [receiver there', collects', self, unitsOf_append]
        · rw [unchanged j same]
          exact others livesToo same there'
      · rcases result with none | ⟨builder, append⟩
        · cases none.symm.trans known'
        · cases builder.symm.trans known'
          cases answered.symm.trans (returned append)
          exact .builder stands
    | shows named typed =>
      subst named typed
      obtain ⟨collects', identity, returned⟩ := builds.shown answer _ collects
      refine ⟨⟨collected.placed, fun j k' livesToo there' => ?_, collected.apart⟩,
        fun l d known' answered => ?_⟩
      · by_cases same : j = i
        · subst same
          rw [receiver there', collects']
        · exact others livesToo same there'
      · cases known'
        cases answered.symm.trans returned
        exact .plain (.string _ identity)
  | _ => cases calls

end

end Bytecode.Analysis
