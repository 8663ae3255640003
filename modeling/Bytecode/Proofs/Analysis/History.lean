import Bytecode.Proofs.Analysis.Frames

/-!
# The values of an analysis

A join keeps a value as it is if the incoming one has the same identity. That is sound because an
identity belongs to one value only: every value of an analysis stands in a history, at the place
that its identity names, and the history only grows.

The histories are the phases of an analysis, and `Records` and `StepRecords` say of a computation
that it extends the history and what it returns.

The flag `builders` says whether values may be string builders at all: in a method that allocates
none there are none.
-/

namespace Bytecode.Analysis

/-- The kind of the values that a literal stands for. -/
def Literal.kind : Literal → Kind
  | .int _ => .int
  | .long _ => .long
  | .float _ => .float
  | .double _ => .double
  | .string _ | .classRef _ | .null | .builder _ => .reference

/-- Whether a literal is the contents of a builder. -/
def Literal.isBuilder : Literal → Bool
  | .builder _ => true
  | _ => false

/-- What holds of every value: a literal of two words stands in a value of its kind, and builders
occur only where they are allowed. -/
structure Value.Proper (builders : Prop) (v : Value) : Prop where
  wide : ∀ l, v.literal = some l → l.kind.isWide → v.kind = l.kind
  builder : ∀ l, v.literal = some l → l.isBuilder → builders

/-- The history holds as many values as identities were handed out, and all are proper. -/
structure Recorded (builders : Prop) (made : List Value) (s : Store) : Prop where
  count : made.length = s.nextValue
  proper : ∀ v ∈ made, v.Proper builders

/-- A value stands in a history at the place that its identity names. -/
def Made (made : List Value) (v : Value) : Prop :=
  made[v.id.val]? = some v

/-- All values of a frame stand in a history. -/
abbrev Frame.Made (made : List Value) (f : Frame) : Prop :=
  f.Every (Analysis.Made made)

section

variable {builders : Prop} {made made' : List Value} {v w : Value} {s : Store}

/-- A longer history holds the same values. -/
theorem Made.mono (h : Made made v) (longer : made <+: made') : Made made' v := by
  obtain ⟨later, rfl⟩ := longer
  rw [Made, List.getElem?_append_left (List.getElem?_eq_some_iff.mp h).1]
  exact h

/-- A longer history holds the same frames. -/
theorem Frame.Made.mono {f : Frame} (h : f.Made made) (longer : made <+: made') : f.Made made' :=
  ⟨fun v member => (h.locals v member).mono longer, fun v member => (h.stack v member).mono longer⟩

/-- Values with one identity are one value. -/
theorem Made.eq_of_id (hv : Made made v) (hw : Made made w) (h : v.id = w.id) : v = w := by
  rw [Made, h, hw] at hv
  exact (Option.some.inj hv).symm

/-- The values of a history are proper. -/
theorem Recorded.proper_of_made (h : Recorded builders made s) (hv : Made made v) :
    v.Proper builders :=
  h.proper v (List.mem_of_getElem? hv)

/-- The identities of a history are below the next one. -/
theorem Recorded.id_lt (h : Recorded builders made s) (hv : Made made v) :
    v.id.val < s.nextValue :=
  h.count ▸ (List.getElem?_eq_some_iff.mp hv).1

/-- A proper value with the next identity extends a history. -/
theorem Recorded.snoc (h : Recorded builders made s) (next : v.id.val = s.nextValue)
    (proper : v.Proper builders) {t : Store} (count : t.nextValue = s.nextValue + 1) :
    Recorded builders (made ++ [v]) t ∧ Made (made ++ [v]) v := by
  refine ⟨⟨?_, ?_⟩, ?_⟩
  · rw [List.length_append, h.count, count, List.length_singleton]
  · intro w member
    rcases List.mem_append.mp member with old | new
    · exact h.proper w old
    · rw [List.mem_singleton.mp new]
      exact proper
  · rw [Made, next, ← h.count]
    simp

end

/-! ## Computations that extend the history -/

/-- The histories of an analysis as phases: a value is good if it stands in the history. -/
abbrev history (builders : Prop) : Phases (List Value) where
  of := Recorded builders
  later := (· <+: ·)
  good := Made
  refl := fun _ => List.prefix_rfl
  trans := List.IsPrefix.trans
  mono := Made.mono

/-- A computation on the store extends the history, and its result is as told. -/
abbrev Records {α : Type} (builders : Prop) (made : List Value) (x : StoreM α)
    (result : List Value → α → Prop) : Prop :=
  (history builders).Ensures made x result

/-- A simulation that succeeds extends the history, and its result is as told. -/
abbrev StepRecords {α : Type} (builders : Prop) (made : List Value) (x : Step α)
    (result : List Value → α → Prop) : Prop :=
  (history builders).StepEnsures made x result

/-- A computation that hands out no identity leaves the history as it is. -/
theorem records_of_nextValue {α : Type} {builders : Prop} {made : List Value} {x : StoreM α}
    {result : List Value → α → Prop} (same : ∀ s, (x s).2.nextValue = s.nextValue)
    (holds : ∀ s, result made (x s).1) : Records builders made x result :=
  .of_phase (fun s recorded => ⟨recorded.count.trans (same s).symm, recorded.proper⟩) holds

/-! ## Values that instructions make -/

section

variable {builders : Prop} {made : List Value}

/-- A new value stands at the end of the history. -/
theorem make_records {kind : Kind} {sources : InsnSet} {literal : Option Literal}
    (wide : ∀ l, literal = some l → l.kind.isWide → kind = l.kind)
    (builder : ∀ l, literal = some l → l.isBuilder → builders) :
    Records builders made (Store.make kind sources literal) fun made' v =>
      Made made' v ∧ v.kind = kind ∧ v.literal = literal := by
  intro s recorded
  have step := recorded.snoc (v := (Store.make kind sources literal s).1) rfl ⟨wide, builder⟩
    (t := (Store.make kind sources literal s).2) rfl
  exact ⟨_, List.prefix_append _ _, step.1, step.2, rfl, rfl⟩

/-- A new value without a literal. -/
theorem make_unknown_records {kind : Kind} {sources : InsnSet} :
    Records builders made (Store.make kind sources none) fun made' v =>
      Made made' v ∧ v.kind = kind ∧ v.literal = none :=
  make_records (fun _ h => nomatch h) (fun _ h => nomatch h)

theorem consume_records (insn : InsnId) (v : Value) :
    Records builders made (Store.consume insn v) fun _ _ => True :=
  records_of_nextValue (fun _ => rfl) fun _ => trivial

theorem alloc_records (text : String) :
    Records builders made (Store.alloc text) fun _ _ => True :=
  records_of_nextValue (fun _ => rfl) fun _ => trivial

/-- The value of a type has its kind, and no literal. -/
theorem ofType_records (type : Descriptor) :
    Records builders made (Store.ofType type) fun made' v =>
      Made made' v ∧ v.kind = (Kind.ofDescriptor type).getD .uninitialized ∧ v.literal = none := by
  unfold Store.ofType
  cases Kind.ofDescriptor type with
  | none => exact make_unknown_records
  | some kind => exact make_unknown_records

/-- A copy is in the history. -/
theorem copy_records {body : Body} {index : Nat} {insn : InsnId} {v : Value}
    (proper : v.Proper builders) :
    Records builders made (Transfer.copy body index insn v) Made := by
  refine .bind (consume_records insn v) fun _ _ _ _ => ?_
  split
  · next i builder =>
    split
    · refine (make_records (fun l same => ?_) fun l same => ?_).mono fun _ _ _ h => h.1
      · exact proper.wide l (builder.trans same)
      · exact proper.builder l (builder.trans same)
    · refine .bind (q := fun _ _ => True) (records_of_nextValue (fun _ => rfl) fun _ => trivial)
        fun _ s _ _ => ?_
      refine .bind (alloc_records _) fun _ j _ _ => ?_
      refine (make_records (fun l same => ?_) fun l same => ?_).mono fun _ _ _ h => h.1
      · cases same
        exact fun wide => nomatch wide
      · exact fun _ => proper.builder _ builder rfl
  · exact (make_records proper.wide proper.builder).mono fun _ _ _ h => h.1

end

end Bytecode.Analysis
