import Bytecode.Proofs.Analysis.History
import Mathlib.Data.List.Forall2

/-!
# What a join forgets

`Value.Le v w` says that `w` claims no more about a slot than `v` does: the kind of `v` or none, at
least its sources, and no literal but that of `v`. Frames are compared slot by slot.

`merge_records` is the law of a join: the joined value is above both values, and it has the identity
of the old one only if nothing was forgotten. From it follow the same laws for lists of slots and for
frames.
-/

namespace Bytecode.Analysis

/-- The second value claims no more than the first. The buffer of a builder may be another one. -/
structure Value.Le (v w : Value) : Prop where
  kind : w.kind = v.kind ∨ w.kind = .uninitialized
  sources : ∀ i ∈ v.sources, i ∈ w.sources
  literal : ∀ l, w.literal = some l →
    v.literal = some l ∨ l.isBuilder = true ∧ ∃ m, v.literal = some m ∧ m.isBuilder = true

/-- The second frame claims no more than the first, slot by slot. -/
structure Frame.Le (f g : Frame) : Prop where
  locals : List.Forall₂ Value.Le f.locals g.locals
  stack : List.Forall₂ Value.Le f.stack g.stack

@[refl]
theorem Value.Le.refl (v : Value) : v.Le v :=
  ⟨.inl rfl, fun _ member => member, fun _ h => .inl h⟩

theorem Value.Le.trans {u v w : Value} (h : u.Le v) (h' : v.Le w) : u.Le w where
  kind := by
    rcases h'.kind with same | unknown
    · rw [same]
      exact h.kind
    · exact .inr unknown
  sources := fun i member => h'.sources i (h.sources i member)
  literal := fun l known => by
    rcases h'.literal l known with same | ⟨builder, m, same, builder'⟩
    · exact h.literal l same
    · rcases h.literal m same with same' | ⟨-, m', same', builder''⟩
      · exact .inr ⟨builder, m, same', builder'⟩
      · exact .inr ⟨builder, m', same', builder''⟩

theorem forall₂_le_refl (vs : List Value) : List.Forall₂ Value.Le vs vs :=
  List.forall₂_same.mpr fun v _ => .refl v

theorem forall₂_le_trans {us vs ws : List Value} (h : List.Forall₂ Value.Le us vs)
    (h' : List.Forall₂ Value.Le vs ws) : List.Forall₂ Value.Le us ws := by
  induction h generalizing ws with
  | nil => exact h'
  | cons first _ ih =>
    cases h' with
    | cons first' rest' => exact .cons (first.trans first') (ih rest')

@[refl]
theorem Frame.Le.refl (f : Frame) : f.Le f :=
  ⟨forall₂_le_refl _, forall₂_le_refl _⟩

theorem Frame.Le.trans {f g h : Frame} (fg : f.Le g) (gh : g.Le h) : f.Le h :=
  ⟨forall₂_le_trans fg.locals gh.locals, forall₂_le_trans fg.stack gh.stack⟩

/-! ## Joining values -/

/-- Equal literals are the same, or both are builders. -/
theorem Literal.eq_of_same {b : Buffers} {l m : Literal} (h : l.same b m = true) :
    l = m ∨ l.isBuilder = true ∧ m.isBuilder = true := by
  cases l with
  | builder i => cases m <;> first | exact .inr ⟨rfl, rfl⟩ | exact .inl (beq_iff_eq.mp h)
  | _ => exact .inl (beq_iff_eq.mp h)

/-- A common literal is the one of the first value, and equal to that of the second. -/
theorem commonLiteral_eq_some {b : Buffers} {v w : Value} {l : Literal}
    (h : Store.commonLiteral b v w = some l) :
    v.literal = some l ∧ ∃ m, w.literal = some m ∧ l.same b m = true := by
  unfold Store.commonLiteral at h
  split at h
  · next l' m hv hw =>
    split at h
    · next same =>
      cases h
      exact ⟨hv, m, hw, same⟩
    · cases h
  · cases h

/-- The common literal of two values is one that the second value has as well, up to builders. -/
theorem literal_of_common {b : Buffers} {v w : Value} {l : Literal}
    (h : Store.commonLiteral b v w = some l) :
    w.literal = some l ∨ l.isBuilder = true ∧ ∃ m, w.literal = some m ∧ m.isBuilder = true := by
  obtain ⟨-, m, hm, same⟩ := commonLiteral_eq_some h
  rcases Literal.eq_of_same same with rfl | ⟨hl, hm'⟩
  · exact .inl hm
  · exact .inr ⟨hl, m, hm, hm'⟩

section

variable {builders : Prop} {made : List Value}

/-- What a join of two values makes. -/
structure Joined (made : List Value) (old incoming joined : Value) : Prop where
  made : Made made joined
  le_old : old.Le joined
  le_incoming : incoming.Le joined
  unchanged : joined.id = old.id → joined = old

/-- A join is above both values, and keeps the identity of the old one only if it is the old one. -/
theorem merge_records {old incoming : Value} (hold : Made made old)
    (hincoming : Made made incoming) :
    Records builders made (Store.merge old incoming) fun made' joined =>
      Joined made' old incoming joined := by
  intro s recorded
  by_cases same : old.id = incoming.id
  · obtain rfl := hold.eq_of_id hincoming same
    have run : Store.merge old old s = (old, { s with usages := s.usages.union old.key old.key }) := by
      simp [Store.merge]
    rw [run]
    exact ⟨made, List.prefix_rfl, ⟨recorded.count, recorded.proper⟩, hold, .refl _, .refl _,
      fun _ => rfl⟩
  · generalize hkind : (if old.kind = incoming.kind then old.kind else .uninitialized) = kind
    generalize hsources : old.sources.union incoming.sources = sources
    generalize hliteral : Store.commonLiteral s.buffers old incoming = literal
    have kindOld : kind = old.kind ∨ kind = .uninitialized := by
      rw [← hkind]
      split
      · exact .inl rfl
      · exact .inr rfl
    have kindIncoming : kind = incoming.kind ∨ kind = .uninitialized := by
      rw [← hkind]
      split
      · next equal => exact .inl equal
      · exact .inr rfl
    have fromOld : ∀ i ∈ old.sources, i ∈ sources := fun i member =>
      hsources ▸ InsnSet.mem_union.mpr (.inl member)
    have fromIncoming : ∀ i ∈ incoming.sources, i ∈ sources := fun i member =>
      hsources ▸ InsnSet.mem_union.mpr (.inr member)
    by_cases unchanged : kind = old.kind ∧ sources = old.sources ∧
        literal.isSome = old.literal.isSome
    · have run : Store.merge old incoming s =
          (old, { s with usages := s.usages.union old.key incoming.key }) := by
        simp only [Store.merge, if_neg same, hkind, hsources, hliteral, if_pos unchanged]
      obtain ⟨sameKind, sameSources, sameLiteral⟩ := unchanged
      rw [run]
      refine ⟨made, List.prefix_rfl, ⟨recorded.count, recorded.proper⟩, hold, .refl _,
        ⟨sameKind ▸ kindIncoming, sameSources ▸ fromIncoming, fun l hl => ?_⟩, fun _ => rfl⟩
      -- the old value has a literal only if both values have it
      rw [hl, Option.isSome_some, Option.isSome_iff_exists] at sameLiteral
      obtain ⟨l', hl'⟩ := sameLiteral
      obtain rfl : l = l' := by
        have common := (commonLiteral_eq_some (hliteral.trans hl')).1
        exact Option.some.inj (hl.symm.trans common)
      exact literal_of_common (hliteral.trans hl')
    · generalize hjoined : (⟨⟨s.nextValue⟩, kind, sources, old.key, literal⟩ : Value) = joined
      have run : Store.merge old incoming s = (joined,
          { s with
            usages := s.usages.union old.key incoming.key
            nextValue := s.nextValue + 1 }) := by
        simp only [Store.merge, if_neg same, hkind, hsources, hliteral, if_neg unchanged, hjoined]
      subst hjoined
      have proper : Value.Proper builders ⟨⟨s.nextValue⟩, kind, sources, old.key, literal⟩ := by
        refine ⟨fun l hl wide => ?_, fun l hl builder => ?_⟩
        · obtain ⟨hold', m, hm, equal⟩ := commonLiteral_eq_some (hliteral.trans hl)
          have kindOfOld := (recorded.proper_of_made hold).wide l hold' wide
          rcases Literal.eq_of_same equal with rfl | ⟨isBuilder, -⟩
          · have kindOfIncoming := (recorded.proper_of_made hincoming).wide l hm wide
            rw [← kindOfOld, ← hkind, if_pos (kindOfOld.trans kindOfIncoming.symm)]
          · cases l with
            | long v | double b => cases isBuilder
            | _ => cases wide
        · exact (recorded.proper_of_made hold).builder l
            (commonLiteral_eq_some (hliteral.trans hl)).1 builder
      have step := recorded.snoc rfl proper (t := (Store.merge old incoming s).2) (by rw [run])
      rw [run]
      refine ⟨_, List.prefix_append _ _, run ▸ step.1, step.2,
        ⟨kindOld, fromOld, fun l hl => .inl (commonLiteral_eq_some (hliteral.trans hl)).1⟩,
        ⟨kindIncoming, fromIncoming, fun l hl => literal_of_common (hliteral.trans hl)⟩,
        fun fresh => ?_⟩
      have below := recorded.id_lt hold
      rw [← fresh] at below
      exact absurd below (Nat.lt_irrefl _)

/-! ## Joining frames -/

/-- A join of slots is above both, and reports no change only if there is none. -/
theorem mergeSlots_records {olds news : List Value} (sameLength : olds.length = news.length)
    (holds : ∀ v ∈ olds, Made made v) (hnews : ∀ v ∈ news, Made made v) :
    Records builders made (Frame.mergeSlots olds news) fun made' result =>
      (∀ v ∈ result.1, Made made' v) ∧ List.Forall₂ Value.Le olds result.1 ∧
        List.Forall₂ Value.Le news result.1 ∧ (result.2 = false → result.1 = olds) := by
  induction olds generalizing made news with
  | nil =>
    cases news with
    | nil => exact .pure ⟨by simp, .nil, .nil, fun _ => rfl⟩
    | cons new news => cases sameLength
  | cons old olds ih =>
    cases news with
    | nil => cases sameLength
    | cons new news =>
      obtain ⟨hold, holds⟩ := List.forall_mem_cons.mp holds
      obtain ⟨hnew, hnews⟩ := List.forall_mem_cons.mp hnews
      refine .bind (merge_records hold hnew) fun made' joined longer first => ?_
      refine .bind (ih (Nat.succ.inj sameLength) (fun v member => (holds v member).mono longer)
        fun v member => (hnews v member).mono longer) fun made'' rest longer' others => ?_
      obtain ⟨hmade, hold', hnew', unchanged⟩ := others
      refine .pure ⟨List.forall_mem_cons.mpr ⟨first.made.mono longer', hmade⟩,
        .cons first.le_old hold', .cons first.le_incoming hnew', fun same => ?_⟩
      simp only [Bool.or_eq_false_iff, bne_eq_false_iff_eq] at same
      rw [first.unchanged same.2, unchanged same.1]

/-- A join of frames of one size is above both, and reports no change only if there is none. -/
theorem frameMerge_records {f incoming : Frame} (hf : f.Made made) (hincoming : incoming.Made made)
    (width : incoming.locals.length = f.locals.length) :
    StepRecords builders made (f.merge incoming) fun made' result =>
      result.1.Made made' ∧ f.Le result.1 ∧ incoming.Le result.1 ∧ result.1.limit = f.limit ∧
        (result.2 = false → result.1 = f) := by
  unfold Frame.merge
  split
  · exact .bind (q := fun _ _ => False) .error fun _ _ _ h => h.elim
  · next heights =>
    refine .bind (.lift (mergeSlots_records width.symm hf.locals hincoming.locals))
      fun made' locals longer hlocals => ?_
    have hf := hf.mono longer
    have hincoming := hincoming.mono longer
    refine .bind (.lift (mergeSlots_records (not_not.mp heights) hf.stack hincoming.stack))
      fun made'' stack longer' hstack => ?_
    refine .pure ⟨⟨fun v member => (hlocals.1 v member).mono longer', hstack.1⟩,
      ⟨hlocals.2.1, hstack.2.1⟩, ⟨hlocals.2.2.1, hstack.2.2.1⟩, rfl, fun same => ?_⟩
    simp only [Bool.or_eq_false_iff] at same
    show ({ f with locals := locals.1, stack := stack.1 } : Frame) = f
    rw [hlocals.2.2.2 same.1, hstack.2.2.2 same.2]

end

end Bytecode.Analysis
