import Bytecode.Proofs.Analysis.Claims

/-!
# Frames that track others

`f.Tracks exact R g` compares two frames: their stacks entry by entry with a relation `R` on values, and
the local variables that both have by their claims. It survives joins, and it goes on to the entries of
handlers.

A value of unknown kind counts as one word, so that an instruction that finds one may do something else
than on the values that it was joined from. `askedBy` counts the entries whose sizes an instruction asks
for; frames are `Decided` if those have known kinds.
-/

namespace Bytecode.Analysis

open Tokens (Movement movement? shuffledWords cut)

/-! ## Entries whose sizes matter -/

/-- The number of topmost entries that fill some words. -/
def entriesIn : Nat → List Kind → Nat
  | 0, _ => 0
  | _ + 1, [] => 0
  | words + 1, kind :: kinds => entriesIn (words + 1 - kind.size) kinds + 1

/-- The number of topmost entries whose sizes a movement depends on. -/
def askedOf (kinds : List Kind) : Movement → Nat
  | .drop words => entriesIn words kinds
  | .store _ => 1
  | .shuffle form =>
    let top := entriesIn (shuffledWords form).1 kinds
    top + entriesIn (shuffledWords form).2 (kinds.drop top)
  | _ => 0

/-- The number of topmost entries whose sizes a node depends on: what POP, POP2, the shuffles and the stores
take off a stack of the given kinds. -/
def askedBy (node : Node) (kinds : List Kind) : Nat :=
  (movement? node).elim 0 (askedOf kinds)

/-- The kinds of the entries whose sizes matter are known in all frames. -/
def Decided (body : Body) (frames : Nat → Option Frame) : Prop :=
  ∀ (i : Nat) (insn : Insn) (f : Frame), body[i]? = some insn → frames i = some f →
    ∀ kind ∈ f.kinds.take (askedBy insn.node f.kinds), kind ≠ .uninitialized

instance (body : Body) (frames : Nat → Option Frame) : Decidable (Decided body frames) :=
  decidable_of_iff (∀ i < body.size, ∀ insn ∈ body[i]?, ∀ f ∈ frames i,
      ∀ kind ∈ f.kinds.take (askedBy insn.node f.kinds), kind ≠ .uninitialized)
    ⟨fun h i insn f there here => h i (Array.getElem?_eq_some_iff.mp there).1 insn there f here,
    fun h i _ insn there f here => h i insn f there here⟩

/-- What fills some words is told by the entries themselves. -/
theorem entriesIn_congr {kinds kinds' : List Kind} {words : Nat} (length : kinds.length = kinds'.length)
    (same : kinds.take (entriesIn words kinds') = kinds'.take (entriesIn words kinds')) :
    entriesIn words kinds = entriesIn words kinds' := by
  fun_induction entriesIn words kinds' generalizing kinds with
  | case1 => rw [entriesIn]
  | case2 => rw [List.eq_nil_of_length_eq_zero length, entriesIn]
  | case3 words kind kinds' ih =>
    cases kinds with
    | nil => cases length
    | cons kind' kinds =>
      rw [List.take_succ_cons, List.take_succ_cons, List.cons.injEq] at same
      obtain ⟨rfl, same⟩ := same
      rw [entriesIn, ih (Nat.succ.inj length) same]

/-- What fills some words exactly is told by the entries themselves. -/
theorem cut_congr {kinds kinds' : List Kind} {words : Nat} (length : kinds.length = kinds'.length)
    (same : kinds.take (entriesIn words kinds') = kinds'.take (entriesIn words kinds')) :
    cut words kinds = cut words kinds' := by
  fun_induction entriesIn words kinds' generalizing kinds with
  | case1 => rw [cut, cut]
  | case2 => rw [List.eq_nil_of_length_eq_zero length]
  | case3 words kind kinds' ih =>
    cases kinds with
    | nil => cases length
    | cons kind' kinds =>
      rw [List.take_succ_cons, List.take_succ_cons, List.cons.injEq] at same
      obtain ⟨rfl, same⟩ := same
      rw [cut, cut, ih (Nat.succ.inj length) same]

/-- The entries whose sizes matter tell how many they are. -/
theorem askedBy_congr {kinds kinds' : List Kind} {node : Node} (length : kinds.length = kinds'.length)
    (same : kinds.take (askedBy node kinds') = kinds'.take (askedBy node kinds')) :
    askedBy node kinds = askedBy node kinds' := by
  unfold askedBy at same ⊢
  cases moves : movement? node with
  | none => rfl
  | some m =>
    rw [moves] at same
    cases m with
    | drop words => exact entriesIn_congr length same
    | shuffle form =>
      simp only [askedOf, Option.elim_some] at same ⊢
      have first := congrArg (List.take (entriesIn (shuffledWords form).1 kinds')) same
      rw [List.take_take, List.take_take, Nat.min_eq_left (Nat.le_add_right _ _)] at first
      have top := entriesIn_congr length first
      rw [top]
      have below := congrArg (List.drop (entriesIn (shuffledWords form).1 kinds')) same
      rw [List.drop_take, List.drop_take, Nat.add_sub_cancel_left] at below
      rw [entriesIn_congr (by rw [List.length_drop, List.length_drop, length]) below]
    | _ => rfl

/-! ## Frames compared -/

/-- A relation of values that compares at least their claims, survives joins on its first side, and lets the
second side claim less. It holds of values that come from nowhere. -/
structure Comparison (exact : Prop) (R : Value → Value → Prop) : Prop where
  within : ∀ {u v}, R u v → u.Within exact v
  join : ∀ {old incoming joined v s t}, R old v → R incoming v → (exact → v.Matched) →
    Store.merge old incoming s = (joined, t) → R joined v
  below : ∀ {u v w}, R u v → v.Le w → (exact → w.Matched) → R u w
  caught : ∀ {u v}, v.kind = u.kind → u.sources = [] → v.literal = none → R u v

theorem comparison_within (exact : Prop) : Comparison exact (Value.Within exact) where
  within := id
  join := fun hold hincoming matched merged => hold.join hincoming matched merged
  below := fun h below matched => h.below below matched
  caught := fun kind _ unknown => ⟨.inl kind, fun _ _ known => by simp [unknown] at known⟩

/-- The stacks of two frames are related entry by entry, and the local variables that both have by their
claims. A value of two words in such a variable has room in the second frame too. -/
structure Frame.Tracks (exact : Prop) (R : Value → Value → Prop) (f g : Frame) : Prop where
  stack : List.Forall₂ R f.stack g.stack
  locals : ∀ (k : Nat) u v, f.locals[k]? = some u → g.locals[k]? = some v → u.Within exact v
  room : ∀ (k : Nat) u, f.locals[k]? = some u → k < g.locals.length → u.isWide = true →
    (k + 1) % 65536 < g.locals.length

section

variable {exact : Prop} {R : Value → Value → Prop} {f f' g g' : Frame} {s t : Store}

/-- Entries at one place of related lists are related. -/
theorem rel_of_getElem? {α β : Type} {R : α → β → Prop} {xs : List α} {ys : List β}
    (h : List.Forall₂ R xs ys) {k : Nat} {a : α} {b : β} (left : xs[k]? = some a) (right : ys[k]? = some b) :
    R a b := by
  obtain ⟨a', left', related⟩ := getElem?_of_forall₂ h right
  cases left.symm.trans left'
  exact related

/-- A frame can be compared with one that claims less. -/
theorem Frame.Tracks.below (h : f.Tracks exact R g) (compares : Comparison exact R) (below : g.Le g')
    (matched : exact → g'.Every Value.Matched) : f.Tracks exact R g' where
  stack := by
    refine forall₂_of_getElem? (h.stack.length_eq.trans below.stack.length_eq) fun k u w hu hw => ?_
    obtain ⟨v, hv, less⟩ := getElem?_of_forall₂ below.stack hw
    exact compares.below (rel_of_getElem? h.stack hu hv) less fun compared =>
      (matched compared).stack w (List.mem_of_getElem? hw)
  locals := fun k u w hu hw => by
    obtain ⟨v, hv, less⟩ := getElem?_of_forall₂ below.locals hw
    exact (h.locals k u v hu hv).below less fun compared =>
      (matched compared).locals w (List.mem_of_getElem? hw)
  room := by
    rw [← below.locals.length_eq]
    exact h.room

/-- Slots that are joined from slots that can be compared with those of a third frame can be compared with
them. -/
theorem Frame.Tracks.join_of {incoming joined : Frame} (h : f.Tracks exact R g)
    (h' : incoming.Tracks exact R g) (compares : Comparison exact R) (matched : exact → g.Every Value.Matched)
    (locals : JoinOf f.locals incoming.locals joined.locals)
    (stack : JoinOf f.stack incoming.stack joined.stack) : joined.Tracks exact R g := by
  refine ⟨forall₂_of_getElem? (stack.length.trans h.stack.length_eq) fun k u v hu hv => ?_,
    fun k u v hu hv => ?_, fun k u hu inside wide => ?_⟩
  · obtain ⟨old, hold, rfl | ⟨new, s, t, hnew, merged⟩⟩ := stack.slot k u hu
    · exact rel_of_getElem? h.stack hold hv
    · exact compares.join (rel_of_getElem? h.stack hold hv) (rel_of_getElem? h'.stack hnew hv)
        (fun compared => (matched compared).stack v (List.mem_of_getElem? hv)) merged
  · obtain ⟨old, hold, rfl | ⟨new, s, t, hnew, merged⟩⟩ := locals.slot k u hu
    · exact h.locals k u v hold hv
    · exact (h.locals k old v hold hv).join (h'.locals k new v hnew hv)
        (fun compared => (matched compared).locals v (List.mem_of_getElem? hv)) merged
  · obtain ⟨old, hold, rfl | ⟨new, s, t, hnew, merged⟩⟩ := locals.slot k u hu
    · exact h.room k u hold inside wide
    · exact h.room k old hold inside (wide_of_merge merged wide)

/-- A join of frames that can be compared with a third one can be compared with it. -/
theorem Frame.Tracks.join {incoming joined : Frame} {changed : Bool} (h : f.Tracks exact R g)
    (h' : incoming.Tracks exact R g) (compares : Comparison exact R) (matched : exact → g.Every Value.Matched)
    (merged : f.merge incoming s = .ok ((joined, changed), t)) : joined.Tracks exact R g := by
  obtain ⟨-, -, locals, stack⟩ := frameMerge_joins merged
  exact h.join_of h' compares matched locals stack

/-- Where the second frame knows the kinds of entries, the first one has the same. -/
theorem Frame.Tracks.asked (h : f.Tracks exact R g) (compares : Comparison exact R) {count : Nat}
    (known : ∀ kind ∈ g.kinds.take count, kind ≠ .uninitialized) :
    f.kinds.take count = g.kinds.take count := by
  have same : List.Forall₂ (fun u v : Value => v.kind ≠ .uninitialized → u.kind = v.kind) f.stack g.stack :=
    h.stack.imp fun u v related => (compares.within related).kind_eq
  have taken := List.forall₂_take count same
  simp only [Frame.kinds, ← List.map_take] at known ⊢
  generalize f.stack.take count = us, g.stack.take count = vs at taken known
  induction taken with
  | nil => rfl
  | cons first rest ih =>
    obtain ⟨here, below⟩ := List.forall_mem_cons.mp known
    rw [List.map_cons, List.map_cons, first here, ih below]

/-- Two frames that track a third one agree on the entries that an instruction asks for, if those of the
third one are known. -/
theorem asked_of_tracks {R' : Value → Value → Prop} {f' : Frame} {node : Node} (h : f.Tracks exact R g)
    (h' : f'.Tracks exact R' g) (compares : Comparison exact R) (compares' : Comparison exact R')
    (known : ∀ kind ∈ g.kinds.take (askedBy node g.kinds), kind ≠ .uninitialized) :
    f.kinds.take (askedBy node f'.kinds) = f'.kinds.take (askedBy node f'.kinds) := by
  have first := h.asked compares known
  have second := h'.asked compares' known
  rw [askedBy_congr (by simp [Frame.kinds, h'.stack.length_eq]) second, first, second]

/-- The locals and the exception at the entry of a handler can be compared. -/
theorem Frame.Tracks.caught {entry entry' : Frame} {caught : String} {s' t' : Store}
    (h : f.Tracks exact R g) (compares : Comparison exact R)
    (entered : Flow.handlerFrame f caught s = .ok (entry, t))
    (entered' : Flow.handlerFrame g caught s' = .ok (entry', t')) : entry.Tracks exact R entry' := by
  obtain ⟨u, kind, ⟨sources, -⟩, rfl⟩ := handlerFrame_eq_ok entered
  obtain ⟨v, kind', ⟨-, unknown⟩, rfl⟩ := handlerFrame_eq_ok entered'
  exact ⟨.cons (compares.caught (kind'.trans kind.symm) sources unknown) .nil, h.locals, h.room⟩

/-- Without a limit an exception can be caught everywhere. -/
theorem handlerFrame_of_unlimited (unlimited : f.limit = none) (caught : String) (s : Store) :
    ∃ r, Flow.handlerFrame f caught s = .ok r := by
  unfold Flow.handlerFrame Frame.push
  rw [unlimited]
  exact ⟨_, rfl⟩

end

end Bytecode.Analysis
