import Bytecode.Proofs.Analysis.Confinement

/-!
# Claims compared

Two analyses that meet the same instruction find values with identities and usage keys of their own.
What can be compared are the claims: `u.Within exact v` says that `v` claims no more than `u` about the kind
of a slot, and about its literal if literals are to be compared at all.

An instruction that works on values within others makes a value within the one that it makes of the
others (`resultOf_twins`, `copy_twins`). For literals this needs that they do not change while the
analysis runs, and that they fit the kinds of their values: such values are `Matched`.
-/

namespace Bytecode.Analysis

open Tokens (Movement movement? typeMovement)

/-- The literal of a value is no builder, and takes two words exactly if the value does. -/
structure Value.Matched (v : Value) : Prop where
  wide : ∀ l, v.literal = some l → l.kind.isWide = true → v.kind = l.kind
  narrow : ∀ l, v.literal = some l → v.isWide = true → l.kind.isWide = true
  unbuilt : ∀ l, v.literal = some l → l.isBuilder = false

/-- The second value claims no more than the first about the kind, and about the literal if that is to be
compared. -/
structure Value.Within (exact : Prop) (u v : Value) : Prop where
  kind : v.kind = u.kind ∨ v.kind = .uninitialized
  literal : exact → ∀ l, v.literal = some l → u.literal = some l

/-- Two values that one instruction has made in different places. -/
structure Value.Twins (exact : Prop) (id : InsnId) (u v : Value) : Prop where
  left : u.sources = [id]
  right : v.sources = [id]
  within : u.Within exact v

section

variable {exact : Prop} {u v w : Value} {id : InsnId} {s t : Store}

@[refl]
theorem Value.Within.refl (u : Value) : u.Within exact u :=
  ⟨.inl rfl, fun _ _ same => same⟩

/-- What is within a value is within a value that claims less. -/
theorem Value.Within.below (h : u.Within exact v) (below : v.Le w) (matched : exact → w.Matched) :
    u.Within exact w where
  kind := by
    rcases below.kind with same | unknown
    · rw [same]
      exact h.kind
    · exact .inr unknown
  literal := fun compared l known => by
    rcases below.literal l known with same | ⟨builder, -⟩
    · exact h.literal compared l same
    · rw [(matched compared).unbuilt l known] at builder
      cases builder

/-- Known kinds are the same. -/
theorem Value.Within.kind_eq (h : u.Within exact v) (known : v.kind ≠ .uninitialized) : u.kind = v.kind :=
  (h.kind.resolve_right known).symm

/-- Two words within one stand for a value of unknown kind, whose literal is not known then. -/
theorem Value.Within.literal_of_wide (h : u.Within exact v) (hu : exact → u.Matched)
    (hv : exact → v.Matched) (wide : u.isWide = true) (narrow : v.isWide = false) :
    v.kind = .uninitialized ∧ (exact → v.literal = none) := by
  refine ⟨h.kind.resolve_left fun same => ?_, fun compared => ?_⟩
  · rw [Value.isWide, same] at narrow
    rw [Value.isWide, narrow] at wide
    cases wide
  · by_contra known
    obtain ⟨l, known⟩ := Option.ne_none_iff_exists'.mp known
    have double := (hu compared).narrow l (h.literal compared l known) wide
    rw [Value.isWide, (hv compared).wide l known double, double] at narrow
    cases narrow

/-! ## Joins -/

/-- A join keeps the old value, or has of both what they have in common. -/
theorem merge_value {old incoming joined : Value} (h : Store.merge old incoming s = (joined, t)) :
    joined = old ∨ joined.kind = (if old.kind = incoming.kind then old.kind else .uninitialized) ∧
      joined.sources = old.sources.union incoming.sources ∧
      ∃ b, joined.literal = Store.commonLiteral b old incoming := by
  unfold Store.merge at h
  dsimp only at h
  generalize (if old.kind = incoming.kind then old.kind else Kind.uninitialized) = kind at h
  split at h
  · cases h
    exact .inl rfl
  · split at h
    · cases h
      exact .inl rfl
    · cases h
      exact .inr ⟨rfl, rfl, _, rfl⟩

/-- A literal that is no builder is the same as itself whatever buffers hold. -/
theorem Literal.same_self {l : Literal} (h : l.isBuilder = false) (b : Buffers) : l.same b l = true := by
  cases l with
  | builder => cases h
  | _ => simp [Literal.same]

/-- The join of two values within a third one is within that. -/
theorem Value.Within.join {old incoming joined : Value} (hold : old.Within exact v)
    (hincoming : incoming.Within exact v) (matched : exact → v.Matched)
    (h : Store.merge old incoming s = (joined, t)) : joined.Within exact v := by
  rcases merge_value h with rfl | ⟨kind, -, b, literal⟩
  · exact hold
  · refine ⟨?_, fun compared l known => ?_⟩
    · rw [kind]
      split
      · exact hold.kind
      · next differ =>
        refine .inr ?_
        rcases hold.kind with first | unknown
        · rcases hincoming.kind with second | unknown
          · exact absurd (first.symm.trans second) differ
          · exact unknown
        · exact unknown
    · rw [literal, Store.commonLiteral, hold.literal compared l known,
        hincoming.literal compared l known]
      exact if_pos (Literal.same_self ((matched compared).unbuilt l known) b)

/-- The join of matched values is matched. -/
theorem Value.Matched.join {old incoming joined : Value} (hold : old.Matched) (hincoming : incoming.Matched)
    (h : Store.merge old incoming s = (joined, t)) : joined.Matched := by
  rcases merge_value h with rfl | ⟨kind, -, b, literal⟩
  · exact hold
  · have common {l : Literal} (known : joined.literal = some l) :
        old.literal = some l ∧ incoming.literal = some l := by
      rw [literal] at known
      obtain ⟨first, m, second, same⟩ := commonLiteral_eq_some known
      refine ⟨first, ?_⟩
      rcases Literal.eq_of_same same with rfl | ⟨builder, -⟩
      · exact second
      · rw [hold.unbuilt l first] at builder
        cases builder
    refine ⟨fun l known double => ?_, fun l known wide => ?_, fun l known => hold.unbuilt l (common known).1⟩
    · obtain ⟨first, second⟩ := common known
      rw [kind, hold.wide l first double, hincoming.wide l second double, if_pos rfl]
    · rw [Value.isWide, kind] at wide
      split at wide
      · exact hold.narrow l (common known).1 wide
      · cases wide

/-- A join of two words has two words already before it. -/
theorem wide_of_merge {old incoming joined : Value} (h : Store.merge old incoming s = (joined, t))
    (wide : joined.isWide = true) : old.isWide = true := by
  rcases merge_value h with rfl | ⟨kind, -⟩
  · exact wide
  · rw [Value.isWide, kind] at wide
    split at wide
    · exact wide
    · cases wide

/-- The slots behind a join of slots: each is the old one, or the join of it and the incoming one. -/
structure JoinOf (olds news joined : List Value) : Prop where
  length : joined.length = olds.length
  slot : ∀ (k : Nat) v, joined[k]? = some v → ∃ old, olds[k]? = some old ∧
    (v = old ∨ ∃ new s t, news[k]? = some new ∧ Store.merge old new s = (v, t))

/-- The slots behind the first one. -/
theorem JoinOf.tail {olds news joined : List Value} (h : JoinOf olds news joined) :
    JoinOf olds.tail news.tail joined.tail where
  length := by rw [List.length_tail, List.length_tail, h.length]
  slot := fun k v hv => by
    rw [List.getElem?_tail] at hv
    obtain ⟨old, hold, same⟩ := h.slot (k + 1) v hv
    exact ⟨old, by rw [List.getElem?_tail, hold], by simpa only [List.getElem?_tail] using same⟩

/-- One more slot in front. -/
theorem JoinOf.cons {olds news joined : List Value} {old new v : Value}
    (first : v = old ∨ ∃ s t, Store.merge old new s = (v, t)) (h : JoinOf olds news joined) :
    JoinOf (old :: olds) (new :: news) (v :: joined) where
  length := by rw [List.length_cons, List.length_cons, h.length]
  slot := fun k w found => by
    cases k with
    | zero =>
      cases found
      refine ⟨old, rfl, first.imp_right ?_⟩
      rintro ⟨s, t, merged⟩
      exact ⟨new, s, t, rfl, merged⟩
    | succ k => exact h.slot k w found

theorem mergeSlots_joins {olds news joined : List Value} {changed : Bool}
    (h : Frame.mergeSlots olds news s = ((joined, changed), t)) : JoinOf olds news joined := by
  induction olds generalizing news joined s changed with
  | nil =>
    obtain ⟨rfl, -⟩ := mergeSlots_stop (.inl rfl) h
    exact ⟨rfl, by simp⟩
  | cons old olds ih =>
    cases news with
    | nil =>
      obtain ⟨rfl, -⟩ := mergeSlots_stop (.inr rfl) h
      exact ⟨rfl, fun k v found => ⟨v, found, .inl rfl⟩⟩
    | cons new news =>
      obtain ⟨u, s₁, rest, restChanged, first, others, rfl, -⟩ := mergeSlots_cons h
      obtain ⟨length, slot⟩ := ih others
      refine ⟨by rw [List.length_cons, List.length_cons, length], fun k v found => ?_⟩
      cases k with
      | zero =>
        cases found
        exact ⟨old, rfl, .inr ⟨new, s, s₁, rfl, first⟩⟩
      | succ k => exact slot k v found

/-- A join of frames joins slots and stacks. -/
theorem frameMerge_joins {f incoming g : Frame} {changed : Bool}
    (h : f.merge incoming s = .ok ((g, changed), t)) :
    f.stack.length = incoming.stack.length ∧ g.limit = f.limit ∧
      JoinOf f.locals incoming.locals g.locals ∧ JoinOf f.stack incoming.stack g.stack := by
  obtain ⟨height, localsChanged, stackChanged, s₁, locals, stack, -⟩ := frameMerge_eq_ok h
  refine ⟨height, ?_, mergeSlots_joins locals, mergeSlots_joins stack⟩
  unfold Frame.merge at h
  rw [if_neg (not_not.mpr height)] at h
  obtain ⟨_, _, -, rest⟩ := Step.bind_eq_ok h
  obtain ⟨_, _, -, last⟩ := Step.bind_eq_ok rest
  cases last
  rfl

/-- Frames of one height can be joined. -/
theorem frameMerge_of_height {f incoming : Frame} (height : f.stack.length = incoming.stack.length)
    (s : Store) : ∃ r, f.merge incoming s = .ok r := by
  unfold Frame.merge
  rw [if_neg (not_not.mpr height)]
  exact ⟨_, rfl⟩

/-- A join of frames of matched values has matched values. -/
theorem frameMerge_matched {f incoming g : Frame} {changed : Bool} (hf : f.Every Value.Matched)
    (hincoming : incoming.Every Value.Matched) (h : f.merge incoming s = .ok ((g, changed), t)) :
    g.Every Value.Matched := by
  have each {olds news joined : List Value} (holds : ∀ v ∈ olds, v.Matched) (hnews : ∀ v ∈ news, v.Matched)
      (join : JoinOf olds news joined) : ∀ v ∈ joined, v.Matched := by
    intro v member
    obtain ⟨k, found⟩ := List.mem_iff_getElem?.mp member
    obtain ⟨old, there, rfl | ⟨new, s, t, there', merged⟩⟩ := join.slot k v found
    · exact holds v (List.mem_of_getElem? there)
    · exact (holds old (List.mem_of_getElem? there)).join (hnews new (List.mem_of_getElem? there')) merged
  obtain ⟨-, -, locals, stack⟩ := frameMerge_joins h
  exact ⟨each hf.locals hincoming.locals locals, each hf.stack hincoming.stack stack⟩

/-! ## Copies -/

/-- A copy of a matched value claims the same. -/
theorem copy_eq {body : Body} {index : Nat} (h : Transfer.copy body index id v s = (w, t)) :
    w.kind = v.kind ∧ w.sources = [id] ∧ (v.Matched → w.literal = v.literal) := by
  unfold Transfer.copy at h
  split at h
  · next i builder =>
    have literal (matched : v.Matched) : w.literal = v.literal := by cases matched.unbuilt _ builder
    split at h
    · cases h
      exact ⟨rfl, rfl, literal⟩
    · cases h
      exact ⟨rfl, rfl, literal⟩
  · cases h
    exact ⟨rfl, rfl, fun _ => rfl⟩

/-- A value that claims the same as a matched one is matched. -/
theorem Value.Matched.of_eq (h : v.Matched) (kind : w.kind = v.kind) (literal : w.literal = v.literal) :
    w.Matched := by
  constructor
  · rw [literal, kind]
    exact h.wide
  · rw [literal, Value.isWide, kind]
    exact h.narrow
  · rw [literal]
    exact h.unbuilt

theorem Value.Matched.copy {body : Body} {index : Nat} (h : v.Matched)
    (copied : Transfer.copy body index id v s = (w, t)) : w.Matched := by
  obtain ⟨kind, -, literal⟩ := copy_eq copied
  exact h.of_eq kind (literal h)

/-- Copies of values within each other are within each other. -/
theorem copy_twins {body body' : Body} {index index' : Nat} {s' t' : Store} {u' v' : Value}
    (h : u.Within exact v) (hu : exact → u.Matched) (hv : exact → v.Matched)
    (left : Transfer.copy body index id u s = (u', s'))
    (right : Transfer.copy body' index' id v t = (v', t')) : u'.Twins exact id v' := by
  obtain ⟨kind, sources, literal⟩ := copy_eq left
  obtain ⟨kind', sources', literal'⟩ := copy_eq right
  refine ⟨sources, sources', ?_, fun compared l known => ?_⟩
  · rw [kind, kind']
    exact h.kind
  · rw [literal (hu compared)]
    rw [literal' (hv compared)] at known
    exact h.literal compared l known

/-! ## Results -/

/-- What is rendered of a literal that is no builder does not depend on buffers. -/
theorem Literal.render_congr {l : Literal} (h : l.isBuilder = false) (b b' : Buffers) :
    l.render b = l.render b' := by
  cases l with
  | builder => cases h
  | _ => rfl

theorem Literal.renderAs_congr {l : Literal} (h : l.isBuilder = false) (type : Descriptor)
    (b b' : Buffers) : l.renderAs b type = l.renderAs b' type := by
  unfold Literal.renderAs
  split
  · rfl
  · rfl
  · exact render_congr h b b'

theorem followRecipe_congr (b b' : Buffers) (recipe : List Char) (typed : List (Descriptor × Literal))
    (constants : List Constant) (h : ∀ x ∈ typed, x.2.isBuilder = false) :
    Fold.followRecipe b recipe typed constants = Fold.followRecipe b' recipe typed constants := by
  fun_induction Fold.followRecipe b recipe typed constants with
  | case1 => rfl
  | case2 => rfl
  | case3 recipe type l typed constants ih =>
    obtain ⟨first, rest⟩ := List.forall_mem_cons.mp h
    simp only [Fold.followRecipe]
    rw [Literal.renderAs_congr first type b b', ih rest]
  | case4 => rw [Fold.followRecipe]
  | case5 recipe typed c constants ih =>
    simp only [Fold.followRecipe]
    rw [ih h]
  | case6 c recipe typed constants plain plain' plain'' plain''' ih =>
    rw [ih h, Fold.followRecipe] <;> assumption

theorem mapM_renderAs_congr (b b' : Buffers) {typed : List (Descriptor × Literal)}
    (h : ∀ x ∈ typed, x.2.isBuilder = false) :
    typed.mapM (fun (type, l) => l.renderAs b type) = typed.mapM fun (type, l) => l.renderAs b' type := by
  induction typed with
  | nil => rfl
  | cons x typed ih =>
    obtain ⟨first, rest⟩ := List.forall_mem_cons.mp h
    obtain ⟨type, l⟩ := x
    rw [List.mapM_cons, List.mapM_cons, ih rest]
    dsimp only
    rw [Literal.renderAs_congr first type b b']

/-- A concatenation of literals that are no builders does not depend on buffers. -/
theorem concatText_congr (b b' : Buffers) (descriptor : String) (bootstrap : Handle)
    (constants : List Constant) {ls : List Literal} (h : ∀ l ∈ ls, l.isBuilder = false) :
    Transfer.concatText b descriptor bootstrap constants ls =
      Transfer.concatText b' descriptor bootstrap constants ls := by
  have typed (types : List Descriptor) : ∀ x ∈ types.zip ls, x.2.isBuilder = false :=
    fun x member => h x.2 (List.of_mem_zip member).2
  unfold Transfer.concatText
  simp only [mapM_renderAs_congr b b' (typed _), followRecipe_congr b b' _ _ _ (typed _)]

/-- What a call makes of literals that are no builders does not depend on the store. -/
theorem callLiteral_congr (node : Node) {ls : List Literal} (h : ∀ l ∈ ls, l.isBuilder = false)
    (s t : Store) : (Transfer.callLiteral node ls s).1 = (Transfer.callLiteral node ls t).1 := by
  have render {l : Literal} (member : l ∈ ls) : l.render s.buffers = l.render t.buffers :=
    Literal.render_congr (h l member) _ _
  cases node with
  | call op owner name descriptor isInterface =>
    have foreign (s : Store) : (Transfer.builderCall name descriptor ls s).1 = none := by
      unfold Transfer.builderCall
      split
      · cases h _ List.mem_cons_self
      · rfl
    show (Transfer.callLiteral (.call op owner name descriptor isInterface) ls s).1 = _
    simp only [Transfer.callLiteral, bind, StateT.bind, get, getThe, MonadStateOf.get, StateT.get, pure]
    split
    · exact (foreign s).trans (foreign t).symm
    · split
      · cases ls with
        | nil => rfl
        | cons l ls =>
          cases ls with
          | nil => rfl
          | cons m ls =>
            show (do return Literal.string ((← l.render s.buffers) ++ (← m.render s.buffers))) = _
            rw [render (by simp), render (by simp)]
            rfl
      · split <;> rfl
  | dynamicCall name descriptor bootstrap constants =>
    simp only [Transfer.callLiteral, bind, StateT.bind, get, getThe, MonadStateOf.get, StateT.get, pure]
    split
    · show (Transfer.concatText s.buffers descriptor bootstrap constants ls).map Literal.string = _
      rw [concatText_congr s.buffers t.buffers descriptor bootstrap constants h]
      rfl
    · rfl
  | _ => rfl

/-! ## Results of instructions -/

variable {insn : Insn} {us vs : List Value}

theorem produce_twins {kind : Kind} {l l' : Option Literal}
    (within : exact → ∀ m, l' = some m → l = some m) (s t : Store) :
    (Transfer.produce id kind l s).1.Twins exact id (Transfer.produce id kind l' t).1 :=
  ⟨rfl, rfl, .inl rfl, within⟩

/-- What an instruction pushes without operands is the same everywhere, builders apart. -/
theorem push_twins (allowed : exact → ∀ op, insn.node ≠ .type op builderClass) (s t : Store) :
    (Transfer.push insn s).1.Twins exact insn.id (Transfer.push insn t).1 := by
  obtain ⟨id, node⟩ := insn
  cases node with
  | simple op =>
    simp only [Transfer.push]
    cases Operation.ofOpcode op <;> exact produce_twins (fun _ _ same => same) s t
  | type op name =>
    simp only [Transfer.push]
    split
    · next builder => exact ⟨rfl, rfl, .inl rfl, fun compared => absurd (by rw [builder]) (allowed compared op)⟩
    · exact produce_twins (fun _ _ same => same) s t
  | _ => exact ⟨rfl, rfl, .inl rfl, fun _ _ same => same⟩

/-- What an instruction makes of values within others is within what it makes of the others. -/
theorem unary_twins (h : u.Within exact v) (s t : Store) :
    Option.Rel (Value.Twins exact insn.id) (Transfer.unary insn u s).1 (Transfer.unary insn v t).1 := by
  unfold Transfer.unary
  cases Transfer.unaryKind insn.node with
  | none => exact .none
  | some kind =>
    refine .some ⟨rfl, rfl, .inl rfl, fun compared m known => ?_⟩
    obtain ⟨l, literal, folded⟩ := Option.bind_eq_some_iff.mp known
    exact Option.bind_eq_some_iff.mpr ⟨l, h.literal compared l literal, folded⟩

theorem binary_twins {u' v' : Value} (h : u.Within exact v) (h' : u'.Within exact v') (s t : Store) :
    Option.Rel (Value.Twins exact insn.id) (Transfer.binary insn u u' s).1 (Transfer.binary insn v v' t).1 := by
  unfold Transfer.binary
  cases insn.node with
  | simple op =>
    dsimp only
    cases Operation.ofOpcode op with
    | binary b =>
      refine .some ⟨rfl, rfl, .inl rfl, fun compared m known => ?_⟩
      obtain ⟨l, literal, rest⟩ := Option.bind_eq_some_iff.mp known
      obtain ⟨l', literal', folded⟩ := Option.bind_eq_some_iff.mp rest
      exact Option.bind_eq_some_iff.mpr ⟨l, h.literal compared l literal,
        Option.bind_eq_some_iff.mpr ⟨l', h'.literal compared l' literal', folded⟩⟩
    | arrayLoad kind => exact .some ⟨rfl, rfl, .inl rfl, fun _ _ same => same⟩
    | _ => exact .none
  | _ => exact .none

/-- Literals that are known of values are known of values within them. -/
theorem mapM_literal (compared : exact) (h : List.Forall₂ (Value.Within exact) us vs) {ls : List Literal}
    (known : vs.mapM Value.literal = some ls) : us.mapM Value.literal = some ls := by
  induction h generalizing ls with
  | nil => exact known
  | @cons u v us vs first _ ih =>
    rw [List.mapM_cons] at known ⊢
    obtain ⟨l, literal, rest⟩ := Option.bind_eq_some_iff.mp known
    obtain ⟨ls', literals, same⟩ := Option.bind_eq_some_iff.mp rest
    rw [first.literal compared l literal, ih literals]
    exact same

/-- The result of a call has the kind of the return type, and the literal that the call folds literals of
all arguments to. -/
theorem call_fst (insn : Insn) (taken : List Value) (s : Store) : ∃ s' literal,
    (match taken.mapM Value.literal with
      | some ls => literal = (Transfer.callLiteral insn.node ls s').1
      | none => literal = none) ∧
    match Transfer.resultKind insn.node with
    | none => (Transfer.call insn taken s).1 = none
    | some kind => ∃ t, (Transfer.call insn taken s).1 = some (Transfer.produce insn.id kind literal t).1 := by
  unfold Transfer.call
  refine ⟨(taken.forM (Store.consume insn.id) s).2, ?_⟩
  cases literals : taken.mapM Value.literal with
  | none =>
    refine ⟨none, rfl, ?_⟩
    cases Transfer.resultKind insn.node with
    | none => rfl
    | some kind => exact ⟨_, rfl⟩
  | some ls =>
    refine ⟨_, rfl, ?_⟩
    cases Transfer.resultKind insn.node with
    | none => rfl
    | some kind => exact ⟨_, rfl⟩

theorem call_twins (h : List.Forall₂ (Value.Within exact) us vs) (matched : exact → ∀ v ∈ vs, v.Matched)
    (s t : Store) :
    Option.Rel (Value.Twins exact insn.id) (Transfer.call insn us s).1 (Transfer.call insn vs t).1 := by
  obtain ⟨s', l, folded, made⟩ := call_fst insn us s
  obtain ⟨t', l', folded', made'⟩ := call_fst insn vs t
  cases kind : Transfer.resultKind insn.node with
  | none =>
    rw [kind] at made made'
    rw [made, made']
    exact .none
  | some kind' =>
    rw [kind] at made made'
    obtain ⟨s'', made⟩ := made
    obtain ⟨t'', made'⟩ := made'
    rw [made, made']
    refine .some (produce_twins (fun compared m known => ?_) s'' t'')
    subst known
    cases literals : vs.mapM Value.literal with
    | none =>
      rw [literals] at folded'
      cases folded'
    | some ls =>
      rw [literals] at folded'
      rw [mapM_literal compared h literals] at folded
      have unbuilt : ∀ l ∈ ls, l.isBuilder = false := fun l member => by
        obtain ⟨v, member, literal⟩ := exists_of_mem_right (forall₂_of_mapM literals) member
        exact (matched compared v member).unbuilt l literal
      exact folded.trans ((callLiteral_congr insn.node unbuilt s' t').trans folded'.symm)

/-- Among the instructions about a class only an allocation takes nothing. -/
theorem new_of_movement {op : Opcode} {name : String} {result : Option Kind}
    (h : movement? (.type op name) = some (.operate 0 result)) : op = Opcode.new := by
  simp only [movement?, typeMovement] at h
  split at h
  · assumption
  · repeat' split at h
    all_goals cases h

/-- **Results compared.** What an instruction makes of operands within others is within what it makes of the
others, and both have the instruction as their only source. -/
theorem resultOf_twins {result : Option Kind}
    (movement : movement? insn.node = some (.operate vs.length result))
    (allowed : exact → insn.node ≠ .type Opcode.new builderClass)
    (h : List.Forall₂ (Value.Within exact) us vs) (matched : exact → ∀ v ∈ vs, v.Matched) (s t : Store) :
    Option.Rel (Value.Twins exact insn.id) (resultOf insn us s).1 (resultOf insn vs t).1 := by
  cases call : calls insn.node with
  | true =>
    rw [resultOf_of_calls call, resultOf_of_calls call]
    exact call_twins h matched s t
  | false =>
    rw [resultOf_of_not_calls call, resultOf_of_not_calls call]
    have operates := operates_of_movement movement call
    cases h with
    | nil =>
      cases operates with
      | idle quiet =>
        rw [if_neg (by simp [quiet])]
        exact .none
      | push kind pushing =>
        rw [if_pos pushing]
        refine .some (push_twins (fun compared op node => ?_) s t)
        rw [node] at movement
        exact allowed compared (by rw [node, new_of_movement movement])
    | cons first rest =>
      cases rest with
      | nil => exact unary_twins first s t
      | cons second rest =>
        cases rest with
        | nil => exact binary_twins first second s t
        | cons _ _ => exact .none

/-! ## Matched values in an analysis -/

/-- What a call folds literals to that are no builders is a string. The call returns a reference then, unless
it is a call site of a concatenation. -/
theorem string_of_callLiteral {node : Node} {ls : List Literal} {l : Literal}
    (h : ∀ l ∈ ls, l.isBuilder = false) (known : (Transfer.callLiteral node ls s).1 = some l) :
    (∃ text, l = .string text) ∧ (Transfer.resultKind node = some .reference ∨
      ∃ name descriptor bootstrap constants, node = .dynamicCall name descriptor bootstrap constants ∧
        bootstrap.owner = concatFactory) := by
  cases node with
  | call op owner name descriptor isInterface =>
    simp only [Transfer.callLiteral, bind, StateT.bind, get, getThe, MonadStateOf.get, StateT.get, pure]
      at known
    split at known
    · unfold Transfer.builderCall at known
      split at known
      · cases h _ List.mem_cons_self
      · cases known
    · split at known
      · next plus =>
        obtain ⟨-, -, rfl⟩ := plus
        have returns : (Descriptor.parse (Transfer.returnText
            "(Ljava/lang/String;Ljava/lang/Object;)Ljava/lang/String;")).toOption.bind Kind.ofDescriptor =
          some .reference := by decide
        refine ⟨?_, .inl returns⟩
        rcases ls with _ | ⟨l, _ | ⟨m, ls⟩⟩
        · cases known
        · cases known
        · obtain ⟨text, -, rest⟩ := Option.bind_eq_some_iff.mp known
          obtain ⟨text', -, same⟩ := Option.bind_eq_some_iff.mp rest
          exact ⟨_, (Option.some.inj same).symm⟩
      · split at known
        · next concat =>
          obtain ⟨-, -, rfl⟩ := concat
          have returns : (Descriptor.parse (Transfer.returnText
              "(Ljava/lang/String;)Ljava/lang/String;")).toOption.bind Kind.ofDescriptor =
            some .reference := by decide
          refine ⟨?_, .inl returns⟩
          rcases ls with _ | ⟨l, _ | ⟨m, ls⟩⟩
          · cases known
          · cases known
          · obtain ⟨text, -, rest⟩ := Option.bind_eq_some_iff.mp known
            obtain ⟨text', -, same⟩ := Option.bind_eq_some_iff.mp rest
            exact ⟨_, (Option.some.inj same).symm⟩
        · cases known
  | dynamicCall name descriptor bootstrap constants =>
    simp only [Transfer.callLiteral, bind, StateT.bind, get, getThe, MonadStateOf.get, StateT.get, pure]
      at known
    split at known
    · next factory =>
      obtain ⟨text, -, same⟩ := Option.map_eq_some_iff.mp known
      exact ⟨⟨text, same.symm⟩, .inr ⟨_, _, _, _, rfl, factory⟩⟩
    · cases known
  | _ => cases known

/-- The phases of an analysis whose values are matched. -/
def matching : Phases Unit where
  of := fun _ _ => True
  later := fun _ _ => True
  good := fun _ v => v.Matched
  refl := fun _ => trivial
  trans := fun _ _ => trivial
  mono := fun good _ => good

theorem matching_ensures {α : Type} {x : StoreM α} {p : α → Prop} (h : ∀ s, p (x s).1) :
    matching.Ensures () x fun _ => p :=
  .of_phase (fun _ _ => trivial) h

theorem Value.Matched.of_unknown (h : v.literal = none) : v.Matched := by
  constructor <;> simp [h]

/-- A literal of the kind of its value. -/
theorem matched_of_kind (h : ∀ l, v.literal = some l → l.kind = v.kind ∧ l.isBuilder = false) :
    v.Matched where
  wide := fun l known _ => (h l known).1.symm
  narrow := fun l known wide => by
    rw [(h l known).1]
    exact wide
  unbuilt := fun l known => (h l known).2

theorem kind_ofConstant_literal {c : Constant} {l : Literal} (h : (Literal.ofConstant c).2 = some l) :
    l.kind = (Literal.ofConstant c).1 ∧ l.isBuilder = false := by
  cases c <;> cases h <;> exact ⟨rfl, rfl⟩

theorem push_matched (unbuilt : ∀ op, insn.node ≠ .type op builderClass) (s : Store) :
    (Transfer.push insn s).1.Matched := by
  obtain ⟨id, node⟩ := insn
  cases node with
  | simple op =>
    simp only [Transfer.push]
    cases Operation.ofOpcode op with
    | null => exact matched_of_kind fun l known => by cases known; exact ⟨rfl, rfl⟩
    | constant c => exact matched_of_kind fun l known => kind_ofConstant_literal known
    | _ => exact .of_unknown rfl
  | int op operand => exact matched_of_kind fun l known => by cases known; exact ⟨rfl, rfl⟩
  | constant c => exact matched_of_kind fun l known => kind_ofConstant_literal known
  | type op name =>
    simp only [Transfer.push]
    rw [if_neg fun builder => unbuilt op (by rw [builder])]
    exact .of_unknown rfl
  | _ => exact .of_unknown rfl

theorem unary_matched (s : Store) : IfAny Value.Matched (Transfer.unary insn v s).1 := by
  unfold Transfer.unary
  cases kind : Transfer.unaryKind insn.node with
  | none => exact nofun
  | some kind' =>
    rintro w ⟨⟩
    refine matched_of_kind fun m known => ?_
    obtain ⟨l, -, folded⟩ := Option.bind_eq_some_iff.mp known
    exact kind_of_unaryLiteral kind folded

theorem binary_matched (s : Store) : IfAny Value.Matched (Transfer.binary insn u v s).1 := by
  unfold Transfer.binary
  cases insn.node with
  | simple op =>
    dsimp only
    cases Operation.ofOpcode op with
    | binary b =>
      rintro w ⟨⟩
      refine matched_of_kind fun m known => ?_
      obtain ⟨l, -, rest⟩ := Option.bind_eq_some_iff.mp known
      obtain ⟨l', -, folded⟩ := Option.bind_eq_some_iff.mp rest
      exact kind_of_binary folded
    | arrayLoad kind =>
      rintro w ⟨⟩
      exact .of_unknown rfl
    | _ => rintro w ⟨⟩
  | _ => rintro w ⟨⟩

/-- A call site of a concatenation does not return a value of two words. -/
def NarrowConcat (node : Node) : Prop :=
  ∀ name descriptor bootstrap constants, node = .dynamicCall name descriptor bootstrap constants →
    bootstrap.owner = concatFactory → ∀ kind, Transfer.resultKind node = some kind → kind.isWide = false

theorem call_matched (narrow : NarrowConcat insn.node) (h : ∀ v ∈ us, v.Matched) (s : Store) :
    IfAny Value.Matched (Transfer.call insn us s).1 := by
  obtain ⟨s', literal, folded, made⟩ := call_fst insn us s
  cases kind : Transfer.resultKind insn.node with
  | none =>
    rw [kind] at made
    rw [made]
    exact nofun
  | some kind' =>
    rw [kind] at made
    obtain ⟨t, made⟩ := made
    rw [made]
    rintro w ⟨⟩
    cases literals : us.mapM Value.literal with
    | none =>
      rw [literals] at folded
      exact .of_unknown folded
    | some ls =>
      rw [literals] at folded
      have unbuilt : ∀ l ∈ ls, l.isBuilder = false := fun l member => by
        obtain ⟨v, member, known⟩ := exists_of_mem_right (forall₂_of_mapM literals) member
        exact (h v member).unbuilt l known
      cases known : literal with
      | none => exact .of_unknown rfl
      | some l =>
        obtain ⟨⟨text, rfl⟩, returns⟩ := string_of_callLiteral unbuilt (folded.symm.trans known)
        have single : kind'.isWide = false := by
          rcases returns with reference | ⟨_, _, _, _, node, factory⟩
          · rw [kind] at reference
            cases reference
            rfl
          · exact narrow _ _ _ _ node factory kind' kind
        refine ⟨?_, fun _ _ wide => ?_, ?_⟩
        · rintro l ⟨⟩ ⟨⟩
        · exact absurd wide (by rw [Value.isWide]; simp [Transfer.produce, Store.make, single])
        · rintro l ⟨⟩
          rfl

/-- The transfer functions lead from matched values to matched values. -/
theorem matching_supplies {body : Body} {index : Nat} {f : Frame}
    (unbuilt : insn.node ≠ .type Opcode.new builderClass) (narrow : NarrowConcat insn.node) :
    Supplies matching body index insn f where
  unknown := fun _ _ _ _ => ⟨(), trivial, trivial, .of_unknown rfl, rfl, rfl⟩
  consume := fun _ _ _ => matching_ensures fun _ => trivial
  push := fun allocation _ => matching_ensures fun s =>
    push_matched (fun op node => unbuilt (by rw [node, allocation op _ node])) s
  copy := fun _ v _ matched => matching_ensures fun _ => Value.Matched.copy matched rfl
  unary := fun _ _ _ => matching_ensures unary_matched
  binary := fun _ _ _ _ _ => matching_ensures binary_matched
  call := fun _ _ matched => matching_ensures (call_matched narrow matched)

/-- A simulated instruction leads from matched values to matched values. -/
theorem execute_matched {f g : Frame} {body : Body} {index : Nat}
    (unbuilt : insn.node ≠ .type Opcode.new builderClass) (narrow : NarrowConcat insn.node)
    (h : f.Every Value.Matched) (executed : f.execute body index insn s = .ok (g, t)) :
    g.Every Value.Matched := by
  obtain ⟨⟨⟩, -, -, kept⟩ :=
    Frame.execute_kept (matching_supplies unbuilt narrow) (w := ()) h s trivial _ _ executed
  exact kept.good

theorem handlerFrame_matched {before entry : Frame} {caught : String} (h : before.Every Value.Matched)
    (entered : Flow.handlerFrame before caught s = .ok (entry, t)) : entry.Every Value.Matched := by
  obtain ⟨v, -, ⟨-, unknown⟩, rfl⟩ := handlerFrame_eq_ok entered
  exact ⟨h.locals, by simpa using Value.Matched.of_unknown unknown⟩

theorem entryOf_matched (owner : String) (m : Method) (d : MethodDescriptor) :
    (entryOf owner m d).1.Every Value.Matched := by
  have unknown (w : Unit) (kind : Kind) : matching.Ensures w (Store.make kind [] none) matching.good :=
    matching_ensures fun _ => .of_unknown rfl
  obtain ⟨⟨⟩, -, -, matched⟩ :=
    entryLocals_ensures unknown owner m.isStatic d.arguments (slotsOf m d) () {} trivial
  exact ⟨matched, by simp [entryOf]⟩

end

/-- **Literals match kinds.** In a method that allocates no string builder and in which no call site of a
concatenation returns a value of two words, all values of an analysis are matched. -/
theorem matched_of_analyze {owner : String} {m : Method} {r : Frames} (analyzed : analyze owner m = .ok r)
    (nonempty : 0 < m.body.size) (unbuilt : ∀ insn ∈ m.body, insn.node ≠ .type Opcode.new builderClass)
    (narrow : ∀ insn ∈ m.body, NarrowConcat insn.node) :
    ∀ i f, r.frameAt i = some f → f.Every Value.Matched := by
  obtain ⟨d, ranges, -, parsed, covered, -⟩ := analyze_eq_ok analyzed nonempty
  have confines : Confines True ⟨m.body, m.body.lastLabels, ranges⟩ fun _ f => f.Every Value.Matched := by
    refine ⟨fun i f g hf hg s => .of_results fun r joined => frameMerge_matched hf hg joined,
      fun i insn f there hf s => .of_results fun r executed => ?_,
      fun i f r hf _ _ s => .of_results fun e entered => handlerFrame_matched hf entered⟩
    have member : insn ∈ m.body := Array.mem_of_getElem? there
    have matched := execute_matched (unbuilt insn member) (narrow insn member) hf executed
    exact .of_results fun _ _ _ _ => matched
  exact analyze_confined analyzed nonempty parsed covered confines (entryOf_matched owner m d)

end Bytecode.Analysis
