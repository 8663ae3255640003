import Bytecode.Proofs.Analysis.Paths
import Bytecode.Proofs.Analysis.Visits
import Mathlib.Data.List.Perm.Subperm
import Mathlib.Data.List.Sort

/-!
# The loop of an analysis ends

Every change that queues a position uses up something: a slot gains a source among the instructions of
the body, or it loses its kind or its literal. `Value.slack` counts what is left of this in a slot and
`Flow.potential` in a whole flow, where a position that has no frame yet counts as much as any frame
can. A visit takes one position off the queue, and each position that it queues is paid for by the
potential (`visit_spends`). So the loop ends after as many visits as the potential tells at the start,
and `visitBound` is that number.

Two invariants keep the potential finite: the sources of all values are ascending lists of
instructions of the body, and the stack before a position is no higher than twice the number of
positions that have been reached.
-/

namespace Bytecode.Analysis

/-! ## Ascending sets -/

namespace InsnSet

/-- The members of a set stand in the order of their numbers. -/
def Ascending (s : InsnSet) : Prop :=
  s.Pairwise (·.val < ·.val)

theorem Ascending.insert {s : InsnSet} (h : Ascending s) (i : InsnId) :
    Ascending (InsnSet.insert i s) := by
  induction s with
  | nil => exact List.pairwise_singleton _ _
  | cons j rest ih =>
    obtain ⟨first, tail⟩ := List.pairwise_cons.mp h
    unfold InsnSet.insert
    split
    · next below =>
      refine List.pairwise_cons.mpr ⟨fun k member => ?_, h⟩
      rcases List.mem_cons.mp member with rfl | later
      · exact below
      · exact Nat.lt_trans below (first k later)
    · split
      · exact h
      · next notBelow other =>
        refine List.pairwise_cons.mpr ⟨fun k member => ?_, ih tail⟩
        rcases InsnSet.mem_insert.mp member with rfl | later
        · have apart : j.val ≠ k.val := fun same => other (by cases j; cases k; cases same; rfl)
          omega
        · exact first k later

theorem Ascending.union {t : InsnSet} (h : Ascending t) (s : InsnSet) :
    Ascending (InsnSet.union s t) := by
  induction s with
  | nil => exact h
  | cons i s ih => exact ih.insert i

theorem Ascending.nodup {s : InsnSet} (h : Ascending s) : s.Nodup :=
  h.imp fun below same => Nat.ne_of_lt below (congrArg InsnId.val same)

theorem Ascending.length_le {s : InsnSet} {ids : List InsnId} (h : Ascending s)
    (inside : s ⊆ ids) : s.length ≤ ids.length :=
  (List.subperm_of_subset h.nodup inside).length_le

/-- A set within another one that is no smaller is the same set. -/
theorem Ascending.eq_of_length_le {s t : InsnSet} (hs : Ascending s) (ht : Ascending t)
    (inside : s ⊆ t) (size : t.length ≤ s.length) : s = t := by
  have same : s.Perm t := (List.subperm_of_subset hs.nodup inside).perm_of_length_le size
  exact same.eq_of_pairwise (fun i j _ _ below above => absurd below (Nat.lt_asymm above)) hs ht

theorem Ascending.union_comm {s t : InsnSet} (hs : Ascending s) (ht : Ascending t) :
    InsnSet.union s t = InsnSet.union t s := by
  have inside (s t : InsnSet) : InsnSet.union s t ⊆ InsnSet.union t s := fun i member =>
    InsnSet.mem_union.mpr (InsnSet.mem_union.mp member).symm
  have left : Ascending (InsnSet.union s t) := ht.union s
  have right : Ascending (InsnSet.union t s) := hs.union t
  exact left.eq_of_length_le right (inside s t) (right.length_le (inside t s))

end InsnSet

/-! ## What is left in a slot -/

/-- The sources of a value are an ascending list of given instructions. -/
structure Value.Traced (ids : List InsnId) (v : Value) : Prop where
  ascending : InsnSet.Ascending v.sources
  known : v.sources ⊆ ids

/-- How often a value can still change, if sources are among `count` instructions. -/
def Value.slack (count : Nat) (v : Value) : Nat :=
  (count - v.sources.length) + (if v.kind = .uninitialized then 0 else 1) + v.literal.isSome.toNat

theorem Value.slack_le (count : Nat) (v : Value) : v.slack count ≤ count + 2 := by
  have literal := Bool.toNat_le v.literal.isSome
  unfold slack
  split <;> omega

/-- What is left in some slots. -/
def slackOf (count : Nat) (vs : List Value) : Nat :=
  total (Value.slack count) vs

theorem slackOf_le (count : Nat) (vs : List Value) : slackOf count vs ≤ vs.length * (count + 2) :=
  total_le fun v _ => v.slack_le count

section

variable {ids : List InsnId} {s s' : Store}

/-- A literal that two values have in common is one of the first. -/
theorem isSome_commonLiteral_le (b : Buffers) (v w : Value) :
    (Store.commonLiteral b v w).isSome.toNat ≤ v.literal.isSome.toNat := by
  unfold Store.commonLiteral
  split
  · next known _ =>
    rw [known]
    exact Bool.toNat_le _
  · exact Nat.zero_le _

theorem isSome_of_toNat_eq {l l' : Option Literal} (h : l.isSome.toNat = l'.isSome.toNat) :
    l.isSome = l'.isSome := by
  cases l <;> cases l' <;> first | rfl | cases h

/-- A join of two values either is the old one or has less left. -/
theorem merge_spends {old incoming joined : Value} (hold : old.Traced ids)
    (hincoming : incoming.Traced ids) (h : Store.merge old incoming s = (joined, s')) :
    joined.Traced ids ∧
      joined.slack ids.length + (joined.id != old.id).toNat ≤ old.slack ids.length := by
  have kept : old.slack ids.length + (old.id != old.id).toNat ≤ old.slack ids.length := by simp
  have traced : Value.Traced ids { old with sources := old.sources.union incoming.sources } :=
    ⟨hincoming.ascending.union _, fun i member =>
      (InsnSet.mem_union.mp member).elim (hold.known ·) (hincoming.known ·)⟩
  unfold Store.merge at h
  dsimp only at h
  split at h
  · cases h
    exact ⟨hold, kept⟩
  · have fewer := isSome_commonLiteral_le s.buffers old incoming
    generalize known : (if old.kind = incoming.kind then old.kind else .uninitialized) = kind at h
    generalize Store.commonLiteral s.buffers old incoming = literal at h fewer
    have kinds : kind = old.kind ∨ kind = .uninitialized := by
      split at known
      · exact .inl known.symm
      · exact .inr known.symm
    split at h
    · cases h
      exact ⟨hold, kept⟩
    · next news =>
      cases h
      refine ⟨⟨traced.ascending, traced.known⟩, ?_⟩
      have larger : old.sources ⊆ InsnSet.union old.sources incoming.sources :=
        fun i member => InsnSet.mem_union.mpr (.inl member)
      have more : old.sources.length ≤ (InsnSet.union old.sources incoming.sources).length :=
        hold.ascending.length_le larger
      have room : (InsnSet.union old.sources incoming.sources).length ≤ ids.length :=
        traced.ascending.length_le traced.known
      have most := Bool.toNat_le ((⟨s.nextValue⟩ : ValueId) != old.id)
      have cheaper : (if kind = .uninitialized then 0 else 1) ≤
          if old.kind = .uninitialized then 0 else 1 := by
        rcases kinds with rfl | rfl
        · exact Nat.le_refl _
        · exact Nat.zero_le _
      show ids.length - (InsnSet.union old.sources incoming.sources).length +
          (if kind = .uninitialized then 0 else 1) + literal.isSome.toNat +
          ((⟨s.nextValue⟩ : ValueId) != old.id).toNat ≤
        ids.length - old.sources.length + (if old.kind = .uninitialized then 0 else 1) +
          old.literal.isSome.toNat
      by_cases sameKind : kind = old.kind
      · by_cases sameSources : InsnSet.union old.sources incoming.sources = old.sources
        · have lost : literal.isSome.toNat ≠ old.literal.isSome.toNat := fun same =>
            news ⟨sameKind, sameSources, isSome_of_toNat_eq same⟩
          omega
        · have grown : ¬(InsnSet.union old.sources incoming.sources).length ≤ old.sources.length :=
            fun size => sameSources (hold.ascending.eq_of_length_le traced.ascending larger size).symm
          omega
      · obtain rfl := kinds.resolve_left sameKind
        rw [if_pos rfl, if_neg (Ne.symm sameKind)]
        omega

/-- A join of slots pays for telling that something has changed. -/
theorem mergeSlots_spends {olds news joined : List Value} {changed : Bool}
    (holds : ∀ v ∈ olds, v.Traced ids) (hnews : ∀ v ∈ news, v.Traced ids)
    (h : Frame.mergeSlots olds news s = ((joined, changed), s')) :
    (∀ v ∈ joined, v.Traced ids) ∧ joined.length = olds.length ∧
      slackOf ids.length joined + changed.toNat ≤ slackOf ids.length olds := by
  induction olds generalizing news joined changed s with
  | nil =>
    obtain ⟨rfl, -, rfl⟩ := mergeSlots_stop (.inl rfl) h
    exact ⟨holds, rfl, Nat.le_refl _⟩
  | cons old olds ih =>
    cases news with
    | nil =>
      obtain ⟨rfl, -, rfl⟩ := mergeSlots_stop (.inr rfl) h
      exact ⟨holds, rfl, Nat.le_refl _⟩
    | cons new news =>
      obtain ⟨v, s₁, rest, restChanged, first, others, rfl, rfl⟩ := mergeSlots_cons h
      obtain ⟨hold, holds⟩ := List.forall_mem_cons.mp holds
      obtain ⟨hnew, hnews⟩ := List.forall_mem_cons.mp hnews
      obtain ⟨traced, spent⟩ := merge_spends hold hnew first
      obtain ⟨restTraced, length, restSpent⟩ := ih holds hnews others
      refine ⟨List.forall_mem_cons.mpr ⟨traced, restTraced⟩, congrArg (· + 1) length, ?_⟩
      have either : (restChanged || v.id != old.id).toNat ≤
          restChanged.toNat + (v.id != old.id).toNat := by
        cases restChanged <;> cases v.id != old.id <;> simp
      simp only [slackOf, total_cons] at *
      omega

end

/-! ## What is left in a frame -/

/-- What is left in the slots of a frame. -/
def Frame.slack (count : Nat) (f : Frame) : Nat :=
  slackOf count f.locals + slackOf count f.stack

theorem Frame.slack_le (count : Nat) (f : Frame) :
    f.slack count ≤ (f.locals.length + f.stack.length) * (count + 2) := by
  rw [Nat.add_mul]
  exact Nat.add_le_add (slackOf_le count f.locals) (slackOf_le count f.stack)

/-- A join of frames pays for telling that something has changed. -/
theorem frameMerge_spends {ids : List InsnId} {s s' : Store} {f incoming g : Frame} {changed : Bool}
    (hf : f.Every (Value.Traced ids)) (hincoming : incoming.Every (Value.Traced ids))
    (h : f.merge incoming s = .ok ((g, changed), s')) :
    g.Every (Value.Traced ids) ∧ g.locals.length = f.locals.length ∧
      g.stack.length = f.stack.length ∧ g.slack ids.length + changed.toNat ≤ f.slack ids.length := by
  obtain ⟨-, localsChanged, stackChanged, s₁, locals, stack, rfl⟩ := frameMerge_eq_ok h
  obtain ⟨localsTraced, width, localsSpent⟩ := mergeSlots_spends hf.locals hincoming.locals locals
  obtain ⟨stackTraced, height, stackSpent⟩ := mergeSlots_spends hf.stack hincoming.stack stack
  refine ⟨⟨localsTraced, stackTraced⟩, width, height, ?_⟩
  have either : (localsChanged || stackChanged).toNat ≤ localsChanged.toNat + stackChanged.toNat := by
    cases localsChanged <;> cases stackChanged <;> simp
  simp only [Frame.slack]
  omega

/-! ## What an instruction leaves -/

/-- The phases of an analysis whose values have their sources among given instructions. -/
def tracing (ids : List InsnId) : Phases Unit where
  of := fun _ _ => True
  later := fun _ _ => True
  good := fun _ v => v.Traced ids
  refl := fun _ => trivial
  trans := fun _ _ => trivial
  mono := fun good _ => good

section

variable {ids : List InsnId} {body : Body} {index : Nat} {insn : Insn} {f : Frame}

theorem tracing_ensures {α : Type} {x : StoreM α} {p : Unit → α → Prop} {q : α → Prop}
    (h : anyPhase.Ensures () x p) (weaker : ∀ a, p () a → q a) :
    (tracing ids).Ensures () x fun _ => q := by
  intro s _
  obtain ⟨⟨⟩, -, -, holds⟩ := h s trivial
  exact ⟨(), trivial, trivial, weaker _ holds⟩

/-- What an instruction of the body makes has a source there. -/
theorem Value.MadeBy.traced {kind : Kind} {v : Value} {id : InsnId} (h : v.MadeBy id kind)
    (member : id ∈ ids) : v.Traced ids :=
  ⟨h.2 ▸ List.pairwise_singleton _ _, by rw [h.2]; exact fun i same => List.mem_singleton.mp same ▸ member⟩

theorem traced_of_results {taken : List Value} {result : Option Kind} {o : Option Value}
    (h : Results anyPhase (fun _ _ _ => True) insn.id taken result () o) (member : insn.id ∈ ids) :
    IfAny (Value.Traced ids) o := by
  rintro v rfl
  cases h.2 with
  | some made => exact made.2.traced member

theorem push_traced (member : insn.id ∈ ids) :
    anyPhase.Ensures () (Transfer.push insn) fun _ => Value.Traced ids := by
  have produced (w : Unit) (kind : Kind) (literal : Option Literal) :
      anyPhase.Ensures w (Transfer.produce insn.id kind literal) fun _ => Value.Traced ids :=
    (produce_makes anyPhase_bookkeeping insn.id kind literal).mono fun _ _ _ made =>
      made.2.traced member
  unfold Transfer.push
  split
  · split <;> exact produced _ _ _
  · exact produced _ _ _
  · exact produced _ _ _
  · exact produced _ _ _
  · split
    · exact .bind (anyPhase_bookkeeping.silent () _ fun _ => rfl) fun w _ _ _ => produced w _ _
    · exact produced _ _ _
  · exact produced _ _ _

/-- The transfer functions of an instruction of the body lead to values with sources there. -/
theorem tracing_supplies (member : insn.id ∈ ids) : Supplies (tracing ids) body index insn f where
  unknown := fun _ _ _ _ => ⟨(), trivial, trivial, ⟨.nil, List.nil_subset _⟩, rfl, rfl⟩
  consume := fun _ _ _ _ _ => ⟨(), trivial, trivial, trivial⟩
  push := fun _ _ => tracing_ensures (push_traced member) fun _ traced => traced
  copy := fun _ v _ _ => tracing_ensures (copy_makes anyPhase_bookkeeping (v := v) trivial)
    fun _ made => made.2.2.traced member
  unary := fun _ v _ => tracing_ensures (unary_results anyPhase_bookkeeping insn (v := v) trivial)
    fun _ results => traced_of_results results member
  binary := fun _ u v _ _ =>
    tracing_ensures (binary_results anyPhase_bookkeeping (u := u) (v := v) trivial trivial)
      fun _ results => traced_of_results results member
  call := fun _ taken _ => by
    have every : ∀ v ∈ taken, anyPhase.good () v := fun _ _ => trivial
    exact tracing_ensures (call_results anyPhase_bookkeeping every)
      fun _ results => traced_of_results results member

/-! ## The height of the stack -/

/-- A simulation that succeeds raises the stack by at most a number of values. -/
def Raises (f : Frame) (x : Step Frame) (n : Nat) : Prop :=
  ∀ s g s', x s = .ok (g, s') → g.stack.length ≤ f.stack.length + n

namespace Raises

variable {n : Nat} {x : Step Frame}

theorem mono {m : Nat} (h : Raises f x n) (less : n ≤ m) : Raises f x m := by
  intro s g s' run
  have raised := h s g s' run
  omega

theorem pure {g : Frame} (h : g.stack.length ≤ f.stack.length + n) : Raises f (Pure.pure g) n := by
  rintro s g' s' ⟨⟩
  exact h

theorem error {e : FlowError} : Raises f (throw e) n := by
  rintro s g s' ⟨⟩

/-- A step in front does not matter if the stack behind it is known. -/
theorem bind {α : Type} {y : Step α} {next : α → Step Frame}
    (h : ∀ a, (∃ s s', y s = .ok (a, s')) → Raises f (next a) n) : Raises f (y >>= next) n := by
  intro s g s' run
  obtain ⟨a, s₁, first, rest⟩ := Step.bind_eq_ok run
  exact h a ⟨s, s₁, first⟩ s₁ g s' rest

theorem push {g : Frame} {v : Value} (h : g.stack.length + 1 ≤ f.stack.length + n) :
    Raises f (liftM (g.push v)) n := by
  intro s g' s' run
  obtain ⟨pushed, -⟩ := Step.liftExcept_eq_ok run
  rw [Frame.push_eq_ok pushed]
  exact h

theorem push? {g : Frame} {o : Option Value} (h : g.stack.length + 1 ≤ f.stack.length + n) :
    Raises f (liftM (g.push? o)) n := by
  intro s g' s' run
  obtain ⟨pushed, -⟩ := Step.liftExcept_eq_ok run
  rw [Frame.push?_eq_ok pushed]
  cases o with
  | none => exact Nat.le_of_succ_le h
  | some v => exact h

theorem setLocal {g : Frame} {slot : Nat} {v : Value} (h : g.stack.length ≤ f.stack.length + n) :
    Raises f (liftM (g.setLocal slot v)) n := by
  intro s g' s' run
  obtain ⟨set, -⟩ := Step.liftExcept_eq_ok run
  rw [(Frame.setLocal_eq_ok set).2]
  exact h

/-- A popped value makes room for another one. -/
theorem pop {g : Frame} {next : Value × Frame → Step Frame}
    (h : ∀ v g', g.stack.length = g'.stack.length + 1 → Raises f (next (v, g')) n) :
    Raises f (liftM g.pop >>= next) n := by
  refine bind fun p ⟨s, s', run⟩ => ?_
  obtain ⟨popped, -⟩ := Step.liftExcept_eq_ok run
  exact h p.1 p.2 (congrArg List.length (Frame.pop_eq_ok popped).1)

end Raises

namespace Frame

theorem pushed_raises : Raises f (do f.push (← Transfer.push insn)) 1 :=
  .bind fun _ _ => .push (Nat.le_refl _)

theorem applyUnary_raises : Raises f (f.applyUnary insn) 0 :=
  .pop fun _ _ lower => .bind fun _ _ => .push? (Nat.le_of_eq lower.symm)

theorem discard_raises : Raises f (f.discard insn) 0 :=
  .pop fun _ _ lower => .bind fun _ _ => .pure (by omega)

theorem applyBinary_raises : Raises f (f.applyBinary insn) 0 :=
  .pop fun _ _ lower => .pop fun _ _ lower' => .bind fun _ _ => .push? (by omega)

theorem applyCall_raises (count : Nat) : Raises f (f.applyCall insn count) 1 := by
  refine .bind fun p ⟨s, s', run⟩ => .bind fun _ _ => .push? ?_
  obtain ⟨popped, -⟩ := Step.liftExcept_eq_ok run
  rw [(popMany_eq_ok popped).2.2]
  exact Nat.succ_le_succ (List.length_drop ▸ Nat.sub_le _ _)

/-- A shuffle puts back at most two values more than it takes. -/
theorem length_of_plan {form : Bytecode.Shuffle} {stack rest : List Value} {moved : List Moved}
    (h : Shuffle.plan form stack = .ok (rest, moved)) :
    rest.length + moved.length ≤ stack.length + 2 := by
  unfold Shuffle.plan at h
  repeat' split at h
  all_goals cases h
  all_goals
    simp only [List.length_cons, List.length_nil]
    omega

/-- A sequence of steps has as many results as there are steps. -/
theorem length_of_mapM {α β : Type} {step : α → Step β} {as : List α} {bs : List β} {s s' : Store}
    (h : as.mapM step s = .ok (bs, s')) : bs.length = as.length := by
  induction as generalizing bs s with
  | nil =>
    cases h
    rfl
  | cons a as ih =>
    rw [List.mapM_cons] at h
    obtain ⟨b, s₁, -, h⟩ := Step.bind_eq_ok h
    obtain ⟨rest, s₂, others, h⟩ := Step.bind_eq_ok h
    cases h
    rw [List.length_cons, ih others, List.length_cons]

theorem shuffle_raises (form : Bytecode.Shuffle) : Raises f (f.shuffle body index insn.id form) 2 := by
  refine .bind fun p ⟨s, s', planning⟩ => .bind fun values ⟨s₁, s₂, moving⟩ s₃ g s₄ pushing => ?_
  obtain ⟨planned, -⟩ := Step.liftExcept_eq_ok planning
  have count := length_of_plan planned
  have length := length_of_mapM moving
  obtain ⟨rfl, -⟩ := pushAll_eq_ok pushing
  simp only [List.length_append, List.length_reverse]
  omega

theorem store_raises {g : Frame} {slot : UInt16} {v : Value}
    (h : g.stack.length ≤ f.stack.length) : Raises f (g.store slot v) 0 := by
  have keeps {g g' : Frame} {slot : Nat} {v : Value} (same : g.stack.length ≤ f.stack.length)
      (set : ∃ s s', (liftM (g.setLocal slot v) : Step Frame) s = .ok (g', s')) :
      g'.stack.length ≤ f.stack.length := by
    obtain ⟨s, s', run⟩ := set
    exact Raises.setLocal (n := 0) same s g' s' run
  have torn {g : Frame} (h : g.stack.length ≤ f.stack.length) : Raises f (g.tornBefore slot) 0 := by
    unfold tornBefore
    repeat' split
    all_goals first | exact .pure h | exact .bind fun _ _ => .setLocal h
  refine .bind fun g₁ first => ?_
  have h₁ := keeps h first
  by_cases wide : v.isWide = true
  · simp only [if_pos wide]
    exact .bind fun e _ => .bind fun g₂ second => torn (keeps h₁ second)
  · simp only [if_neg wide]
    refine .bind fun g₂ second => torn ?_
    obtain ⟨s, s', same⟩ := second
    cases same
    exact h₁

theorem executeSimple_raises (op : Opcode) : Raises f (f.executeSimple body index insn op) 2 := by
  unfold executeSimple
  split
  · exact .pure (by omega)
  · exact .pure (by omega)
  · exact pushed_raises.mono (by omega)
  · exact pushed_raises.mono (by omega)
  · exact applyBinary_raises.mono (by omega)
  · exact applyBinary_raises.mono (by omega)
  · exact .pop fun _ _ _ => .pop fun _ _ _ => .pop fun _ _ _ => .bind fun _ _ => .pure (by omega)
  · refine .pop fun v _ _ => ?_
    dsimp only
    split
    · exact .bind fun _ _ => .pure (by omega)
    · exact .pure (by omega)
  · refine .pop fun v _ _ => ?_
    dsimp only
    split
    · exact .pure (by omega)
    · refine .pop fun w _ _ => ?_
      dsimp only
      split
      · exact .bind fun _ _ => .pure (by omega)
      · exact .pure (by omega)
  · exact shuffle_raises _
  · exact applyUnary_raises.mono (by omega)
  · exact applyUnary_raises.mono (by omega)
  · exact discard_raises.mono (by omega)
  · exact discard_raises.mono (by omega)
  · exact discard_raises.mono (by omega)
  · exact .error

/-- An instruction raises the stack by at most two values. -/
theorem execute_raises : Raises f (f.execute body index insn) 2 := by
  have counted (descriptor : String) (receiver : Nat) :
      Raises f (do f.applyCall insn ((← argumentCount descriptor) + receiver)) 2 :=
    .bind fun _ _ => (applyCall_raises _).mono (by omega)
  obtain ⟨id, node⟩ := insn
  cases node with
  | label | line => exact .pure (by omega)
  | simple op => exact executeSimple_raises op
  | int op operand =>
    unfold execute
    dsimp only
    split
    · exact applyUnary_raises.mono (by omega)
    · exact pushed_raises.mono (by omega)
  | constant value => exact pushed_raises.mono (by omega)
  | var op slot =>
    unfold execute
    dsimp only
    split
    · exact .bind fun _ _ => .bind fun _ _ => .push (by omega)
    · exact .pop fun _ g _ => .bind fun _ _ => (store_raises (g := g) (by omega)).mono (by omega)
    · exact .error
  | increment slot amount =>
    unfold execute
    dsimp only
    refine .bind fun v _ => .bind fun o _ => ?_
    split
    · exact .setLocal (by omega)
    · exact .pure (by omega)
  | jump op target =>
    unfold execute
    dsimp only
    split
    · exact .pure (by omega)
    · exact .pure (by omega)
    · exact .error
    · exact applyBinary_raises.mono (by omega)
    · exact discard_raises.mono (by omega)
    · exact discard_raises.mono (by omega)
  | tableSwitch | lookupSwitch => exact discard_raises.mono (by omega)
  | field op owner name descriptor =>
    unfold execute
    dsimp only
    repeat' split
    · exact pushed_raises.mono (by omega)
    · exact discard_raises.mono (by omega)
    · exact applyUnary_raises.mono (by omega)
    · exact applyBinary_raises.mono (by omega)
  | call op owner name descriptor isInterface => exact counted descriptor _
  | dynamicCall name descriptor bootstrap arguments => exact counted descriptor 0
  | type op name =>
    unfold execute
    dsimp only
    split
    · exact pushed_raises.mono (by omega)
    · exact applyUnary_raises.mono (by omega)
  | newArrays descriptor dimensions => exact (applyCall_raises _).mono (by omega)

end Frame

end

/-! ## What is left in a flow -/

/-- What is left at a position. Without a frame that is more than any frame can bring. -/
def weight (count width : Nat) : Option Frame → Nat
  | none => (width + 2 * count + 1) * (count + 2) + 1
  | some f => f.slack count

namespace Flow

/-- The number of positions that have a frame. -/
def reached (flow : Flow) : Nat :=
  total (fun o : Option Frame => o.isSome.toNat) flow.frames.toList

theorem reached_le (flow : Flow) : flow.reached ≤ flow.frames.size := by
  have bound : flow.reached ≤ flow.frames.toList.length * 1 :=
    total_le fun o _ => Bool.toNat_le o.isSome
  rw [Nat.mul_one, Array.length_toList] at bound
  exact bound

/-- What is left in a flow, and the positions that wait. -/
def potential (count width : Nat) (flow : Flow) : Nat :=
  total (weight count width) flow.frames.toList + flow.queue.length

/-- The frames of a flow have sources among given instructions, one width, and stacks that have grown
by at most two values with each position that was reached. -/
structure Bounded (ids : List InsnId) (width : Nat) (flow : Flow) : Prop where
  size : flow.frames.size = ids.length
  traced : ∀ i f, flow.at i = some f → f.Every (Value.Traced ids)
  width : ∀ i f, flow.at i = some f → f.locals.length = width
  height : ∀ i f, flow.at i = some f → f.stack.length ≤ 2 * flow.reached

variable {ids : List InsnId} {width : Nat} {flow flow' : Flow} {ctx : Context} {builders : Prop}

/-- What a step of the loop does to a flow that is bounded: it reaches positions and uses something
up. A position with a frame is queued only if less is left in the frame. -/
structure Spends (ids : List InsnId) (width : Nat) (flow flow' : Flow) : Prop where
  bounded : flow'.Bounded ids width
  reached : flow.reached ≤ flow'.reached
  potential : flow'.potential ids.length width ≤ flow.potential ids.length width
  frame : ∀ i f, flow.at i = some f → ∃ g, flow'.at i = some g ∧
    g.slack ids.length ≤ f.slack ids.length ∧
    (i ∈ flow'.queue → i ∈ flow.queue ∨ g.slack ids.length < f.slack ids.length)

/-- Carrying a frame to a position queues at most this position. -/
theorem mem_queue_of_mergeInto {target i : Nat} {incoming : Frame}
    (h : mergeInto flow target incoming = .ok flow') (queued : i ∈ flow'.queue) :
    i ∈ flow.queue ∨ i = target ∧ ∀ existing g changed store, flow.at target = some existing →
      existing.merge incoming flow.store = .ok ((g, changed), store) → changed = true := by
  have enqueued {queue : List Nat} (member : i ∈ if target ∈ queue then queue else queue ++ [target]) :
      i ∈ queue ∨ i = target := by
    split at member
    · exact .inl member
    · simpa using member
  unfold mergeInto at h
  dsimp only at h
  split at h
  · next empty =>
    cases h
    refine (enqueued queued).imp_right fun same => ⟨same, fun existing g changed store there => ?_⟩
    cases empty.symm.trans there
  · next old there =>
    split at h
    · cases h
    · next merged changed store run =>
      cases h
      cases changed with
      | false => exact .inl queued
      | true =>
        refine (enqueued queued).imp_right fun same => ⟨same, fun existing g changed store there' run' => ?_⟩
        cases there.symm.trans there'
        cases run.symm.trans run'
        rfl

/-- A position that a frame is carried to pays for its place in the queue. -/
theorem mergeInto_spends {target : Nat} {incoming : Frame} (bounded : flow.Bounded ids width)
    (inside : target < ids.length) (traced : incoming.Every (Value.Traced ids))
    (wide : incoming.locals.length = width) (high : incoming.stack.length ≤ 2 * (flow.reached + 1))
    (h : mergeInto flow target incoming = .ok flow') : flow.Spends ids width flow' := by
  obtain ⟨g, frames, result⟩ := mergeInto_cases h
  have inside' : target < flow.frames.size := bounded.size ▸ inside
  obtain ⟨o, there⟩ : ∃ o, flow.frames[target]? = some o := ⟨_, Array.getElem?_eq_getElem inside'⟩
  have listed : flow.frames.toList[target]? = some o := by rw [Array.getElem?_toList]; exact there
  have count : flow'.reached + o.isSome.toNat = flow.reached + 1 := by
    rw [Flow.reached, frames, Array.toList_setIfInBounds]
    exact total_set listed
  have left : total (weight ids.length width) flow'.frames.toList + weight ids.length width o =
      total (weight ids.length width) flow.frames.toList + g.slack ids.length := by
    rw [frames, Array.toList_setIfInBounds]
    exact total_set listed
  have size : flow'.frames.size = ids.length := by
    rw [frames, Array.size_setIfInBounds]
    exact bounded.size
  have most : flow'.reached ≤ ids.length := size ▸ flow'.reached_le
  have more : flow.reached ≤ flow'.reached := by
    have known := Bool.toNat_le o.isSome
    omega
  have known : flow.at target = o := by rw [Flow.at, there]; rfl
  -- the frame that the position gets, and what it pays with
  obtain ⟨tracedHere, widthHere, heightHere, paid, less⟩ : g.Every (Value.Traced ids) ∧
      g.locals.length = width ∧ g.stack.length ≤ 2 * flow'.reached ∧
      g.slack ids.length + flow'.queue.length ≤ weight ids.length width o + flow.queue.length ∧
      ∀ f, flow.at target = some f → g.slack ids.length ≤ f.slack ids.length ∧
        (target ∈ flow'.queue → target ∈ flow.queue ∨ g.slack ids.length < f.slack ids.length) := by
    rcases result with ⟨empty, rfl, -, queue⟩ | ⟨existing, changed, old, run, queue⟩
    · obtain rfl : o = none := known.symm.trans empty
      have count : flow'.reached = flow.reached + 1 := count
      have slack := Frame.slack_le ids.length g
      have slots : (g.locals.length + g.stack.length) * (ids.length + 2) ≤
          (width + 2 * ids.length + 1) * (ids.length + 2) := Nat.mul_le_mul_right _ (by omega)
      refine ⟨traced, wide, by omega, ?_, fun f found => by cases empty.symm.trans found⟩
      simp only [weight]
      omega
    · obtain rfl : o = some existing := known.symm.trans old
      obtain ⟨kept, width, height, spent⟩ :=
        frameMerge_spends (bounded.traced target existing old) traced run
      have below := bounded.height target existing old
      refine ⟨kept, width.trans (bounded.width target existing old), by omega, ?_, fun f found => ?_⟩
      · simp only [weight]
        omega
      · cases old.symm.trans found
        refine ⟨by omega, fun queued => (mem_queue_of_mergeInto h queued).imp_right fun news => ?_⟩
        obtain rfl : changed = true := news.2 _ g changed _ old run
        exact spent
  refine ⟨⟨size, fun i f found => ?_, fun i f found => ?_, fun i f found => ?_⟩, more, ?_, fun i f found => ?_⟩
  · rcases at_of_set frames found with ⟨-, rfl⟩ | old
    · exact tracedHere
    · exact bounded.traced i f old
  · rcases at_of_set frames found with ⟨-, rfl⟩ | old
    · exact widthHere
    · exact bounded.width i f old
  · rcases at_of_set frames found with ⟨-, rfl⟩ | old
    · exact heightHere
    · have below := bounded.height i f old
      omega
  · simp only [potential]
    omega
  · by_cases here : i = target
    · subst here
      have placed : flow'.at i = some g := by
        rw [Flow.at, frames, Array.getElem?_setIfInBounds_self_of_lt inside']
        rfl
      exact ⟨g, placed, less f found⟩
    · have same : flow'.at i = some f := by
        rw [Flow.at, frames, Array.getElem?_setIfInBounds_ne (Ne.symm here)]
        exact found
      exact ⟨f, same, Nat.le_refl _, fun queued =>
        .inl ((mem_queue_of_mergeInto h queued).resolve_right fun news => here news.1)⟩

theorem Spends.refl (bounded : flow.Bounded ids width) : flow.Spends ids width flow :=
  ⟨bounded, Nat.le_refl _, Nat.le_refl _, fun _ f found => ⟨f, found, Nat.le_refl _, .inl⟩⟩

theorem Spends.trans {flow'' : Flow} (first : flow.Spends ids width flow')
    (second : flow'.Spends ids width flow'') : flow.Spends ids width flow'' where
  bounded := second.bounded
  reached := Nat.le_trans first.reached second.reached
  potential := Nat.le_trans second.potential first.potential
  frame := fun i f found => by
    obtain ⟨g, found', less, news⟩ := first.frame i f found
    obtain ⟨k, found'', less', news'⟩ := second.frame i g found'
    refine ⟨k, found'', Nat.le_trans less' less, fun queued => ?_⟩
    rcases news' queued with old | lost
    · exact (news old).imp_right fun lost => Nat.lt_of_le_of_lt less' lost
    · exact .inr (Nat.lt_of_lt_of_le lost less)

/-- A visit of an instruction pays for all positions that it queues. -/
theorem visitNode_spends (closed : ctx.Closed builders) {i : Nat} {insn : Insn} {before : Frame}
    (bounded : flow.Bounded (ctx.body.toList.map Insn.id) width) (at_position : ctx.body[i]? = some insn)
    (there : flow.at i = some before) (h : visitNode ctx i insn before flow = .ok flow') :
    flow.Spends (ctx.body.toList.map Insn.id) width flow' := by
  obtain ⟨after, store, targets, flow₁, fail, executed, successors, carried, handled⟩ :=
    visitNode_eq_ok h
  have member : insn.id ∈ ctx.body.toList.map Insn.id :=
    List.mem_map.mpr ⟨insn, Array.mem_toList_iff.mpr (Array.mem_of_getElem? at_position), rfl⟩
  have inside {t : Nat} (ht : t < ctx.body.size) : t < (ctx.body.toList.map Insn.id).length := by
    simpa using ht
  have traced := bounded.traced i before there
  have wide := bounded.width i before there
  have below := bounded.height i before there
  obtain ⟨⟨⟩, -, -, kept⟩ := Frame.execute_kept (tracing_supplies member) (w := ()) traced
    _ trivial _ _ executed
  have raised := Frame.execute_raises _ _ _ executed
  have start : flow.Spends (ctx.body.toList.map Insn.id) width { flow with store } :=
    ⟨⟨bounded.size, bounded.traced, bounded.width, bounded.height⟩, Nat.le_refl _, Nat.le_refl _,
      fun _ f found => ⟨f, found, Nat.le_refl _, .inl⟩⟩
  have first : flow.Spends (ctx.body.toList.map Insn.id) width flow₁ := by
    refine foldlM_invariant (fun t target s s' spent step => ?_) start carried
    have more := spent.reached
    exact spent.trans (mergeInto_spends spent.bounded (inside (lt_of_mem_successors closed successors target))
      kept.good (kept.width.trans wide) (by omega) step)
  refine foldlM_invariant (fun r range s s' spent step => ?_) first handled
  obtain ⟨entry, store, made, step⟩ := visitHandler_eq_ok step
  obtain ⟨v, -, ⟨nothing, -⟩, rfl⟩ := handlerFrame_eq_ok made
  have blank : v.Traced (ctx.body.toList.map Insn.id) :=
    ⟨by rw [nothing]; exact .nil, by rw [nothing]; exact List.nil_subset _⟩
  have spent' : flow.Spends (ctx.body.toList.map Insn.id) width { s with store } :=
    ⟨⟨spent.bounded.size, spent.bounded.traced, spent.bounded.width, spent.bounded.height⟩,
      spent.reached, spent.potential, spent.frame⟩
  have entered : Frame.Every (Value.Traced (ctx.body.toList.map Insn.id)) { before with stack := [v] } :=
    ⟨traced.locals, by simpa using blank⟩
  refine spent'.trans (mergeInto_spends spent'.bounded
    (inside (closed.handlers r (List.mem_of_mem_filter range))) entered wide ?_ step)
  rw [List.length_singleton]
  omega

/-- A visit of the first waiting position takes it off the queue. -/
theorem visit_spends (closed : ctx.Closed builders) {i : Nat} {queue : List Nat}
    (bounded : flow.Bounded (ctx.body.toList.map Insn.id) width) (first : flow.queue = i :: queue)
    (h : visit ctx i { flow with queue } = .ok flow') :
    Spends (ctx.body.toList.map Insn.id) width { flow with queue } flow' ∧
      flow'.potential ctx.body.size width + 1 ≤ flow.potential ctx.body.size width := by
  have bounded' : Bounded (ctx.body.toList.map Insn.id) width { flow with queue } :=
    ⟨bounded.size, bounded.traced, bounded.width, bounded.height⟩
  have taken : flow.potential ctx.body.size width =
      potential ctx.body.size width { flow with queue } + 1 := by
    simp only [potential, first, List.length_cons, Nat.add_assoc]
  have spends : Spends (ctx.body.toList.map Insn.id) width { flow with queue } flow' := by
    rcases visit_eq_ok h with ⟨insn, before, at_position, there, run⟩ | ⟨rfl, -⟩
    · exact visitNode_spends closed bounded' at_position there run
    · exact .refl bounded'
  have spent := spends.potential
  rw [List.length_map, Array.length_toList] at spent
  exact ⟨spends, by omega⟩

/-- The loop is done as soon as nothing is left in the flow. -/
theorem run_done (closed : ctx.Closed builders) {fuel : Nat}
    (bounded : flow.Bounded (ctx.body.toList.map Insn.id) width)
    (enough : flow.potential ctx.body.size width ≤ fuel)
    (h : run ctx fuel flow = .ok flow') : flow'.queue = [] := by
  induction fuel generalizing flow with
  | zero =>
    cases h
    rw [potential] at enough
    exact List.eq_nil_of_length_eq_zero (by omega)
  | succ fuel ih =>
    rw [run] at h
    split at h
    · next empty =>
      cases h
      exact empty
    · next i queue first =>
      cases visited : visit ctx i { flow with queue } with
      | error e =>
        rw [visited] at h
        cases h
      | ok next =>
        rw [visited] at h
        obtain ⟨spends, spent⟩ := visit_spends closed bounded first visited
        exact ih spends.bounded (by omega) h

/-- The flow before the first visit is bounded. -/
theorem start_bounded {body : Body} {entered : Frame × Store} (nonempty : 0 < body.size)
    (traced : entered.1.Every (Value.Traced (body.toList.map Insn.id))) (empty : entered.1.stack = []) :
    (start body entered).Bounded (body.toList.map Insn.id) entered.1.locals.length := by
  refine ⟨by simp [start], fun i f found => ?_, fun i f found => ?_, fun i f found => ?_⟩
  · rw [(at_start nonempty found).2]
    exact traced
  · rw [(at_start nonempty found).2]
  · rw [(at_start nonempty found).2, empty]
    exact Nat.zero_le _

/-- No more is left in the flow before the first visit than the bound on the visits tells. -/
theorem potential_start_le {body : Body} {entered : Frame × Store} (empty : entered.1.stack = []) :
    (start body entered).potential body.size entered.1.locals.length ≤
      visitBound body.size entered.1.locals.length := by
  have heaviest (o : Option Frame) (member : o ∈ (start body entered).frames.toList) :
      weight body.size entered.1.locals.length o ≤
        (entered.1.locals.length + 2 * body.size + 1) * (body.size + 2) + 1 := by
    rw [start, Array.toList_setIfInBounds] at member
    rcases List.mem_or_eq_of_mem_set member with old | rfl
    · obtain rfl := (List.mem_replicate.mp (Array.toList_replicate ▸ old)).2
      exact Nat.le_refl _
    · refine (Frame.slack_le _ _).trans ((Nat.mul_le_mul_right _ ?_).trans (Nat.le_succ _))
      rw [empty, List.length_nil]
      omega
  have all := total_le heaviest
  have size : (start body entered).frames.toList.length = body.size := by simp [start]
  rw [size] at all
  exact Nat.succ_le_succ all

/-- The loop of an analysis is done within its bound. -/
theorem run_start_done (closed : ctx.Closed builders) {entered : Frame × Store}
    (nonempty : 0 < ctx.body.size) (traced : entered.1.Every (Value.Traced (ctx.body.toList.map Insn.id)))
    (empty : entered.1.stack = []) {fuel : Nat}
    (enough : visitBound ctx.body.size entered.1.locals.length ≤ fuel)
    (h : run ctx fuel (start ctx.body entered) = .ok flow') : flow'.queue = [] :=
  run_done closed (start_bounded nonempty traced empty) ((potential_start_le empty).trans enough) h

end Flow

/-- The local variables at the entry of a method have no sources. -/
theorem entryOf_traced (owner : String) (m : Method) (d : MethodDescriptor) (ids : List InsnId) :
    (entryOf owner m d).1.Every (Value.Traced ids) := by
  have unknown (w : Unit) (kind : Kind) :
      (tracing ids).Ensures w (Store.make kind [] none) (tracing ids).good :=
    fun _ _ => ⟨(), trivial, trivial, .nil, List.nil_subset _⟩
  obtain ⟨⟨⟩, -, -, traced⟩ :=
    entryLocals_ensures unknown owner m.isStatic d.arguments (slotsOf m d) () {} trivial
  exact ⟨traced, by simp [entryOf]⟩

/-- **An analysis ends.** Its loop is done within the bound, whatever the method is. -/
theorem analyze_ne_endless (owner : String) (m : Method) : analyze owner m ≠ .error .endless := by
  intro h
  unfold analyze at h
  cases parsed : MethodDescriptor.parse m.descriptor with
  | error e =>
    rw [Method.parseDescriptor, parsed] at h
    cases h
  | ok d =>
    rw [Method.parseDescriptor, parsed] at h
    simp only [Except.mapError, Body.ofTable_labelTable] at h
    cases filled : m.body.isEmpty with
    | true =>
      rw [filled] at h
      cases h
    | false =>
      have nonempty : 0 < m.body.size := by
        simpa [Nat.pos_iff_ne_zero] using filled
      simp only [filled, Bool.false_eq_true, if_false] at h
      cases covered : m.coveredRanges m.body.lastLabels with
      | none =>
        rw [covered] at h
        cases h
      | some ranges =>
        rw [covered] at h
        simp only [bind, Except.bind] at h
        split at h
        next locals store entered =>
        have entry : entryOf owner m d = ({ locals, limit := m.maxStack.map UInt16.toNat }, store) := by
          unfold entryOf slotsOf
          rw [entered]
        split at h
        · next failed =>
          split at failed <;> cases failed
          cases h
        · next flow finished =>
          split at finished
          · cases finished
          · next run =>
            cases finished
            have closed := closed_of_coveredRanges covered fun _ _ _ => True.intro
            have traced := entryOf_traced owner m d (m.body.toList.map Insn.id)
            rw [entry] at traced
            have done := Flow.run_start_done closed nonempty traced rfl (Nat.le_refl _) run
            rw [if_neg (by simp [done])] at h
            cases h

end Bytecode.Analysis
