import Bytecode.Proofs.Analysis.CachedFrames
import Bytecode.Proofs.Inlining.Chained
import Bytecode.Proofs.Inlining.Ending
import Bytecode.Proofs.Renaming.Splices

/-!
# What inlining leaves behind

Bodies of targets are analysed on the way, each under an identity of its own, and are kept for later
calls. Preparations are nested and can fail at any depth, in the middle of a traversal.
`inlineMethod_leftovers` says that of all this only what is meant to stays behind: no analysis of a copy,
no target in the chain, and no body of a target for which inlining has failed.

Two things are followed through a session. It goes on cleanly (`Cleaned`): the analyses of methods that
are not being worked on stay what they were, except that there is none for identities that were handed
out on the way. And it is `Tidy`: whatever is kept was kept in the session that all began with, or was
`Prepared` since.
-/

namespace Bytecode.Inlining

/-! ## Tidy sessions -/

/-- A session that comes before another one: the same classes are trusted and found, no identity is taken
back and no bar is lifted. -/
structure Session.Precedes (s s' : Session) : Prop where
  policy : s'.inliner.policy = s.inliner.policy
  sources : s'.inliner.classPath.sources = s.inliner.classPath.sources
  supply : s.supply.next ≤ s'.supply.next
  barred : ∀ key, s.inliner.barred.contains key = true → s'.inliner.barred.contains key = true

/-- A target is inlined into without a failure between two sessions: a call that is admitted leads to it, it
is not barred and not being prepared already, and rounds in a copy of it finish and make a body. -/
inductive Prepared (s s' : Session) : TargetKey → Method → Prop
  | finished {asked found begun ended : Session} {site : CallSite} {target : Target} {start body : Method}
      {depth count : Nat} {active : List TargetKey} (before : s.Precedes asked)
      (admitted : asked.inliner.policy.admits site.owner site.name = true)
      (leads : outcome (findTarget asked.inliner.policy site (asked.inliner.classPath.breadth + 1)
        site.owner) asked = (.ok (.ok target), found))
      (unbarred : found.inliner.barred.contains target.key = false) (new : target.key ∉ active)
      (copied : outcome (Session.fresh target.method.copy) found = (.ok start, begun))
      (finishes : rounds (expandCall depth (target.key :: active)) target.owner begun.inliner.targetBound 0
        start begun = (⟨body, .ok count⟩, ended))
      (after : ended.Precedes s') : Prepared s s' target.key body

/-- A session after `base` that keeps what was kept there and what was prepared since. -/
structure Tidy (base s : Session) : Prop where
  precedes : base.Precedes s
  kept : ∀ (key : TargetKey) (body : Method), s.inliner.bodies[key]? = some body →
    base.inliner.bodies[key]? = some body ∨ Prepared base s key body

/-- A session goes on and works on some methods. The analyses of others are what they were, or there is none
and the identity was still to be handed out. -/
structure Cleaned (own : Set MethodId) (s s' : Session) : Prop extends s.Precedes s' where
  analyses : ∀ id ∉ own, s'.analyses.entries[id]? = s.analyses.entries[id]? ∨
    s.supply.next ≤ id.val ∧ s'.analyses.entries[id]? = none

variable {base s s' s'' : Session} {own own' : Set MethodId}

theorem Session.Precedes.refl (s : Session) : s.Precedes s :=
  ⟨rfl, rfl, Nat.le_refl _, fun _ barred => barred⟩

/-- Other bodies and other analyses, and maybe a larger supply. -/
theorem Session.Precedes.of_supply (bodies : Std.HashMap TargetKey Method) (analyses : Analysis.FrameCache)
    {supply : Supply} (more : s.supply.next ≤ supply.next) :
    s.Precedes ⟨{ s.inliner with bodies }, analyses, supply⟩ :=
  ⟨rfl, rfl, more, fun _ barred => barred⟩

theorem Session.Precedes.trans (h : s.Precedes s') (h' : s'.Precedes s'') : s.Precedes s'' where
  policy := h'.policy.trans h.policy
  sources := h'.sources.trans h.sources
  supply := Nat.le_trans h.supply h'.supply
  barred := fun key barred => h'.barred key (h.barred key barred)

theorem Prepared.later {key : TargetKey} {body : Method} (h : Prepared base s key body)
    (later : s.Precedes s') : Prepared base s' key body := by
  obtain ⟨before, admitted, leads, unbarred, new, copied, finishes, after⟩ := h
  exact .finished before admitted leads unbarred new copied finishes (after.trans later)

theorem Tidy.refl (s : Session) : Tidy s s :=
  ⟨.refl s, fun _ _ found => .inl found⟩

/-- A step that keeps no body. -/
theorem Tidy.step (h : Tidy base s) (later : s.Precedes s') (bodies : s'.inliner.bodies = s.inliner.bodies) :
    Tidy base s' where
  precedes := h.precedes.trans later
  kept := fun key body found => (h.kept key body (bodies ▸ found)).imp_right (·.later later)

/-- A body is kept for a target that was prepared. -/
theorem Tidy.keep {key : TargetKey} {body : Method} (h : Tidy base s) (prepared : Prepared base s key body) :
    Tidy base { s with inliner := { s.inliner with bodies := s.inliner.bodies.insert key body } } := by
  have later : s.Precedes { s with inliner := { s.inliner with bodies := s.inliner.bodies.insert key body } } :=
    .of_supply _ _ (Nat.le_refl _)
  refine ⟨h.precedes.trans later, fun key' body' found => ?_⟩
  rw [Std.HashMap.getElem?_insert] at found
  split at found
  · next same =>
    cases found
    exact .inr (beq_iff_eq.mp same ▸ prepared.later later)
  · exact (h.kept key' body' found).imp_right (·.later later)

theorem Cleaned.of_same (later : s.Precedes s') (analyses : s'.analyses = s.analyses) : Cleaned own s s' :=
  ⟨later, fun _ _ => .inl (by rw [analyses])⟩

theorem Cleaned.trans (h : Cleaned own s s') (h' : Cleaned own s' s'') : Cleaned own s s'' where
  toPrecedes := h.toPrecedes.trans h'.toPrecedes
  analyses := fun id other => by
    rcases h'.analyses id other with same | ⟨above, gone⟩
    · rw [same]
      exact h.analyses id other
    · exact .inr ⟨Nat.le_trans h.supply above, gone⟩

theorem Cleaned.widen (h : Cleaned own s s') (wider : own ⊆ own') : Cleaned own' s s' :=
  ⟨h.toPrecedes, fun id other => h.analyses id fun member => other (wider member)⟩

/-- Work on a method with a new identity is cleaned up if its analysis is forgotten. -/
theorem Cleaned.forget {id : MethodId} (h : Cleaned {id} s s') (new : s.supply.next ≤ id.val) :
    Cleaned ∅ s { s' with analyses := s'.analyses.invalidate id } where
  toPrecedes := ⟨h.policy, h.sources, h.supply, h.barred⟩
  analyses := fun other _ => by
    show (s'.analyses.entries.erase id)[other]? = _ ∨ _ ∧ (s'.analyses.entries.erase id)[other]? = none
    rw [Std.HashMap.getElem?_erase]
    by_cases same : id = other
    · subst same
      exact .inr ⟨new, if_pos (beq_self_eq_true id)⟩
    · rw [if_neg (by simpa using same)]
      exact h.analyses other fun member => same member.symm

/-- Sessions stay tidy and clean up, whether work fails or not. -/
def tidying (base : Session) (own : Set MethodId) : Regime where
  holds := Tidy base
  later := Cleaned own
  allows := fun _ => True
  refl := fun s => .of_same (.refl s) rfl
  trans := Cleaned.trans

/-! ## Steps -/

section

variable {α : Type} {site : CallSite} {m : Method} {owner : String}

theorem Regime.Ensures.widen {x : InSession α} {result : Session → α → Prop}
    (h : (tidying base own).Ensures s x result) (wider : own ⊆ own') :
    (tidying base own').Ensures s x result := by
  intro holds
  obtain ⟨holds', later, returned, fails⟩ := h holds
  exact ⟨holds', later.widen wider, returned, fails⟩

/-- A step that touches neither analyses nor kept bodies. -/
theorem step_tidies {f : Session → α × Session} (later : s.Precedes (f s).2)
    (bodies : (f s).2.inliner.bodies = s.inliner.bodies) (analyses : (f s).2.analyses = s.analyses) :
    (tidying base own).Ensures s (modifyGet f) fun s' a => f s = (a, s') :=
  .modifyGet (·.step later bodies) (.of_same later analyses) fun _ => rfl

theorem copy_tidies (m : Method) :
    (tidying base own).Ensures s (Session.fresh m.copy) fun s' copy =>
      outcome (Session.fresh m.copy) s = (.ok copy, s') ∧ s.supply.next ≤ copy.id.val := by
  have own := m.id_copy s.supply
  refine (step_tidies (.of_supply _ _ (Nat.le_of_lt (Nat.lt_of_le_of_lt own.1 own.2))) rfl rfl).mono
    fun s' copy _ _ made => ?_
  cases made
  exact ⟨rfl, own.1⟩

theorem bar_tidies (key : TargetKey) :
    (tidying base own).Ensures s (Session.bar key) fun _ _ => True := by
  refine (step_tidies ⟨rfl, rfl, Nat.le_refl _, fun other barred => ?_⟩ rfl rfl).mono
    fun _ _ _ _ _ => trivial
  show (s.inliner.barred.insert key).contains other = true
  rw [Std.HashSet.contains_insert, barred, Bool.or_true]

theorem splice_tidies (site : CallSite) (slot : UInt16) (callee : Method) :
    (tidying base own).Ensures s (Session.tryFresh (splice site slot callee)) fun _ _ => True := by
  refine (Regime.Ensures.tryFresh (fun _ _ => trivial) fun spliced supply run => ?_).mono
    fun _ _ _ _ _ => trivial
  have later : s.Precedes { s with supply } := .of_supply _ _ (splice_mentions run).1
  exact ⟨(·.step later rfl), .of_same later rfl⟩

theorem findTarget_tidies (policy : TrustPolicy) (site : CallSite) (steps : Nat) (className : String) :
    (tidying base own).Ensures s (findTarget policy site steps className) fun _ _ => True := by
  induction steps generalizing className s with
  | zero => exact .throw trivial
  | succ steps ih =>
    have later : s.Precedes { s with inliner := { s.inliner with
        classPath := (s.inliner.classPath.resolve className).2 } } :=
      ⟨rfl, ClassPath.resolve_sources _ _, Nat.le_refl _, fun _ barred => barred⟩
    have resolved : (tidying base own).Ensures s (Session.resolve className) fun _ _ => True :=
      (step_tidies later rfl rfl).mono fun _ _ _ _ _ => trivial
    refine .bind resolved fun s' found _ _ _ => ?_
    cases found with
    | none => exact .pure fun _ => trivial
    | some c =>
      dsimp only
      cases c.method? site.name site.descriptor with
      | some m => exact .pure fun _ => trivial
      | none =>
        dsimp only
        split
        · exact .pure fun _ => trivial
        · cases c.superName with
          | none => exact .pure fun _ => trivial
          | some parent =>
            dsimp only
            split
            · exact ih parent
            · exact .pure fun _ => trivial

/-- An analysis is kept under the identity of its method. -/
theorem analyse_tidies (owner : String) (m : Method) :
    (tidying base {m.id}).Ensures s (Session.analyse owner m) fun _ _ => True := by
  have later : s.Precedes { s with analyses := (s.analyses.lookup owner m).2 } := .of_supply _ _ (Nat.le_refl _)
  refine .bind (q := fun _ _ => True) (.modifyGet (·.step later rfl) ⟨later, fun id other => ?_⟩
    fun _ => trivial) fun _ answer _ _ _ => ?_
  · exact .inl ((s.analyses.entries_lookup owner m id).resolve_right fun own => other own.1)
  · cases answer with
    | error e => exact .throw trivial
    | ok entry => exact .pure fun _ => trivial

end

/-! ## Rounds -/

section

variable {expand : CallSite → InSession (Except Skip Method)}

theorem visit_tidies (expands : ∀ s site, (tidying base ∅).Ensures s (expand site) fun _ _ => True)
    (a : Analysis.Inspection) (cursor : EditCursor) (insn : Insn) (splices : List Splice) :
    (tidying base ∅).Ensures s ((visit expand a cursor insn).run splices) fun _ _ => True := by
  cases call : CallSite.ofNode? insn.node with
  | none =>
    rw [visit_of_other call]
    exact .pure fun _ => trivial
  | some site =>
    rw [visit_of_call call]
    refine .bind (expands s site) fun _ r _ _ _ => ?_
    cases r with
    | error skip => exact .pure fun _ => trivial
    | ok callee =>
      refine .bind (splice_tidies site _ callee) fun _ spliced _ _ _ => ?_
      exact .bind (q := fun _ _ => True) (.ofExcept (fun _ _ _ => trivial) fun _ _ => trivial)
        fun _ _ _ _ _ => .pure fun _ => trivial

theorem collectFrom_tidies (expands : ∀ s site, (tidying base ∅).Ensures s (expand site) fun _ _ => True)
    (a : Analysis.Inspection) (i : Nat) (insns : List Insn) (b : EditBatch) (splices : List Splice) :
    (tidying base ∅).Ensures s
      ((EditBatch.collectFrom (fun cursor insn _ => visit expand a cursor insn) i insns b).run splices)
      fun _ _ => True := by
  induction insns generalizing i b splices s with
  | nil => exact .pure fun _ => trivial
  | cons insn insns ih =>
    rw [EditBatch.collectFrom, StateT.run_bind]
    refine .bind (visit_tidies expands a ⟨b, insn.id⟩ insn splices) fun _ result _ _ _ => ?_
    obtain ⟨cursor, splices⟩ := result
    dsimp only
    split
    · exact .pure fun _ => trivial
    · exact ih (i + 1) cursor.batch splices

/-- A round works on its method, which stays the same one. -/
theorem round_tidies (expands : ∀ s site, (tidying base ∅).Ensures s (expand site) fun _ _ => True)
    (owner : String) (m : Method) :
    (tidying base {m.id}).Ensures s (round expand owner m) fun _ result => result.2.id = m.id := by
  refine .get ?_
  split
  · exact .pure fun _ => rfl
  · refine .bind (analyse_tidies owner m) fun _ a _ _ _ => ?_
    refine .bind ((collectFrom_tidies expands a _ _ _ _).widen (Set.empty_subset _))
      fun _ result _ _ _ => ?_
    obtain ⟨batch, splices⟩ := result
    dsimp only
    split
    · exact .pure fun _ => rfl
    · exact .bind (q := fun _ _ => True) (.ofExcept (fun _ _ _ => trivial) fun _ _ => trivial)
        fun _ _ _ _ _ => .pure fun _ => rfl

theorem rounds_tidies (expands : ∀ s site, (tidying base ∅).Ensures s (expand site) fun _ _ => True)
    (owner : String) (bound total : Nat) (m : Method) (holds : Tidy base s) :
    Tidy base (rounds expand owner bound total m s).2 ∧
      Cleaned {m.id} s (rounds expand owner bound total m s).2 := by
  induction bound generalizing s m total with
  | zero => exact ⟨holds, .of_same (.refl s) rfl⟩
  | succ bound ih =>
    obtain ⟨holds', later, own, -⟩ := round_tidies expands owner m holds
    generalize first : outcome (round expand owner m) s = after at holds' later own
    obtain ⟨e | ⟨count, m'⟩, s'⟩ := after
    · rw [rounds_of_error first]
      exact ⟨holds', later⟩
    · cases count with
      | zero =>
        rw [rounds_of_none first]
        exact ⟨holds', later⟩
      | succ count =>
        rw [rounds_of_some first]
        obtain ⟨holds'', later'⟩ := ih (total + (count + 1)) m' holds'
        rw [show m'.id = m.id from own _ rfl] at later'
        exact ⟨holds'', later.trans later'⟩

/-! ## Preparation -/

/-- **A preparation cleans up.** It keeps a body only when rounds in the copy have succeeded, and forgets the
analysis of the copy in any case. -/
theorem prepare_tidies (expands : ∀ s site, (tidying base ∅).Ensures s (expand site) fun _ _ => True)
    (target : Target) (prepared : ∀ start begun body count ended later,
      outcome (Session.fresh target.method.copy) s = (.ok start, begun) →
      rounds expand target.owner begun.inliner.targetBound 0 start begun = (⟨body, .ok count⟩, ended) →
      ended.Precedes later → Prepared base later target.key body) :
    (tidying base ∅).Ensures s (prepare expand target) fun _ _ => True := by
  cases known : s.inliner.bodies[target.key]? with
  | some body =>
    refine .get ?_
    rw [known]
    exact .pure fun _ => trivial
  | none =>
    intro holds
    obtain ⟨start, begun, copied⟩ : ∃ start begun,
        outcome (Session.fresh target.method.copy) s = (.ok start, begun) := ⟨_, _, rfl⟩
    have copies : (tidying base {start.id}).Ensures s (Session.fresh target.method.copy) _ :=
      copy_tidies target.method
    obtain ⟨holds₁, later₁, returned, -⟩ := copies holds
    rw [copied] at holds₁ later₁ returned
    have new : s.supply.next ≤ start.id.val := (returned start rfl).2
    obtain ⟨holds₂, later₂⟩ :=
      rounds_tidies expands target.owner begun.inliner.targetBound 0 start holds₁
    generalize work : rounds expand target.owner begun.inliner.targetBound 0 start begun = after
      at holds₂ later₂
    obtain ⟨⟨body, result⟩, ended⟩ := after
    rw [outcome_prepare known copied work]
    have forgotten : ended.Precedes { ended with analyses := ended.analyses.invalidate start.id } :=
      .of_supply _ _ (Nat.le_refl _)
    have cleaned := (later₁.trans later₂).forget new
    have keeps : (tidying base ∅).Ensures { ended with analyses := ended.analyses.invalidate start.id } (do
        let _ ← (MonadExcept.ofExcept result : InSession Nat)
        Session.keep target.key body
        return body) fun _ _ => True := by
      refine .bind (q := fun s' _ => ended.Precedes s' ∧ ∃ count, result = .ok count)
        (.ofExcept (fun count same _ => ⟨forgotten, count, same⟩) fun _ _ => trivial)
        fun s₄ _ _ _ ⟨ends, count, same⟩ => ?_
      refine .bind (q := fun _ _ => True) (.modifyGet (fun tidy => ?_)
        (.of_same (.of_supply _ _ (Nat.le_refl _)) rfl) fun _ => trivial)
        fun _ _ _ _ _ => .pure fun _ => trivial
      subst same
      exact tidy.keep (prepared start begun body count ended s₄ copied work ends)
    obtain ⟨holds₃, later₃, -, -⟩ := keeps (holds₂.step forgotten rfl)
    exact ⟨holds₃, cleaned.trans later₃, fun _ _ => trivial, fun _ _ => trivial⟩

/-! ## Nested calls -/

theorem expandCall_tidies (depth : Nat) (active : List TargetKey) (s : Session) (site : CallSite) :
    (tidying base ∅).Ensures s (expandCall depth active site) fun _ _ => True := by
  induction depth generalizing active s site with
  | zero => exact .throw trivial
  | succ depth ih =>
    refine .of_holds fun holds => .get ?_
    dsimp only
    by_cases admitted : s.inliner.policy.admits site.owner site.name = true
    · simp only [admitted]
      refine .bind (findTarget_tidies _ _ _ _).recall fun s₁ found _ _ ⟨leads, _⟩ => ?_
      cases found with
      | error skip => exact .pure fun _ => trivial
      | ok target =>
        refine .get ?_
        by_cases barred : s₁.inliner.barred.contains target.key = true
        · rw [if_pos barred]
          exact .pure fun _ => trivial
        · rw [if_neg barred]
          by_cases reached : active.contains target.key = true
          · rw [if_pos reached]
            exact .bind (bar_tidies target.key) fun _ _ _ _ _ => .pure fun _ => trivial
          · rw [if_neg reached]
            have new : target.key ∉ active := fun member => reached (List.contains_iff_mem.mpr member)
            refine .bind (prepare_tidies (ih (target.key :: active)) target
              fun start begun body count ended later copied work ends => ?_) fun _ body _ _ _ => ?_
            · exact .finished holds.precedes admitted leads (eq_false_of_ne_true barred) new copied work ends
            · exact .bind (copy_tidies body) fun _ _ _ _ _ => .pure fun _ => trivial
    · simp only [eq_false_of_ne_true admitted]
      exact .pure fun _ => trivial

end

/-! ## Whole methods -/

theorem inlineMethod_tidies (owner : String) (m : Method) (holds : Tidy base s) :
    Tidy base (inlineMethod owner m s).2 ∧ Cleaned {m.id} s (inlineMethod owner m s).2 :=
  rounds_tidies (expandCall_tidies _ _) owner _ 0 m holds

theorem inlineAll_tidies (methods : List (String × Method)) (holds : Tidy base s) :
    Tidy base (inlineAll methods s).2 := by
  induction methods generalizing s with
  | nil => exact holds
  | cons method rest ih =>
    obtain ⟨owner, m⟩ := method
    exact ih (inlineMethod_tidies owner m holds).1

/-- What inlining into a method leaves behind. -/
structure Leftovers (m : Method) (s s' : Session) : Prop where
  /-- An analysis is that of the method, or was there before. -/
  analyses : ∀ (id : MethodId) (entry : Analysis.CacheEntry), s'.analyses.entries[id]? = some entry →
    id = m.id ∨ s.analyses.entries[id]? = some entry
  /-- No analysis of another method is lost. -/
  others : ∀ id : MethodId, id ≠ m.id → id.val < s.supply.next →
    s'.analyses.entries[id]? = s.analyses.entries[id]?
  /-- A body was kept before, or inlining into its target has finished since. -/
  kept : ∀ (key : TargetKey) (body : Method), s'.inliner.bodies[key]? = some body →
    s.inliner.bodies[key]? = some body ∨ Prepared s s' key body

/-- A session with an inliner that has found out nothing about targets yet. -/
def Session.renewed (s : Session) : Session :=
  { s with inliner := s.inliner.clear }

/-- **Inlining leaves no garbage.** Whether it succeeds or fails, and whatever was found out before: no
analysis stays behind but that of the method, and a body is newly kept only for a target for which inlining
has finished. With an inliner that began with nothing, this then holds of all bodies that are ever kept. The
chain of targets that are being prepared is restored by all nested work, and is empty in the end. -/
theorem inlineMethod_leftovers (owner : String) (m : Method) (s : Session) :
    Leftovers m s (inlineMethod owner m s).2 ∧
      (∀ (methods : List (String × Method)) (key : TargetKey) (body : Method),
        (inlineAll methods s.renewed).2.inliner.bodies[key]? = some body →
          Prepared s.renewed (inlineAll methods s.renewed).2 key body) ∧
      Chained.inlineMethod owner m s = (((inlineMethod owner m s).1, ∅), (inlineMethod owner m s).2) ∧
      ∀ depth, Chained.NestedRestores depth := by
  obtain ⟨tidy, cleaned⟩ := inlineMethod_tidies owner m (Tidy.refl s)
  refine ⟨⟨fun id entry found => ?_, fun id other old => ?_, tidy.kept⟩, fun methods key body found => ?_,
    Chained.inlineMethod_eq owner m s, Chained.nested_restores⟩
  · by_cases own : id = m.id
    · exact .inl own
    · rcases cleaned.analyses id own with same | ⟨-, gone⟩
      · exact .inr (same ▸ found)
      · rw [gone] at found
        cases found
  · exact (cleaned.analyses id other).resolve_right fun new => by omega
  · refine ((inlineAll_tidies methods (Tidy.refl s.renewed)).kept key body found).resolve_left fun before => ?_
    have nothing : (∅ : Std.HashMap TargetKey Method)[key]? = some body := before
    rw [Std.HashMap.getElem?_empty] at nothing
    cases nothing

end Bytecode.Inlining
