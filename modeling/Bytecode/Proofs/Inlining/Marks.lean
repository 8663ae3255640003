import Bytecode.Proofs.Inlining.Ending

/-!
# Inlining leaves no call that can be inlined

Calls arrive in kept bodies, which were finished while other targets were being prepared, and targets are
barred while it is being decided which calls are left alone. What carries the argument through this is that a
call in a body that is being worked on is reached, through candidate calls, from every target that is being
prepared (`Beneath`). A target that is met again while it is being prepared reaches itself, then; and since it
is barred at once, no call that is left alone can be replaced later.

Kept bodies fit in because of what is known of them alone: their calls are reached from their own key, and so
from wherever the key is reached. `expandCall_marks` takes the invariant through the preparation of a target
inside another one, and `inlineAll_exhausts` through any number of methods.
-/

namespace Bytecode.Inlining

section

variable (policy : TrustPolicy) (p : ClassPath)

/-- A call that is a candidate for inlining: its name is admitted, and it leads to a method with a body. -/
def Candidate (site : CallSite) (t : Target) : Prop :=
  policy.admits site.owner site.name = true ∧
    search policy p site (p.breadth + 1) site.owner = some (.ok t)

/-- The method under one key has a candidate call that leads to the method under another one. -/
def Calls (key key' : TargetKey) : Prop :=
  ∃ (site : CallSite) (t : Target) (call : CallSite) (t' : Target), Candidate policy p site t ∧ t.key = key ∧
    call ∈ calls t.method.body ∧ Candidate policy p call t' ∧ t'.key = key'

/-- Wherever a call leads to, it is reached through candidate calls from each of some targets. -/
def Beneath (active : List TargetKey) (site : CallSite) : Prop :=
  ∀ t, Candidate policy p site t → ∀ key ∈ active, Relation.TransGen (Calls policy p) key t.key

/-- A session in which every barred target reaches itself, and in which the calls in a kept body are reached
from its key. -/
structure Marking (s : Session) : Prop where
  regular : Regular policy p s
  circular : ∀ key, s.inliner.barred.contains key = true → Relation.TransGen (Calls policy p) key key
  reached : ∀ (key : TargetKey) (m : Method), s.inliner.bodies[key]? = some m →
    ∀ site ∈ calls m.body, Beneath policy p [key] site

/-- Only targets that reach themselves are barred, and work may fail in any way. -/
def marking : Regime where
  holds := Marking policy p
  later := (ending policy p).later
  allows := fun _ => True
  refl := (ending policy p).refl
  trans := (ending policy p).trans

end

variable {policy : TrustPolicy} {p : ClassPath} {s : Session} {site : CallSite} {active : List TargetKey}

theorem marking_settling : (marking policy p).Settling policy p where
  regular := Marking.regular
  bars := id
  inward :=
    { holds := fun same holds => ⟨ending_inward.holds same holds.regular,
        fun key barred => holds.circular key (same ▸ barred), fun key m kept => holds.reached key m (same ▸ kept)⟩
      later := (ending_inward : (ending policy p).Inward).later }
  allows := fun _ => trivial

/-! ## One target inside another -/

/-- Below more targets, calls are reached from more targets. -/
theorem Beneath.mono {active' : List TargetKey} (h : Beneath policy p active site) (fewer : active' ⊆ active) :
    Beneath policy p active' site :=
  fun t candidate key member => h t candidate key (fewer member)

/-- What is reached from a target is reached from where its own calls are. -/
theorem Beneath.cons {call : CallSite} {t : Target} (h : Beneath policy p active site)
    (candidate : Candidate policy p site t) (own : Beneath policy p [t.key] call) :
    Beneath policy p (t.key :: active) call := by
  intro t' candidate' key member
  have reached := own t' candidate' t.key List.mem_cons_self
  rcases List.mem_cons.mp member with rfl | outside
  · exact reached
  · exact (h t candidate key outside).trans reached

/-- The calls in a method are reached from its key. -/
theorem beneath_of_mem_calls {call : CallSite} {t : Target} (candidate : Candidate policy p site t)
    (member : call ∈ calls t.method.body) : Beneath policy p [t.key] call := by
  intro t' candidate' key inside
  obtain rfl := List.mem_singleton.mp inside
  exact .single ⟨site, t, call, t', candidate, rfl, member, candidate', rfl⟩

/-- A target that is met again below itself may be barred. -/
theorem bar_ensures {t : Target} (below : Beneath policy p active site) (candidate : Candidate policy p site t)
    (again : t.key ∈ active) : (marking policy p).Ensures s (Session.bar t.key) fun _ _ => True := by
  refine .modifyGet (fun holds => ⟨holds.regular.bar t.key, fun key barred => ?_, holds.reached⟩)
    (show (ending policy p).later s _ from contains_bar s t.key) fun _ => trivial
  have barred : (s.inliner.barred.insert t.key).contains key = true := barred
  rw [Std.HashSet.contains_insert, Bool.or_eq_true_iff] at barred
  rcases barred with same | before
  · obtain rfl := beq_iff_eq.mp same
    exact below t candidate t.key again
  · exact holds.circular key before

/-- A body whose calls are dead and reached from its key may be kept. -/
theorem keep_ensures {key : TargetKey} {m : Method} (settled : Settled policy p s m.body)
    (own : ∀ site ∈ calls m.body, Beneath policy p [key] site) :
    (marking policy p).Ensures s (Session.keep key m) fun _ _ => True := by
  refine .modifyGet (fun holds => ⟨holds.regular.keep settled, holds.circular, fun key' m' kept => ?_⟩)
    (fun _ barred => barred) fun _ => trivial
  have kept : (s.inliner.bodies.insert key m)[key']? = some m' := kept
  rw [Std.HashMap.getElem?_insert] at kept
  split at kept
  · next same =>
    cases kept
    exact beq_iff_eq.mp same ▸ own
  · exact holds.reached key' m' kept

/-- **Inside some targets.** A call that is reached from all targets that are being prepared is expanded to a
body with such calls only, and only targets that reach themselves are barred on the way. -/
theorem expandCall_marks (depth : Nat) (active : List TargetKey) :
    Expands (marking policy p) policy p (Beneath policy p active) (expandCall depth active) := by
  induction depth generalizing active with
  | zero => exact fun s site _ => .throw trivial
  | succ depth ih =>
    refine fun s site below => expandCall_ensures marking_settling.toLasting
      (fun _ _ serves holds => ⟨holds.regular.serve serves, holds.circular, holds.reached⟩)
      (fun _ _ _ barred => barred) (fun _ => trivial) (fun _ _ dead => dead)
      (fun _ t answer admitted again => bar_ensures below ⟨admitted, answer⟩ again)
      fun s' t answer admitted _ alive _ => ?_
    have candidate : Candidate policy p site t := ⟨admitted, answer⟩
    have prepared := prepare_ensures (s := s') marking_settling (ih (t.key :: active)) t
      (fun call member => below.cons candidate (beneath_of_mem_calls candidate member))
      (fun s m holds kept call member => below.cons candidate (holds.reached t.key m kept call member))
      fun s m settled inside => keep_ensures settled fun call member =>
        (inside call member).mono (List.cons_subset_cons _ (List.nil_subset _))
    refine .bind prepared fun s₂ m _ _ ⟨settled, inside⟩ => ?_
    refine .bind marking_settling.inward.fresh_ensures fun s₃ callee _ later₃ ⟨_, supply, copied⟩ => ?_
    refine .pure fun _ => ⟨alive, ?_, fun call member => ?_⟩
    · rw [Settled, copied, calls_copy]
      exact settled.later later₃
    · rw [copied, calls_copy] at member
      exact (inside call member).mono (List.subset_cons_self _ _)

/-! ## Methods -/

/-- What is left of a method after its calls were inlined. -/
theorem inlineMethod_marks (owner : String) (m : Method) (holds : Marking policy p s) :
    Finished (marking policy p) policy p (Beneath policy p []) s (inlineMethod owner m s) :=
  rounds_finish marking_settling (expandCall_marks _ []) (fun _ _ _ _ => nofun)
    (.inl (Nat.le_add_left 2 _)) holds

/-- What is left of methods after their calls were inlined, one method after the other. -/
theorem inlineAll_marks (holds : Marking policy p s) (methods : List (String × Method)) :
    Marking policy p (inlineAll methods s).2 ∧ (ending policy p).later s (inlineAll methods s).2 ∧
      ∀ attempt ∈ (inlineAll methods s).1, ∀ count, attempt.result = .ok count →
        Settled policy p (inlineAll methods s).2 attempt.value.body := by
  induction methods generalizing s with
  | nil => exact ⟨holds, fun _ h => h, nofun⟩
  | cons entry rest ih =>
    obtain ⟨owner, m⟩ := entry
    obtain ⟨holds', later, -, settled, -⟩ := inlineMethod_marks owner m holds
    obtain ⟨holds'', later', others⟩ := ih holds'
    exact ⟨holds'', (ending policy p).trans later later',
      List.forall_mem_cons.mpr ⟨fun count same => (settled count same).later later', others⟩⟩

/-- A search that finds no target finds no class that declares the method, or finds it without a body. -/
theorem search_skip {steps : Nat} {className : String} {skip : Skip}
    (h : search policy p site steps className = some (.error skip)) : skip = .unresolved ∨ skip = .noBody := by
  induction steps generalizing className with
  | zero => cases h
  | succ steps ih =>
    unfold search at h
    split at h
    · cases h
      exact .inl rfl
    · split at h
      · split at h <;> cases h
        exact .inr rfl
      · split at h
        · cases h
          exact .inl rfl
        · split at h
          · cases h
            exact .inl rfl
          · split at h
            · exact ih h
            · cases h
              exact .inl rfl

/-- What inlining leaves behind in methods and in a session. A call whose name is admitted is left only if it
does not resolve, or if it leads to a method without a body or to a barred one; and each barred method reaches
itself through candidate calls. -/
structure Exhausted (policy : TrustPolicy) (p : ClassPath) (attempts : List (Attempt Method Nat)) (s : Session) :
    Prop where
  left : ∀ attempt ∈ attempts, ∀ count, attempt.result = .ok count → ∀ site ∈ calls attempt.value.body,
    policy.admits site.owner site.name = true →
      search policy p site (p.breadth + 1) site.owner = some (.error .unresolved) ∨
      search policy p site (p.breadth + 1) site.owner = some (.error .noBody) ∨
      ∃ t, search policy p site (p.breadth + 1) site.owner = some (.ok t) ∧
        s.inliner.isBarred t.owner t.method.name t.method.descriptor = true
  circular : ∀ owner name descriptor, s.inliner.isBarred owner name descriptor = true →
    Relation.TransGen (Calls policy p) (targetKey owner name descriptor) (targetKey owner name descriptor)

/-- **Inlining is exhaustive.** Let an inliner start with nothing kept and nothing barred, and inline into any
number of methods. Where it succeeds, no call is left that could be inlined, and only methods that reach
themselves are barred. -/
theorem inlineAll_exhausts (uncached : p.cache = []) (analyses : Analysis.FrameCache) (supply : Supply)
    (methods : List (String × Method)) :
    Exhausted policy p (inlineAll methods ⟨{ policy, classPath := p }, analyses, supply⟩).1
      (inlineAll methods ⟨{ policy, classPath := p }, analyses, supply⟩).2 := by
  have holds : Marking policy p ⟨{ policy, classPath := p }, analyses, supply⟩ :=
    ⟨regular_of_fresh rfl rfl uncached rfl, fun key barred => by simp at barred, fun key m kept => by simp at kept⟩
  obtain ⟨holds', -, settled⟩ := inlineAll_marks holds methods
  refine ⟨fun attempt member count same site left admitted => ?_, fun owner name descriptor barred =>
    holds'.circular _ barred⟩
  rcases settled attempt member count same site left with refused | ⟨skip, answer⟩ | ⟨t, answer, barred⟩
  · rw [admitted] at refused
    cases refused
  · rcases search_skip answer with rfl | rfl
    · exact .inl answer
    · exact .inr (.inl answer)
  · exact .inr (.inr ⟨t, answer, barred⟩)

/-- An inherited method that calls itself is barred because it does. -/
theorem inlineAll_exhausts_inheriting : inheritingClasses.cache = [] ∧
    Exhausted ⟨["kotlin/"]⟩ inheritingClasses
      (inlineAll [("A", callingMethod)] ⟨{ policy := ⟨["kotlin/"]⟩, classPath := inheritingClasses }, {}, {}⟩).1
      (inlineAll [("A", callingMethod)] ⟨{ policy := ⟨["kotlin/"]⟩, classPath := inheritingClasses }, {}, {}⟩).2 :=
  ⟨rfl, inlineAll_exhausts rfl {} {} _⟩

end Bytecode.Inlining
