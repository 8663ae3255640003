import Bytecode.Proofs.Inlining.Regimes
import Bytecode.Proofs.Resolution
import Mathlib.Data.List.Chain
import Mathlib.Data.List.Perm.Subperm
import Mathlib.Logic.Relation

/-!
# Where calls lead

`search` is the walk up the superclasses without a session: with a class path that answers what its
sources answer, `findTarget` is this walk (`findTarget_ensures`). Each step of it goes from a class to
a trusted superclass that is to be asked next. If these steps never lead in a circle, then the walk
comes to an end before it has seen more classes than the class path has names (`search_ne_none`).

The targets of calls are methods of the classes that the class path can show, so that there are no
more keys of targets than `ClassPath.methodBound` tells.
-/

namespace Bytecode.Inlining

/-! ## The walk up the superclasses -/

section

variable (policy : TrustPolicy) (p : ClassPath) (site : CallSite)

/-- A call that one class does not answer is passed on to a superclass. -/
def PassesOn (className parent : String) : Prop :=
  ∃ c, p.lookup className = some c ∧ c.method? site.name site.descriptor = none ∧
    c.superName = some parent ∧ policy.admits parent site.name = true

/-- No call comes back to a class that has passed it on. -/
def Acyclic : Prop :=
  ∀ site className, ¬Relation.TransGen (PassesOn policy p site) className className

/-- The answer to the question where a call leads, if it is found within a number of steps. -/
def search : Nat → String → Option (Except Skip Target)
  | 0, _ => none
  | steps + 1, className =>
    match p.lookup className with
    | none => some (.error .unresolved)
    | some c =>
      match c.method? site.name site.descriptor with
      | some m => some (if m.body.isEmpty then .error .noBody else .ok ⟨c.name, m⟩)
      | none =>
        if site.op == Opcode.invokestatic || site.op == Opcode.invokespecial then
          some (.error .unresolved)
        else
          match c.superName with
          | none => some (.error .unresolved)
          | some parent =>
            if policy.admits parent site.name then search steps parent else some (.error .unresolved)

end

variable {policy : TrustPolicy} {p : ClassPath} {site : CallSite}

/-- A search without an answer has passed the call on from class to class. -/
theorem chain_of_search {steps : Nat} {className : String}
    (h : search policy p site steps className = none) :
    ∃ names : List String, names.length = steps ∧ names.IsChain (PassesOn policy p site) ∧
      (∀ name ∈ names, ∃ c, p.lookup name = some c) ∧ ∀ name ∈ names.head?, name = className := by
  induction steps generalizing className with
  | zero => exact ⟨[], rfl, .nil, by simp, by simp⟩
  | succ steps ih =>
    unfold search at h
    split at h
    · cases h
    · next c found =>
      split at h
      · cases h
      · next missing =>
        split at h
        · cases h
        · split at h
          · cases h
          · next parent above =>
            split at h
            · next admitted =>
              obtain ⟨names, length, chain, all, first⟩ := ih h
              have passes : PassesOn policy p site className parent :=
                ⟨c, found, missing, above, admitted⟩
              refine ⟨className :: names, by rw [List.length_cons, length], ?_,
                List.forall_mem_cons.mpr ⟨⟨c, found⟩, all⟩, by simp⟩
              exact List.isChain_cons.mpr ⟨fun name head => first name head ▸ passes, chain⟩
            · cases h

/-- A search among the names of the class path finds an answer, unless a call is passed on in a
circle. -/
theorem search_ne_none (acyclic : Acyclic policy p) (site : CallSite) (className : String) :
    search policy p site (p.breadth + 1) className ≠ none := by
  intro h
  obtain ⟨names, length, chain, found, -⟩ := chain_of_search h
  have distinct : names.Nodup := by
    have apart : names.Pairwise (Relation.TransGen (PassesOn policy p site)) :=
      (chain.imp fun _ _ => Relation.TransGen.single).pairwise
    refine apart.imp fun {a b} passed same => ?_
    subst same
    exact acyclic site a passed
  have known : names ⊆ p.names := fun name member =>
    (ClassPath.mem_of_lookup (found name member).choose_spec).1
  have few := (List.subperm_of_subset distinct known).length_le
  rw [length, p.length_names] at few
  omega

/-! ## The walk in a session -/

/-- The class path of a session answers what the sources of a class path answer. -/
def Serves (p : ClassPath) (s : Session) : Prop :=
  s.inliner.classPath.sources = p.sources ∧ s.inliner.classPath.Coherent

/-- A walk in a session finds what a search finds, and changes nothing but the cache of the class
path. It goes on without end where the search has no answer. -/
theorem findTarget_ensures {R : Regime} {s : Session} (serves : ∀ s, R.holds s → Serves p s)
    (holds : ∀ s classPath, Serves p ⟨{ s.inliner with classPath }, s.analyses, s.supply⟩ →
      R.holds s → R.holds ⟨{ s.inliner with classPath }, s.analyses, s.supply⟩)
    (later : ∀ s classPath, R.later s ⟨{ s.inliner with classPath }, s.analyses, s.supply⟩)
    {steps : Nat} {className : String}
    (fails : search policy p site steps className = none → R.allows .endless) :
    R.Ensures s (findTarget policy site steps className) fun s' r =>
      search policy p site steps className = some r ∧
        ∃ classPath, s'.inliner = { s.inliner with classPath } := by
  induction steps generalizing className s with
  | zero => exact .throw (fails rfl)
  | succ steps ih =>
    refine .bind (q := fun s' found => found = p.lookup className ∧
        ∃ classPath, s'.inliner = { s.inliner with classPath })
      (.modifyGet (fun here => ?_) (later s _) fun here => ?_) fun s' found _ _ ⟨same, path, inliner⟩ => ?_
    · obtain ⟨sources, coherent⟩ := serves s here
      exact holds s _ ⟨(ClassPath.resolve_sources _ _).trans sources, coherent.resolve className⟩ here
    · obtain ⟨sources, coherent⟩ := serves s here
      refine ⟨(ClassPath.resolve_fst _ className).trans ((coherent.peek_eq className).trans ?_), _, rfl⟩
      rw [ClassPath.lookup, sources]
      rfl
    · subst same
      rw [search] at fails ⊢
      cases known : p.lookup className with
      | none => exact .pure fun _ => ⟨rfl, path, inliner⟩
      | some c =>
        rw [known] at fails
        dsimp only at fails ⊢
        cases declared : c.method? site.name site.descriptor with
        | some m => exact .pure fun _ => ⟨rfl, path, inliner⟩
        | none =>
          rw [declared] at fails
          dsimp only at fails ⊢
          by_cases direct : (site.op == Opcode.invokestatic || site.op == Opcode.invokespecial) = true
          · simp only [if_pos direct]
            exact .pure fun _ => ⟨rfl, path, inliner⟩
          · simp only [if_neg direct] at fails ⊢
            cases above : c.superName with
            | none => exact .pure fun _ => ⟨rfl, path, inliner⟩
            | some parent =>
              simp only [above] at fails ⊢
              by_cases admitted : policy.admits parent site.name = true
              · simp only [if_pos admitted] at fails ⊢
                refine (ih fails).mono fun s'' r _ _ ⟨answer, path', inliner'⟩ => ⟨answer, path', ?_⟩
                rw [inliner', inliner]
              · simp only [if_neg admitted]
                exact .pure fun _ => ⟨rfl, path, inliner⟩

/-! ## The keys of targets -/

/-- The keys of the methods that a class path can show. -/
def targetKeys (p : ClassPath) : List TargetKey :=
  p.shown.flatMap fun c => c.methods.map fun m => targetKey c.name m.name m.descriptor

theorem length_targetKeys_le (p : ClassPath) : (targetKeys p).length ≤ p.methodBound := by
  have counted (classes : List Class) :
      (classes.flatMap fun c => c.methods.map fun m => targetKey c.name m.name m.descriptor).length =
        total (·.methods.length) classes := by
    induction classes with
    | nil => rfl
    | cons c rest ih => rw [List.flatMap_cons, List.length_append, ih, List.length_map, total_cons]
  rw [targetKeys, counted]
  exact p.methods_shown_le

/-- The target of a call is a method with a body that the class path shows. -/
theorem of_search {steps : Nat} {className : String} {t : Target}
    (h : search policy p site steps className = some (.ok t)) :
    t.key ∈ targetKeys p ∧ t.method.body.isEmpty = false ∧ t.method.name = site.name ∧
      t.method.descriptor = site.descriptor ∧ ∃ name c, p.lookup name = some c ∧ c.name = t.owner ∧
        c.method? site.name site.descriptor = some t.method := by
  induction steps generalizing className with
  | zero => cases h
  | succ steps ih =>
    unfold search at h
    split at h
    · cases h
    · next c found =>
      split at h
      · next m declared =>
        split at h
        · cases h
        · next filled =>
          cases h
          have named := List.find?_some (p := fun m : Method => m.name == site.name &&
            m.descriptor == site.descriptor) declared
          obtain ⟨name, descriptor⟩ := Bool.and_eq_true_iff.mp named
          have member : m ∈ c.methods := List.mem_of_find?_eq_some declared
          exact ⟨List.mem_flatMap.mpr ⟨c, (ClassPath.mem_of_lookup found).2, List.mem_map.mpr ⟨m, member, rfl⟩⟩,
            eq_false_of_ne_true filled, beq_iff_eq.mp name, beq_iff_eq.mp descriptor,
            className, c, found, rfl, declared⟩
      · split at h
        · cases h
        · split at h
          · cases h
          · split at h
            · exact ih h
            · cases h

end Bytecode.Inlining
