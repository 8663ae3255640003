import Bytecode.Proofs.Inlining.Rounds

/-!
# Inlining one method after the other

An inliner keeps bodies and bars from one method to the next. `inlineAll_ends` takes the invariant of
`Regular` through any number of methods: starting with nothing kept, no method makes the work go on
beyond its bounds, whatever the class path holds, how much its cache keeps, and which classes are
trusted.

What is needed is that no call comes back to a class that has passed it on. It is all that is needed:
`inlineMethod_endless` shows that a call into a circle of superclasses is followed for ever.
-/

namespace Bytecode.Inlining

/-- Inlines calls in methods, each with the class that it belongs to, one after the other. -/
def inlineAll : List (String × Method) → StateM Session (List (Attempt Method Nat))
  | [] => return []
  | (owner, m) :: rest => do
    let first ← inlineMethod owner m
    return first :: (← inlineAll rest)

/-- Superclasses cannot lead back if they are counted down. -/
theorem acyclic_of_rank {policy : TrustPolicy} {p : ClassPath} (rank : String → Nat)
    (falls : ∀ site className parent, PassesOn policy p site className parent →
      rank parent < rank className) : Acyclic policy p := by
  intro site className circle
  have lower : ∀ {a b : String}, Relation.TransGen (PassesOn policy p site) a b → rank b < rank a := by
    intro a b path
    induction path with
    | single step => exact falls site _ _ step
    | tail _ step ih => exact Nat.lt_trans (falls site _ _ step) ih
  exact Nat.lt_irrefl _ (lower circle)

/-- An inliner that has kept nothing yet is regular. -/
theorem regular_of_fresh {policy : TrustPolicy} {p : ClassPath} {s : Session}
    (trust : s.inliner.policy = policy) (path : s.inliner.classPath = p) (uncached : p.cache = [])
    (fresh : s.inliner.bodies = ∅) : Regular policy p s where
  trust := trust
  serves := by
    rw [Serves, path]
    exact ⟨rfl, ClassPath.coherent_of_empty uncached⟩
  kept := fun key m found => by
    rw [fresh, Std.HashMap.getElem?_empty] at found
    cases found

/-- What is left of methods after their calls were inlined, one method after the other. -/
theorem inlineAll_finish {policy : TrustPolicy} {p : ClassPath} (acyclic : Acyclic policy p)
    {s : Session} (regular : Regular policy p s) (methods : List (String × Method)) :
    Regular policy p (inlineAll methods s).2 ∧ (ending policy p).later s (inlineAll methods s).2 ∧
      ∀ attempt ∈ (inlineAll methods s).1, attempt.result ≠ .error .endless ∧
        ∀ count, attempt.result = .ok count →
          Settled policy p (inlineAll methods s).2 attempt.value.body := by
  induction methods generalizing s with
  | nil => exact ⟨regular, fun _ h => h, by rintro _ ⟨⟩⟩
  | cons method rest ih =>
    obtain ⟨owner, m⟩ := method
    obtain ⟨regular', later, ended, settled, -⟩ := inlineMethod_finish acyclic owner m regular
    have unfolded : inlineAll ((owner, m) :: rest) s =
        ((inlineMethod owner m s).1 :: (inlineAll rest (inlineMethod owner m s).2).1,
          (inlineAll rest (inlineMethod owner m s).2).2) := rfl
    obtain ⟨regular'', later', others⟩ := ih regular'
    rw [unfolded]
    refine ⟨regular'', (ending policy p).trans later later',
      List.forall_mem_cons.mpr ⟨⟨fun endless => ended _ endless rfl, ?_⟩, others⟩⟩
    exact fun count same => (settled count same).later later'

/-- **Inlining ends.** Let an inliner start with nothing kept, and let no call come back to a class
that has passed it on. Then each of any number of methods is inlined into within the bounds, with
success or with a failure, whatever the class path holds and however many classes it keeps in its
cache. -/
theorem inlineAll_ends {policy : TrustPolicy} {p : ClassPath} (acyclic : Acyclic policy p)
    (uncached : p.cache = []) (barred : Std.HashSet TargetKey) (analyses : Analysis.FrameCache)
    (supply : Supply) (methods : List (String × Method)) :
    ∀ attempt ∈ (inlineAll methods ⟨{ policy, classPath := p, barred }, analyses, supply⟩).1,
      (∃ count, attempt.result = .ok count) ∨ ∃ e, attempt.result = .error e ∧ e ≠ .endless := by
  intro attempt member
  have regular : Regular policy p ⟨{ policy, classPath := p, barred }, analyses, supply⟩ :=
    regular_of_fresh rfl rfl uncached rfl
  obtain ⟨-, -, all⟩ := inlineAll_finish acyclic regular methods
  obtain ⟨ended, -⟩ := all attempt member
  cases result : attempt.result with
  | error e => exact .inr ⟨e, rfl, fun same => ended (same ▸ result)⟩
  | ok count => exact .inl ⟨count, rfl⟩

/-- A static method that calls a method of a class. -/
def callingMethod : Method where
  id := ⟨0⟩
  access := 9
  name := "m"
  descriptor := "(Lkotlin/A;)V"
  maxLocals := 1
  body := Analysis.numbered [.var Opcode.aload 0,
    .call Opcode.invokevirtual "kotlin/A" "f" "()V" false, .simple Opcode.vreturn]

/-- Two trusted classes, one below the other. The upper one declares a method that calls itself. -/
def inheritingClasses : ClassPath where
  sources := [.memory [{ name := "kotlin/A", superName := some "kotlin/B" },
    { name := "kotlin/B", superName := some "java/lang/Object", methods := [{
        id := ⟨1⟩
        access := 1
        name := "f"
        descriptor := "()V"
        maxLocals := 1
        body := Analysis.numbered [.var Opcode.aload 0,
          .call Opcode.invokevirtual "kotlin/A" "f" "()V" false, .simple Opcode.vreturn] }] }]]

/-- Calls of an inherited method that calls itself are inlined within the bounds, also a second time. -/
theorem inlineAll_ends_inheriting : Acyclic ⟨["kotlin/"]⟩ inheritingClasses ∧
    ∀ attempt ∈ (inlineAll [("A", callingMethod), ("A", callingMethod)]
        ⟨{ policy := ⟨["kotlin/"]⟩, classPath := inheritingClasses, barred := ∅ }, {}, {}⟩).1,
      (∃ count, attempt.result = .ok count) ∨ ∃ e, attempt.result = .error e ∧ e ≠ .endless := by
  have acyclic : Acyclic ⟨["kotlin/"]⟩ inheritingClasses := by
    refine acyclic_of_rank (fun name => if name = "kotlin/A" then 1 else 0)
      fun site className parent passes => ?_
    obtain ⟨c, found, -, above, admitted⟩ := passes
    have trusted : TrustPolicy.trusts ⟨["kotlin/"]⟩ parent = true := (Bool.and_eq_true_iff.mp admitted).2
    by_cases lower : className = "kotlin/A"
    · subst lower
      cases found
      cases above
      decide
    · by_cases upper : className = "kotlin/B"
      · subst upper
        cases found
        cases above
        exact absurd trusted (by decide +kernel)
      · simp [ClassPath.lookup, inheritingClasses, ClassSource.find?, Ne.symm lower, Ne.symm upper] at found
  exact ⟨acyclic, inlineAll_ends acyclic rfl ∅ {} {} _⟩

/-! ## Circles of superclasses -/

section

variable {policy : TrustPolicy} {p : ClassPath} {s : Session} {site : CallSite}

/-- A walk that finds no answer goes on without end. -/
theorem findTarget_endless (serves : Serves p s) {steps : Nat} {className : String}
    (h : search policy p site steps className = none) :
    (outcome (findTarget policy site steps className) s).1 = .error .endless := by
  induction steps generalizing className s with
  | zero => rfl
  | succ steps ih =>
    obtain ⟨sources, coherent⟩ := serves
    have answer : (s.inliner.classPath.resolve className).1.map CachedClass.found = p.lookup className := by
      rw [ClassPath.resolve_fst, coherent.peek_eq, ClassPath.lookup, sources, ClassPath.lookup]
    have resolved : outcome (Session.resolve className) s = (.ok (p.lookup className),
        { s with inliner := { s.inliner with classPath := (s.inliner.classPath.resolve className).2 } }) := by
      rw [← answer]
      rfl
    rw [findTarget, outcome_bind_ok resolved]
    have serves' : Serves p
        { s with inliner := { s.inliner with classPath := (s.inliner.classPath.resolve className).2 } } :=
      ⟨(ClassPath.resolve_sources _ _).trans sources, coherent.resolve className⟩
    rw [search] at h
    cases known : p.lookup className with
    | none =>
      rw [known] at h
      cases h
    | some c =>
      rw [known] at h
      dsimp only at h ⊢
      cases declared : c.method? site.name site.descriptor with
      | some m =>
        rw [declared] at h
        cases h
      | none =>
        rw [declared] at h
        dsimp only at h ⊢
        by_cases direct : (site.op == Opcode.invokestatic || site.op == Opcode.invokespecial) = true
        · rw [if_pos direct] at h
          cases h
        · simp only [if_neg direct] at h ⊢
          cases above : c.superName with
          | none =>
            rw [above] at h
            cases h
          | some parent =>
            simp only [above] at h ⊢
            by_cases admitted : policy.admits parent site.name = true
            · simp only [if_pos admitted] at h ⊢
              exact ih serves' h
            · rw [if_neg admitted] at h
              cases h

/-- A traversal passes over nodes that are no calls. -/
theorem collectFrom_of_others {expand : CallSite → InSession (Except Skip Method)}
    {a : Analysis.Inspection} {before rest : List Insn} {i : Nat} {b : EditBatch} {splices : List Splice}
    (goesOn : b.stopped = false) (others : ∀ insn ∈ before, CallSite.ofNode? insn.node = none) :
    (EditBatch.collectFrom (fun cursor insn _ => visit expand a cursor insn) i (before ++ rest) b).run
        splices =
      (EditBatch.collectFrom (fun cursor insn _ => visit expand a cursor insn) (i + before.length) rest
        b).run splices := by
  induction before generalizing i with
  | nil => rfl
  | cons insn before ih =>
    obtain ⟨first, others⟩ := List.forall_mem_cons.mp others
    rw [List.cons_append, EditBatch.collectFrom, StateT.run_bind, visit_of_other first, pure_bind]
    dsimp only
    rw [if_neg (by rw [goesOn]; exact Bool.false_ne_true), ih others, List.length_cons, Nat.add_assoc,
      Nat.add_comm 1]

/-- Calls into a circle of superclasses are followed for ever: inlining into a method whose first call
is one goes beyond every bound. -/
theorem inlineMethod_endless {owner : String} {m : Method} {before behind : List Insn} {insn : Insn}
    {entry : Analysis.CacheEntry} (trust : s.inliner.policy = policy) (serves : Serves p s)
    (body : m.body.toList = before ++ insn :: behind)
    (first : ∀ insn ∈ before, CallSite.ofNode? insn.node = none)
    (call : CallSite.ofNode? insn.node = some site)
    (admitted : policy.admits site.owner site.name = true)
    (circle : search policy p site (p.breadth + 1) site.owner = none)
    (analysed : (s.analyses.lookup owner m).1 = .ok entry) :
    (inlineMethod owner m s).1.result = .error .endless := by
  have candidate : hasCandidate s.inliner.policy m = true := by
    rw [hasCandidate, Array.any_eq_true']
    have inside : insn ∈ m.body := by
      rw [← Array.mem_toList_iff, body]
      simp
    refine ⟨insn, inside, ?_⟩
    rw [call, trust]
    exact admitted
  let s₁ : Session := { s with analyses := (s.analyses.lookup owner m).2 }
  have inspected : outcome (Session.analyse owner m) s = (.ok ⟨owner, m, entry.frames⟩, s₁) := by
    rw [Session.analyse, outcome_modifyGet]
    dsimp only
    rw [analysed]
    rfl
  have breadth : s₁.inliner.classPath.breadth = p.breadth := by
    rw [ClassPath.breadth, serves.1]
    rfl
  have expansion (depth : Nat) : (outcome (expandCall (depth + 1) [] site) s₁).1 = .error .endless := by
    rw [expandCall, outcome_get]
    dsimp only
    rw [breadth, show s₁.inliner.policy = policy from trust, if_neg (by rw [admitted]; exact Bool.false_ne_true)]
    exact fails_bind (findTarget_endless (s := s₁) serves circle)
  have replaced (depth : Nat) :
      (outcome (round (expandCall (depth + 1) []) owner m) s).1 = .error .endless := by
    rw [round, outcome_get, if_neg (by rw [candidate]; exact Bool.false_ne_true), outcome_bind_ok inspected]
    refine fails_bind ?_
    rw [EditBatch.collect, body, collectFrom_of_others rfl first, EditBatch.collectFrom, StateT.run_bind]
    refine fails_bind ?_
    rw [visit_of_call call]
    exact fails_bind (expansion depth)
  have step (bound : Nat) :
      (rounds (expandCall (bound + 1) []) owner (bound + 1) 0 m s).1.result = .error .endless := by
    rw [rounds_of_error (Prod.ext (replaced bound) rfl)]
  exact step _

end

/-- Two trusted classes, each of them the superclass of the other. -/
def circlingClasses : ClassPath where
  sources := [.memory [{ name := "kotlin/A", superName := some "kotlin/B" },
    { name := "kotlin/B", superName := some "kotlin/A" }]]

/-- A circle of superclasses makes inlining go on without end. -/
theorem inlineMethod_circling :
    (inlineMethod "A" callingMethod
      ⟨{ policy := ⟨["kotlin/"]⟩, classPath := circlingClasses }, {}, {}⟩).1.result =
        .error .endless := by
  have evaluated : (Analysis.analyze "A" callingMethod).toOption.isSome = true := by
    unfold Analysis.analyze
    rw [Body.ofTable_labelTable]
    decide +kernel
  obtain ⟨frames, analyzed⟩ := Option.isSome_iff_exists.mp evaluated
  have looked : (Analysis.FrameCache.lookup {} "A" callingMethod).1 =
      .ok { revision := 0, stamp := 0, frames } := by
    rw [Analysis.FrameCache.lookup, Std.HashMap.getElem?_empty]
    dsimp only
    rw [Analysis.FrameCache.renew, Analysis.toOption_eq_some.mp analyzed]
    rfl
  have circle : search ⟨["kotlin/"]⟩ circlingClasses
      ⟨Opcode.invokevirtual, "kotlin/A", "f", "()V"⟩ (circlingClasses.breadth + 1) "kotlin/A" = none :=
    Option.isNone_iff_eq_none.mp (by decide +kernel)
  have body : callingMethod.body.toList = [⟨⟨0⟩, .var Opcode.aload 0⟩] ++
      [⟨⟨1⟩, .call Opcode.invokevirtual "kotlin/A" "f" "()V" false⟩, ⟨⟨2⟩, .simple Opcode.vreturn⟩] := rfl
  exact inlineMethod_endless rfl ⟨rfl, ClassPath.coherent_of_empty rfl⟩ body
    (by simp [CallSite.ofNode?]) rfl (by decide +kernel) circle looked

end Bytecode.Inlining
