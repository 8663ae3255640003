import Bytecode.Proofs.Analysis.Occupancy
import Bytecode.Proofs.Inlining.Replacements

/-!
# Calls of leaves are inlined

`Inlines` tells what a method looks like after inlining, if that succeeds. For the simplest calls it can
be told when it does. A leaf is a method without calls that could be inlined: the first call of a leaf is
replaced by a splice of a copy of a copy of the leaf (`expandCall_leaf`), and a round over a method with
one such call, whose other calls are left alone, replaces it and succeeds (`round_leaf`). What the next
round does depends on the new method: without candidates it ends (`inlineMethod_leaf`), and otherwise it
begins with an analysis, which can fail (`inlineMethod_leaf_rejected`): a callee that leaves something on its
stack is enough for that (`inlineMethod_leaving`).
-/

namespace Bytecode

namespace Node

/-- A node without operands, or an access to a variable, that is found equal to another one is equal to it. -/
theorem eq_of_beq {node expected : Node}
    (plain : (∃ op, expected = .simple op) ∨ ∃ op slot, expected = .var op slot)
    (same : (node == expected) = true) : node = expected := by
  rcases plain with ⟨op, rfl⟩ | ⟨op, slot, rfl⟩
  · cases node with
    | simple op' => exact congrArg Node.simple (beq_iff_eq.mp same)
    | _ => cases same
  · cases node with
    | var op' slot' =>
      have same : (op' == op && slot' == slot) = true := same
      rw [Bool.and_eq_true, beq_iff_eq, beq_iff_eq] at same
      rw [same.1, same.2]
    | _ => cases same

theorem eq_of_beq_all {nodes expected : List Node}
    (plain : ∀ node ∈ expected, (∃ op, node = .simple op) ∨ ∃ op slot, node = .var op slot)
    (same : (nodes == expected) = true) : nodes = expected := by
  induction expected generalizing nodes with
  | nil =>
    cases nodes with
    | nil => rfl
    | cons => cases same
  | cons e expected ih =>
    obtain ⟨first, others⟩ := List.forall_mem_cons.mp plain
    cases nodes with
    | nil => cases same
    | cons node nodes =>
      have same : (node == e && nodes == expected) = true := same
      rw [Bool.and_eq_true] at same
      rw [eq_of_beq first same.1, ih others same.2]

end Node

namespace Inlining

open Analysis (CacheEntry analyze)

variable {policy : TrustPolicy} {p : ClassPath} {s s' : Session} {site : CallSite} {t : Target}
  {expand : CallSite → InSession (Except Skip Method)}

/-- A session that differs from another one in the cache of its class path only. -/
def Resolved (p : ClassPath) (s s' : Session) : Prop :=
  Serves p s' ∧ ∃ classPath, s' = { s with inliner := { s.inliner with classPath } }

theorem Resolved.refl (serves : Serves p s) : Resolved p s s :=
  ⟨serves, s.inliner.classPath, rfl⟩

theorem Resolved.trans {s'' : Session} (first : Resolved p s s') (second : Resolved p s' s'') :
    Resolved p s s'' := by
  obtain ⟨-, path, rfl⟩ := first
  obtain ⟨serves, path', rfl⟩ := second
  exact ⟨serves, path', rfl⟩

/-- A walk finds what the search finds. -/
theorem findTarget_found {steps : Nat} {className : String} {found : Except Skip Target}
    (serves : Serves p s) (answer : search policy p site steps className = some found) :
    ∃ s', outcome (findTarget policy site steps className) s = (.ok found, s') ∧ Resolved p s s' := by
  let R : Regime := {
    holds := fun s' => Serves p s' ∧ s'.analyses = s.analyses ∧ s'.supply = s.supply
    later := fun _ _ => True
    allows := fun _ => False
    refl := fun _ => trivial
    trans := fun _ _ => trivial }
  have walk : R.Ensures s (findTarget policy site steps className) fun s' r =>
      search policy p site steps className = some r ∧
        ∃ classPath, s'.inliner = { s.inliner with classPath } :=
    findTarget_ensures (R := R) (fun _ holds => holds.1) (fun _ _ serves holds => ⟨serves, holds.2⟩)
      (fun _ _ => trivial) fun missing => by rw [answer] at missing; cases missing
  obtain ⟨⟨serves', analyses, supply⟩, -, returned, fails⟩ := walk ⟨serves, rfl, rfl⟩
  generalize outcome (findTarget policy site steps className) s = result at *
  obtain ⟨e | r, inliner, analyses', supply'⟩ := result
  · exact (fails e rfl).elim
  · obtain ⟨same, path, changed⟩ := returned r rfl
    obtain rfl : r = found := Option.some.inj (same.symm.trans answer)
    refine ⟨_, rfl, serves', path, ?_⟩
    rw [← show _ = _ from analyses, ← show _ = _ from supply, ← show _ = _ from changed]

/-- A call that is left alone, whatever has been found out about targets. -/
def Idle (policy : TrustPolicy) (p : ClassPath) (site : CallSite) : Prop :=
  policy.admits site.owner site.name = false ∨
    ∃ skip, search policy p site (p.breadth + 1) site.owner = some (.error skip)

theorem expandCall_idle (depth : Nat) (active : List TargetKey) (trust : s.inliner.policy = policy) (serves : Serves p s)
    (idle : Idle policy p site) : ∃ skip s',
      outcome (expandCall (depth + 1) active site) s = (.ok (.error skip), s') ∧ Resolved p s s' := by
  have breadth : s.inliner.classPath.breadth = p.breadth := by
    rw [ClassPath.breadth, serves.1]
    rfl
  rw [expandCall, outcome_get]
  dsimp only
  rw [trust, breadth]
  by_cases admitted : policy.admits site.owner site.name = true
  · obtain ⟨skip, answer⟩ := idle.resolve_left (by rw [admitted]; exact Bool.false_ne_true.symm)
    obtain ⟨s', walked, resolved⟩ := findTarget_found serves answer
    refine ⟨skip, s', ?_, resolved⟩
    rw [if_neg (by rw [admitted]; exact Bool.false_ne_true), outcome_bind_ok walked]
    rfl
  · refine ⟨.untrusted, s, ?_, .refl serves⟩
    rw [if_pos (by rw [eq_false_of_ne_true admitted]; rfl)]
    rfl

/-! ## Leaves -/

theorem hasCandidate_iff {m : Method} :
    hasCandidate policy m = true ↔ ∃ site ∈ calls m.body, policy.admits site.owner site.name = true := by
  rw [hasCandidate, Array.any_eq_true']
  constructor
  · rintro ⟨insn, member, admitted⟩
    cases call : CallSite.ofNode? insn.node with
    | none =>
      rw [call] at admitted
      cases admitted
    | some site =>
      rw [call] at admitted
      exact ⟨site, mem_calls.mpr ⟨insn, Array.mem_toList_iff.mpr member, call⟩, admitted⟩
  · rintro ⟨site, member, admitted⟩
    obtain ⟨insn, inside, call⟩ := mem_calls.mp member
    exact ⟨insn, Array.mem_toList_iff.mp inside, by rw [call]; exact admitted⟩

/-- A method without candidates is left as it is. -/
theorem round_of_no_candidate {owner : String} {m : Method} (trust : s.inliner.policy = policy)
    (leaf : hasCandidate policy m = false) : outcome (round expand owner m) s = (.ok (0, m), s) := by
  rw [round, outcome_get, trust, if_pos (by rw [leaf]; rfl)]
  rfl

theorem calls_copyAt (m : Method) (n : Nat) : calls (m.copyAt n).body = calls m.body := by
  rw [← calls_copy m ⟨n⟩, Method.copy_run]

theorem hasCandidate_copyAt (m : Method) (n : Nat) :
    hasCandidate policy (m.copyAt n) = hasCandidate policy m := by
  rw [Bool.eq_iff_iff, hasCandidate_iff, hasCandidate_iff, calls_copyAt]

/-- A leaf is prepared by copying it. -/
theorem prepare_leaf (trust : s.inliner.policy = policy) (unknown : s.inliner.bodies[t.key]? = none)
    (leaf : hasCandidate policy t.method = false) :
    outcome (prepare expand t) s = (.ok (t.method.copyAt s.supply.next),
      { inliner := { s.inliner with
          bodies := s.inliner.bodies.insert t.key (t.method.copyAt s.supply.next) }
        analyses := s.analyses.invalidate (t.method.copyAt s.supply.next).id
        supply := ⟨s.supply.next + t.method.copyCount⟩ }) := by
  obtain ⟨inliner, analyses, ⟨n⟩⟩ := s
  have copied : outcome (Session.fresh t.method.copy) ⟨inliner, analyses, ⟨n⟩⟩ =
      (.ok (t.method.copyAt n), ⟨inliner, analyses, ⟨n + t.method.copyCount⟩⟩) := by
    show (Except.ok (t.method.copy.run ⟨n⟩).1, Session.mk inliner analyses (t.method.copy.run ⟨n⟩).2) = _
    rw [Method.copy_run]
  have still : hasCandidate policy (t.method.copyAt n) = false := by rw [hasCandidate_copyAt, leaf]
  have done : rounds expand t.owner inliner.targetBound 0 (t.method.copyAt n)
      ⟨inliner, analyses, ⟨n + t.method.copyCount⟩⟩ =
      (⟨t.method.copyAt n, .ok 0⟩, ⟨inliner, analyses, ⟨n + t.method.copyCount⟩⟩) :=
    rounds_of_none (round_of_no_candidate trust still)
  rw [outcome_prepare unknown copied done]
  rfl

/-- A first call of a leaf is answered with a copy of the copy that is kept for it. -/
theorem expandCall_leaf (depth : Nat) (active : List TargetKey) (trust : s.inliner.policy = policy) (serves : Serves p s)
    (admitted : policy.admits site.owner site.name = true)
    (found : search policy p site (p.breadth + 1) site.owner = some (.ok t))
    (unknown : s.inliner.bodies[t.key]? = none) (free : s.inliner.barred.contains t.key = false)
    (idle : active.contains t.key = false) (leaf : hasCandidate policy t.method = false) :
    ∃ s' body n, body = t.method.copyAt s.supply.next ∧ n = s.supply.next + t.method.copyCount ∧
      outcome (expandCall (depth + 1) active site) s = (.ok (.ok (body.copyAt n)), s') ∧
      s'.inliner.policy = policy ∧ Serves p s' ∧ s'.analyses = s.analyses.invalidate body.id ∧
      s'.supply = ⟨n + body.copyCount⟩ := by
  obtain ⟨inliner, analyses, ⟨k⟩⟩ := s
  dsimp only at trust unknown free ⊢
  have breadth : inliner.classPath.breadth = p.breadth := by
    rw [ClassPath.breadth, serves.1]
    rfl
  obtain ⟨_, walked, serves₁, path, rfl⟩ := findTarget_found serves found
  let body := t.method.copyAt k
  let n := k + t.method.copyCount
  let inliner' : Inliner := { inliner with classPath := path, bodies := inliner.bodies.insert t.key body }
  have prepared : outcome (prepare (expandCall depth (t.key :: active)) t)
      ⟨{ inliner with classPath := path }, analyses, ⟨k⟩⟩ =
      (.ok body, ⟨inliner', analyses.invalidate body.id, ⟨n⟩⟩) :=
    prepare_leaf (s := ⟨{ inliner with classPath := path }, analyses, ⟨k⟩⟩) trust unknown leaf
  have copied : outcome (Session.fresh body.copy) ⟨inliner', analyses.invalidate body.id, ⟨n⟩⟩ =
      (.ok (body.copyAt n), ⟨inliner', analyses.invalidate body.id, ⟨n + body.copyCount⟩⟩) := by
    show (Except.ok (body.copy.run ⟨n⟩).1, Session.mk inliner' _ (body.copy.run ⟨n⟩).2) = _
    rw [Method.copy_run]
  refine ⟨⟨inliner', analyses.invalidate body.id, ⟨n + body.copyCount⟩⟩, body, n, rfl, rfl, ?_, trust, serves₁,
    rfl, rfl⟩
  rw [expandCall, outcome_get]
  dsimp only
  rw [trust, breadth, if_neg (by rw [admitted]; exact Bool.false_ne_true), outcome_bind_ok walked]
  dsimp only
  rw [outcome_get, if_neg (by rw [free]; exact Bool.false_ne_true),
    if_neg (by rw [idle]; exact Bool.false_ne_true), outcome_bind_ok prepared, outcome_bind_ok copied]
  rfl

/-! ## A round with one call of a leaf -/

section

variable {a : Analysis.Inspection} {insn : Insn} {insns before behind : List Insn} {owner : String} {m : Method}

/-- A node at which nothing is replaced: no call, or one that is left alone. -/
def Passed (policy : TrustPolicy) (p : ClassPath) (insn : Insn) : Prop :=
  ∀ site, CallSite.ofNode? insn.node = some site → Idle policy p site

/-- A walk replaces nothing at nodes that it passes. -/
theorem mapM_passed (depth : Nat) (active : List TargetKey) (a : Analysis.Inspection) (trust : s.inliner.policy = policy) (serves : Serves p s)
    (passed : ∀ insn ∈ insns, Passed policy p insn) :
    ∃ s', outcome (insns.mapM (expansion (expandCall (depth + 1) active) a)) s =
      (.ok (insns.map fun _ => none), s') ∧ Resolved p s s' := by
  induction insns generalizing s with
  | nil => exact ⟨s, rfl, .refl serves⟩
  | cons insn insns ih =>
    obtain ⟨first, rest⟩ := List.forall_mem_cons.mp passed
    obtain ⟨s₁, left, resolved⟩ : ∃ s₁, outcome (expansion (expandCall (depth + 1) active) a insn) s =
        (.ok none, s₁) ∧ Resolved p s s₁ := by
      rw [expansion]
      cases call : CallSite.ofNode? insn.node with
      | none => exact ⟨s, rfl, .refl serves⟩
      | some site =>
        obtain ⟨skip, s₁, answered, resolved⟩ :=
          expandCall_idle depth active trust serves (first site call)
        exact ⟨s₁, by rw [outcome_bind_ok answered]; rfl, resolved⟩
    have trust₁ : s₁.inliner.policy = policy := by
      obtain ⟨-, path, rfl⟩ := resolved
      exact trust
    obtain ⟨s₂, others, resolved'⟩ := ih trust₁ resolved.1 rest
    refine ⟨s₂, ?_, resolved.trans resolved'⟩
    rw [List.mapM_cons, outcome_bind_ok left, outcome_bind_ok others]
    rfl

/-- An analysis of a method gives the frames, and what is kept then is of that method. -/
theorem analyse_eq {c : Analysis.FrameCache} (inliner : Inliner) (supply : Supply) (current : Current owner m c) :
    ∃ c', outcome (Session.analyse owner m) ⟨inliner, c, supply⟩ =
      ((analyze owner m).map (⟨owner, m, ·⟩), ⟨inliner, c', supply⟩) ∧ Current owner m c' := by
  obtain ⟨found, current', -⟩ := current.lookup
  refine ⟨(c.lookup owner m).2, ?_, current'⟩
  rw [Session.analyse, outcome_modifyGet]
  dsimp only
  rw [← found]
  cases (c.lookup owner m).1 <;> rfl

/-- A call of a leaf among nodes that are passed: what the call asks for, and what has been found out. -/
structure LeafCall (policy : TrustPolicy) (p : ClassPath) (owner : String) (m : Method) (s : Session)
    (before : List Insn) (insn : Insn) (behind : List Insn) (site : CallSite) (t : Target) : Prop where
  trust : s.inliner.policy = policy
  serves : Serves p s
  current : Current owner m s.analyses
  body : m.body.toList = before ++ insn :: behind
  distinct : (m.body.toList.map Insn.id).Nodup
  others : ∀ other ∈ before ++ behind, Passed policy p other
  call : CallSite.ofNode? insn.node = some site
  admitted : policy.admits site.owner site.name = true
  found : search policy p site (p.breadth + 1) site.owner = some (.ok t)
  unknown : s.inliner.bodies[t.key]? = none
  free : s.inliner.barred.contains t.key = false
  leaf : hasCandidate policy t.method = false

/-- A call of a leaf in the first method that an inliner works on. -/
theorem LeafCall.of_fresh {supply : Supply} (uncached : p.cache = []) (body : m.body.toList = before ++ insn :: behind)
    (distinct : (m.body.toList.map Insn.id).Nodup) (others : ∀ other ∈ before ++ behind, Passed policy p other)
    (call : CallSite.ofNode? insn.node = some site) (admitted : policy.admits site.owner site.name = true)
    (found : search policy p site (p.breadth + 1) site.owner = some (.ok t))
    (leaf : hasCandidate policy t.method = false) :
    LeafCall policy p owner m ⟨{ policy, classPath := p }, {}, supply⟩ before insn behind site t where
  trust := rfl
  serves := ⟨rfl, ClassPath.coherent_of_empty uncached⟩
  current := fun entry known => by
    rw [Std.HashMap.getElem?_empty] at known
    cases known
  body := body
  distinct := distinct
  others := others
  call := call
  admitted := admitted
  found := found
  unknown := Std.HashMap.getElem?_empty
  free := Std.HashSet.contains_empty
  leaf := leaf

/-- The splice for a call of a leaf: with identities from the supply of the session on, the leaf is copied
twice before. -/
def leafSplice (s : Session) (site : CallSite) (slot : Nat) (t : Target) : Except Failure (Splice × Supply) :=
  let body := t.method.copyAt s.supply.next
  let n := s.supply.next + t.method.copyCount
  (splice site (UInt16.ofNat slot) (body.copyAt n)).run ⟨n + body.copyCount⟩

theorem splicedBody_leaf (before behind : List Insn) (insn : Insn) (sp : Splice) :
    splicedBody (before ++ insn :: behind) (before.map (fun _ => none) ++ some sp :: behind.map fun _ => none) =
      before ++ sp.block ++ behind := by
  induction before with
  | nil =>
    have same : splicedBody behind (behind.map fun _ => none) = behind :=
      splicedBody_of_none (List.length_map _) (by simp [List.filterMap_map])
    rw [List.nil_append, List.map_nil, List.nil_append, splicedBody_cons, same]
    rfl
  | cons first before ih =>
    rw [List.cons_append, List.map_cons, List.cons_append, splicedBody_cons, ih]
    rfl

/-- A walk over nodes with one call of a leaf replaces that call. -/
theorem mapM_leaf (depth : Nat) {c : Analysis.FrameCache} {sp : Splice} {supply : Supply}
    (h : LeafCall policy p owner m s before insn behind site t)
    (made : leafSplice s site (a.nextFreeLocal insn.id) t = .ok (sp, supply)) :
    ∃ s', outcome ((before ++ insn :: behind).mapM (expansion (expandCall (depth + 1) []) a))
        ⟨s.inliner, c, s.supply⟩ =
          (.ok (before.map (fun _ => none) ++ some sp :: behind.map fun _ => none), s') ∧
      s'.inliner.policy = policy ∧ s'.analyses = c.invalidate (t.method.copyAt s.supply.next).id := by
  obtain ⟨_, front, serves₁, path, rfl⟩ := mapM_passed (s := ⟨s.inliner, c, s.supply⟩) depth [] a
    h.trust h.serves fun other member => h.others other (List.mem_append_left _ member)
  obtain ⟨s₂, body, n, rfl, rfl, answered, trust₂, serves₂, analyses₂, supply₂⟩ :=
    expandCall_leaf (s := ⟨{ s.inliner with classPath := path }, c, s.supply⟩) depth []
      h.trust serves₁ h.admitted h.found h.unknown h.free rfl h.leaf
  let s₃ : Session := { s₂ with supply }
  have replaced : outcome (expansion (expandCall (depth + 1) []) a insn)
      ⟨{ s.inliner with classPath := path }, c, s.supply⟩ = (.ok (some sp), s₃) := by
    have fresh : outcome (Session.tryFresh (splice site (UInt16.ofNat (a.nextFreeLocal insn.id))
        ((t.method.copyAt s.supply.next).copyAt (s.supply.next + t.method.copyCount)))) s₂ = (.ok sp, s₃) := by
      rw [Session.tryFresh, outcome_get, supply₂]
      have made : (splice site _ _).run _ = _ := made
      rw [made]
      rfl
    rw [expansion]
    simp only [h.call]
    rw [outcome_bind_ok answered]
    dsimp only
    rw [map_eq_pure_bind, outcome_bind_ok fresh]
    rfl
  obtain ⟨s₄, back, -, path', rfl⟩ := mapM_passed (s := s₃) depth [] a trust₂
    serves₂ fun other member => h.others other (List.mem_append_right _ member)
  refine ⟨{ s₃ with inliner := { s₃.inliner with classPath := path' } }, ?_, trust₂, analyses₂⟩
  rw [List.mapM_append, outcome_bind_ok front, List.mapM_cons, bind_assoc, outcome_bind_ok replaced, bind_assoc,
    outcome_bind_ok back]
  rfl

/-- A round replaces a call of a leaf. -/
theorem round_leaf (depth : Nat) {frames : Analysis.Frames} {sp : Splice} {supply : Supply}
    (h : LeafCall policy p owner m s before insn behind site t) (analyzed : analyze owner m = .ok frames)
    (made : leafSplice s site (Analysis.Inspection.nextFreeLocal ⟨owner, m, frames⟩ insn.id) t =
      .ok (sp, supply)) :
    ∃ s', outcome (round (expandCall (depth + 1) []) owner m) s =
        (.ok (1, withSplices m (before ++ sp.block ++ behind).toArray [sp]), s') ∧
      s'.inliner.policy = policy ∧ Current owner m s'.analyses := by
  have candidate : hasCandidate s.inliner.policy m = true := by
    rw [h.trust]
    refine hasCandidate_iff.mpr ⟨site, mem_calls.mpr ⟨insn, ?_, h.call⟩, h.admitted⟩
    rw [h.body]
    exact List.mem_append_right _ List.mem_cons_self
  obtain ⟨c, inspected, current⟩ := analyse_eq s.inliner s.supply h.current
  obtain ⟨s', walked, trust, analyses⟩ := mapM_leaf (c := c) depth h made
  refine ⟨s', ?_, trust, ?_⟩
  · rw [round_eq h.distinct, walk, outcome_get, if_neg (by rw [candidate]; exact Bool.false_ne_true)]
    rw [analyzed] at inspected
    rw [outcome_bind_ok inspected, h.body, outcome_bind_ok walked, splicedBody_leaf]
    simp
    rfl
  · intro entry known
    rw [analyses] at known
    refine current entry ?_
    have known : (c.entries.erase _)[m.id]? = some entry := known
    rw [Std.HashMap.getElem?_erase] at known
    split at known
    · cases known
    · exact known

/-- What could be inlined in the new method stood beside the call of the leaf. -/
theorem hasCandidate_leaf {slot : Nat} {sp : Splice} {supply : Supply}
    (leaf : hasCandidate policy t.method = false) (made : leafSplice s site slot t = .ok (sp, supply)) :
    hasCandidate policy (withSplices m (before ++ sp.block ++ behind).toArray [sp]) = true ↔
      ∃ other ∈ before ++ behind, ∃ site, CallSite.ofNode? other.node = some site ∧
        policy.admits site.owner site.name = true := by
  have block : callsOf (sp.block.map Insn.node) = calls t.method.body := by
    rw [callsOf_splice made, calls_copyAt, calls_copyAt]
  have inside {x : Insn} {site : CallSite} (member : x ∈ sp.block) (call : CallSite.ofNode? x.node = some site) :
      ¬policy.admits site.owner site.name = true := by
    intro admitted
    have listed : site ∈ callsOf (sp.block.map Insn.node) :=
      List.mem_filterMap.mpr ⟨x.node, List.mem_map_of_mem member, call⟩
    rw [block] at listed
    rw [hasCandidate_iff.mpr ⟨site, listed, admitted⟩] at leaf
    cases leaf
  rw [hasCandidate_iff]
  constructor
  · rintro ⟨site, listed, admitted⟩
    obtain ⟨x, member, call⟩ := mem_calls.mp listed
    have member : x ∈ before ++ sp.block ++ behind := member
    rw [List.append_assoc, List.mem_append, List.mem_append] at member
    rcases member with front | middle | back
    · exact ⟨x, List.mem_append_left _ front, site, call, admitted⟩
    · exact absurd admitted (inside middle call)
    · exact ⟨x, List.mem_append_right _ back, site, call, admitted⟩
  · rintro ⟨x, member, site, call, admitted⟩
    refine ⟨site, mem_calls.mpr ⟨x, ?_, call⟩, admitted⟩
    show x ∈ before ++ sp.block ++ behind
    rw [List.append_assoc, List.mem_append, List.mem_append]
    rcases List.mem_append.mp member with front | back
    · exact .inl front
    · exact .inr (.inr back)

/-- A call of a leaf is inlined. If nothing in the new method could be inlined, that is all. -/
theorem inlineMethod_leaf {frames : Analysis.Frames} {sp : Splice} {supply : Supply}
    (h : LeafCall policy p owner m s before insn behind site t) (analyzed : analyze owner m = .ok frames)
    (made : leafSplice s site (Analysis.Inspection.nextFreeLocal ⟨owner, m, frames⟩ insn.id) t =
      .ok (sp, supply))
    (done : ∀ other ∈ before ++ behind, ∀ site, CallSite.ofNode? other.node = some site →
      policy.admits site.owner site.name = false) :
    (inlineMethod owner m s).1 = ⟨withSplices m (before ++ sp.block ++ behind).toArray [sp], .ok 1⟩ := by
  obtain ⟨bound, two⟩ : ∃ bound, s.inliner.targetBound = bound + 2 := ⟨_, rfl⟩
  obtain ⟨s', replaced, trust, -⟩ := round_leaf (bound + 1) h analyzed made
  show (rounds (expandCall s.inliner.targetBound []) owner s.inliner.targetBound 0 m s).1 = _
  have none_ : hasCandidate policy (withSplices m (before ++ sp.block ++ behind).toArray [sp]) = false := by
    refine eq_false_of_ne_true fun candidate => ?_
    obtain ⟨other, member, site, call, admitted⟩ := (hasCandidate_leaf h.leaf made).mp candidate
    rw [done other member site call] at admitted
    cases admitted
  rw [two, rounds_of_some replaced, rounds_of_none (round_of_no_candidate trust none_)]

/-- A call of a leaf is inlined. If something in the new method could be inlined and the analysis rejects the
new method, inlining fails and leaves the method with the replaced call. -/
theorem inlineMethod_leaf_rejected {frames : Analysis.Frames} {sp : Splice} {supply : Supply} {e : Failure}
    (h : LeafCall policy p owner m s before insn behind site t) (analyzed : analyze owner m = .ok frames)
    (made : leafSplice s site (Analysis.Inspection.nextFreeLocal ⟨owner, m, frames⟩ insn.id) t =
      .ok (sp, supply))
    (more : ∃ other ∈ before ++ behind, ∃ site, CallSite.ofNode? other.node = some site ∧
      policy.admits site.owner site.name = true)
    (rejected : analyze owner (withSplices m (before ++ sp.block ++ behind).toArray [sp]) = .error e) :
    (inlineMethod owner m s).1 = ⟨withSplices m (before ++ sp.block ++ behind).toArray [sp], .error e⟩ := by
  obtain ⟨bound, two⟩ : ∃ bound, s.inliner.targetBound = bound + 2 := ⟨_, rfl⟩
  obtain ⟨s', replaced, trust, current⟩ := round_leaf (bound + 1) h analyzed made
  show (rounds (expandCall s.inliner.targetBound []) owner s.inliner.targetBound 0 m s).1 = _
  rw [two]
  have more := (hasCandidate_leaf (m := m) h.leaf made).mpr more
  generalize after : withSplices m (before ++ sp.block ++ behind).toArray [sp] = m' at replaced more rejected ⊢
  -- the kept analysis is of an older revision
  have outdated : Current owner m' s'.analyses := by
    intro entry known
    refine .inl ?_
    subst after
    show entry.revision < m.revision + 1
    rcases current entry known with older | ⟨same, -⟩ <;> omega
  obtain ⟨c, inspected, -⟩ := analyse_eq s'.inliner s'.supply outdated
  have failed : outcome (round (expandCall (bound + 1 + 1) []) owner m') s' = (.error e, ⟨s'.inliner, c, s'.supply⟩) := by
    rw [round, outcome_get, trust, if_neg (by rw [more]; exact Bool.false_ne_true), outcome_bind]
    rw [rejected] at inspected
    rw [show outcome (Session.analyse owner m') s' = _ from inspected]
    rfl
  rw [rounds_of_some replaced, rounds_of_error failed]

end

/-! ## What a callee leaves on its stack -/

/-- A copy of a method without labels takes an identity for each node and one for itself. -/
theorem leafSplice_of_bare {s : Session} {site : CallSite} {slot : Nat} {t : Target}
    (bare : t.method.labels = []) :
    leafSplice s site slot t =
      (splice site (UInt16.ofNat slot) ((t.method.copyAt s.supply.next).copyAt
        (s.supply.next + (t.method.body.size + 1)))).run
        ⟨s.supply.next + (t.method.body.size + 1) + (t.method.body.size + 1)⟩ := by
  have count : t.method.copyCount = t.method.body.size + 1 := by
    rw [Method.copyCount, bare]
    rfl
  have count' : (t.method.copyAt s.supply.next).copyCount = t.method.body.size + 1 := by
    rw [Method.copyCount, Method.labels_copyAt, bare, ← Array.length_toList, Method.toList_copyAt,
      List.length_mapIdx, Array.length_toList]
    rfl
  rw [leafSplice, count, count']

/-- A method that leaves a number on its stack. -/
def leavingMethod : Method where
  id := ⟨1⟩
  access := 9
  name := "f"
  descriptor := "()V"
  body := Analysis.numbered [.simple 0x04, .simple Opcode.vreturn]

/-- A trusted class with a method that leaves a number on its stack. -/
def leavingClasses : ClassPath where
  sources := [.memory [{ name := "kotlin/F", superName := some "java/lang/Object", methods := [leavingMethod] }]]

/-- A loop with a call of that method and a call of one that is not found. -/
def loopingMethod : Method where
  id := ⟨0⟩
  access := 9
  name := "m"
  descriptor := "()V"
  body := Analysis.numbered [.label ⟨4⟩, .call Opcode.invokestatic "kotlin/F" "f" "()V" false,
    .call Opcode.invokestatic "kotlin/Missing" "g" "()V" false, .jump Opcode.goto ⟨4⟩]

/-- What the callee leaves on its stack grows with every iteration: the method with the block cannot be
analysed any more, and inlining fails in the next round. -/
theorem inlineMethod_leaving : ∃ frames frames' m' e, analyze "A" loopingMethod = .ok frames ∧
    analyze "kotlin/F" leavingMethod = .ok frames' ∧ (inlineMethod "A" loopingMethod
      ⟨{ policy := ⟨["kotlin/"]⟩, classPath := leavingClasses }, {}, ⟨5⟩⟩).1 = ⟨m', .error e⟩ ∧
    analyze "A" m' = .error e := by
  have caller : (analyze "A" loopingMethod).toOption.isSome = true := by
    unfold analyze
    rw [Body.ofTable_labelTable]
    decide +kernel
  have callee : (analyze "kotlin/F" leavingMethod).toOption.isSome = true := by
    unfold analyze
    rw [Body.ofTable_labelTable]
    decide +kernel
  obtain ⟨frames, analyzed⟩ := Option.isSome_iff_exists.mp caller
  obtain ⟨frames', analyzed'⟩ := Option.isSome_iff_exists.mp callee
  have analyzed := Analysis.toOption_eq_some.mp analyzed
  let s : Session := ⟨{ policy := ⟨["kotlin/"]⟩, classPath := leavingClasses }, {}, ⟨5⟩⟩
  let site : CallSite := ⟨Opcode.invokestatic, "kotlin/F", "f", "()V"⟩
  let t : Target := ⟨"kotlin/F", leavingMethod⟩
  have parsed : (MethodDescriptor.parse "()V").toOption = some ⟨[], .void⟩ := by decide +kernel
  have parsed := Analysis.toOption_eq_some.mp parsed
  have free : Analysis.Inspection.nextFreeLocal ⟨"A", loopingMethod, frames⟩ ⟨1⟩ = 0 :=
    Analysis.nextFreeLocal_eq_slotsOf analyzed parsed (by decide) _
  have evaluated : (leafSplice s site 0 t).toOption.any (fun made =>
      made.1.block.map Insn.node == [.simple 0x04] && made.1.block.map Insn.id == [⟨8⟩] &&
        made.1.exceptions.isEmpty && made.1.localVariables.isEmpty) = true := by
    rw [leafSplice_of_bare (show t.method.labels = [] from rfl)]
    decide +kernel
  obtain ⟨⟨⟨block, exceptions, named⟩, supply⟩, made, shape⟩ := Analysis.exists_of_any evaluated
  simp only [Bool.and_eq_true, List.isEmpty_iff] at shape
  obtain ⟨⟨⟨nodes, ids⟩, rfl⟩, rfl⟩ := shape
  obtain rfl : block = [⟨⟨8⟩, .simple 0x04⟩] := by
    have nodes := Node.eq_of_beq_all (by simp) nodes
    obtain ⟨⟨id, node⟩, rfl, rfl⟩ := List.map_eq_singleton_iff.mp nodes
    cases beq_iff_eq.mp ids
    rfl
  let before : List Insn := [⟨⟨0⟩, .label ⟨4⟩⟩]
  let insn : Insn := ⟨⟨1⟩, .call Opcode.invokestatic "kotlin/F" "f" "()V" false⟩
  let missing : Insn := ⟨⟨2⟩, .call Opcode.invokestatic "kotlin/Missing" "g" "()V" false⟩
  let jump : Insn := ⟨⟨3⟩, .jump Opcode.goto ⟨4⟩⟩
  have call : LeafCall ⟨["kotlin/"]⟩ leavingClasses "A" loopingMethod s before insn [missing, jump] site t := by
    refine .of_fresh rfl rfl (by decide) (fun other member => ?_) rfl (by decide +kernel) rfl (by decide +kernel)
    simp only [before, List.cons_append, List.nil_append, List.mem_cons, List.not_mem_nil, or_false] at member
    rcases member with rfl | rfl | rfl
    · exact fun _ call => by cases call
    · rintro _ ⟨⟩
      exact .inr ⟨.unresolved, rfl⟩
    · exact fun _ call => by cases call
  let sp : Splice := ⟨[⟨⟨8⟩, .simple 0x04⟩], [], []⟩
  let m' := withSplices loopingMethod (before ++ sp.block ++ [missing, jump]).toArray [sp]
  have fails : (analyze "A" m').toOption.isNone = true := by
    unfold analyze
    rw [Body.ofTable_labelTable]
    decide +kernel
  obtain ⟨e, rejected⟩ : ∃ e, analyze "A" m' = .error e := by
    cases result : analyze "A" m' with
    | error e => exact ⟨e, rfl⟩
    | ok r =>
      rw [result] at fails
      cases fails
  exact ⟨frames, frames', m', e, analyzed, Analysis.toOption_eq_some.mp analyzed',
    inlineMethod_leaf_rejected call analyzed (show leafSplice s site _ t = .ok (sp, supply) by rw [free]; exact made)
      ⟨missing, by simp, ⟨Opcode.invokestatic, "kotlin/Missing", "g", "()V"⟩, rfl, by decide +kernel⟩ rejected,
    rejected⟩

end Inlining

end Bytecode
