import Bytecode.Analysis.Inspection
import Bytecode.Proofs.Analysis.Termination
import Bytecode.Proofs.Inlining.Splicing
import Bytecode.Proofs.Inlining.Targets
import Mathlib.Data.List.Nodup

/-!
# Inlining comes to an end

A call is *dead* in a session if no later round can replace it: its name is not admitted, the class
path has no body for it, or its target is barred. A class path does not change its answers and bars
are never taken back, so that dead calls stay dead. A call that is visited and left alone is dead from
then on, and the body of a target is kept only when every call in it is dead.

So a first round replaces all calls that are alive by blocks whose calls are dead, and a second round
finds nothing to replace. Targets that are being prepared have different keys, of which there are not
more than `ClassPath.methodBound` tells, and that bounds how deep preparations are nested.
-/

namespace Bytecode.Inlining

section

variable (policy : TrustPolicy) (p : ClassPath)

/-- A call that no round can replace any more. -/
def Dead (s : Session) (site : CallSite) : Prop :=
  policy.admits site.owner site.name = false ∨
    (∃ skip, search policy p site (p.breadth + 1) site.owner = some (.error skip)) ∨
    ∃ t, search policy p site (p.breadth + 1) site.owner = some (.ok t) ∧
      s.inliner.barred.contains t.key = true

/-- All calls in a body are dead. -/
def Settled (s : Session) (body : Body) : Prop :=
  ∀ site ∈ calls body, Dead policy p s site

/-- A session of a policy and a class path in which every call in a kept body is dead. -/
structure Regular (s : Session) : Prop where
  trust : s.inliner.policy = policy
  serves : Serves p s
  kept : ∀ (key : TargetKey) (m : Method), s.inliner.bodies[key]? = some m → Settled policy p s m.body

/-- Sessions stay regular, bars are never taken back, and nothing goes on without end. -/
def ending : Regime where
  holds := Regular policy p
  later := fun s s' => ∀ key, s.inliner.barred.contains key = true → s'.inliner.barred.contains key = true
  allows := (· ≠ .endless)
  refl := fun _ _ h => h
  trans := fun first second key h => second key (first key h)

end

variable {policy : TrustPolicy} {p : ClassPath} {s s' : Session} {site : CallSite}

/-- Dead calls stay dead. -/
theorem Dead.later (h : Dead policy p s site) (later : (ending policy p).later s s') :
    Dead policy p s' site :=
  h.imp_right fun h => h.imp_right fun ⟨t, found, barred⟩ => ⟨t, found, later _ barred⟩

theorem Settled.later {body : Body} (h : Settled policy p s body)
    (later : (ending policy p).later s s') : Settled policy p s' body :=
  fun site member => (h site member).later later

theorem ending_inward : (ending policy p).Inward where
  holds := fun {s s'} same h => by
    have dead {site : CallSite} (h : Dead policy p s site) : Dead policy p s' site :=
      h.later fun key barred => by rw [same]; exact barred
    exact ⟨by rw [same]; exact h.trust, by rw [Serves, same]; exact h.serves,
      fun key m found site member => dead (h.kept key m (same ▸ found) site member)⟩
  later := fun same key barred => by rw [same]; exact barred

/-- A regime of regular sessions in which dead calls stay dead. -/
structure Regime.Lasting (R : Regime) (policy : TrustPolicy) (p : ClassPath) : Prop where
  regular {s : Session} : R.holds s → Regular policy p s
  bars {s s' : Session} : R.later s s' → (ending policy p).later s s'

/-- A regime for whole rounds: it only looks at the inliner, and work may fail unless it goes on without
end. -/
structure Regime.Settling (R : Regime) (policy : TrustPolicy) (p : ClassPath) : Prop
    extends R.Lasting policy p where
  inward : R.Inward
  allows {e : Failure} : e ≠ .endless → R.allows e

theorem ending_settling : (ending policy p).Settling policy p where
  inward := ending_inward
  regular := id
  bars := id
  allows := id

/-! ## One visit -/

/-- What becomes of a call: it is left alone and dead, or it was alive and gets a body whose calls are
dead and of which something holds. -/
def Expanded (policy : TrustPolicy) (p : ClassPath) (Q : CallSite → Prop) (s : Session) (site : CallSite)
    (s' : Session) : Except Skip Method → Prop
  | .error _ => Dead policy p s' site
  | .ok callee => ¬Dead policy p s site ∧ Settled policy p s' callee.body ∧ ∀ call ∈ calls callee.body, Q call

/-- Every expansion of a call by some work is as told, if something holds of the call. -/
def Expands (R : Regime) (policy : TrustPolicy) (p : ClassPath) (Q : CallSite → Prop)
    (expand : CallSite → InSession (Except Skip Method)) : Prop :=
  ∀ s site, Q site → R.Ensures s (expand site) (Expanded policy p Q s site)

section

variable {R : Regime} {Q : CallSite → Prop} {expand : CallSite → InSession (Except Skip Method)}
  {a : Analysis.Inspection} {cursor : EditCursor} {insn : Insn} {splices : List Splice}

/-- A node that is no call is passed over. -/
theorem visit_of_other (other : CallSite.ofNode? insn.node = none) :
    (visit expand a cursor insn).run splices = pure (cursor, splices) := by
  simp only [visit, other]
  rfl

/-- The visit of a call expands it and splices the expansion. -/
theorem visit_of_call (call : CallSite.ofNode? insn.node = some site) :
    (visit expand a cursor insn).run splices = (do
      match ← expand site with
      | .error _ => return (cursor, splices)
      | .ok callee =>
        let s ← Session.tryFresh (splice site (UInt16.ofNat (a.nextFreeLocal insn.id)) callee)
        let cursor ← (MonadExcept.ofExcept (cursor.replace s.block) : InSession EditCursor)
        return (cursor, splices ++ [s])) := by
  simp only [visit, call]
  simp only [StateT.run_bind, StateT.run_monadLift, monadLift_self, bind_assoc, pure_bind]
  refine congrArg (expand site >>= ·) (funext fun r => ?_)
  cases r with
  | error skip => rfl
  | ok callee => simp

/-- What a visit requests: nothing, and then the node is no call that is alive; or a block of dead
calls in the place of a call that was alive. -/
inductive Visited (policy : TrustPolicy) (p : ClassPath) (Q : CallSite → Prop) (s : Session) (insn : Insn)
    (b : EditBatch) (splices : List Splice) (s' : Session) : EditBatch → List Splice → Prop
  | passed (dead : ∀ site, CallSite.ofNode? insn.node = some site → Dead policy p s' site) :
      Visited policy p Q s insn b splices s' b splices
  | replaced (block : List Insn) (spliced : Splice) (site : CallSite)
      (call : CallSite.ofNode? insn.node = some site) (alive : ¬Dead policy p s site)
      (dead : ∀ site ∈ callsOf (block.map Insn.node), Dead policy p s' site ∧ Q site) :
      Visited policy p Q s insn b splices s'
        { b with replacements := b.replacements.insert insn.id block } (splices ++ [spliced])

theorem replace_eq_ok {cursor' : EditCursor} {block : List Insn}
    (h : cursor.replace block = .ok cursor') : cursor' = { cursor with
      batch := { cursor.batch with
        replacements := cursor.batch.replacements.insert cursor.current block } } := by
  unfold EditCursor.replace EditBatch.replace EditBatch.request at h
  split at h <;> cases h
  rfl

theorem replace_ne_endless (block : List Insn) : cursor.replace block ≠ .error .endless := by
  unfold EditCursor.replace EditBatch.replace EditBatch.request
  split <;> exact nofun

/-- A visit of a node. -/
theorem visit_ensures (settling : R.Settling policy p) (expands : Expands R policy p Q expand) {b : EditBatch}
    (told : ∀ site, CallSite.ofNode? insn.node = some site → Q site) :
    R.Ensures s ((visit expand a ⟨b, insn.id⟩ insn).run splices) fun s' result =>
      Visited policy p Q s insn b splices s' result.1.batch result.2 := by
  cases call : CallSite.ofNode? insn.node with
  | none =>
    rw [visit_of_other call]
    exact .pure fun _ => .passed fun site other => by rw [call] at other; cases other
  | some site =>
    rw [visit_of_call call]
    refine .bind (expands s site (told site call)) fun s₁ r _ _ expanded => ?_
    cases r with
    | error skip =>
      refine .pure fun _ => .passed fun site' same => ?_
      obtain rfl : site = site' := Option.some.inj (call.symm.trans same)
      exact expanded
    | ok callee =>
      obtain ⟨alive, settled, inside⟩ := expanded
      have spliceFails (e : Failure) (supply : Supply)
          (failed : (splice site (UInt16.ofNat (a.nextFreeLocal insn.id)) callee).run supply = .error e) :
          R.allows e := settling.allows fun same => splice_ne_endless _ _ _ supply (same ▸ failed)
      refine .bind (settling.inward.tryFresh_ensures spliceFails) fun s₂ spliced _ later₂ made => ?_
      obtain ⟨-, supply, supply', made⟩ := made
      refine .bind (q := fun s' cursor' => s' = s₂ ∧ cursor' = _) (.ofExcept
        (fun cursor' replaced _ => ⟨rfl, replace_eq_ok replaced⟩)
        fun e failed => settling.allows fun same => replace_ne_endless _ (same ▸ failed))
        fun s₃ cursor' _ _ result => ?_
      obtain ⟨rfl, rfl⟩ := result
      refine .pure fun _ => .replaced _ spliced site call alive fun site' member => ?_
      rw [callsOf_splice made] at member
      exact ⟨settled.later (settling.bars later₂) site' member, inside site' member⟩

/-! ## One round -/

/-- What a traversal of nodes requests: every call that is not replaced is dead, and so are the calls
in all new blocks; and something is requested only if a call was alive. -/
structure Collected (policy : TrustPolicy) (p : ClassPath) (Q : CallSite → Prop) (s : Session)
    (insns : List Insn) (b : EditBatch) (splices : List Splice) (s' : Session) (b' : EditBatch)
    (splices' : List Splice) : Prop where
  stopped : b'.stopped = b.stopped
  inserts : b'.inserts = b.inserts
  grows : ∀ id, id ∈ b.replacements → id ∈ b'.replacements
  blocks : ∀ (id : InsnId) (block : List Insn), b'.replacements[id]? = some block →
    b.replacements[id]? = some block ∨
      ∀ site ∈ callsOf (block.map Insn.node), Dead policy p s' site ∧ Q site
  left : ∀ insn ∈ insns, insn.id ∈ b'.replacements ∨
    ∀ site, CallSite.ofNode? insn.node = some site → Dead policy p s' site
  counted : (b' = b ∧ splices' = splices) ∨ (splices.length < splices'.length ∧
    ∃ insn ∈ insns, ∃ site, CallSite.ofNode? insn.node = some site ∧ ¬Dead policy p s site)

/-- A traversal requests what its visits request. -/
theorem collectFrom_ensures (settling : R.Settling policy p) (expands : Expands R policy p Q expand) {i : Nat}
    {insns : List Insn} (told : ∀ insn ∈ insns, ∀ site, CallSite.ofNode? insn.node = some site → Q site)
    {b : EditBatch} (goesOn : b.stopped = false) :
    R.Ensures s ((EditBatch.collectFrom (fun cursor insn _ => visit expand a cursor insn) i insns b).run splices)
      fun s' result => Collected policy p Q s insns b splices s' result.1 result.2 := by
  induction insns generalizing i b splices s with
  | nil => exact .pure fun _ => ⟨rfl, rfl, fun _ h => h, fun _ _ h => .inl h, by simp, .inl ⟨rfl, rfl⟩⟩
  | cons insn insns ih =>
    obtain ⟨here, told⟩ := List.forall_mem_cons.mp told
    rw [EditBatch.collectFrom, StateT.run_bind]
    refine .bind (visit_ensures settling expands here) fun s₁ result _ later₁ visited => ?_
    obtain ⟨⟨b₁, current⟩, splices₁⟩ := result
    have goesOn₁ : b₁.stopped = false := by cases visited <;> exact goesOn
    dsimp only at visited ⊢
    rw [if_neg (by rw [goesOn₁]; exact Bool.false_ne_true)]
    refine (ih told goesOn₁).mono fun s₂ result _ later₂ collected => ?_
    have first : insn.id ∈ result.1.replacements ∨
        ∀ site, CallSite.ofNode? insn.node = some site → Dead policy p s₂ site := by
      cases visited with
      | passed dead => exact .inr fun site call => (dead site call).later (settling.bars later₂)
      | replaced block spliced site call alive dead =>
        exact .inl (collected.grows _ (Std.HashMap.mem_insert_self))
    have was {site : CallSite} (alive : ¬Dead policy p s₁ site) : ¬Dead policy p s site :=
      fun dead => alive (dead.later (settling.bars later₁))
    refine ⟨?_, ?_, ?_, ?_, List.forall_mem_cons.mpr ⟨first, collected.left⟩, ?_⟩
    · rw [collected.stopped, goesOn₁, goesOn]
    · rw [collected.inserts]
      cases visited <;> rfl
    · intro id member
      refine collected.grows id ?_
      cases visited with
      | passed dead => exact member
      | replaced => exact Std.HashMap.mem_insert.mpr (.inr member)
    · intro id block found
      refine (collected.blocks id block found).elim (fun found => ?_) .inr
      cases visited with
      | passed => exact .inl found
      | replaced new spliced site call alive dead =>
        rw [Std.HashMap.getElem?_insert] at found
        split at found
        · cases found
          exact .inr fun site member => (dead site member).imp_left (·.later (settling.bars later₂))
        · exact .inl found
    · rcases collected.counted with ⟨sameBatch, sameSplices⟩ | ⟨more, insn', member, site, call, alive⟩
      · cases visited with
        | passed => exact .inl ⟨sameBatch, sameSplices⟩
        | replaced new spliced site call alive dead =>
          refine .inr ⟨?_, insn, List.mem_cons_self, site, call, alive⟩
          rw [sameSplices, List.length_append, List.length_singleton]
          omega
      · refine .inr ⟨?_, insn', List.mem_cons_of_mem _ member, site, call, was alive⟩
        cases visited with
        | passed => exact more
        | replaced =>
          rw [List.length_append, List.length_singleton] at more
          omega

/-- The nodes of a body that has been edited without insertions come from blocks or were not replaced.
-/
theorem mem_of_apply {batch : EditBatch} {body body' : Body} {changed : Bool} {insn : Insn}
    (plain : batch.inserts = ∅) (h : batch.apply body = .ok (changed, body')) (member : insn ∈ body'.toList) :
    (insn ∈ body.toList ∧ insn.id ∉ batch.replacements) ∨
      ∃ (id : InsnId) (block : List Insn), batch.replacements[id]? = some block ∧ insn ∈ block := by
  unfold EditBatch.apply at h
  split at h
  · next empty =>
    cases h
    have none : batch.replacements.isEmpty = true := by
      have size : batch.inserts.size + batch.replacements.size = 0 := beq_iff_eq.mp empty
      rw [Std.HashMap.isEmpty_eq_size_eq_zero]
      exact beq_iff_eq.mpr (by omega)
    exact .inl ⟨member, Std.HashMap.not_mem_of_isEmpty none⟩
  · split at h
    · cases h
    · cases h
      obtain ⟨old, inside, edited⟩ := List.mem_flatMap.mp member
      rw [EditBatch.edited, plain, Std.HashMap.getElem?_empty, Option.getD_none, List.nil_append] at edited
      cases replaced : batch.replacements[old.id]? with
      | none =>
        rw [replaced] at edited
        obtain rfl := List.mem_singleton.mp edited
        exact .inl ⟨inside, fun known => by
          rw [Std.HashMap.getElem?_eq_some_getElem known] at replaced
          cases replaced⟩
      | some block =>
        rw [replaced] at edited
        exact .inr ⟨old.id, block, replaced, edited⟩

theorem apply_ne_endless (batch : EditBatch) (body : Body) : batch.apply body ≠ .error .endless := by
  unfold EditBatch.apply
  repeat' split
  all_goals exact nofun

theorem mem_calls {body : Body} : site ∈ calls body ↔
    ∃ insn ∈ body.toList, CallSite.ofNode? insn.node = some site := by
  rw [calls, callsOf, List.mem_filterMap]
  constructor
  · rintro ⟨node, member, call⟩
    obtain ⟨insn, inside, rfl⟩ := List.mem_map.mp member
    exact ⟨insn, inside, call⟩
  · rintro ⟨insn, inside, call⟩
    exact ⟨insn.node, List.mem_map_of_mem inside, call⟩

theorem lookup_ne_endless (cache : Analysis.FrameCache) (owner : String) (m : Method) :
    (cache.lookup owner m).1 ≠ .error .endless := by
  have renewed : (cache.renew owner m).1 ≠ .error .endless := by
    unfold Analysis.FrameCache.renew
    cases analyzed : Analysis.analyze owner m with
    | error e =>
      intro same
      cases same
      exact Analysis.analyze_ne_endless owner m analyzed
    | ok frames => exact nofun
  unfold Analysis.FrameCache.lookup
  split
  · exact renewed
  · split
    · exact renewed
    · split <;> exact nofun

/-- What a round does: it finds every call dead, or it replaces calls that were alive and leaves only
dead ones. -/
def Rounded (policy : TrustPolicy) (p : ClassPath) (Q : CallSite → Prop) (s : Session) (m : Method) (s' : Session)
    (result : Nat × Method) : Prop :=
  (result.1 = 0 ∧ Settled policy p s' m.body) ∨
    (0 < result.1 ∧ Settled policy p s' result.2.body ∧ ¬Settled policy p s m.body ∧
      ∀ site ∈ calls result.2.body, Q site)

theorem round_ensures (settling : R.Settling policy p) (expands : Expands R policy p Q expand) (owner : String)
    (m : Method) (told : ∀ site ∈ calls m.body, Q site) :
    R.Ensures s (round expand owner m) (Rounded policy p Q s m) := by
  have told' : ∀ insn ∈ m.body.toList, ∀ site, CallSite.ofNode? insn.node = some site → Q site :=
    fun insn inside site call => told site (mem_calls.mpr ⟨insn, inside, call⟩)
  refine .get ?_
  by_cases candidate : hasCandidate s.inliner.policy m = true
  · rw [if_neg (by rw [candidate]; exact Bool.false_ne_true)]
    have analysisFails (cache : Analysis.FrameCache) (e : Failure)
        (failed : (cache.lookup owner m).1 = .error e) : R.allows e :=
      settling.allows fun same => lookup_ne_endless cache owner m (same ▸ failed)
    refine .bind (settling.inward.analyse_ensures analysisFails) fun s₁ a _ later₁ _ => ?_
    refine .bind (collectFrom_ensures settling expands told' rfl) fun s₂ result _ later₂ collected => ?_
    obtain ⟨batch, splices⟩ := result
    have plain : batch.inserts = ∅ := collected.inserts
    dsimp only at collected ⊢
    rcases collected.counted with ⟨rfl, rfl⟩ | ⟨some_, insn, inside, site, call, alive⟩
    · refine .pure fun _ => .inl ⟨rfl, fun site member => ?_⟩
      obtain ⟨insn, inside, call⟩ := mem_calls.mp member
      refine (collected.left insn inside).elim (fun replaced => ?_) fun dead => dead site call
      exact absurd replaced Std.HashMap.not_mem_empty
    · have filled : splices.isEmpty = false := by
        cases splices with
        | nil => exact absurd some_ (Nat.not_lt_zero _)
        | cons => rfl
      rw [if_neg (by rw [filled]; exact Bool.false_ne_true)]
      refine .bind (q := fun s' result => s' = s₂ ∧ batch.apply m.body = .ok result)
        (.ofExcept (fun result applied _ => ⟨rfl, applied⟩)
          fun e failed => settling.allows fun same => apply_ne_endless batch m.body (same ▸ failed))
        fun s₃ result _ _ applied => ?_
      obtain ⟨changed, body⟩ := result
      obtain ⟨rfl, applied⟩ := applied
      -- a call that is left stood there before or is from a block
      have left : ∀ site ∈ calls body, Dead policy p s₃ site ∧ Q site := by
        intro site member
        obtain ⟨insn', inside', call'⟩ := mem_calls.mp member
        rcases mem_of_apply plain applied inside' with ⟨old, kept⟩ | ⟨id, block, replaced, new⟩
        · exact ⟨((collected.left insn' old).resolve_left kept) site call', told' insn' old site call'⟩
        · refine ((collected.blocks id block replaced).resolve_left ?_) site ?_
          · rw [Std.HashMap.getElem?_empty]
            exact nofun
          · exact List.mem_filterMap.mpr ⟨insn'.node, List.mem_map_of_mem new, call'⟩
      refine .pure fun _ => .inr ⟨some_, fun site member => (left site member).1, fun settled =>
        alive ((settled site (mem_calls.mpr ⟨insn, inside, call⟩)).later (settling.bars later₁)),
        fun site member => (left site member).2⟩
  · rw [if_pos (by rw [eq_false_of_ne_true candidate]; rfl)]
    refine .pure fun holds => .inl ⟨rfl, fun site member => .inl ?_⟩
    obtain ⟨insn, inside, call⟩ := mem_calls.mp member
    by_contra admitted
    refine candidate ?_
    rw [hasCandidate, Array.any_eq_true']
    refine ⟨insn, Array.mem_toList_iff.mp inside, ?_⟩
    rw [call, (settling.regular holds).trust]
    exact eq_true_of_ne_false admitted

/-! ## All rounds -/

/-- Rounds end with a round that fails. -/
theorem rounds_of_error {owner : String} {bound count : Nat} {m : Method} {e : Failure}
    (h : outcome (round expand owner m) s = (.error e, s')) :
    rounds expand owner (bound + 1) count m s = (⟨m, .error e⟩, s') := by
  have first : (round expand owner m).run s = (.error e, s') := h
  simp only [rounds, bind, StateT.bind, first]
  rfl

/-- Rounds end with a round that replaces nothing. -/
theorem rounds_of_none {owner : String} {bound count : Nat} {m m' : Method}
    (h : outcome (round expand owner m) s = (.ok (0, m'), s')) :
    rounds expand owner (bound + 1) count m s = (⟨m, .ok count⟩, s') := by
  have first : (round expand owner m).run s = (.ok (0, m'), s') := h
  simp only [rounds, bind, StateT.bind, first]
  rfl

/-- Rounds go on behind a round that replaces something. -/
theorem rounds_of_some {owner : String} {bound count replaced : Nat} {m m' : Method}
    (h : outcome (round expand owner m) s = (.ok (replaced + 1, m'), s')) :
    rounds expand owner (bound + 1) count m s =
      rounds expand owner bound (count + (replaced + 1)) m' s' := by
  have first : (round expand owner m).run s = (.ok (replaced + 1, m'), s') := h
  simp only [rounds, bind, StateT.bind, first]

/-- What some rounds do to a method: they end, and where they succeed all calls are dead. -/
structure Finished (R : Regime) (policy : TrustPolicy) (p : ClassPath) (Q : CallSite → Prop) (s : Session)
    (after : Attempt Method Nat × Session) : Prop where
  holds : R.holds after.2
  later : R.later s after.2
  fails : ∀ e, after.1.result = .error e → R.allows e
  settled : ∀ count, after.1.result = .ok count → Settled policy p after.2 after.1.value.body
  told : ∀ count, after.1.result = .ok count → ∀ site ∈ calls after.1.value.body, Q site

/-- Rounds end: the second one finds nothing to replace. -/
theorem rounds_finish (settling : R.Settling policy p) (expands : Expands R policy p Q expand) {owner : String}
    {bound count : Nat} {m : Method} (told : ∀ site ∈ calls m.body, Q site)
    (enough : 2 ≤ bound ∨ 1 ≤ bound ∧ Settled policy p s m.body) (holds : R.holds s) :
    Finished R policy p Q s (rounds expand owner bound count m s) := by
  induction bound generalizing s m count with
  | zero => omega
  | succ bound ih =>
    obtain ⟨holds', later, returned, fails⟩ := round_ensures settling expands owner m told holds
    generalize first : outcome (round expand owner m) s = after at holds' later returned fails
    obtain ⟨e | ⟨replaced, m'⟩, s'⟩ := after
    · rw [rounds_of_error first]
      exact ⟨holds', later, fun e' same => fails e' (congrArg Except.error (Except.error.inj same)), nofun, nofun⟩
    · rcases returned _ rfl with ⟨none, settled⟩ | ⟨some_, settled, alive, told'⟩
      · obtain rfl : replaced = 0 := none
        rw [rounds_of_none first]
        exact ⟨holds', later, nofun, fun _ _ => settled, fun _ _ => told⟩
      · obtain ⟨replaced, rfl⟩ := Nat.exists_eq_succ_of_ne_zero (Nat.ne_of_gt some_)
        rw [rounds_of_some first]
        -- the calls that are left are dead, so that one more round is the last
        have next : 1 ≤ bound ∧ Settled policy p s' m'.body := by
          refine ⟨?_, settled⟩
          rcases enough with two | ⟨-, dead⟩
          · omega
          · exact absurd dead alive
        obtain ⟨holds'', later', ended, settled', told''⟩ := ih told' (.inr next) holds'
        exact ⟨holds'', R.trans later later', ended, settled', told''⟩

/-! ## Preparation -/

/-- Renaming labels changes no call. -/
theorem ofNode?_mapLabels (f : LabelId → LabelId) (node : Node) :
    CallSite.ofNode? (node.mapLabels f) = CallSite.ofNode? node := by
  cases node <;> rfl

/-- A copy makes the calls of the original. -/
theorem calls_copy (m : Method) (supply : Supply) : calls (m.copy.run supply).1.body = calls m.body := by
  have renumbered (body : Body) (base : Nat) : calls (body.renumber base) = calls body := by
    have nodes : (body.renumber base).toList.map Insn.node = body.toList.map Insn.node := by
      apply List.ext_getElem <;> simp [Body.renumber]
    rw [calls, calls, nodes]
  have relabelled (f : LabelId → LabelId) : calls (m.mapLabels f).body = calls m.body := by
    have nodes : (m.mapLabels f).body.toList.map Insn.node =
        (m.body.toList.map Insn.node).map (Node.mapLabels f) := by
      rw [Method.mapLabels, Array.toList_map, List.map_map, List.map_map]
      rfl
    rw [calls, calls, nodes, callsOf, callsOf, List.filterMap_map]
    exact congrArg (List.filterMap · _) (funext (ofNode?_mapLabels f))
  exact (renumbered _ _).trans (relabelled _)

/-- For a target without a body, rounds work on a copy, the analysis of the copy is forgotten, and only then
does it matter whether the rounds have failed. -/
theorem outcome_prepare {target : Target} {begun ended : Session} {start : Method}
    {attempt : Attempt Method Nat} (unknown : s.inliner.bodies[target.key]? = none)
    (copied : outcome (Session.fresh target.method.copy) s = (.ok start, begun))
    (work : rounds expand target.owner begun.inliner.targetBound 0 start begun = (attempt, ended)) :
    outcome (prepare expand target) s = outcome (do
      let _ ← (MonadExcept.ofExcept attempt.result : InSession Nat)
      Session.keep target.key attempt.value
      return attempt.value) { ended with analyses := ended.analyses.invalidate start.id } := by
  rw [prepare, outcome_get]
  dsimp only
  rw [unknown]
  dsimp only
  rw [outcome_bind_ok copied, outcome_get]
  have worked : outcome (liftM (rounds expand target.owner begun.inliner.targetBound 0 start) :
      InSession (Attempt Method Nat)) begun = (.ok attempt, ended) := by
    show (match rounds expand target.owner begun.inliner.targetBound 0 start begun with
      | (a, s') => (Except.ok a, s')) = _
    rw [work]
  exact outcome_bind_ok worked

/-- The body that is kept for a target has only dead calls. -/
theorem prepare_ensures (settling : R.Settling policy p) (expands : Expands R policy p Q expand) (target : Target)
    (told : ∀ site ∈ calls target.method.body, Q site)
    (known : ∀ (s : Session) (m : Method), R.holds s → s.inliner.bodies[target.key]? = some m →
      ∀ site ∈ calls m.body, Q site)
    (keeps : ∀ (s : Session) (m : Method), Settled policy p s m.body → (∀ site ∈ calls m.body, Q site) →
      R.Ensures s (Session.keep target.key m) fun _ _ => True) :
    R.Ensures s (prepare expand target) fun s' m =>
      Settled policy p s' m.body ∧ ∀ site ∈ calls m.body, Q site := by
  refine .get ?_
  cases found : s.inliner.bodies[target.key]? with
  | some m => exact .pure fun holds => ⟨(settling.regular holds).kept _ _ found, known s m holds found⟩
  | none =>
    refine .bind settling.inward.fresh_ensures fun s₁ body _ _ copied => .get ?_
    obtain ⟨-, supply, same⟩ := copied
    have told₁ : ∀ site ∈ calls body.body, Q site := by rwa [same, calls_copy]
    have two : 2 ≤ s₁.inliner.targetBound := Nat.le_add_left ..
    refine .bind (q := fun s' (attempt : Attempt Method Nat) => (∀ e, attempt.result = .error e → R.allows e) ∧
        ∀ count, attempt.result = .ok count → Settled policy p s' attempt.value.body ∧
          ∀ site ∈ calls attempt.value.body, Q site)
      (.lift fun holds => ?_) fun s₂ attempt _ _ finished => ?_
    · obtain ⟨holds', later, fails, settled, told'⟩ := rounds_finish settling expands told₁ (.inl two) holds
      exact ⟨holds', later, fails, fun count same => ⟨settled count same, told' count same⟩⟩
    obtain ⟨ended, settled⟩ := finished
    refine .bind settling.inward.forget_ensures fun s₃ _ _ later₃ _ => ?_
    refine .bind (q := fun s' _ => Settled policy p s' attempt.value.body ∧
        ∀ site ∈ calls attempt.value.body, Q site)
      (.ofExcept (fun count same _ => (settled count same).imp_left (·.later (settling.bars later₃)))
        fun e failed => ended e failed) fun s₄ _ _ _ dead => ?_
    refine .bind (keeps s₄ attempt.value dead.1 dead.2) fun s₅ _ _ later₅ _ => .pure fun _ => ?_
    exact dead.imp_left (·.later (settling.bars later₅))

end

/-- A session in which a settled body is kept is regular. -/
theorem Regular.keep {key : TargetKey} {m : Method} (regular : Regular policy p s)
    (settled : Settled policy p s m.body) : Regular policy p
      { s with inliner := { s.inliner with bodies := s.inliner.bodies.insert key m } } where
  trust := regular.trust
  serves := regular.serves
  kept := fun key' m' found => by
    have found : (s.inliner.bodies.insert key m)[key']? = some m' := found
    rw [Std.HashMap.getElem?_insert] at found
    split at found
    · cases found
      exact settled
    · exact regular.kept key' m' found

theorem contains_bar (s : Session) (key : TargetKey) : (ending policy p).later s
    { s with inliner := { s.inliner with barred := s.inliner.barred.insert key } } := by
  intro other before
  show (s.inliner.barred.insert key).contains other = true
  rw [Std.HashSet.contains_insert, before, Bool.or_true]

/-- A session in which one more target is barred is regular. -/
theorem Regular.bar (regular : Regular policy p s) (key : TargetKey) : Regular policy p
    { s with inliner := { s.inliner with barred := s.inliner.barred.insert key } } :=
  ⟨regular.trust, regular.serves, fun other m kept => (regular.kept other m kept).later (contains_bar s key)⟩

/-- A session with another cache of classes is regular. -/
theorem Regular.serve (regular : Regular policy p s) {classPath : ClassPath}
    (serves : Serves p ⟨{ s.inliner with classPath }, s.analyses, s.supply⟩) :
    Regular policy p ⟨{ s.inliner with classPath }, s.analyses, s.supply⟩ :=
  ⟨regular.trust, serves, regular.kept⟩

/-! ## Expansion -/

/-- **How a call is expanded.** It is refused by its name; or it leads nowhere; or its target is barred, or is
being prepared and is barred now; or the body of the target is prepared and copied. -/
theorem expandCall_ensures {R : Regime} {depth : Nat} {active : List TargetKey}
    {result : Session → Except Skip Method → Prop} (lasting : R.Lasting policy p)
    (path : ∀ s classPath, Serves p ⟨{ s.inliner with classPath }, s.analyses, s.supply⟩ → R.holds s →
      R.holds ⟨{ s.inliner with classPath }, s.analyses, s.supply⟩)
    (later : ∀ s classPath, R.later s ⟨{ s.inliner with classPath }, s.analyses, s.supply⟩)
    (endless : search policy p site (p.breadth + 1) site.owner = none → R.allows .endless)
    (dead : ∀ s' skip, Dead policy p s' site → result s' (.error skip))
    (bars : ∀ s' t, search policy p site (p.breadth + 1) site.owner = some (.ok t) →
      policy.admits site.owner site.name = true → t.key ∈ active →
      R.Ensures s' (Session.bar t.key) fun _ _ => True)
    (prepares : ∀ s' t, search policy p site (p.breadth + 1) site.owner = some (.ok t) →
      policy.admits site.owner site.name = true → t.key ∉ active → ¬Dead policy p s site → R.later s s' →
      R.Ensures s' (do
        let body ← prepare (expandCall depth (t.key :: active)) t
        return .ok (← Session.fresh body.copy)) result) :
    R.Ensures s (expandCall (depth + 1) active site) result := by
  refine .of_holds fun holds => .get ?_
  have regular := lasting.regular holds
  have breadth : s.inliner.classPath.breadth = p.breadth := by
    rw [ClassPath.breadth, regular.serves.1]
    rfl
  dsimp only
  rw [regular.trust, breadth]
  by_cases admitted : policy.admits site.owner site.name = true
  · rw [if_neg (by rw [admitted]; exact Bool.false_ne_true)]
    have walk := findTarget_ensures (R := R) (s := s) (fun _ holds => (lasting.regular holds).serves) path later endless
    refine .bind walk fun s₁ found _ later₁ ⟨answer, _, _⟩ => ?_
    cases found with
    | error skip => exact .pure fun _ => dead s₁ skip (.inr (.inl ⟨skip, answer⟩))
    | ok t =>
      refine .get ?_
      by_cases barred : s₁.inliner.barred.contains t.key = true
      · rw [if_pos barred]
        exact .pure fun _ => dead s₁ .barred (.inr (.inr ⟨t, answer, barred⟩))
      · rw [if_neg barred]
        by_cases reached : active.contains t.key = true
        · rw [if_pos reached]
          -- the bar that is set here is what makes the call dead
          have now : R.Ensures s₁ (Session.bar t.key) fun s' _ => s'.inliner.barred.contains t.key = true := by
            intro holds
            obtain ⟨holds', later, -, fails⟩ := bars s₁ t answer admitted (by simpa using reached) holds
            exact ⟨holds', later, fun _ _ => Std.HashSet.contains_insert_self, fails⟩
          refine .bind now fun s₂ _ _ _ now => .pure fun _ => ?_
          exact dead s₂ .recursive (.inr (.inr ⟨t, answer, now⟩))
        · rw [if_neg reached]
          have alive : ¬Dead policy p s site := by
            rintro (refused | ⟨skip, other⟩ | ⟨t', other, before⟩)
            · rw [admitted] at refused
              cases refused
            · cases answer.symm.trans other
            · cases answer.symm.trans other
              exact barred (lasting.bars later₁ _ before)
          exact prepares s₁ t answer admitted (by simpa using reached) alive later₁
  · rw [if_pos (by rw [eq_false_of_ne_true admitted]; rfl)]
    exact .pure fun _ => dead s .untrusted (.inl (eq_false_of_ne_true admitted))

/-- Every expansion ends, as long as there may be more preparations than keys: the targets that are
being prepared have different keys. -/
theorem expandCall_expands (acyclic : Acyclic policy p) {depth : Nat} {active : List TargetKey}
    (distinct : active.Nodup) (known : active ⊆ targetKeys p)
    (deep : (targetKeys p).length < depth + active.length) :
    Expands (ending policy p) policy p (fun _ => True) (expandCall depth active) := by
  induction depth generalizing active with
  | zero =>
    have few := (List.subperm_of_subset distinct known).length_le
    omega
  | succ depth ih =>
    refine fun s site _ => expandCall_ensures ending_settling.toLasting (fun _ _ serves regular => regular.serve serves)
      (fun _ _ _ barred => barred) (fun none => absurd none (search_ne_none acyclic site site.owner))
      (fun _ _ dead => dead)
      (fun s' t _ _ _ => .modifyGet (·.bar t.key) (contains_bar s' t.key) fun _ => trivial)
      fun s' t answer _ new alive _ => ?_
    have expands : Expands (ending policy p) policy p (fun _ => True) (expandCall depth (t.key :: active)) :=
      ih (List.nodup_cons.mpr ⟨new, distinct⟩)
        (List.cons_subset.mpr ⟨(of_search answer).1, known⟩) (by rw [List.length_cons]; omega)
    have prepared : (ending policy p).Ensures s' (prepare (expandCall depth (t.key :: active)) t) fun s' m =>
        Settled policy p s' m.body ∧ ∀ site ∈ calls m.body, True :=
      prepare_ensures ending_settling expands t (fun _ _ => trivial) (fun _ _ _ _ _ _ => trivial)
        fun _ m settled _ => .modifyGet (·.keep settled) (fun _ barred => barred) fun _ => trivial
    refine .bind prepared fun s₂ m _ _ ⟨settled, _⟩ => ?_
    refine .bind ending_inward.fresh_ensures fun s₃ callee _ later₃ ⟨_, supply, copied⟩ => ?_
    refine .pure fun _ => ⟨alive, ?_, fun _ _ => trivial⟩
    rw [Settled, copied, calls_copy]
    exact settled.later later₃

/-- **Inlining ends.** Whatever was inlined before, calls in a method are inlined within the bounds,
unless superclasses pass calls on in a circle. -/
theorem inlineMethod_finish (acyclic : Acyclic policy p) (owner : String) (m : Method)
    (regular : Regular policy p s) :
    Finished (ending policy p) policy p (fun _ => True) s (inlineMethod owner m s) := by
  have bound : s.inliner.targetBound = p.methodBound + s.inliner.bodies.size + 2 := by
    rw [Inliner.targetBound, ClassPath.methodBound, regular.serves.1]
    rfl
  have keys := length_targetKeys_le p
  have expands : Expands (ending policy p) policy p (fun _ => True) (expandCall s.inliner.targetBound []) :=
    expandCall_expands acyclic .nil (List.nil_subset _) (by rw [List.length_nil]; omega)
  exact rounds_finish ending_settling expands (fun _ _ => trivial) (.inl (by omega)) regular

end Bytecode.Inlining
