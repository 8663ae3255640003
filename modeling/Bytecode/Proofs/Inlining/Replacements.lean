import Bytecode.Proofs.Analysis.CachedFrames
import Bytecode.Proofs.Inlining.Edits
import Bytecode.Proofs.Inlining.Ending
import Bytecode.Proofs.Renaming.Splices

/-!
# What inlining makes of a method

Inlining is one round: the first round replaces every call that can be replaced, and what it puts there
has no such call, so that the second round finds nothing to do. `Inlines` says what this one round makes
of a method. Calls are replaced by splices of copies of kept bodies, each copy and each splice with
identities of its own (`Replaced`), and slots are counted from the analysis of the method.

What is known of the kept bodies is a parameter. If it holds of whatever inlining makes of a copy of a
target, then it holds of all bodies by which calls are ever replaced: `inlineAll_inlines` takes this
through any number of methods.
-/

namespace Bytecode.Inlining

open Analysis (analyze CacheEntry FrameCache)

/-! ## Bodies with blocks -/

theorem splicedBody_cons (insn : Insn) (insns : List Insn) (o : Option Splice) (os : List (Option Splice)) :
    splicedBody (insn :: insns) (o :: os) = spliced insn o ++ splicedBody insns os :=
  rfl

/-- The nodes of a spliced body stood there or are in a block. -/
theorem mem_splicedBody {insn : Insn} {insns : List Insn} {os : List (Option Splice)}
    (member : insn ∈ splicedBody insns os) : insn ∈ insns ∨ ∃ s, some s ∈ os ∧ insn ∈ s.block := by
  obtain ⟨block, inside, here⟩ := List.mem_flatten.mp member
  obtain ⟨i, h, rfl⟩ := List.getElem_of_mem inside
  rw [List.getElem_zipWith] at here
  rw [List.length_zipWith] at h
  cases there : os[i] with
  | none =>
    rw [there] at here
    exact .inl (List.mem_singleton.mp here ▸ List.getElem_mem _)
  | some s =>
    rw [there] at here
    exact .inr ⟨s, there ▸ List.getElem_mem _, here⟩

theorem splicedBody_of_none {insns : List Insn} {os : List (Option Splice)}
    (length : os.length = insns.length) (none : os.filterMap id = []) : splicedBody insns os = insns := by
  induction insns generalizing os with
  | nil => rfl
  | cons insn insns ih =>
    cases os with
    | nil => cases length
    | cons o os =>
      cases o with
      | some s => cases none
      | none => exact congrArg (insn :: ·) (ih (Nat.succ.inj length) none)

/-- A method after some nodes were replaced mentions what it mentioned before and what the splices
mention. -/
theorem identities_withSplices {m : Method} {os : List (Option Splice)} {x : Nat}
    (mentioned : x ∈ (withSplices m (splicedBody m.body.toList os).toArray (os.filterMap id)).identities) :
    x ∈ m.identities ∨ ∃ s, some s ∈ os ∧ x ∈ s.identities := by
  have made {s : Splice} (member : s ∈ os.filterMap id) : some s ∈ os := by
    obtain ⟨o, inside, same⟩ := List.mem_filterMap.mp member
    exact (show o = some s from same) ▸ inside
  simp only [Method.identities, withSplices, Method.markModified, List.toList_toArray] at mentioned
  rcases List.mem_append.mp mentioned with inBody | inTables
  · obtain ⟨insn, member, here⟩ := List.mem_flatMap.mp inBody
    rcases mem_splicedBody member with old | ⟨s, there, inside⟩
    · exact .inl (List.mem_append_left _ (List.mem_flatMap.mpr ⟨insn, old, here⟩))
    · exact .inr ⟨s, there, List.mem_append_left _ (List.mem_flatMap.mpr ⟨insn, inside, here⟩)⟩
  · obtain ⟨l, member, same⟩ := mem_tableIdentities.mp inTables
    simp only [List.flatMap_append, List.mem_append, List.mem_flatMap] at member
    have old (h : l ∈ m.exceptions.flatMap ExceptionRange.labels ++ m.localVariables.flatMap LocalVariable.labels) :
        x ∈ m.identities := List.mem_append_right _ (mem_tableIdentities.mpr ⟨l, h, same⟩)
    have new {s : Splice} (there : s ∈ os.filterMap id)
        (h : l ∈ s.exceptions.flatMap ExceptionRange.labels ++ s.localVariables.flatMap LocalVariable.labels) :
        ∃ s, some s ∈ os ∧ x ∈ s.identities :=
      ⟨s, made there, List.mem_append_right _ (mem_tableIdentities.mpr ⟨l, h, same⟩)⟩
    rcases member with (⟨range, ⟨s, there, inside⟩, here⟩ | ⟨range, inside, here⟩) |
      (⟨v, inside, here⟩ | ⟨v, ⟨s, there, inside⟩, here⟩)
    · exact .inr (new there (List.mem_append_left _ (List.mem_flatMap.mpr ⟨range, inside, here⟩)))
    · exact .inl (old (List.mem_append_left _ (List.mem_flatMap.mpr ⟨range, inside, here⟩)))
    · exact .inl (old (List.mem_append_right _ (List.mem_flatMap.mpr ⟨v, inside, here⟩)))
    · exact .inr (new there (List.mem_append_right _ (List.mem_flatMap.mpr ⟨v, inside, here⟩)))

/-! ## Replaced calls -/

section

variable (policy : TrustPolicy) (p : ClassPath) (P : TargetKey → Method → Prop)

/-- A splice that takes the place of a call. It is made from a copy of the body that is kept for the
target of the call; the copy and the splice take identities from `n` to before `n'`. -/
def Inserted (site : CallSite) (slot : UInt16) (n : Nat) (s : Splice) (n' : Nat) : Prop :=
  ∃ (t : Target) (body : Method) (k : Nat),
    search policy p site (p.breadth + 1) site.owner = some (.ok t) ∧ P t.key body ∧ n ≤ k ∧
    (splice site slot (body.copyAt k)).run ⟨k + body.copyCount⟩ = .ok (s, ⟨n'⟩)

/-- What takes the places of nodes, with identities from `n` to before `n'`: some calls are replaced. -/
inductive Replaced (a : Analysis.Inspection) : Nat → List Insn → List (Option Splice) → Nat → Prop
  | nil (n : Nat) : Replaced a n [] [] n
  | left {n k n' : Nat} {insn : Insn} {insns : List Insn} {os : List (Option Splice)} (le : n ≤ k)
      (rest : Replaced a k insns os n') : Replaced a n (insn :: insns) (none :: os) n'
  | inserted {n k n' : Nat} {insn : Insn} {insns : List Insn} {site : CallSite} {s : Splice}
      {os : List (Option Splice)} (call : CallSite.ofNode? insn.node = some site)
      (made : Inserted policy p P site (UInt16.ofNat (a.nextFreeLocal insn.id)) n s k)
      (rest : Replaced a k insns os n') : Replaced a n (insn :: insns) (some s :: os) n'

/-- What inlining makes of a method of a class: nothing, or a method in which some calls are replaced. -/
inductive Inlines (owner : String) (m : Method) : Method → Prop
  | same : Inlines owner m m
  | replaced {frames : Analysis.Frames} {n n' : Nat} {os : List (Option Splice)}
      (analyzed : analyze owner m = .ok frames) (distinct : (m.body.toList.map Insn.id).Nodup)
      (below : ∀ x ∈ m.identities, x < n)
      (calls : Replaced policy p P ⟨owner, m, frames⟩ n m.body.toList os n') :
      Inlines owner m (withSplices m (splicedBody m.body.toList os).toArray (os.filterMap id))

/-- Whatever inlining makes of a copy of a target may be kept for it. -/
def Closed : Prop :=
  ∀ (t : Target) (site : CallSite) (n : Nat) (m : Method),
    search policy p site (p.breadth + 1) site.owner = some (.ok t) →
    Inlines policy p P t.owner (t.method.copyAt n) m → P t.key m

end

variable {policy : TrustPolicy} {p : ClassPath} {P : TargetKey → Method → Prop} {s s' : Session}
  {site : CallSite} {slot : UInt16} {n n' : Nat} {a : Analysis.Inspection} {insn : Insn}
  {insns : List Insn} {os : List (Option Splice)} {owner : String} {m : Method}

/-- What takes the place of a call mentions identities of its own, and does not repeat a node. -/
theorem Inserted.mentions {sp : Splice} (h : Inserted policy p P site slot n sp n') :
    n ≤ n' ∧ (∀ x ∈ sp.identities, n ≤ x ∧ x < n') ∧ (sp.block.map Insn.id).Nodup := by
  obtain ⟨t, body, k, -, -, above, run⟩ := h
  obtain ⟨more, mentions, distinct⟩ := splice_mentions run
  have copies := body.identities_copyAt k
  have more : k + body.copyCount ≤ n' := more
  have mentions : ∀ x ∈ sp.identities, x ∈ (body.copyAt k).identities ∨ k + body.copyCount ≤ x ∧ x < n' :=
    mentions
  refine ⟨by omega, fun x mentioned => ?_, distinct ?_ fun insn member => ?_⟩
  · rcases mentions x mentioned with old | new
    · have := copies x old
      omega
    · omega
  · exact body.nodup_copyAt k
  · exact (copies _ (Method.mem_identities.mpr (.inl ⟨insn, member, rfl⟩))).2

namespace Replaced

theorem le (h : Replaced policy p P a n insns os n') : n ≤ n' := by
  induction h with
  | nil => exact Nat.le_refl _
  | left le _ ih => exact Nat.le_trans le ih
  | inserted _ made _ ih => exact Nat.le_trans made.mentions.1 ih

theorem length_eq (h : Replaced policy p P a n insns os n') : os.length = insns.length := by
  induction h with
  | nil => rfl
  | left _ _ ih => exact congrArg (· + 1) ih
  | inserted _ _ _ ih => exact congrArg (· + 1) ih

/-- The splices mention the identities that were taken for them. -/
theorem identities (h : Replaced policy p P a n insns os n') {sp : Splice} (member : some sp ∈ os) :
    ∀ x ∈ sp.identities, n ≤ x ∧ x < n' := by
  induction h with
  | nil => cases member
  | left le _ ih =>
    intro x mentioned
    have inside := ih ((List.mem_cons.mp member).resolve_left nofun) x mentioned
    omega
  | inserted _ made rest ih =>
    intro x mentioned
    obtain ⟨more, mentions, -⟩ := made.mentions
    have more' := rest.le
    rcases List.mem_cons.mp member with here | later
    · have inside := mentions x (Option.some.inj here ▸ mentioned)
      omega
    · have inside := ih later x mentioned
      omega

/-- The nodes of a block have identities that the block mentions. -/
private theorem id_mem_identities {sp : Splice} (within : insn ∈ sp.block) : insn.id.val ∈ sp.identities :=
  List.mem_append_left _ (List.mem_flatMap.mpr ⟨insn, within, List.mem_cons_self⟩)

/-- What follows stood there before, or has identities that were taken for it. -/
private theorem behind (h : Replaced policy p P a n insns os n') {i : Insn}
    (member : i ∈ splicedBody insns os) : i ∈ insns ∨ n ≤ i.id.val :=
  (mem_splicedBody member).imp_right fun ⟨_, there, within⟩ =>
    (h.identities there _ (id_mem_identities within)).1

/-- No node is repeated. -/
theorem nodup (h : Replaced policy p P a n insns os n') (below : ∀ insn ∈ insns, insn.id.val < n)
    (once : (insns.map Insn.id).Nodup) : ((splicedBody insns os).map Insn.id).Nodup := by
  induction h with
  | nil => exact .nil
  | left le rest ih =>
    obtain ⟨apart, once⟩ := List.nodup_cons.mp once
    obtain ⟨first, below⟩ := List.forall_mem_cons.mp below
    refine List.nodup_cons.mpr ⟨fun again => ?_, ih (fun i member => Nat.lt_of_lt_of_le (below i member) le) once⟩
    obtain ⟨later, member, same⟩ := List.mem_map.mp again
    rcases rest.behind member with old | new
    · exact apart (same ▸ List.mem_map_of_mem old)
    · rw [same] at new
      omega
  | inserted _ made rest ih =>
    obtain ⟨more, mentions, distinct⟩ := made.mentions
    obtain ⟨-, once⟩ := List.nodup_cons.mp once
    obtain ⟨-, below⟩ := List.forall_mem_cons.mp below
    rw [splicedBody_cons, List.map_append, List.nodup_append]
    refine ⟨distinct, ih (fun i member => Nat.lt_of_lt_of_le (below i member) more) once, ?_⟩
    rintro i front j back rfl
    obtain ⟨here, within, rfl⟩ := List.mem_map.mp front
    obtain ⟨later, member, same⟩ := List.mem_map.mp back
    have fresh := mentions _ (id_mem_identities within)
    rw [← same] at fresh
    rcases rest.behind member with old | new
    · have := below later old
      omega
    · omega

end Replaced

/-! ## Analyses that are kept -/

/-- An analysis that is kept for a method is outdated, or it is the analysis of the method. -/
def Current (owner : String) (m : Method) (c : FrameCache) : Prop :=
  ∀ entry, c.entries[m.id]? = some entry → entry.revision < m.revision ∨
    entry.revision = m.revision ∧ analyze owner m = .ok entry.frames

/-- A look-up gives the analysis of the method. -/
theorem Current.lookup {c : FrameCache} (current : Current owner m c) :
    (c.lookup owner m).1.map CacheEntry.frames = analyze owner m ∧
      Current owner m (c.lookup owner m).2 ∧
      ∀ id, id ≠ m.id → (c.lookup owner m).2.entries[id]? = c.entries[id]? := by
  refine ⟨FrameCache.map_frames_lookup fun entry found same => ?_, fun entry known => ?_, fun id other => ?_⟩
  · rcases current entry found with older | ⟨-, analyzed⟩
    · omega
    · exact analyzed
  · rcases c.entries_lookup owner m m.id with same | ⟨-, r, stamp, analyzed, new⟩
    · exact current entry (same ▸ known)
    · obtain rfl : entry = ⟨m.revision, stamp, r⟩ := Option.some.inj (known.symm.trans new)
      exact .inr ⟨rfl, analyzed⟩
  · exact (c.entries_lookup owner m id).resolve_right fun own => other own.1

/-! ## Sessions -/

/-- A regular session in which what is told holds of the kept bodies, and all analyses are of methods
with an identity from the supply. -/
structure Keeping (policy : TrustPolicy) (p : ClassPath) (P : TargetKey → Method → Prop) (s : Session) :
    Prop where
  regular : Regular policy p s
  known : ∀ (key : TargetKey) (m : Method), s.inliner.bodies[key]? = some m → P key m
  analysed : ∀ (id : MethodId) (entry : CacheEntry), s.analyses.entries[id]? = some entry →
    id.val < s.supply.next

/-- Sessions keep bodies, no identity is taken back, and of the methods that were there before only those
that are edited get other analyses. -/
def keeping (policy : TrustPolicy) (p : ClassPath) (P : TargetKey → Method → Prop)
    (edited : Set MethodId) : Regime where
  holds := Keeping policy p P
  later := fun s s' => (ending policy p).later s s' ∧ s.supply.next ≤ s'.supply.next ∧
    ∀ id : MethodId, id.val < s.supply.next → id ∉ edited →
      s'.analyses.entries[id]? = s.analyses.entries[id]?
  allows := fun _ => True
  refl := fun s => ⟨(ending policy p).refl s, Nat.le_refl _, fun _ _ _ => rfl⟩
  trans := fun ⟨bars, next, same⟩ ⟨bars', next', same'⟩ =>
    ⟨(ending policy p).trans bars bars', Nat.le_trans next next', fun id old plain =>
      (same' id (Nat.lt_of_lt_of_le old next) plain).trans (same id old plain)⟩

/-- A method that can be worked on in a session: its identities are from the supply. -/
structure Ready (owner : String) (m : Method) (s : Session) : Prop where
  own : m.id.val < s.supply.next
  below : ∀ x ∈ m.identities, x < s.supply.next
  distinct : (m.body.toList.map Insn.id).Nodup
  current : Current owner m s.analyses

variable {edited edited' : Set MethodId}

/-- Work that does not edit a method leaves the session ready for it. -/
theorem Ready.later (ready : Ready owner m s) (later : (keeping policy p P edited).later s s')
    (plain : m.id ∉ edited) : Ready owner m s' := by
  obtain ⟨-, next, same⟩ := later
  exact ⟨Nat.lt_of_lt_of_le ready.own next, fun x mentioned => Nat.lt_of_lt_of_le (ready.below x mentioned) next,
    ready.distinct, fun entry known => ready.current entry (same m.id ready.own plain ▸ known)⟩

namespace Regime.Ensures

variable {α : Type} {x : InSession α} {result : Session → α → Prop}

/-- Edits of methods that are new do not count. -/
theorem edits (h : (keeping policy p P edited).Ensures s x result)
    (new : ∀ id ∈ edited, id ∈ edited' ∨ s.supply.next ≤ id.val) :
    (keeping policy p P edited').Ensures s x result := by
  intro holds
  obtain ⟨holds', ⟨bars, next, same⟩, returned, fails⟩ := h holds
  refine ⟨holds', ⟨bars, next, fun id old plain => same id old fun member => ?_⟩, returned, fails⟩
  rcases new id member with known | above
  · exact plain known
  · omega

end Regime.Ensures

/-- Taking identities leaves everything else. -/
theorem Keeping.supply (h : Keeping policy p P s) {supply : Supply} (more : s.supply.next ≤ supply.next) :
    Keeping policy p P { s with supply } where
  regular := ending_inward.holds (s := s) rfl h.regular
  known := h.known
  analysed := fun id entry known => Nat.lt_of_lt_of_le (h.analysed id entry known) more

/-- Identities are taken from the supply. -/
theorem fresh_ensures {α : Type} {x : Fresh α} (more : s.supply.next ≤ (x.run s.supply).2.next) :
    (keeping policy p P edited).Ensures s (Session.fresh x) fun s' r =>
      s' = { s with supply := (x.run s.supply).2 } ∧ r = (x.run s.supply).1 :=
  .modifyGet (fun holds => holds.supply more) ⟨fun _ barred => barred, more, fun _ _ _ => rfl⟩
    fun _ => ⟨rfl, rfl⟩

/-- A splice takes its identities from the supply. -/
theorem splice_ensures {callee : Method} :
    (keeping policy p P edited).Ensures s (Session.tryFresh (splice site slot callee)) fun s' sp =>
      (splice site slot callee).run s.supply = .ok (sp, s'.supply) := by
  refine (Regime.Ensures.tryFresh (fun _ _ => trivial) fun sp supply run => ?_).mono fun _ _ _ _ made => made.2
  have more : s.supply.next ≤ supply.next := (splice_mentions run).1
  exact ⟨fun holds => holds.supply more, fun _ barred => barred, more, fun _ _ _ => rfl⟩

/-- A session that is ready for a method gives the analysis of the method. -/
theorem Ready.analyse_ensures (ready : Ready owner m s) :
    (keeping policy p P {m.id}).Ensures s (Session.analyse owner m) fun s' a =>
      ∃ frames, a = ⟨owner, m, frames⟩ ∧ analyze owner m = .ok frames ∧ s'.supply = s.supply ∧
        Ready owner m s' := by
  obtain ⟨found, current, others⟩ := ready.current.lookup
  refine .bind (q := fun s' answer => answer = (s.analyses.lookup owner m).1 ∧ s'.supply = s.supply ∧
      Ready owner m s') (.modifyGet (fun holds => ⟨?_, holds.known, fun id entry known => ?_⟩)
    ⟨fun _ barred => barred, Nat.le_refl _, fun id _ plain => others id plain⟩
    fun _ => ⟨rfl, rfl, ready.own, ready.below, ready.distinct, current⟩)
    fun s' answer _ _ ⟨same, supply, ready'⟩ => ?_
  · exact ending_inward.holds (s := s) rfl holds.regular
  · by_cases own : id = m.id
    · exact own ▸ ready.own
    · exact holds.analysed id entry ((others id own).symm.trans known)
  · subst same
    cases looked : (s.analyses.lookup owner m).1 with
    | error e => exact .throw trivial
    | ok entry =>
      rw [looked] at found
      exact .pure fun _ => ⟨entry.frames, rfl, found.symm, supply, ready'⟩

/-! ## One round -/

/-- What becomes of a call: it is left alone and dead, or it was alive and gets a copy of the body that is
kept for its target. -/
def Supplied (policy : TrustPolicy) (p : ClassPath) (P : TargetKey → Method → Prop) (s : Session)
    (site : CallSite) (s' : Session) : Except Skip Method → Prop
  | .error _ => Dead policy p s' site
  | .ok callee => ¬Dead policy p s site ∧ Settled policy p s' callee.body ∧
      ∃ (t : Target) (body : Method) (k : Nat),
        search policy p site (p.breadth + 1) site.owner = some (.ok t) ∧ P t.key body ∧
        s.supply.next ≤ k ∧ callee = body.copyAt k ∧ s'.supply = ⟨k + body.copyCount⟩

/-- Every expansion of a call by some work is as told. -/
def Supplies (policy : TrustPolicy) (p : ClassPath) (P : TargetKey → Method → Prop)
    (expand : CallSite → InSession (Except Skip Method)) : Prop :=
  ∀ s site, (keeping policy p P ∅).Ensures s (expand site) (Supplied policy p P s site)

/-- What becomes of a node: it stays and is no call that is alive, or a block of dead calls takes the
place of a call that was alive. -/
def Treated (policy : TrustPolicy) (p : ClassPath) (P : TargetKey → Method → Prop)
    (a : Analysis.Inspection) (s : Session) (insn : Insn) (s' : Session) : Option Splice → Prop
  | none => ∀ site, CallSite.ofNode? insn.node = some site → Dead policy p s' site
  | some sp => ∃ site, CallSite.ofNode? insn.node = some site ∧ ¬Dead policy p s site ∧
      (∀ call ∈ callsOf (sp.block.map Insn.node), Dead policy p s' call) ∧
      Inserted policy p P site (UInt16.ofNat (a.nextFreeLocal insn.id)) s.supply.next sp s'.supply.next

section

variable {expand : CallSite → InSession (Except Skip Method)}

theorem expansion_ensures (supplies : Supplies policy p P expand) :
    (keeping policy p P ∅).Ensures s (expansion expand a insn) (Treated policy p P a s insn) := by
  unfold expansion
  cases call : CallSite.ofNode? insn.node with
  | none => exact .pure fun _ site other => absurd (call.symm.trans other) nofun
  | some site =>
    refine .bind (supplies s site) fun s₁ r _ _ supplied => ?_
    cases r with
    | error skip =>
      exact .pure fun _ site' same => Option.some.inj (call.symm.trans same) ▸ supplied
    | ok callee =>
      obtain ⟨alive, settled, t, body, k, found, kept, above, rfl, supply⟩ := supplied
      dsimp only
      rw [map_eq_pure_bind]
      refine .bind splice_ensures fun s₂ sp _ later made => ?_
      refine .pure fun _ => ⟨site, call, alive, fun call member => ?_, t, body, k, found, kept, above, ?_⟩
      · rw [callsOf_splice made] at member
        exact (settled call member).later later.1
      · rw [supply] at made
        exact made

/-- What a walk makes of nodes: some calls are replaced, all calls that are left are dead, and one was
alive if something was replaced. -/
structure Traversed (policy : TrustPolicy) (p : ClassPath) (P : TargetKey → Method → Prop)
    (a : Analysis.Inspection) (s : Session) (insns : List Insn) (s' : Session)
    (os : List (Option Splice)) : Prop where
  replaced : Replaced policy p P a s.supply.next insns os s'.supply.next
  settled : ∀ site ∈ callsOf ((splicedBody insns os).map Insn.node), Dead policy p s' site
  alive : os.filterMap id ≠ [] → ∃ site ∈ callsOf (insns.map Insn.node), ¬Dead policy p s site

theorem expansions_ensures (supplies : Supplies policy p P expand) :
    (keeping policy p P ∅).Ensures s (insns.mapM (expansion expand a)) (Traversed policy p P a s insns) := by
  induction insns generalizing s with
  | nil => exact .pure fun _ => ⟨.nil _, nofun, fun none => absurd rfl none⟩
  | cons insn insns ih =>
    rw [List.mapM_cons]
    refine .bind (expansion_ensures supplies) fun s₁ o _ later₁ visited => ?_
    refine .bind ih fun s₂ os _ later₂ walked => .pure fun _ => ?_
    obtain ⟨replaced, settled, alive⟩ := walked
    have behind : (∃ site ∈ callsOf (insns.map Insn.node), ¬Dead policy p s₁ site) →
        ∃ site ∈ callsOf ((insn :: insns).map Insn.node), ¬Dead policy p s site :=
      fun ⟨site, member, still⟩ => ⟨site, List.mem_filterMap.mpr (by
        obtain ⟨node, inside, call⟩ := List.mem_filterMap.mp member
        exact ⟨node, List.mem_cons_of_mem _ inside, call⟩), fun dead => still (dead.later later₁.1)⟩
    cases o with
    | none =>
      refine ⟨.left later₁.2.1 replaced, fun site member => ?_, fun some_ => behind (alive some_)⟩
      rw [splicedBody_cons, List.map_append, callsOf_append] at member
      rcases List.mem_append.mp member with here | later
      · obtain ⟨node, inside, call⟩ := List.mem_filterMap.mp here
        exact (visited site (List.mem_singleton.mp inside ▸ call)).later later₂.1
      · exact settled site later
    | some sp =>
      obtain ⟨site, call, still, dead, made⟩ := visited
      refine ⟨.inserted call made replaced, fun site' member => ?_, fun _ =>
        ⟨site, List.mem_filterMap.mpr ⟨insn.node, List.mem_cons_self, call⟩, still⟩⟩
      rw [splicedBody_cons, List.map_append, callsOf_append] at member
      rcases List.mem_append.mp member with here | later
      · exact (dead site' here).later later₂.1
      · exact settled site' later

/-- What a round makes of a method: it finds every call dead, or it replaces calls that were alive and
leaves only dead ones. -/
structure Reworked (policy : TrustPolicy) (p : ClassPath) (P : TargetKey → Method → Prop)
    (owner : String) (m : Method) (s s' : Session) (result : Nat × Method) : Prop where
  inlines : Inlines policy p P owner m result.2
  ready : Ready owner result.2 s'
  own : result.2.id = m.id
  settled : Settled policy p s' result.2.body
  none : result.1 = 0 → result.2 = m
  some : result.1 ≠ 0 → ¬Settled policy p s m.body

theorem round_rounded (supplies : Supplies policy p P expand) (ready : Ready owner m s) :
    (keeping policy p P {m.id}).Ensures s (round expand owner m) (Reworked policy p P owner m s) := by
  rw [round_eq ready.distinct]
  refine .get ?_
  by_cases candidate : hasCandidate s.inliner.policy m = true
  · rw [if_neg (by rw [candidate]; exact Bool.false_ne_true)]
    refine .bind ready.analyse_ensures fun s₁ a _ later₁ ⟨frames, same, analyzed, supply, ready₁⟩ => ?_
    subst same
    have walk : (keeping policy p P {m.id}).Ensures s₁
        (m.body.toList.mapM (expansion expand ⟨owner, m, frames⟩)) fun s' os => Ready owner m s' ∧
          Traversed policy p P ⟨owner, m, frames⟩ s₁ m.body.toList s' os :=
      ((expansions_ensures supplies).mono fun s' os _ later walked =>
        ⟨ready₁.later later (Set.notMem_empty _), walked⟩).edits nofun
    refine .bind walk fun s₂ os _ _ ⟨ready₂, replaced, settled, alive⟩ => ?_
    by_cases none : (os.filterMap id).isEmpty = true
    · rw [if_pos none]
      rw [splicedBody_of_none replaced.length_eq (List.isEmpty_iff.mp none)] at settled
      exact .pure fun _ => ⟨.same, ready₂, rfl, settled, fun _ => rfl, fun more => absurd rfl more⟩
    · rw [if_neg none]
      have some_ : os.filterMap id ≠ [] := by simpa using none
      have old (insn : Insn) (member : insn ∈ m.body.toList) : insn.id.val < s₁.supply.next :=
        ready₁.below _ (Method.mem_identities.mpr (.inl ⟨insn, member, rfl⟩))
      refine .pure fun _ => ⟨.replaced analyzed ready.distinct ready₁.below replaced, ?_, rfl, settled,
        fun none => absurd (List.length_eq_zero_iff.mp none) some_, fun _ all => ?_⟩
      · refine ⟨ready₂.own, fun x mentioned => ?_, replaced.nodup old ready.distinct, fun entry known => ?_⟩
        · rcases identities_withSplices mentioned with before | ⟨sp, there, here⟩
          · exact ready₂.below x before
          · exact (replaced.identities there x here).2
        · refine .inl (Nat.lt_succ_of_le ?_)
          rcases ready₂.current entry known with older | ⟨same, -⟩
          · exact Nat.le_of_lt older
          · exact Nat.le_of_eq same
      · obtain ⟨site, member, still⟩ := alive some_
        exact still ((all site member).later later₁.1)
  · rw [if_pos (by rw [eq_false_of_ne_true candidate]; rfl)]
    refine .pure fun holds => ⟨.same, ready, rfl, fun site member => .inl ?_, fun _ => rfl, fun more => absurd rfl more⟩
    obtain ⟨insn, inside, call⟩ := mem_calls.mp member
    by_contra admitted
    refine candidate (Array.any_eq_true'.mpr ⟨insn, Array.mem_toList_iff.mp inside, ?_⟩)
    rw [call, holds.regular.trust]
    exact eq_true_of_ne_false admitted

/-! ## All rounds -/

/-- What rounds make of a method: where they succeed, what inlining makes of it. -/
structure Finishes (policy : TrustPolicy) (p : ClassPath) (P : TargetKey → Method → Prop)
    (owner : String) (m : Method) (s : Session) (after : Attempt Method Nat × Session) : Prop where
  holds : Keeping policy p P after.2
  later : (keeping policy p P {m.id}).later s after.2
  inlines : ∀ count, after.1.result = .ok count → Inlines policy p P owner m after.1.value
  settled : ∀ count, after.1.result = .ok count → Settled policy p after.2 after.1.value.body

/-- The second round finds nothing to replace. -/
theorem rounds_finishes (supplies : Supplies policy p P expand) (holds : Keeping policy p P s)
    (ready : Ready owner m s) (bound total : Nat) :
    Finishes policy p P owner m s (rounds expand owner bound total m s) := by
  have failed {s' : Session} {e : Failure} {m' : Method} (holds' : Keeping policy p P s')
      (later : (keeping policy p P {m.id}).later s s') : Finishes policy p P owner m s (⟨m', .error e⟩, s') :=
    ⟨holds', later, nofun, nofun⟩
  cases bound with
  | zero => exact failed holds ((keeping policy p P {m.id}).refl s)
  | succ bound =>
    obtain ⟨holds', later, returned, -⟩ := round_rounded supplies ready holds
    generalize first : outcome (round expand owner m) s = after at holds' later returned
    obtain ⟨e | ⟨count, m'⟩, s'⟩ := after
    · rw [rounds_of_error first]
      exact failed holds' later
    · obtain ⟨inlines, ready', own, settled, none, -⟩ := returned _ rfl
      cases count with
      | zero =>
        obtain rfl : m' = m := none rfl
        rw [rounds_of_none first]
        exact ⟨holds', later, fun _ _ => inlines, fun _ _ => settled⟩
      | succ count =>
        rw [rounds_of_some first]
        -- the calls that are left are dead, so that one more round is the last
        cases bound with
        | zero => exact failed holds' later
        | succ bound =>
          obtain ⟨holds'', later', returned', -⟩ := round_rounded supplies ready' holds'
          generalize second : outcome (round expand owner m') s' = after at holds'' later' returned'
          dsimp only at own
          rw [own] at later'
          have later'' := (keeping policy p P {m.id}).trans later later'
          obtain ⟨e | ⟨count', m''⟩, s''⟩ := after
          · rw [rounds_of_error second]
            exact failed holds'' later''
          · obtain ⟨-, -, -, -, -, some_⟩ := returned' _ rfl
            obtain rfl : count' = 0 := by
              by_contra more
              exact some_ more settled
            rw [rounds_of_none second]
            exact ⟨holds'', later'', fun _ _ => inlines, fun _ _ => settled.later later'.1⟩

/-- The body that is kept for a target is what inlining made of a copy. -/
theorem prepare_keeps (closed : Closed policy p P) (supplies : Supplies policy p P expand)
    {t : Target} (found : search policy p site (p.breadth + 1) site.owner = some (.ok t)) :
    (keeping policy p P ∅).Ensures s (prepare expand t) fun s' body =>
      P t.key body ∧ Settled policy p s' body.body := by
  refine .get ?_
  cases known : s.inliner.bodies[t.key]? with
  | some body => exact .pure fun holds => ⟨holds.known _ _ known, holds.regular.kept _ _ known⟩
  | none =>
    let edited : Set MethodId := {id | s.supply.next ≤ id.val}
    refine .of_holds fun holds =>
      Regime.Ensures.edits (show (keeping policy p P edited).Ensures s _ _ from ?_) fun id new => .inr new
    have copied := t.method.copy_run s.supply.next
    refine .bind (fresh_ensures (by rw [copied]; exact Nat.le_add_right _ _))
      fun s₁ body _ _ taken => .get ?_
    obtain ⟨supply, same⟩ := taken
    rw [copied] at supply same
    obtain rfl : body = t.method.copyAt s.supply.next := same
    generalize copy : t.method.copyAt s.supply.next = body at *
    have own : s.supply.next ≤ body.id.val ∧ body.id.val < s₁.supply.next := by
      rw [supply, ← copy, Method.copyCount, Method.copyAt]
      dsimp only
      omega
    have ready : Ready t.owner body s₁ := by
      refine ⟨own.2, fun x mentioned => ?_, copy ▸ t.method.nodup_copyAt _, fun entry known => ?_⟩
      · rw [← copy] at mentioned
        rw [supply]
        exact (t.method.identities_copyAt _ x mentioned).2
      · rw [supply] at known
        have old := holds.analysed _ _ known
        omega
    have rounds_ : (keeping policy p P edited).Ensures s₁
        (liftM (rounds expand t.owner s₁.inliner.targetBound 0 body) : InSession (Attempt Method Nat))
        fun s' attempt => ∀ count, attempt.result = .ok count →
          P t.key attempt.value ∧ Settled policy p s' attempt.value.body := by
      refine Regime.Ensures.edits (show (keeping policy p P {body.id}).Ensures s₁ _ _ from
        .lift fun holds => ?_) fun id same => .inl (same ▸ own.1)
      obtain ⟨holds', later, inlines, settled⟩ :=
        rounds_finishes supplies holds ready s₁.inliner.targetBound 0
      refine ⟨holds', later, fun count same => ⟨closed t site s.supply.next _ found ?_, settled count same⟩⟩
      rw [copy]
      exact inlines count same
    refine .bind rounds_ fun s₂ attempt _ _ finished => ?_
    have forget : (keeping policy p P edited).Ensures s₂ (Session.forget body.id) fun s' _ =>
        ∀ count, attempt.result = .ok count →
          P t.key attempt.value ∧ Settled policy p s' attempt.value.body := by
      refine .modifyGet (fun holds => ⟨ending_inward.holds (s := s₂) rfl holds.regular, holds.known,
        fun id entry known => ?_⟩) ⟨fun _ barred => barred, Nat.le_refl _, fun id _ plain => ?_⟩
        fun _ => finished
      · have known : (s₂.analyses.entries.erase body.id)[id]? = some entry := known
        rw [Std.HashMap.getElem?_erase] at known
        split at known
        · cases known
        · exact holds.analysed id entry known
      · have apart : (body.id == id) = false := beq_false_of_ne fun same => plain (same ▸ own.1)
        show (s₂.analyses.entries.erase body.id)[id]? = _
        rw [Std.HashMap.getElem?_erase, apart]
        rfl
    refine .bind forget fun s₃ _ _ _ finished => ?_
    refine .bind (q := fun s' _ => P t.key attempt.value ∧ Settled policy p s' attempt.value.body) (.ofExcept
      (fun count same _ => finished count same) fun _ _ => trivial) fun s₄ _ _ _ finished => ?_
    obtain ⟨kept, settled⟩ := finished
    have keep : (keeping policy p P edited).Ensures s₄ (Session.keep t.key attempt.value) fun s' _ =>
        Settled policy p s' attempt.value.body := by
      have inserted (body : Method) (key : TargetKey)
          (found : (s₄.inliner.bodies.insert t.key attempt.value)[key]? = some body) :
          t.key = key ∧ body = attempt.value ∨ s₄.inliner.bodies[key]? = some body := by
        rw [Std.HashMap.getElem?_insert] at found
        split at found
        · next same =>
          cases found
          exact .inl ⟨beq_iff_eq.mp same, rfl⟩
        · exact .inr found
      refine .modifyGet (fun holds => ⟨⟨holds.regular.trust, holds.regular.serves, fun key body found => ?_⟩,
        fun key body found => ?_, holds.analysed⟩) ⟨fun _ barred => barred, Nat.le_refl _, fun _ _ _ => rfl⟩
        fun _ => settled
      · rcases inserted body key found with ⟨-, rfl⟩ | old
        · exact settled
        · exact holds.regular.kept key body old
      · rcases inserted body key found with ⟨rfl, rfl⟩ | old
        · exact kept
        · exact holds.known key body old
    exact .bind keep fun s₅ _ _ _ settled => .pure fun _ => ⟨kept, settled⟩

end

theorem keeping_lasting : (keeping policy p P edited).Lasting policy p where
  regular := Keeping.regular
  bars := And.left

/-- Every expansion of a call is as told. -/
theorem expandCall_supplies (closed : Closed policy p P) (depth : Nat) (active : List TargetKey) :
    Supplies policy p P (expandCall depth active) := by
  induction depth generalizing active with
  | zero => exact fun s site => .throw trivial
  | succ depth ih =>
    refine fun s site => expandCall_ensures keeping_lasting
      (fun _ _ serves holds => ⟨holds.regular.serve serves, holds.known, holds.analysed⟩)
      (fun _ _ => ⟨fun _ barred => barred, Nat.le_refl _, fun _ _ _ => rfl⟩) (fun _ => trivial)
      (fun _ _ dead => dead) (fun s' t _ _ _ => .modifyGet
        (fun holds => ⟨holds.regular.bar t.key, holds.known, holds.analysed⟩)
        ⟨contains_bar s' t.key, Nat.le_refl _, fun _ _ _ => rfl⟩ fun _ => trivial)
      fun s₁ t answer _ _ alive later₁ => ?_
    refine .bind (prepare_keeps closed (ih _) answer) fun s₂ body _ later₂ ⟨kept, settled⟩ => ?_
    have copied := body.copy_run s₂.supply.next
    refine .bind (fresh_ensures (by rw [copied]; exact Nat.le_add_right _ _))
      fun s₃ callee _ later₃ ⟨supply, same⟩ => ?_
    have calls_ := calls_copy body s₂.supply
    rw [copied] at supply same calls_
    refine .pure fun _ => ⟨alive, ?_, t, body, s₂.supply.next, answer, kept, ?_, same, ?_⟩
    · rw [Settled, same, calls_]
      exact settled.later later₃.1
    · exact Nat.le_trans later₁.2.1 later₂.2.1
    · rw [supply]

/-! ## One method after the other -/

/-- What inlining makes of a method. -/
theorem inlineMethod_finishes (closed : Closed policy p P) (holds : Keeping policy p P s)
    (ready : Ready owner m s) : Finishes policy p P owner m s (inlineMethod owner m s) :=
  rounds_finishes (expandCall_supplies closed _ _) holds ready _ _

/-- Methods with identities from a supply, each with one of its own. -/
structure Distinct (supply : Supply) (methods : List (String × Method)) : Prop where
  below : ∀ entry ∈ methods, entry.2.id.val < supply.next ∧ ∀ x ∈ entry.2.identities, x < supply.next
  distinct : ∀ entry ∈ methods, (entry.2.body.toList.map Insn.id).Nodup
  apart : (methods.map fun entry => entry.2.id).Nodup

/-- What inlining makes of methods, one after the other. -/
theorem inlineAll_finishes (closed : Closed policy p P) {methods : List (String × Method)}
    (holds : Keeping policy p P s) (apart : (methods.map fun entry => entry.2.id).Nodup)
    (ready : ∀ entry ∈ methods, Ready entry.1 entry.2 s) :
    List.Forall₂ (fun entry attempt => ∀ count, attempt.result = .ok count →
      Inlines policy p P entry.1 entry.2 attempt.value) methods (inlineAll methods s).1 := by
  induction methods generalizing s with
  | nil => exact .nil
  | cons entry rest ih =>
    obtain ⟨owner, m⟩ := entry
    obtain ⟨first, others⟩ := List.forall_mem_cons.mp ready
    obtain ⟨other, apart⟩ := List.nodup_cons.mp apart
    obtain ⟨holds', later, inlines, -⟩ := inlineMethod_finishes closed holds first
    refine .cons inlines (ih holds' apart fun entry member => (others entry member).later later ?_)
    rintro same
    exact other (List.mem_map.mpr ⟨entry, member, same⟩)

/-- A session in which nothing has been inlined yet. -/
theorem keeping_of_fresh (uncached : p.cache = []) (barred : Std.HashSet TargetKey) (supply : Supply) :
    Keeping policy p P ⟨{ policy, classPath := p, barred }, {}, supply⟩ where
  regular := regular_of_fresh rfl rfl uncached rfl
  known := fun key m found => by simp at found
  analysed := fun id entry found => by simp at found

/-- **What inlining makes of methods.** Let an inliner start with nothing kept. Then each method that
inlining succeeds for is left as it was, or some of its calls are replaced by copies of bodies of which
all that is told holds. -/
theorem inlineAll_inlines (closed : Closed policy p P) (uncached : p.cache = [])
    (barred : Std.HashSet TargetKey) {supply : Supply} {methods : List (String × Method)}
    (distinct : Distinct supply methods) :
    List.Forall₂ (fun entry attempt => ∀ count, attempt.result = .ok count →
      Inlines policy p P entry.1 entry.2 attempt.value) methods
      (inlineAll methods ⟨{ policy, classPath := p, barred }, {}, supply⟩).1 :=
  inlineAll_finishes closed (keeping_of_fresh uncached barred supply) distinct.apart fun entry member =>
    ⟨(distinct.below entry member).1, (distinct.below entry member).2, distinct.distinct entry member,
      fun cached known => by simp at known⟩

end Bytecode.Inlining
