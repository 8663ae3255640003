import Bytecode.Analysis.FrameCache
import Bytecode.Proofs.Analysis.Relocation
import Bytecode.Proofs.Renaming.Copies

/-!
# The frame cache cannot be seen

A `Desk` holds methods that are being worked on beside one cache: they come in, are copied, edited and
announced as modified in any order, and the cache is asked, made to forget one method or cleared in between.
`lookup_transparent` says that a look-up then answers what a new analysis of the body at hand would, provided
that the last edit of the method has been announced.

The invariant is `Desk.Consistent`. No entry is newer than its method, and one of the same revision is the
analysis of the present body, unless an edit still waits to be announced. An announcement makes the method
newer than every entry; a copy gets an identity for which there is no entry yet, so that it may start again
with the first revision.
-/

namespace Bytecode.Analysis

/-! ## One look-up -/

namespace FrameCache

variable {c : FrameCache} {owner : String} {m : Method}

/-- What a cache holds after a new analysis. -/
theorem entries_renew (c : FrameCache) (owner : String) (m : Method) (id : MethodId) :
    (c.renew owner m).2.entries[id]? = c.entries[id]? ∨
      id = m.id ∧ ∃ r stamp, analyze owner m = .ok r ∧
        (c.renew owner m).2.entries[id]? = some ⟨m.revision, stamp, r⟩ := by
  unfold renew
  cases analyzed : analyze owner m with
  | error e => exact .inl rfl
  | ok r =>
    show (c.entries.insert m.id ⟨m.revision, c.analysed, r⟩)[id]? = _ ∨ _
    by_cases same : m.id = id
    · exact .inr ⟨same.symm, r, c.analysed, rfl, by rw [same]; exact Std.HashMap.getElem?_insert_self⟩
    · exact .inl (by rw [Std.HashMap.getElem?_insert, if_neg (by simpa using same)])

/-- **What a look-up leaves behind.** It touches no entry but that of its method, and this one becomes the
analysis of the method in its present revision. -/
theorem entries_lookup (c : FrameCache) (owner : String) (m : Method) (id : MethodId) :
    (c.lookup owner m).2.entries[id]? = c.entries[id]? ∨
      id = m.id ∧ ∃ r stamp, analyze owner m = .ok r ∧
        (c.lookup owner m).2.entries[id]? = some ⟨m.revision, stamp, r⟩ := by
  unfold lookup
  split
  · exact entries_renew c owner m id
  · split
    · exact entries_renew c owner m id
    · split <;> exact .inl rfl

/-- A new analysis is answered as it is. -/
theorem map_frames_renew (c : FrameCache) (owner : String) (m : Method) :
    (c.renew owner m).1.map CacheEntry.frames = analyze owner m := by
  unfold renew
  cases analyze owner m <;> rfl

/-- A look-up answers like an analysis if the entry of the present revision, if there is one, holds the
analysis of the method. -/
theorem map_frames_lookup (fits : ∀ entry, c.entries[m.id]? = some entry → entry.revision = m.revision →
    analyze owner m = .ok entry.frames) :
    (c.lookup owner m).1.map CacheEntry.frames = analyze owner m := by
  unfold lookup
  split
  · exact map_frames_renew c owner m
  · next entry found =>
    split
    · exact map_frames_renew c owner m
    · next current =>
      have analyzed := fits entry found (not_not.mp current)
      rw [if_neg (not_not.mpr (size_of_analyze analyzed)), analyzed]
      rfl

end FrameCache

/-! ## Methods beside a cache -/

/-- A method that is being worked on: the class with which it is looked up, and whether it has been edited
since it was last announced as modified. -/
structure Draft where
  owner : String
  method : Method
  edited : Bool := false

/-- Methods that are being worked on, under their identities, with one cache for all of them. -/
structure Desk where
  drafts : Std.HashMap MethodId Draft := ∅
  cache : FrameCache := {}
  supply : Supply := {}

/-- What happens to the methods and to the cache. -/
inductive DeskAction where
  /-- A method comes in. -/
  | take (owner : String) (m : Method)
  /-- A method is copied. -/
  | copy (original : MethodId) (owner : String)
  /-- A method is edited: everything but its identity and its revision may change. -/
  | edit (id : MethodId) (change : Method → Method)
  /-- A method is announced as modified. -/
  | announce (id : MethodId)
  /-- A method is looked up. -/
  | look (id : MethodId)
  /-- The cache forgets a method, or everything. -/
  | forget (id : MethodId)
  | clear

namespace Draft

/-- A draft after an edit. -/
def edit (d : Draft) (change : Method → Method) : Draft :=
  { d with method := { change d.method with id := d.method.id, revision := d.method.revision }, edited := true }

/-- A draft after it was announced as modified. -/
def announce (d : Draft) : Draft :=
  { d with method := d.method.markModified, edited := false }

@[simp] theorem id_edit (d : Draft) (change : Method → Method) : (d.edit change).method.id = d.method.id :=
  rfl

@[simp] theorem id_announce (d : Draft) : d.announce.method.id = d.method.id :=
  rfl

end Draft

namespace Desk

/-- Puts a method on the desk, under its identity. -/
def put (desk : Desk) (d : Draft) : Desk :=
  { desk with drafts := desk.drafts.insert d.method.id d }

/-- Does something with a method, if it is there. -/
def withDraft (desk : Desk) (id : MethodId) (f : Draft → Desk) : Desk :=
  (desk.drafts[id]?).elim desk f

/-- The methods and the cache after an action. -/
def perform (desk : Desk) : DeskAction → Desk
  | .take owner m =>
    let (id, supply) := Fresh.methodId.run desk.supply
    { desk with supply }.put ⟨owner, { m with id }, false⟩
  | .copy original owner => desk.withDraft original fun d =>
    let (copy, supply) := d.method.copy.run desk.supply
    { desk with supply }.put ⟨owner, copy, false⟩
  | .edit id change => desk.withDraft id fun d => desk.put (d.edit change)
  | .announce id => desk.withDraft id fun d => desk.put d.announce
  | .look id => desk.withDraft id fun d =>
    { desk with cache := (desk.cache.lookup d.owner d.method).2 }
  | .forget id => { desk with cache := desk.cache.invalidate id }
  | .clear => { desk with cache := desk.cache.clear }

/-- The methods and the cache after some actions. -/
def performAll (desk : Desk) (actions : List DeskAction) : Desk :=
  actions.foldl perform desk

/-! ## What keeps the cache up to date -/

/-- An entry is not newer than its method. If it is of the same revision, then an edit still has to be
announced, or it holds the analysis of the method. -/
def Fits (d : Draft) (entry : CacheEntry) : Prop :=
  entry.revision ≤ d.method.revision ∧
    (entry.revision = d.method.revision → d.edited = false → analyze d.owner d.method = .ok entry.frames)

/-- All identities have been handed out, methods are kept under their own, and entries fit their methods. -/
structure Consistent (desk : Desk) : Prop where
  named : ∀ (id : MethodId) (d : Draft), desk.drafts[id]? = some d →
    d.method.id = id ∧ id.val < desk.supply.next
  known : ∀ (id : MethodId) (entry : CacheEntry), desk.cache.entries[id]? = some entry →
    id.val < desk.supply.next
  fits : ∀ (id : MethodId) (d : Draft) (entry : CacheEntry), desk.drafts[id]? = some d →
    desk.cache.entries[id]? = some entry → Fits d entry

variable {desk : Desk}

theorem consistent_empty : Consistent {} :=
  ⟨by simp, by simp, by simp⟩

theorem getElem?_put (desk : Desk) (d : Draft) (id : MethodId) :
    (desk.put d).drafts[id]? = if d.method.id = id then some d else desk.drafts[id]? := by
  show (desk.drafts.insert d.method.id d)[id]? = _
  rw [Std.HashMap.getElem?_insert]
  simp only [beq_iff_eq]

/-- A draft is replaced by one that fits the entries. -/
theorem Consistent.put (h : desk.Consistent) {d : Draft} (handed : d.method.id.val < desk.supply.next)
    (fits : ∀ entry, desk.cache.entries[d.method.id]? = some entry → Fits d entry) :
    (desk.put d).Consistent where
  named := fun id d' found => by
    rw [getElem?_put] at found
    split at found
    · next same =>
      cases found
      exact ⟨same, same ▸ handed⟩
    · exact h.named id d' found
  known := h.known
  fits := fun id d' entry found cached => by
    rw [getElem?_put] at found
    split at found
    · next same =>
      cases found
      exact fits entry (same ▸ cached)
    · exact h.fits id d' entry found cached

/-- A method with a new identity has no entry yet. -/
theorem Consistent.take (h : desk.Consistent) {supply : Supply} (d : Draft)
    (new : desk.supply.next ≤ d.method.id.val) (handed : d.method.id.val < supply.next) :
    Consistent ({ desk with supply }.put d) := by
  have later : Consistent { desk with supply } :=
    ⟨fun id d' found => ⟨(h.named id d' found).1, by have := (h.named id d' found).2; dsimp only; omega⟩,
      fun id entry cached => by have := h.known id entry cached; dsimp only; omega, h.fits⟩
  refine later.put handed fun entry cached => ?_
  have old := h.known _ entry cached
  omega

/-- Forgetting entries. -/
theorem Consistent.forgets (h : desk.Consistent) {cache : FrameCache}
    (fewer : ∀ (id : MethodId) (entry : CacheEntry), cache.entries[id]? = some entry →
      desk.cache.entries[id]? = some entry) :
    Consistent { desk with cache } where
  named := h.named
  known := fun id entry cached => h.known id entry (fewer id entry cached)
  fits := fun id d entry found cached => h.fits id d entry found (fewer id entry cached)

/-- A look-up adds an entry that fits, whether or not the method has been announced. -/
theorem Consistent.look (h : desk.Consistent) {id : MethodId} {d : Draft} (found : desk.drafts[id]? = some d) :
    Consistent { desk with cache := (desk.cache.lookup d.owner d.method).2 } where
  named := h.named
  known := fun id' entry cached => by
    rcases FrameCache.entries_lookup desk.cache d.owner d.method id' with same | ⟨rfl, -⟩
    · exact h.known id' entry (same ▸ cached)
    · obtain ⟨named, handed⟩ := h.named id d found
      exact named ▸ handed
  fits := fun id' d' entry found' cached => by
    rcases FrameCache.entries_lookup desk.cache d.owner d.method id' with
      same | ⟨rfl, r, stamp, analyzed, new⟩
    · exact h.fits id' d' entry found' (same ▸ cached)
    · obtain rfl : entry = ⟨d.method.revision, stamp, r⟩ := Option.some.inj (cached.symm.trans new)
      obtain rfl : d' = d := Option.some.inj (found'.symm.trans ((h.named id d found).1 ▸ found))
      exact ⟨Nat.le_refl _, fun _ _ => analyzed⟩

theorem Consistent.withDraft (h : desk.Consistent) {id : MethodId} {f : Draft → Desk}
    (keeps : ∀ d, desk.drafts[id]? = some d → (f d).Consistent) : (desk.withDraft id f).Consistent := by
  unfold Desk.withDraft
  cases found : desk.drafts[id]? with
  | none => exact h
  | some d => exact keeps d found

/-- Every action keeps the cache up to date. -/
theorem Consistent.perform (h : desk.Consistent) (action : DeskAction) : (desk.perform action).Consistent := by
  cases action with
  | take owner m => exact h.take ⟨owner, _, false⟩ (Nat.le_refl _) (Nat.lt_succ_self _)
  | copy original owner =>
    refine h.withDraft fun d _ => ?_
    obtain ⟨new, handed⟩ := d.method.id_copy desk.supply
    exact h.take ⟨owner, _, false⟩ new handed
  | edit id change =>
    refine h.withDraft fun d found => ?_
    obtain ⟨named, handed⟩ := h.named id d found
    refine h.put (d := d.edit change) (named ▸ handed) fun entry cached => ?_
    exact ⟨(h.fits id d entry found (named ▸ cached)).1, fun _ announced => nomatch announced⟩
  | announce id =>
    refine h.withDraft fun d found => ?_
    obtain ⟨named, handed⟩ := h.named id d found
    refine h.put (d := d.announce) (named ▸ handed) fun entry cached => ?_
    have old : entry.revision < d.announce.method.revision :=
      Nat.lt_succ_of_le (h.fits id d entry found (named ▸ cached)).1
    exact ⟨Nat.le_of_lt old, fun same => absurd same (Nat.ne_of_lt old)⟩
  | look id => exact h.withDraft fun d found => h.look found
  | forget id =>
    refine h.forgets fun id' entry cached => ?_
    have cached : (desk.cache.entries.erase id)[id']? = some entry := cached
    rw [Std.HashMap.getElem?_erase] at cached
    split at cached
    · cases cached
    · exact cached
  | clear =>
    refine h.forgets fun id' entry cached => ?_
    have cached : (∅ : Std.HashMap MethodId CacheEntry)[id']? = some entry := cached
    rw [Std.HashMap.getElem?_empty] at cached
    cases cached

theorem Consistent.performAll (h : desk.Consistent) (actions : List DeskAction) :
    (desk.performAll actions).Consistent := by
  induction actions generalizing desk with
  | nil => exact h
  | cons action rest ih => exact ih (h.perform action)

/-- **Look-ups are transparent.** Whatever was done to any number of methods, their copies and the cache
before, a look-up of a method whose edits have been announced answers what an analysis of the method as it
is now does: the same failure, or the same frames with the same values and usage classes. -/
theorem lookup_transparent (actions : List DeskAction) {id : MethodId} {d : Draft}
    (found : (performAll {} actions).drafts[id]? = some d) (announced : d.edited = false) :
    ((performAll {} actions).cache.lookup d.owner d.method).1.map CacheEntry.frames =
      analyze d.owner d.method := by
  have consistent := consistent_empty.performAll actions
  obtain ⟨rfl, -⟩ := consistent.named id d found
  exact FrameCache.map_frames_lookup fun entry cached current =>
    (consistent.fits _ d entry found cached).2 current announced

/-- A method that does nothing, in the class `A`. -/
def idleMethod : Method where
  id := ⟨0⟩
  access := 9
  name := "m"
  descriptor := "()V"
  body := numbered [.simple Opcode.vreturn]

/-- It is analysed, gets a number on its stack, and is announced. -/
def busyActions : List DeskAction :=
  [.take "A" idleMethod, .look ⟨0⟩,
    .edit ⟨0⟩ fun m => { m with body := numbered [.int Opcode.bipush 7, .simple Opcode.vreturn] },
    .announce ⟨0⟩]

/-- What the method has become. -/
def busyDraft : Draft where
  owner := "A"
  method := { idleMethod with
    body := numbered [.int Opcode.bipush 7, .simple Opcode.vreturn]
    revision := 1 }

/-- The entry of the first revision, for a body of one node, is not used any more. -/
theorem lookup_transparent_busy :
    (performAll {} busyActions).drafts[(⟨0⟩ : MethodId)]? = some busyDraft ∧ busyDraft.edited = false ∧
      ((performAll {} busyActions).cache.lookup "A" busyDraft.method).1.map CacheEntry.frames =
        analyze "A" busyDraft.method := by
  have found : (performAll {} busyActions).drafts[(⟨0⟩ : MethodId)]? = some busyDraft := by
    have first : Fresh.methodId.run {} = (⟨0⟩, ⟨1⟩) := rfl
    simp only [performAll, busyActions, List.foldl, perform, first, withDraft, getElem?_put, Option.elim,
      Draft.id_edit, Draft.id_announce, if_true]
    rfl
  exact ⟨found, rfl, lookup_transparent busyActions found rfl⟩

end Desk

end Bytecode.Analysis
