import Bytecode.Proofs.Analysis.Movements
import Mathlib.Logic.Relation

/-!
# Usage classes

A usage table partitions its keys: `Lists` says that the representatives and the lists of members
agree. From it follow the laws of the three operations. A new key opens a class of its own, a recorded
consumer is found under every key of the class, and a union joins two classes and their consumers.

Whatever an analysis does with its table, keys of one class stay in one class and no consumer is
forgotten. `UsageTable.Later` collects this, and makes the tables of an analysis into phases.

A table is asked for keys, to record consumers and to unite classes. `Connected` and `Consumes` are what such
requests say: the keys of a union belong together, and a consumer of one key is one of all that belong
together with it, whether it was recorded before or after the union. `Tells` says that a table knows exactly
this. An operation takes nothing back, so that what is left to show for each of them is that it says no more
than the request: `Tells.of_later` puts both together.
-/

namespace Bytecode.Analysis

theorem UsageKey.val_inj {a b : UsageKey} : a.val = b.val ↔ a = b :=
  ⟨congrArg UsageKey.mk, congrArg UsageKey.val⟩

namespace UsageTable

/-- The keys that a table knows. -/
def Knows (t : UsageTable) (key : UsageKey) : Prop :=
  key.val < t.representatives.size

/-- The representatives and the lists of members describe one partition. -/
structure Lists (t : UsageTable) : Prop where
  members : t.members.size = t.representatives.size
  consumers : t.consumers.size = t.representatives.size
  listed : ∀ k r : Nat, t.representatives[k]? = some r →
    r < t.representatives.size ∧ k ∈ t.members.getD r []
  represented : ∀ r k : Nat, k ∈ t.members.getD r [] → t.representatives[k]? = some r

variable {t t' t'' : UsageTable} {a b key : UsageKey} {insn : InsnId}

theorem find_eq (known : t.Knows key) : t.representatives[key.val]? = some (t.find key).val := by
  rw [find, Array.getD_eq_getD_getElem?, Array.getElem?_eq_getElem known, Option.getD_some]

theorem knows_find (h : t.Lists) (known : t.Knows key) : t.Knows (t.find key) :=
  (h.listed _ _ (find_eq known)).1

/-- A later table knows at least the keys, unites at least the keys that were united, and has at least
the consumers. -/
structure Later (t t' : UsageTable) : Prop where
  knows : ∀ key, t.Knows key → t'.Knows key
  same : ∀ a b, t.Knows a → t.Knows b → t.find a = t.find b → t'.find a = t'.find b
  usages : ∀ key, t.Knows key → t.usages key ⊆ t'.usages key

theorem Later.refl (t : UsageTable) : t.Later t :=
  ⟨fun _ h => h, fun _ _ _ _ h => h, fun _ _ => List.Subset.refl _⟩

theorem Later.trans (first : t.Later t') (second : t'.Later t'') : t.Later t'' where
  knows := fun key known => second.knows key (first.knows key known)
  same := fun a b ha hb same =>
    second.same a b (first.knows a ha) (first.knows b hb) (first.same a b ha hb same)
  usages := fun key known =>
    List.Subset.trans (first.usages key known) (second.usages key (first.knows key known))

/-- A table without keys. -/
theorem lists_empty : Lists {} :=
  ⟨rfl, rfl, by simp, by simp⟩

theorem find_fresh (known : t.Knows key) : t.fresh.2.find key = t.find key := by
  have bound : key.val < t.representatives.size := known
  simp only [find, fresh, Array.getD_eq_getD_getElem?, Array.getElem?_push]
  rw [if_neg (by omega)]

theorem usages_fresh (h : t.Lists) (known : t.Knows key) : t.fresh.2.usages key = t.usages key := by
  have inside := (h.listed _ _ (find_eq known)).1
  have consumers := h.consumers
  rw [usages, usages, find_fresh known]
  simp only [fresh, Array.getD_eq_getD_getElem?, Array.getElem?_push]
  rw [if_neg (by omega)]

theorem knows_fresh (known : t.fresh.2.Knows key) : t.Knows key ∨ key = t.fresh.1 := by
  have bound : key.val < (t.representatives.push _).size := known
  rw [Array.size_push] at bound
  exact (Nat.lt_succ_iff_lt_or_eq.mp bound).imp_right UsageKey.val_inj.mp

/-- A new key is its own representative. -/
theorem find_fresh_self (t : UsageTable) : t.fresh.2.find t.fresh.1 = t.fresh.1 := by
  simp [find, fresh]

/-- A new key has no consumers. -/
theorem usages_fresh_self (h : t.Lists) : t.fresh.2.usages t.fresh.1 = [] := by
  rw [usages, find_fresh_self]
  simp [fresh, ← h.consumers]

/-- A new key opens a class. -/
theorem fresh_later (h : t.Lists) : t.fresh.2.Lists ∧ t.Later t.fresh.2 ∧ t.fresh.2.Knows t.fresh.1 := by
  have members := h.members
  have consumers := h.consumers
  refine ⟨⟨by simp [fresh, members], by simp [fresh, consumers], fun k r found => ?_,
    fun r k listed => ?_⟩, ⟨fun key known => ?_, fun a b ha hb same => ?_, fun key known => ?_⟩, ?_⟩
  · simp only [fresh, Array.getElem?_push, Array.size_push, Array.getD_eq_getD_getElem?] at found ⊢
    split at found
    · next new =>
      cases found
      simp [members, new]
    · obtain ⟨inside, listed⟩ := h.listed k r found
      rw [if_neg (by omega)]
      exact ⟨Nat.lt_succ_of_lt inside, by rwa [← Array.getD_eq_getD_getElem?]⟩
  · simp only [fresh, Array.getElem?_push, Array.getD_eq_getD_getElem?] at listed ⊢
    split at listed
    · next last =>
      simp only [Option.getD_some, List.mem_singleton] at listed
      rw [if_pos listed, last, members]
    · have old := h.represented r k (by rwa [Array.getD_eq_getD_getElem?])
      have inside := (Array.getElem?_eq_some_iff.mp old).1
      rw [if_neg (by omega)]
      exact old
  · simpa [Knows, fresh] using Nat.lt_succ_of_lt known
  · rw [find_fresh ha, find_fresh hb, same]
  · rw [usages_fresh h known]
    exact List.Subset.refl _
  · simp [Knows, fresh]

/-- A recorded consumer is one of the class of the key, and of no other class. -/
theorem usages_record (insn : InsnId) (h : t.Lists) (known : t.Knows key) (other : UsageKey) :
    (t.record key insn).usages other =
      if t.find key = t.find other then InsnSet.insert insn (t.usages other) else t.usages other := by
  have inside := (h.listed _ _ (find_eq known)).1
  show (t.consumers.modify (t.find key).val (InsnSet.insert insn)).getD (t.find other).val [] = _
  simp only [usages, Array.getD_eq_getD_getElem?, Array.getElem?_modify]
  by_cases same : t.find key = t.find other
  · have bound : (t.find other).val < t.consumers.size := by rw [← same, h.consumers]; exact inside
    rw [if_pos (congrArg UsageKey.val same), if_pos same, Array.getElem?_eq_getElem bound]
    rfl
  · have apart : ¬(t.find key).val = (t.find other).val := fun equal =>
      same (congrArg UsageKey.mk equal)
    rw [if_neg apart, if_neg same]

/-- A recorded consumer is found under the key. -/
theorem record_later (insn : InsnId) (h : t.Lists) (known : t.Knows key) :
    (t.record key insn).Lists ∧ t.Later (t.record key insn) ∧
      insn ∈ (t.record key insn).usages key := by
  refine ⟨⟨h.members, by simpa [record] using h.consumers, h.listed, h.represented⟩,
    ⟨fun _ known => known, fun _ _ _ _ same => same, fun other _ i member => ?_⟩, ?_⟩
  · rw [usages_record insn h known]
    split
    · exact InsnSet.mem_insert.mpr (.inr member)
    · exact member
  · rw [usages_record insn h known, if_pos rfl]
    exact InsnSet.mem_insert.mpr (.inl rfl)

/-- Keys that move to another class. -/
theorem getElem?_relabel (moved : List Nat) (kept : Nat) (reps : Array Nat) (k : Nat) :
    (moved.foldl (fun known key => known.setIfInBounds key kept) reps)[k]? =
      if k ∈ moved then reps[k]?.map fun _ => kept else reps[k]? := by
  induction moved generalizing reps with
  | nil => simp
  | cons key moved ih =>
    rw [List.foldl_cons, ih, Array.getElem?_setIfInBounds]
    grind

/-- One class takes in another one. -/
def absorb (t : UsageTable) (kept dropped : Nat) (consumers : InsnSet) : UsageTable where
  representatives :=
    (t.members.getD dropped []).foldl (fun known key => known.setIfInBounds key kept) t.representatives
  members := (t.members.modify kept (t.members.getD dropped [] ++ ·)).setIfInBounds dropped []
  consumers := (t.consumers.setIfInBounds kept consumers).setIfInBounds dropped []

section

variable {kept dropped : Nat} {consumers : InsnSet}

theorem representatives_absorb (h : t.Lists) (kept dropped : Nat) (consumers : InsnSet) (k : Nat) :
    (t.absorb kept dropped consumers).representatives[k]? =
      if t.representatives[k]? = some dropped then some kept else t.representatives[k]? := by
  rw [absorb, getElem?_relabel]
  by_cases moved : k ∈ t.members.getD dropped []
  · rw [if_pos moved, if_pos (h.represented _ _ moved), h.represented _ _ moved]
    rfl
  · rw [if_neg moved, if_neg fun same => moved (h.listed k dropped same).2]

theorem size_absorb : (t.absorb kept dropped consumers).representatives.size = t.representatives.size := by
  have sizes (moved : List Nat) (reps : Array Nat) :
      (moved.foldl (fun known key => known.setIfInBounds key kept) reps).size = reps.size := by
    induction moved generalizing reps with
    | nil => rfl
    | cons key moved ih => rw [List.foldl_cons, ih, Array.size_setIfInBounds]
  exact sizes _ _

theorem members_absorb (hkept : kept < t.members.size) (dropped : Nat) (consumers : InsnSet) (r : Nat) :
    (t.absorb kept dropped consumers).members.getD r [] =
      if r = dropped then [] else if r = kept then t.members.getD dropped [] ++ t.members.getD kept []
        else t.members.getD r [] := by
  simp only [absorb, Array.getD_eq_getD_getElem?, Array.getElem?_setIfInBounds, Array.getElem?_modify]
  grind

theorem consumers_absorb (hkept : kept < t.consumers.size) (r : Nat) :
    (t.absorb kept dropped consumers).consumers.getD r [] =
      if r = dropped then [] else if r = kept then consumers else t.consumers.getD r [] := by
  simp only [absorb, Array.getD_eq_getD_getElem?, Array.getElem?_setIfInBounds]
  grind

/-- The keys of the class that was taken in have a new representative. -/
theorem find_absorb (h : t.Lists) (known : t.Knows key) (kept dropped : UsageKey) (consumers : InsnSet) :
    (t.absorb kept.val dropped.val consumers).find key = if t.find key = dropped then kept else t.find key := by
  have here := representatives_absorb h kept.val dropped.val consumers key.val
  simp only [find_eq known, Option.some.injEq, UsageKey.val_inj] at here
  rw [find, Array.getD_eq_getD_getElem?, here]
  split <;> rfl

/-- The keys of both classes have the new consumers. -/
theorem usages_absorb (h : t.Lists) (known : t.Knows key) {kept dropped : UsageKey} (different : kept ≠ dropped)
    (hkept : t.Knows kept) (consumers : InsnSet) : (t.absorb kept.val dropped.val consumers).usages key =
      if t.find key = kept ∨ t.find key = dropped then consumers else t.usages key := by
  have inside : kept.val < t.consumers.size := h.consumers.symm ▸ hkept
  rw [usages, find_absorb h known, consumers_absorb inside]
  simp only [UsageKey.val_inj]
  by_cases moved : t.find key = dropped
  · rw [if_pos moved, if_neg different, if_pos rfl, if_pos (.inr moved)]
  · simp only [moved, if_false, or_false, usages]

/-- A class that takes in another one has the keys and the consumers of both. -/
theorem absorb_later (h : t.Lists) {kept dropped : UsageKey} (different : kept ≠ dropped) (hkept : t.Knows kept)
    (fromKept : t.consumers.getD kept.val [] ⊆ consumers)
    (fromDropped : t.consumers.getD dropped.val [] ⊆ consumers) :
    (t.absorb kept.val dropped.val consumers).Lists ∧ t.Later (t.absorb kept.val dropped.val consumers) := by
  have reps := representatives_absorb h kept.val dropped.val consumers
  have inside : kept.val < t.representatives.size := hkept
  have apart : kept.val ≠ dropped.val := fun same => different (congrArg UsageKey.mk same)
  have members := members_absorb (h.members.symm ▸ inside) dropped.val consumers
  refine ⟨⟨?_, ?_, fun k r here => ?_, fun r k here => ?_⟩,
    ⟨fun key known => ?_, fun a b ha hb same => ?_, fun key known => ?_⟩⟩
  · rw [size_absorb, ← h.members]
    simp [absorb]
  · rw [size_absorb, ← h.consumers]
    simp [absorb]
  · rw [reps] at here
    rw [size_absorb, members]
    have listed := h.listed k
    grind
  · rw [members] at here
    rw [reps]
    have represented := h.represented
    grind
  · rwa [Knows, size_absorb]
  · rw [find_absorb h ha, find_absorb h hb, same]
  · rw [usages_absorb h known different hkept]
    split
    · next either => rcases either with same | same <;> rwa [usages, same]
    · exact List.Subset.refl _

end

/-- A union lets the class with more consumers take in the other one. -/
theorem union_of_ne (different : t.find a ≠ t.find b) : t.union a b =
    if (t.usages b).length ≤ (t.usages a).length then
      t.absorb (t.find a).val (t.find b).val (InsnSet.union (t.usages a) (t.usages b))
    else t.absorb (t.find b).val (t.find a).val (InsnSet.union (t.usages a) (t.usages b)) := by
  have apart : ¬(t.find a).val = (t.find b).val := fun same => different (UsageKey.val_inj.mp same)
  by_cases larger : (t.usages b).length ≤ (t.usages a).length
  · have larger' : (t.consumers.getD (t.find b).val []).length ≤
      (t.consumers.getD (t.find a).val []).length := larger
    simp only [union, if_neg apart, if_pos larger, if_pos larger']
    rfl
  · have larger' : ¬(t.consumers.getD (t.find b).val []).length ≤
      (t.consumers.getD (t.find a).val []).length := larger
    simp only [union, if_neg apart, if_neg larger, if_neg larger']
    rfl

/-- A union lets the class of one key take in that of the other. -/
theorem union_eq (different : t.find a ≠ t.find b) : ∃ kept dropped : UsageKey,
    t.union a b = t.absorb kept.val dropped.val (InsnSet.union (t.usages a) (t.usages b)) ∧
      ((kept = t.find a ∧ dropped = t.find b) ∨ (kept = t.find b ∧ dropped = t.find a)) := by
  rw [union_of_ne different]
  split
  · exact ⟨_, _, rfl, .inl ⟨rfl, rfl⟩⟩
  · exact ⟨_, _, rfl, .inr ⟨rfl, rfl⟩⟩

/-- A union of a class with itself changes nothing. -/
theorem union_of_same (same : t.find a = t.find b) : t.union a b = t := by
  rw [union]
  exact if_pos (congrArg UsageKey.val same)

theorem size_union : (t.union a b).representatives.size = t.representatives.size := by
  by_cases same : t.find a = t.find b
  · rw [union_of_same same]
  · obtain ⟨kept, dropped, equal, -⟩ := union_eq same
    rw [equal, size_absorb]

/-- The class that a union makes keeps the representative of one of the two classes, and all other classes
keep theirs. -/
theorem find_union (h : t.Lists) (ha : t.Knows a) (b : UsageKey) :
    ((t.union a b).find a = t.find a ∨ (t.union a b).find a = t.find b) ∧ ∀ key, t.Knows key →
      (t.union a b).find key =
        if t.find key = t.find a ∨ t.find key = t.find b then (t.union a b).find a else t.find key := by
  by_cases same : t.find a = t.find b
  · rw [union_of_same same]
    exact ⟨.inl rfl, fun key known => by grind⟩
  · obtain ⟨kept, dropped, equal, names⟩ := union_eq same
    simp only [equal, find_absorb h ha]
    refine ⟨by grind, fun key known => ?_⟩
    rw [find_absorb h known]
    grind

/-- The class that a union makes has the consumers of the two classes, and all other classes keep theirs. -/
theorem usages_union (h : t.Lists) (ha : t.Knows a) (hb : t.Knows b) (known : t.Knows key) (insn : InsnId) :
    insn ∈ (t.union a b).usages key ↔ if t.find key = t.find a ∨ t.find key = t.find b then
      insn ∈ t.usages a ∨ insn ∈ t.usages b else insn ∈ t.usages key := by
  by_cases same : t.find a = t.find b
  · rw [union_of_same same]
    simp only [usages, same, or_self]
    split
    · next here => rw [here]
    · rfl
  · obtain ⟨kept, dropped, equal, names⟩ := union_eq same
    have known' : t.Knows kept := by
      rcases names with ⟨rfl, -⟩ | ⟨rfl, -⟩
      · exact knows_find h ha
      · exact knows_find h hb
    rw [equal, usages_absorb h known (by grind) known']
    have either : (t.find key = kept ∨ t.find key = dropped) ↔
        (t.find key = t.find a ∨ t.find key = t.find b) := by grind
    simp only [either]
    split
    · exact InsnSet.mem_union
    · rfl

/-- A union joins the classes of both keys. -/
theorem union_later (h : t.Lists) (ha : t.Knows a) (hb : t.Knows b) :
    (t.union a b).Lists ∧ t.Later (t.union a b) ∧ (t.union a b).find a = (t.union a b).find b := by
  have joined : (t.union a b).find a = (t.union a b).find b := by
    rw [(find_union h ha b).2 b hb, if_pos (.inr rfl)]
  refine and_assoc.mp ⟨?_, joined⟩
  by_cases same : t.find a = t.find b
  · rw [union_of_same same]
    exact ⟨h, .refl t⟩
  · obtain ⟨kept, dropped, equal, names⟩ := union_eq same
    have left : t.usages a ⊆ InsnSet.union (t.usages a) (t.usages b) :=
      fun i member => InsnSet.mem_union.mpr (.inl member)
    have right : t.usages b ⊆ InsnSet.union (t.usages a) (t.usages b) :=
      fun i member => InsnSet.mem_union.mpr (.inr member)
    rw [equal]
    rcases names with ⟨rfl, rfl⟩ | ⟨rfl, rfl⟩
    · exact absorb_later h same (knows_find h ha) left right
    · exact absorb_later h (Ne.symm same) (knows_find h hb) right left

end UsageTable

/-! ## The tables of an analysis -/

/-- The usage tables of an analysis as phases: a value is good if the table knows its key. -/
def usagePhases : Phases UsageTable where
  of := fun t s => s.usages = t ∧ t.Lists
  later := UsageTable.Later
  good := fun t v => t.Knows v.key
  refl := UsageTable.Later.refl
  trans := UsageTable.Later.trans
  mono := fun known later => later.knows _ known

/-- An instruction is among the consumers of a value that the table knows. -/
def UsedIn (t : UsageTable) (id : InsnId) (v : Value) : Prop :=
  t.Knows v.key ∧ id ∈ t.usages v.key

theorem UsedIn.later {t t' : UsageTable} {id : InsnId} {v : Value} (h : UsedIn t id v)
    (later : t.Later t') : UsedIn t' id v :=
  ⟨later.knows _ h.1, later.usages _ h.1 h.2⟩

theorem usagePhases_bookkeeping : Bookkeeping usagePhases UsedIn where
  make := by
    rintro t kind sources literal s ⟨rfl, lists⟩
    obtain ⟨lists', later, known⟩ := UsageTable.fresh_later lists
    exact ⟨_, later, ⟨rfl, lists'⟩, known, rfl, rfl⟩
  consume := by
    rintro t id v known s ⟨rfl, lists⟩
    obtain ⟨lists', later, recorded⟩ := UsageTable.record_later id lists known
    exact ⟨_, later, ⟨rfl, lists'⟩, later.knows _ known, recorded⟩
  silent := by
    rintro α t x same s ⟨rfl, lists⟩
    exact ⟨_, .refl _, ⟨same s, lists⟩, trivial⟩
  mono := fun hused _ later => hused.later later

end Bytecode.Analysis

namespace Bytecode.Analysis

namespace UsageTable

/-! ## Requests -/

/-- What a table is asked to do. -/
inductive Request where
  | fresh
  | record (key : UsageKey) (insn : InsnId)
  | union (a b : UsageKey)

/-- How many keys a request hands out. -/
def Request.keys : Request → Nat
  | fresh => 1
  | _ => 0

/-- A request names no keys but the first `n`. -/
def Request.Known (n : Nat) : Request → Prop
  | fresh => True
  | record key _ => key.val < n
  | union a b => a.val < n ∧ b.val < n

/-- How many keys some requests hand out. -/
def keyCount (requests : List Request) : Nat :=
  (requests.map Request.keys).sum

/-- Requests to a table of `n` keys only name keys that have been handed out before. -/
def Allowed : Nat → List Request → Prop
  | _, [] => True
  | n, request :: rest => request.Known n ∧ Allowed (n + request.keys) rest

/-- The table after a request. -/
def perform (t : UsageTable) : Request → UsageTable
  | .fresh => t.fresh.2
  | .record key insn => t.record key insn
  | .union a b => t.union a b

/-- The table after some requests. -/
def performAll (t : UsageTable) (requests : List Request) : UsageTable :=
  requests.foldl perform t

/-- Two keys belong together: unions lead from one to the other. -/
def Connected (requests : List Request) : UsageKey → UsageKey → Prop :=
  Relation.EqvGen fun a b => Request.union a b ∈ requests

/-- An instruction was recorded at a key or at one that belongs together with it. -/
def Consumes (requests : List Request) (key : UsageKey) (insn : InsnId) : Prop :=
  ∃ other, Connected requests key other ∧ Request.record other insn ∈ requests

section

variable {t t' : UsageTable} {rs more : List Request} {r : Request} {a b key : UsageKey} {insn : InsnId}

theorem Request.Known.mono {n n' : Nat} (h : r.Known n) (le : n ≤ n') : r.Known n' := by
  cases r with
  | fresh => trivial
  | record => exact Nat.lt_of_lt_of_le h le
  | union => exact ⟨Nat.lt_of_lt_of_le h.1 le, Nat.lt_of_lt_of_le h.2 le⟩

theorem Connected.mono (h : Connected rs a b) (subset : rs ⊆ more) : Connected more a b :=
  Relation.EqvGen.mono (fun _ _ member => subset member) _ _ h

theorem Consumes.mono (h : Consumes rs key insn) (subset : rs ⊆ more) : Consumes more key insn := by
  obtain ⟨other, connected, recorded⟩ := h
  exact ⟨other, connected.mono subset, subset recorded⟩

/-! ## Tables that tell what was requested -/

/-- A table knows which keys belong together, and what was recorded at them. -/
structure Tells (t : UsageTable) (rs : List Request) : Prop where
  lists : t.Lists
  size : t.representatives.size = keyCount rs
  known : ∀ r ∈ rs, r.Known t.representatives.size
  same : ∀ a b, t.Knows a → t.Knows b → (t.find a = t.find b ↔ Connected rs a b)
  used : ∀ key, t.Knows key → ∀ insn, insn ∈ t.usages key ↔ Consumes rs key insn

theorem tells_empty : Tells {} [] where
  lists := lists_empty
  size := rfl
  known := nofun
  same := fun _ _ knows => nomatch knows
  used := fun _ knows => nomatch knows

theorem usages_congr (same : t.find a = t.find b) : t.usages a = t.usages b := by
  rw [usages, usages, same]

/-- A later table tells one request more if it does what was requested (`joins`, `records`) and no more than
that (`apart`, `told`). -/
theorem Tells.of_later (h : t.Tells rs) (named : r.Known t.representatives.size) (lists : t'.Lists)
    (later : t.Later t') (size : t'.representatives.size = t.representatives.size + r.keys)
    (joins : ∀ a b, r = .union a b → t'.find a = t'.find b)
    (records : ∀ key insn, r = .record key insn → insn ∈ t'.usages key)
    (apart : ∀ a b, t'.Knows a → t'.Knows b → t'.find a = t'.find b → Connected (rs ++ [r]) a b)
    (told : ∀ key, t'.Knows key → ∀ insn ∈ t'.usages key, Consumes (rs ++ [r]) key insn) :
    t'.Tells (rs ++ [r]) := by
  have connects : ∀ a b, Connected (rs ++ [r]) a b → t'.find a = t'.find b := by
    intro a b connected
    induction connected with
    | rel a b member =>
      rcases List.mem_append.mp member with old | new
      · obtain ⟨ha, hb⟩ := h.known _ old
        exact later.same a b ha hb ((h.same a b ha hb).mpr (.rel a b old))
      · exact joins a b (List.mem_singleton.mp new).symm
    | refl => rfl
    | symm a b _ ih => exact ih.symm
    | trans a b c _ _ ih ih' => exact ih.trans ih'
  have found : ∀ key insn, Request.record key insn ∈ rs ++ [r] → insn ∈ t'.usages key := by
    intro key insn member
    rcases List.mem_append.mp member with old | new
    · have knows : t.Knows key := h.known _ old
      exact later.usages key knows ((h.used key knows insn).mpr ⟨key, .refl key, old⟩)
    · exact records key insn (List.mem_singleton.mp new).symm
  refine ⟨lists, ?_, fun r' member => ?_, fun a b ha hb => ⟨apart a b ha hb, connects a b⟩,
    fun key knows insn => ⟨told key knows insn, fun ⟨other, connected, recorded⟩ => ?_⟩⟩
  · rw [size, h.size, keyCount, keyCount, List.map_append, List.sum_append, List.map_singleton,
      List.sum_singleton]
  · rw [size]
    rcases List.mem_append.mp member with old | new
    · exact (h.known r' old).mono (Nat.le_add_right _ _)
    · rw [List.mem_singleton.mp new]
      exact named.mono (Nat.le_add_right _ _)
  · rw [usages_congr (connects key other connected)]
    exact found other insn recorded

/-! ## The three requests -/

private theorem subset_snoc (rs : List Request) (r : Request) : rs ⊆ rs ++ [r] :=
  List.subset_append_left rs [r]

/-- A new key belongs together with no other, and has no consumers. -/
theorem Tells.fresh (h : t.Tells rs) : t.fresh.2.Tells (rs ++ [.fresh]) := by
  obtain ⟨lists, later, -⟩ := fresh_later h.lists
  have foreign (key : UsageKey) (knows : t.Knows key) : t.fresh.2.find key ≠ t.fresh.1 := by
    rw [find_fresh knows]
    exact fun same => Nat.ne_of_lt (h.lists.listed _ _ (find_eq knows)).1 (congrArg UsageKey.val same)
  refine h.of_later trivial lists later (Array.size_push _) nofun nofun (fun a b ha hb same => ?_)
    fun key knows insn used => ?_
  · rcases knows_fresh ha with oldA | rfl
    · rcases knows_fresh hb with oldB | rfl
      · rw [find_fresh oldA, find_fresh oldB] at same
        exact ((h.same a b oldA oldB).mp same).mono (subset_snoc _ _)
      · exact absurd (same.trans t.find_fresh_self) (foreign a oldA)
    · rcases knows_fresh hb with oldB | rfl
      · exact absurd (same.symm.trans t.find_fresh_self) (foreign b oldB)
      · exact .refl _
  · rcases knows_fresh knows with old | rfl
    · rw [usages_fresh h.lists old] at used
      exact ((h.used key old insn).mp used).mono (subset_snoc _ _)
    · rw [usages_fresh_self h.lists] at used
      cases used

/-- A recorded instruction is a consumer of what belongs together with the key. -/
theorem Tells.record (h : t.Tells rs) (knows : t.Knows key) (insn : InsnId) :
    (t.record key insn).Tells (rs ++ [.record key insn]) := by
  obtain ⟨lists, later, recorded⟩ := record_later insn h.lists knows
  refine h.of_later knows lists later rfl nofun ?_ (fun a b ha hb same => ?_) fun other known i used => ?_
  · rintro _ _ ⟨⟩
    exact recorded
  · exact ((h.same a b ha hb).mp same).mono (subset_snoc _ _)
  · rw [usages_record insn h.lists knows] at used
    split at used
    · next same =>
      rcases InsnSet.mem_insert.mp used with rfl | old
      · have connected := (h.same other key known knows).mp same.symm
        exact ⟨key, connected.mono (subset_snoc _ _), by simp⟩
      · exact ((h.used other known i).mp old).mono (subset_snoc _ _)
    · exact ((h.used other known i).mp used).mono (subset_snoc _ _)

/-- A union connects what belongs together with either key. -/
theorem Tells.union (h : t.Tells rs) (ha : t.Knows a) (hb : t.Knows b) :
    (t.union a b).Tells (rs ++ [.union a b]) := by
  obtain ⟨lists, later, joined⟩ := union_later h.lists ha hb
  obtain ⟨own, others⟩ := find_union h.lists ha b
  have size : (t.union a b).representatives.size = t.representatives.size := size_union
  have knows {x : UsageKey} (hx : (t.union a b).Knows x) : t.Knows x := by rwa [Knows, size] at hx
  have old {x y : UsageKey} (hx : t.Knows x) (hy : t.Knows y) (same : t.find x = t.find y) :
      Connected (rs ++ [.union a b]) x y := ((h.same x y hx hy).mp same).mono (subset_snoc _ _)
  have connected {x : UsageKey} (hx : t.Knows x) (either : t.find x = t.find a ∨ t.find x = t.find b) :
      Connected (rs ++ [.union a b]) x a := by
    rcases either with atA | atB
    · exact old hx ha atA
    · exact (old hx hb atB).trans _ _ _ (.symm _ _ (.rel _ _ (by simp)))
  refine h.of_later ⟨ha, hb⟩ lists later size ?_ nofun (fun x y hx hy same => ?_) fun x hx i used => ?_
  · rintro _ _ ⟨⟩
    exact joined
  · rw [others x (knows hx), others y (knows hy)] at same
    by_cases eitherX : t.find x = t.find a ∨ t.find x = t.find b
    · have eitherY : t.find y = t.find a ∨ t.find y = t.find b := by grind
      exact (connected (knows hx) eitherX).trans _ _ _ (.symm _ _ (connected (knows hy) eitherY))
    · have eitherY : ¬(t.find y = t.find a ∨ t.find y = t.find b) := by grind
      rw [if_neg eitherX, if_neg eitherY] at same
      exact old (knows hx) (knows hy) same
  · rw [usages_union h.lists ha hb (knows hx)] at used
    split at used
    · next either =>
      obtain ⟨other, together, recorded⟩ : Consumes (rs ++ [.union a b]) a i := by
        rcases used with atA | atB
        · exact ((h.used a ha i).mp atA).mono (subset_snoc _ _)
        · obtain ⟨other, together, recorded⟩ := (h.used b hb i).mp atB
          exact ⟨other, .trans _ _ _ (.rel _ _ (by simp)) (together.mono (subset_snoc _ _)),
            subset_snoc _ _ recorded⟩
      exact ⟨other, (connected (knows hx) either).trans _ _ _ together, recorded⟩
    · exact ((h.used x (knows hx) i).mp used).mono (subset_snoc _ _)

/-- A table tells one request more after it. -/
theorem Tells.perform (h : t.Tells rs) (known : r.Known t.representatives.size) :
    (t.perform r).Tells (rs ++ [r]) := by
  cases r with
  | fresh => exact h.fresh
  | record key insn => exact h.record known insn
  | union a b => exact h.union known.1 known.2

theorem Tells.size_perform (h : t.Tells rs) (known : r.Known t.representatives.size) :
    (t.perform r).representatives.size = t.representatives.size + r.keys := by
  rw [(h.perform known).size, h.size, keyCount, keyCount, List.map_append, List.sum_append, List.map_singleton,
    List.sum_singleton]

/-- Requests are told by a table that was given them. -/
theorem Tells.performAll (h : t.Tells rs) (allowed : Allowed t.representatives.size more) :
    (t.performAll more).Tells (rs ++ more) := by
  induction more generalizing t rs with
  | nil => rwa [List.append_nil]
  | cons r more ih =>
    obtain ⟨known, allowed⟩ := allowed
    rw [List.append_cons]
    exact ih (h.perform known) (h.size_perform known ▸ allowed)

/-! ## How long a representative stays -/

/-- A request that does not enlarge the class of a key leaves its representative. -/
theorem Tells.stays_perform (h : t.Tells rs) (known : r.Known t.representatives.size) (knows : t.Knows key)
    (whole : ∀ other, Connected (rs ++ [r]) key other → Connected rs key other) :
    (t.perform r).find key = t.find key := by
  cases r with
  | fresh => exact find_fresh knows
  | record other insn => rfl
  | union a b =>
    obtain ⟨ha, hb⟩ := known
    have step : Connected (rs ++ [.union a b]) a b := .rel _ _ (by simp)
    have reached {x y : UsageKey} (hx : t.Knows x) (hy : t.Knows y) (here : t.find key = t.find x)
        (linked : Connected (rs ++ [.union a b]) x y) : t.find x = t.find y := by
      have first := ((h.same key x knows hx).mp here).mono (subset_snoc _ (.union a b))
      exact here.symm.trans ((h.same key y knows hy).mpr (whole y (first.trans _ _ _ linked)))
    by_cases either : t.find key = t.find a ∨ t.find key = t.find b
    · have same : t.find a = t.find b :=
        either.elim (fun here => reached ha hb here step) fun here => (reached hb ha here (step.symm _ _)).symm
      exact congrArg (find · key) (union_of_same same)
    · exact ((find_union h.lists ha b).2 key knows).trans (if_neg either)

/-- **A representative stays as long as its class.** Requests that do not enlarge the class of a key leave its
representative. -/
theorem Tells.stays (h : t.Tells rs) (allowed : Allowed t.representatives.size more) (knows : t.Knows key)
    (whole : ∀ other, Connected (rs ++ more) key other → Connected rs key other) :
    (t.performAll more).find key = t.find key := by
  induction more generalizing t rs with
  | nil => rfl
  | cons r more ih =>
    obtain ⟨known, allowed⟩ := allowed
    rw [List.append_cons] at whole
    have first := h.stays_perform known knows fun other linked =>
      whole other (linked.mono (List.subset_append_left _ _))
    have knows' : (t.perform r).Knows key :=
      Nat.lt_of_lt_of_le knows (h.size_perform known ▸ Nat.le_add_right _ _)
    refine (ih (h.perform known) (h.size_perform known ▸ allowed) knows' fun other linked => ?_).trans first
    exact (whole other linked).mono (subset_snoc _ _)

end

end UsageTable

end Bytecode.Analysis
