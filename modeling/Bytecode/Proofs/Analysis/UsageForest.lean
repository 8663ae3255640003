import Bytecode.Proofs.Analysis.Termination
import Bytecode.Proofs.Analysis.UsageClasses

/-!
# Usage classes as trees

A table keeps the representative of every key. One can also keep, for every key, some other key on the way to
the representative: a forest, in which a search climbs from a key to the root above it, and in which a union
only hangs one root under another. Every search for a change lets the keys on its way point to the root.

Nothing in the types keeps such a search from leaving the forest or from going round in it. `climb` and
`redirect` have no result then: a search that takes more steps than there are keys has passed a key twice.
`UsageForest.Mirrors` says that a forest shows the partition of a table, so that the way up from every key
ends at its representative. All requests keep that (`Mirrors.perform`), forest and table tell the same, and
`performAll_partitions` reads off what that is.
-/

namespace Bytecode.Analysis

/-- Keys with keys above them, and a set of consumers for every root. -/
structure UsageForest where
  parents : Array Nat := #[]
  sets : Array InsnSet := #[]

namespace UsageForest

open UsageTable (Request Allowed Connected Consumes keyCount)

/-- Climbs from a key to the root above it, within a number of steps. -/
def climb (parents : Array Nat) : Nat → Nat → Option Nat
  | 0, _ => none
  | steps + 1, k => do
    let parent ← parents[k]?
    if parent = k then return k else climb parents steps parent

/-- Lets the keys on the way from a key to a root point to the root, within a number of steps. -/
def redirect (root : Nat) : Nat → Array Nat → Nat → Option (Array Nat)
  | 0, _, _ => none
  | steps + 1, parents, k => do
    let parent ← parents[k]?
    if parent = root then return parents
    else redirect root steps (parents.setIfInBounds k root) parent

/-- A new root. -/
def fresh (f : UsageForest) : UsageKey × UsageForest :=
  (⟨f.parents.size⟩, { parents := f.parents.push f.parents.size, sets := f.sets.push [] })

/-- The root above a key. -/
def find (f : UsageForest) (key : UsageKey) : Option UsageKey :=
  (climb f.parents f.parents.size key.val).map UsageKey.mk

/-- The root above a key, and the forest with a short way to it. -/
def compress (f : UsageForest) (key : UsageKey) : Option (UsageKey × UsageForest) := do
  let root ← f.find key
  let parents ← redirect root.val f.parents.size f.parents key.val
  return (root, { f with parents })

/-- The consumers at the root above a key. -/
def usages (f : UsageForest) (key : UsageKey) : Option InsnSet := do
  let root ← f.find key
  f.sets[root.val]?

/-- Whether two keys are under one root. -/
def sameClass (f : UsageForest) (a b : UsageKey) : Option Bool :=
  return (← f.find a) == (← f.find b)

/-- Adds a consumer at the root above a key. -/
def record (f : UsageForest) (key : UsageKey) (insn : InsnId) : Option UsageForest := do
  let (root, f) ← f.compress key
  return { f with sets := f.sets.modify root.val (InsnSet.insert insn) }

/-- Hangs a root under another one, and moves its consumers there. -/
def link (f : UsageForest) (big small : UsageKey) : UsageForest where
  parents := f.parents.setIfInBounds small.val big.val
  sets := (f.sets.setIfInBounds big.val
    (InsnSet.union (f.sets.getD small.val []) (f.sets.getD big.val []))).setIfInBounds small.val []

/-- Unites the trees of two keys. The root with more consumers stays one. -/
def union (f : UsageForest) (a b : UsageKey) : Option UsageForest := do
  let (ra, f) ← f.compress a
  let (rb, f) ← f.compress b
  if ra = rb then return f
  else if (f.sets.getD rb.val []).length ≤ (f.sets.getD ra.val []).length then return f.link ra rb
  else return f.link rb ra

/-- The forest after a request. -/
def perform (f : UsageForest) : Request → Option UsageForest
  | .fresh => some f.fresh.2
  | .record key insn => f.record key insn
  | .union a b => f.union a b

/-- The forest after some requests. -/
def performAll (f : UsageForest) (requests : List Request) : Option UsageForest :=
  requests.foldlM perform f

/-! ## Ways up -/

/-- The way up from a key ends after a number of steps at a root. -/
inductive Leads (parents : Array Nat) : Nat → Nat → Nat → Prop
  | root {r : Nat} (here : parents[r]? = some r) : Leads parents 0 r r
  | up {n k p r : Nat} (parent : parents[k]? = some p) (other : p ≠ k) (rest : Leads parents n p r) :
      Leads parents (n + 1) k r

section

variable {parents : Array Nat} {m n j k r r' : Nat}

theorem Leads.root_eq (h : Leads parents n k r) : parents[r]? = some r := by
  induction h with
  | root here => exact here
  | up _ _ _ ih => exact ih

/-- A search finds the root to which the way leads. -/
theorem Leads.climb_eq (h : Leads parents n k r) {steps : Nat} (enough : n < steps) :
    climb parents steps k = some r := by
  induction h generalizing steps with
  | root here =>
    obtain ⟨steps, rfl⟩ := Nat.exists_eq_succ_of_ne_zero (Nat.ne_of_gt enough)
    rw [climb, here]
    exact if_pos rfl
  | up parent other _ ih =>
    obtain ⟨steps, rfl⟩ := Nat.exists_eq_succ_of_ne_zero (Nat.ne_of_gt (Nat.zero_lt_of_lt enough))
    rw [climb, parent]
    exact (if_neg other).trans (ih (Nat.lt_of_succ_lt_succ enough))

/-- A way up stays where keys are added. -/
theorem Leads.mono {parents' : Array Nat}
    (grows : ∀ i p : Nat, parents[i]? = some p → parents'[i]? = some p) (h : Leads parents n k r) :
    Leads parents' n k r := by
  induction h with
  | root here => exact .root (grows _ _ here)
  | up parent other _ ih => exact .up (grows _ _ parent) other ih

/-- There is one way up. -/
theorem Leads.unique (h : Leads parents n k r) (h' : Leads parents m k r') : n = m ∧ r = r' := by
  induction h generalizing m with
  | root here =>
    cases h' with
    | root => exact ⟨rfl, rfl⟩
    | up parent other _ => exact absurd (Option.some.inj (parent.symm.trans here)) other
  | up parent other _ ih =>
    cases h' with
    | root here => exact absurd (Option.some.inj (parent.symm.trans here)) other
    | up parent' _ rest' =>
      obtain rfl := Option.some.inj (parent.symm.trans parent')
      obtain ⟨rfl, rfl⟩ := ih rest'
      exact ⟨rfl, rfl⟩

/-- A way up passes keys from which it is shorter. -/
theorem Leads.passes (h : Leads parents n k r) {i : Nat} (le : i ≤ n) :
    ∃ x < parents.size, Leads parents i x r := by
  induction h with
  | root here =>
    obtain rfl : i = 0 := Nat.le_zero.mp le
    exact ⟨_, (Array.getElem?_eq_some_iff.mp here).1, .root here⟩
  | @up n k p r parent other rest ih =>
    rcases Nat.lt_or_eq_of_le le with shorter | rfl
    · exact ih (Nat.le_of_lt_succ shorter)
    · exact ⟨k, (Array.getElem?_eq_some_iff.mp parent).1, .up parent other rest⟩

/-- **A way up is shorter than the number of keys.** It passes no key twice, since there is one way up from
each. -/
theorem Leads.lt_size (h : Leads parents n k r) : n < parents.size := by
  choose x inside way using fun i : Fin (n + 1) => h.passes (Nat.le_of_lt_succ i.isLt)
  have apart : Function.Injective fun i => (⟨x i, inside i⟩ : Fin parents.size) := by
    intro i j same
    have same : x i = x j := congrArg Fin.val same
    exact Fin.ext ((way i).unique (same ▸ way j)).1
  exact Nat.lt_of_succ_le (by simpa using Fintype.card_le_of_injective _ apart)

/-- A key that points to its root at once makes no way longer, and leads no key to another root. -/
theorem Leads.shorten (short : Leads parents m k r) (h : Leads parents n j r') :
    ∃ n' ≤ n, Leads (parents.setIfInBounds k r) n' j r' := by
  have kept {i : Nat} (apart : k ≠ i) : (parents.setIfInBounds k r)[i]? = parents[i]? := by
    rw [Array.getElem?_setIfInBounds, if_neg apart]
  have moved {p : Nat} (inside : parents[k]? = some p) : (parents.setIfInBounds k r)[k]? = some r := by
    rw [Array.getElem?_setIfInBounds, if_pos rfl, if_pos (Array.getElem?_eq_some_iff.mp inside).1]
  induction h with
  | @root i here =>
    refine ⟨0, Nat.le_refl _, .root ?_⟩
    by_cases same : k = i
    · subst same
      rw [moved here, (short.unique (.root here)).2]
    · rw [kept same, here]
  | @up n i p r' parent other rest ih =>
    obtain ⟨n', shorter, rest'⟩ := ih
    by_cases same : k = i
    · subst same
      obtain rfl := (short.unique (.up parent other rest)).2
      have below : r ≠ k := by
        rintro rfl
        exact other (Option.some.inj (parent.symm.trans short.root_eq))
      have atRoot := (kept below.symm).trans short.root_eq
      exact ⟨1, Nat.succ_le_succ (Nat.zero_le _), .up (moved parent) below (.root atRoot)⟩
    · exact ⟨n' + 1, Nat.succ_le_succ shorter, .up ((kept same).trans parent) other rest'⟩

/-- Shortening a way comes to an end, and leads no key to another root. -/
theorem Leads.redirect_eq (h : Leads parents n k r) {steps : Nat} (enough : n < steps) :
    ∃ parents', redirect r steps parents k = some parents' ∧ parents'.size = parents.size ∧
      ∀ m j r', Leads parents m j r' → ∃ m', Leads parents' m' j r' := by
  induction steps generalizing n parents k with
  | zero => exact absurd enough (Nat.not_lt_zero _)
  | succ steps ih =>
    cases h with
    | root here =>
      refine ⟨parents, ?_, rfl, fun m j r' way => ⟨m, way⟩⟩
      rw [redirect, here]
      exact if_pos rfl
    | @up n _ p _ parent other rest =>
      by_cases atRoot : p = r
      · refine ⟨parents, ?_, rfl, fun m j r' way => ⟨m, way⟩⟩
        rw [redirect, parent]
        exact if_pos atRoot
      · have short : Leads parents (n + 1) k r := .up parent other rest
        obtain ⟨n', shorter, rest'⟩ := short.shorten rest
        obtain ⟨parents', found, size, keeps⟩ :=
          ih rest' (Nat.lt_of_le_of_lt shorter (Nat.lt_of_succ_lt_succ enough))
        refine ⟨parents', ?_, size.trans Array.size_setIfInBounds, fun m j r' way => ?_⟩
        · rw [redirect, parent]
          exact (if_neg atRoot).trans found
        · obtain ⟨m', -, way'⟩ := short.shorten way
          exact keeps m' j r' way'

/-- A root under another one takes its keys along. -/
theorem Leads.under {big small : Nat} (hsmall : parents[small]? = some small) (hbig : parents[big]? = some big)
    (apart : big ≠ small) (h : Leads parents n k r) :
    ∃ n', Leads (parents.setIfInBounds small big) n' k (if r = small then big else r) := by
  have kept {i : Nat} (apart : small ≠ i) : (parents.setIfInBounds small big)[i]? = parents[i]? := by
    rw [Array.getElem?_setIfInBounds, if_neg apart]
  have moved : (parents.setIfInBounds small big)[small]? = some big := by
    rw [Array.getElem?_setIfInBounds, if_pos rfl, if_pos (Array.getElem?_eq_some_iff.mp hsmall).1]
  induction h with
  | @root i here =>
    by_cases same : i = small
    · subst same
      rw [if_pos rfl]
      exact ⟨1, .up moved apart (.root ((kept apart.symm).trans hbig))⟩
    · rw [if_neg same]
      exact ⟨0, .root ((kept (Ne.symm same)).trans here)⟩
  | @up n i p r parent other rest ih =>
    obtain ⟨n', rest'⟩ := ih
    have below : small ≠ i := by
      rintro rfl
      exact other (Option.some.inj (parent.symm.trans hsmall))
    exact ⟨n' + 1, .up ((kept below).trans parent) other rest'⟩

end

/-! ## Forests and tables -/

/-- A forest shows the partition of a table: ways up end at representatives, where the consumers are. -/
structure Mirrors (f : UsageForest) (t : UsageTable) : Prop where
  size : f.parents.size = t.representatives.size
  leads : ∀ key, t.Knows key → ∃ n, Leads f.parents n key.val (t.find key).val
  sets : f.sets = t.consumers
  ascending : ∀ (r : Nat) (s : InsnSet), t.consumers[r]? = some s → InsnSet.Ascending s

section

variable {f f' : UsageForest} {t : UsageTable} {key a b : UsageKey} {rs : List Request} {r : Request}

theorem mirrors_empty : Mirrors {} {} where
  size := rfl
  leads := fun _ knows => nomatch knows
  sets := rfl
  ascending := nofun

theorem Mirrors.ascending_usages (h : f.Mirrors t) (key : UsageKey) : InsnSet.Ascending (t.usages key) := by
  rw [UsageTable.usages, Array.getD_eq_getD_getElem?]
  cases found : t.consumers[(t.find key).val]? with
  | none => exact List.Pairwise.nil
  | some s => exact h.ascending _ s found

theorem Mirrors.find_eq (h : f.Mirrors t) (knows : t.Knows key) : f.find key = some (t.find key) := by
  obtain ⟨n, way⟩ := h.leads key knows
  rw [find, way.climb_eq way.lt_size]
  rfl

theorem find_eq_none (outside : ¬key.val < f.parents.size) : f.find key = none := by
  have missing := Array.getElem?_eq_none (Nat.le_of_not_lt outside)
  have lost (steps : Nat) : climb f.parents steps key.val = none := by
    cases steps with
    | zero => rfl
    | succ steps => rw [climb, missing]; rfl
  rw [find, lost]
  rfl

/-- Forests that show the partition of one table find the same roots. -/
theorem Mirrors.find_congr (h : f.Mirrors t) (h' : f'.Mirrors t) (key : UsageKey) :
    f'.find key = f.find key := by
  by_cases knows : t.Knows key
  · rw [h.find_eq knows, h'.find_eq knows]
  · rw [find_eq_none (by rwa [h'.size]), find_eq_none (by rwa [h.size])]

/-- The key of a root finds itself. -/
theorem Mirrors.leads_find (h : f.Mirrors t) (knows : t.Knows key) :
    f.parents[(t.find key).val]? = some (t.find key).val := by
  obtain ⟨n, way⟩ := h.leads key knows
  exact way.root_eq

theorem Mirrors.usages_eq (h : f.Mirrors t) (lists : t.Lists) (knows : t.Knows key) :
    f.usages key = some (t.usages key) := by
  have inside : (t.find key).val < t.consumers.size :=
    lists.consumers.symm ▸ UsageTable.knows_find lists knows
  rw [usages, h.find_eq knows, h.sets]
  show t.consumers[(t.find key).val]? = _
  rw [UsageTable.usages, Array.getD_eq_getD_getElem?, Array.getElem?_eq_getElem inside, Option.getD_some]

/-- **Short ways.** Shortening the way up from a key comes to an end, and every search finds what it found
before. -/
theorem Mirrors.compress_eq (h : f.Mirrors t) (knows : t.Knows key) :
    ∃ f', f.compress key = some (t.find key, f') ∧ f'.Mirrors t := by
  obtain ⟨n, way⟩ := h.leads key knows
  obtain ⟨parents, found, size, keeps⟩ := way.redirect_eq way.lt_size
  refine ⟨{ f with parents }, ?_, size.trans h.size, fun other known => ?_, h.sets, h.ascending⟩
  · rw [compress, h.find_eq knows]
    show (redirect _ _ f.parents key.val).bind _ = _
    rw [found]
    rfl
  · obtain ⟨m, way'⟩ := h.leads other known
    exact keeps m other.val _ way'

theorem Mirrors.fresh (h : f.Mirrors t) : f.fresh.2.Mirrors t.fresh.2 where
  size := by simp [UsageForest.fresh, UsageTable.fresh, h.size]
  leads := fun key knows => by
    rcases UsageTable.knows_fresh knows with old | rfl
    · obtain ⟨n, way⟩ := h.leads key old
      rw [UsageTable.find_fresh old]
      refine ⟨n, way.mono fun i p parent => ?_⟩
      show (f.parents.push _)[i]? = some p
      rw [Array.getElem?_push, if_neg (Nat.ne_of_lt (Array.getElem?_eq_some_iff.mp parent).1), parent]
    · rw [t.find_fresh_self]
      refine ⟨0, .root ?_⟩
      show (f.parents.push f.parents.size)[t.representatives.size]? = some t.representatives.size
      rw [← h.size, Array.getElem?_push_size]
  sets := by rw [UsageForest.fresh, UsageTable.fresh, h.sets]
  ascending := fun r s found => by
    have found : (t.consumers.push [])[r]? = some s := found
    rw [Array.getElem?_push] at found
    split at found
    · cases found
      exact List.Pairwise.nil
    · exact h.ascending r s found

theorem Mirrors.record (h : f.Mirrors t) (knows : t.Knows key) (insn : InsnId) :
    ∃ f', f.record key insn = some f' ∧ f'.Mirrors (t.record key insn) := by
  obtain ⟨f₁, shortened, mirrors⟩ := h.compress_eq knows
  refine ⟨{ f₁ with sets := f₁.sets.modify (t.find key).val (InsnSet.insert insn) }, ?_, mirrors.size,
    mirrors.leads, ?_, fun r s found => ?_⟩
  · rw [UsageForest.record, shortened]
    rfl
  · rw [mirrors.sets]
    rfl
  · have found : (t.consumers.modify (t.find key).val (InsnSet.insert insn))[r]? = some s := found
    rw [Array.getElem?_modify] at found
    split at found
    · obtain ⟨s', before, rfl⟩ := Option.map_eq_some_iff.mp found
      exact (h.ascending r s' before).insert insn
    · exact h.ascending r s found

/-- Hanging one root under another is what the table does. -/
theorem Mirrors.link (h : f.Mirrors t) (lists : t.Lists) {big small : UsageKey}
    (rootBig : f.parents[big.val]? = some big.val) (rootSmall : f.parents[small.val]? = some small.val)
    (apart : big ≠ small) {consumers : InsnSet} (ascending : InsnSet.Ascending consumers)
    (same : InsnSet.union (t.consumers.getD small.val []) (t.consumers.getD big.val []) = consumers) :
    (f.link big small).Mirrors (t.absorb big.val small.val consumers) where
  size := by rw [UsageTable.size_absorb, ← h.size, UsageForest.link, Array.size_setIfInBounds]
  leads := fun key knows => by
    have knows : t.Knows key := by rwa [UsageTable.Knows, UsageTable.size_absorb] at knows
    obtain ⟨n, way⟩ := h.leads key knows
    have apart' : big.val ≠ small.val := fun same => apart (UsageKey.val_inj.mp same)
    obtain ⟨n', way'⟩ := way.under rootSmall rootBig apart'
    refine ⟨n', ?_⟩
    rw [UsageTable.find_absorb lists knows]
    split
    · next under => rwa [under, if_pos rfl] at way'
    · next other => rwa [if_neg fun same => other (UsageKey.val_inj.mp same)] at way'
  sets := by rw [UsageForest.link, UsageTable.absorb, h.sets, same]
  ascending := fun r s found => by
    have found : ((t.consumers.setIfInBounds big.val consumers).setIfInBounds small.val [])[r]? = some s :=
      found
    rw [Array.getElem?_setIfInBounds, Array.getElem?_setIfInBounds] at found
    have before := h.ascending r s
    have none : InsnSet.Ascending [] := .nil
    grind

theorem Mirrors.union (h : f.Mirrors t) (lists : t.Lists) (ha : t.Knows a) (hb : t.Knows b) :
    ∃ f', f.union a b = some f' ∧ f'.Mirrors (t.union a b) := by
  obtain ⟨f₁, shortened, mirrors⟩ := h.compress_eq ha
  obtain ⟨f₂, shortened', mirrors'⟩ := mirrors.compress_eq hb
  have searched : f.union a b = if t.find a = t.find b then some f₂
      else if (t.usages b).length ≤ (t.usages a).length then some (f₂.link (t.find a) (t.find b))
      else some (f₂.link (t.find b) (t.find a)) := by
    rw [UsageForest.union, shortened]
    show (f₁.compress b).bind _ = _
    rw [shortened', UsageTable.usages, UsageTable.usages, ← mirrors'.sets]
    rfl
  have ascendingA := h.ascending_usages a
  have ascendingB := h.ascending_usages b
  rw [searched]
  by_cases same : t.find a = t.find b
  · rw [if_pos same, UsageTable.union_of_same same]
    exact ⟨f₂, rfl, mirrors'⟩
  · rw [if_neg same, UsageTable.union_of_ne same]
    split
    · exact ⟨_, rfl, mirrors'.link lists (mirrors'.leads_find ha) (mirrors'.leads_find hb) same
        (ascendingB.union _) (ascendingA.union_comm ascendingB).symm⟩
    · exact ⟨_, rfl, mirrors'.link lists (mirrors'.leads_find hb) (mirrors'.leads_find ha) (Ne.symm same)
        (ascendingB.union _) rfl⟩

/-- A forest goes along with a table. -/
theorem Mirrors.perform (h : f.Mirrors t) (lists : t.Lists) (known : r.Known t.representatives.size) :
    ∃ f', f.perform r = some f' ∧ f'.Mirrors (t.perform r) := by
  cases r with
  | fresh => exact ⟨_, rfl, h.fresh⟩
  | record key insn => exact h.record known insn
  | union a b => exact h.union lists known.1 known.2

theorem Mirrors.performAll (h : f.Mirrors t) (tells : t.Tells rs) {more : List Request}
    (allowed : Allowed t.representatives.size more) :
    ∃ f', f.performAll more = some f' ∧ f'.Mirrors (t.performAll more) := by
  induction more generalizing f t rs with
  | nil => exact ⟨f, rfl, h⟩
  | cons r more ih =>
    obtain ⟨f₁, performed, mirrors⟩ := h.perform tells.lists allowed.1
    obtain ⟨f₂, performed', mirrors'⟩ :=
      ih mirrors (tells.perform allowed.1) (tells.size_perform allowed.1 ▸ allowed.2)
    refine ⟨f₂, ?_, mirrors'⟩
    rw [UsageForest.performAll, List.foldlM_cons, performed]
    exact performed'

end

/-! ## What was requested -/

/-- What a forest and a table hold after some requests. -/
structure Partitions (f : UsageForest) (t : UsageTable) (rs : List Request) : Prop where
  /-- A search comes to an end, at a key of the class, which finds itself; and the table finds the same. -/
  find : ∀ key, key.val < keyCount rs → f.find key = some (t.find key) ∧
    f.find (t.find key) = some (t.find key) ∧ Connected rs key (t.find key)
  /-- Two keys are in one class if unions lead from one to the other, and only then. -/
  same : ∀ a b, a.val < keyCount rs → b.val < keyCount rs →
    f.sameClass a b = some (t.sameClass a b) ∧ (t.sameClass a b = true ↔ Connected rs a b)
  /-- The consumers of a key are those that were recorded at the keys of its class. -/
  used : ∀ key, key.val < keyCount rs →
    f.usages key = some (t.usages key) ∧ ∀ insn, insn ∈ t.usages key ↔ Consumes rs key insn
  /-- Shortening a way comes to an end as well, and changes no representative. -/
  short : ∀ key, key.val < keyCount rs →
    ∃ f', f.compress key = some (t.find key, f') ∧ ∀ other, f'.find other = f.find other
  /-- A union ends too: the class that it makes keeps one of the two representatives, and all other classes keep
  theirs. -/
  linked : ∀ a b, a.val < keyCount rs → b.val < keyCount rs → ∃ f', f.union a b = some f' ∧
    (f'.find a = f.find a ∨ f'.find a = f.find b) ∧ ∀ key, key.val < keyCount rs →
      f'.find key = if f.find key = f.find a ∨ f.find key = f.find b then f'.find a else f.find key
  /-- A representative stays as long as no later request enlarges the class. -/
  stays : ∀ more, Allowed (keyCount rs) more → ∃ f', f.performAll more = some f' ∧
    ∀ key, key.val < keyCount rs → (∀ other, Connected (rs ++ more) key other → Connected rs key other) →
      f'.find key = f.find key ∧ (t.performAll more).find key = t.find key

/-- A forest that shows the partition of a table that tells some requests. -/
theorem Mirrors.partitions {f : UsageForest} {t : UsageTable} {rs : List Request} (h : f.Mirrors t)
    (tells : t.Tells rs) : Partitions f t rs := by
  have knows {key : UsageKey} (inside : key.val < keyCount rs) : t.Knows key := by
    rwa [UsageTable.Knows, tells.size]
  refine ⟨fun key inside => ?_, fun a b insideA insideB => ?_, fun key inside => ?_, fun key inside => ?_,
    fun a b insideA insideB => ?_, fun more allowed => ?_⟩
  · have root := Leads.root (h.leads_find (knows inside))
    have found : f.find (t.find key) = some (t.find key) := by
      rw [UsageForest.find, root.climb_eq root.lt_size]
      rfl
    have knows' := UsageTable.knows_find tells.lists (knows inside)
    have itself := Option.some.inj ((h.find_eq knows').symm.trans found)
    exact ⟨h.find_eq (knows inside), found, (tells.same _ _ (knows inside) knows').mp itself.symm⟩
  · refine ⟨?_, beq_iff_eq.trans (tells.same a b (knows insideA) (knows insideB))⟩
    rw [UsageForest.sameClass, h.find_eq (knows insideA), h.find_eq (knows insideB)]
    rfl
  · exact ⟨h.usages_eq tells.lists (knows inside), tells.used key (knows inside)⟩
  · obtain ⟨f', shortened, mirrors⟩ := h.compress_eq (knows inside)
    exact ⟨f', shortened, h.find_congr mirrors⟩
  · have ha := knows insideA
    have hb := knows insideB
    obtain ⟨f', united, mirrors⟩ := h.union tells.lists ha hb
    obtain ⟨own, others⟩ := UsageTable.find_union tells.lists ha b
    have found {key : UsageKey} (known : t.Knows key) : f'.find key = some ((t.union a b).find key) :=
      mirrors.find_eq (by rwa [UsageTable.Knows, UsageTable.size_union])
    refine ⟨f', united, ?_, fun key inside => ?_⟩
    · rw [found ha, h.find_eq ha, h.find_eq hb, Option.some.injEq, Option.some.injEq]
      exact own
    · rw [found (knows inside), found ha, h.find_eq (knows inside), h.find_eq ha, h.find_eq hb,
        others key (knows inside)]
      simp only [Option.some.injEq]
      split <;> rfl
  · rw [← tells.size] at allowed
    obtain ⟨f', performed, mirrors⟩ := h.performAll tells allowed
    refine ⟨f', performed, fun key inside whole => ?_⟩
    have same := tells.stays allowed (knows inside) whole
    have knows' : (t.performAll more).Knows key := by
      rw [UsageTable.Knows, (tells.performAll allowed).size, keyCount, List.map_append, List.sum_append]
      exact Nat.lt_of_lt_of_le inside (Nat.le_add_right _ _)
    rw [mirrors.find_eq knows', h.find_eq (knows inside), same]
    exact ⟨rfl, rfl⟩

/-- **Forest and table tell what was requested.** -/
theorem performAll_partitions {rs : List Request} (allowed : Allowed 0 rs) :
    ∃ f, performAll {} rs = some f ∧ Partitions f (UsageTable.performAll {} rs) rs := by
  have tells := UsageTable.tells_empty.performAll allowed
  obtain ⟨f, performed, mirrors⟩ := mirrors_empty.performAll UsageTable.tells_empty allowed
  exact ⟨f, performed, mirrors.partitions tells⟩

/-- Two classes of two keys are united by their lower keys, and get a consumer before and one behind it. -/
def pairingRequests : List Request :=
  [.fresh, .fresh, .fresh, .fresh, .union ⟨0⟩ ⟨1⟩, .union ⟨2⟩ ⟨3⟩, .record ⟨3⟩ ⟨7⟩, .union ⟨1⟩ ⟨3⟩,
    .record ⟨0⟩ ⟨8⟩]

/-- The class with the consumer stays, and the keys of the other one are two steps away from its root. -/
theorem performAll_partitions_pairing : Allowed 0 pairingRequests ∧
    ∃ f, performAll {} pairingRequests = some f ∧
      Partitions f (UsageTable.performAll {} pairingRequests) pairingRequests := by
  have allowed : Allowed 0 pairingRequests := by
    simp [pairingRequests, Allowed, Request.Known, Request.keys]
  exact ⟨allowed, performAll_partitions allowed⟩

end UsageForest

end Bytecode.Analysis
