import Bytecode.Method
import Bytecode.Proofs.Labels
import Mathlib.Order.Monotone.Basic
import Mathlib.Data.Set.Basic

/-!
# Methods up to identities

Two runs of the same work on a method give its new instructions and labels different identities.
`Method.rename` replaces every identity that a method mentions, and `Method.Alike` says of two methods
that one is the other with its identities replaced, in the same order.

A `Renaming` goes along with two runs: it knows which identities of the one run correspond to which of
the other, and both runs take new identities from where it ends. `Renaming.extend` adds what the two
runs take alike, and `Renaming.Le` says that what was known stays known.
-/

namespace Bytecode

/-! ## Identities that are replaced -/

/-- Replaces the identity of a label. -/
def LabelId.rename (r : Nat → Nat) (l : LabelId) : LabelId :=
  ⟨r l.val⟩

/-- Replaces the identities in a node of a body. -/
def Insn.rename (r : Nat → Nat) (insn : Insn) : Insn :=
  ⟨⟨r insn.id.val⟩, insn.node.mapLabels (LabelId.rename r)⟩

/-- Replaces the identities in a method. The method keeps its own. -/
def Method.rename (r : Nat → Nat) (m : Method) : Method :=
  { m with
    body := m.body.map (Insn.rename r)
    exceptions := m.exceptions.map (·.mapLabels (LabelId.rename r))
    localVariables := m.localVariables.map (·.mapLabels (LabelId.rename r)) }

/-- The identities in a node of a body. -/
def Insn.identities (insn : Insn) : List Nat :=
  insn.id.val :: insn.node.labels.map LabelId.val

/-- The identities in the tables of a method. -/
def tableIdentities (exceptions : List ExceptionRange) (named : List LocalVariable) : List Nat :=
  (exceptions.flatMap ExceptionRange.labels ++ named.flatMap LocalVariable.labels).map LabelId.val

/-- The identities that a method mentions. -/
def Method.identities (m : Method) : List Nat :=
  m.body.toList.flatMap Insn.identities ++ tableIdentities m.exceptions m.localVariables

/-- Two methods are the same up to identities: one is the other with its identities replaced, in the
same order. -/
def Method.Alike (m m' : Method) : Prop :=
  ∃ r : Nat → Nat, StrictMonoOn r {x | x ∈ m.identities} ∧ { m' with id := m.id } = m.rename r

section

variable {r r' : Nat → Nat}

theorem Node.labels_mapLabels (f : LabelId → LabelId) (node : Node) :
    (node.mapLabels f).labels = node.labels.map f := by
  cases node with
  | tableSwitch low high default targets => rw [mapLabels_tableSwitch]; rfl
  | lookupSwitch default keys targets => rw [mapLabels_lookupSwitch]; rfl
  | _ => rfl

theorem Node.mapLabels_congr {f g : LabelId → LabelId} {node : Node} (h : ∀ l ∈ node.labels, f l = g l) :
    node.mapLabels f = node.mapLabels g := by
  cases node with
  | jump op target => exact congrArg (Node.jump op) (h target List.mem_cons_self)
  | label l => exact congrArg Node.label (h l List.mem_cons_self)
  | line number start => exact congrArg (Node.line number) (h start List.mem_cons_self)
  | tableSwitch low high default targets =>
    rw [mapLabels_tableSwitch, mapLabels_tableSwitch, h default List.mem_cons_self,
      List.map_congr_left fun l member => h l (List.mem_cons_of_mem _ member)]
  | lookupSwitch default keys targets =>
    rw [mapLabels_lookupSwitch, mapLabels_lookupSwitch, h default List.mem_cons_self,
      List.map_congr_left fun l member => h l (List.mem_cons_of_mem _ member)]
  | _ => rfl

theorem Insn.rename_congr {insn : Insn} (h : ∀ x ∈ insn.identities, r x = r' x) :
    insn.rename r = insn.rename r' := by
  obtain ⟨first, labels⟩ := List.forall_mem_cons.mp h
  have nodes : insn.node.mapLabels (LabelId.rename r) = insn.node.mapLabels (LabelId.rename r') :=
    Node.mapLabels_congr fun l member => congrArg LabelId.mk (labels l.val (List.mem_map_of_mem member))
  rw [Insn.rename, Insn.rename, first, nodes]

theorem Insn.identities_rename (insn : Insn) :
    (insn.rename r).identities = insn.identities.map r := by
  rw [Insn.identities, Insn.rename, Node.labels_mapLabels, List.map_map, Insn.identities, List.map_cons,
    List.map_map]
  rfl

theorem ExceptionRange.mapLabels_congr {f g : LabelId → LabelId} {range : ExceptionRange}
    (h : ∀ l ∈ range.labels, f l = g l) : range.mapLabels f = range.mapLabels g := by
  simp only [ExceptionRange.labels, List.forall_mem_cons] at h
  obtain ⟨start, stop, handler, -⟩ := h
  rw [ExceptionRange.mapLabels, ExceptionRange.mapLabels, start, stop, handler]

theorem LocalVariable.mapLabels_congr {f g : LabelId → LabelId} {v : LocalVariable}
    (h : ∀ l ∈ v.labels, f l = g l) : v.mapLabels f = v.mapLabels g := by
  simp only [LocalVariable.labels, List.forall_mem_cons] at h
  obtain ⟨start, stop, -⟩ := h
  rw [LocalVariable.mapLabels, LocalVariable.mapLabels, start, stop]

theorem tables_congr {exceptions : List ExceptionRange} {named : List LocalVariable}
    (h : ∀ x ∈ tableIdentities exceptions named, r x = r' x) :
    exceptions.map (·.mapLabels (LabelId.rename r)) = exceptions.map (·.mapLabels (LabelId.rename r')) ∧
      named.map (·.mapLabels (LabelId.rename r)) = named.map (·.mapLabels (LabelId.rename r')) := by
  rw [tableIdentities, List.forall_mem_map, List.forall_mem_append] at h
  obtain ⟨inRanges, inNamed⟩ := h
  rw [List.forall_mem_flatMap] at inRanges inNamed
  exact ⟨List.map_congr_left fun range member =>
      ExceptionRange.mapLabels_congr fun l mentioned => congrArg LabelId.mk (inRanges range member l mentioned),
    List.map_congr_left fun v member =>
      LocalVariable.mapLabels_congr fun l mentioned => congrArg LabelId.mk (inNamed v member l mentioned)⟩

/-- Two methods are the same up to identities if everything else is equal. -/
theorem Method.eq_rename {m m' : Method}
    (header : { m' with
      id := m.id, body := m.body, exceptions := m.exceptions, localVariables := m.localVariables } = m)
    (body : m'.body = m.body.map (Insn.rename r))
    (exceptions : m'.exceptions = m.exceptions.map (·.mapLabels (LabelId.rename r)))
    (named : m'.localVariables = m.localVariables.map (·.mapLabels (LabelId.rename r))) :
    { m' with id := m.id } = m.rename r := by
  rw [Method.rename, ← body, ← exceptions, ← named]
  obtain ⟨id, revision, access, name, descriptor, body, maxLocals, maxStack, _, _, attributes⟩ := m
  simp only [Method.mk.injEq, true_and] at header ⊢
  simp [header]

theorem mem_tableIdentities {exceptions : List ExceptionRange} {named : List LocalVariable} {x : Nat} :
    x ∈ tableIdentities exceptions named ↔
      ∃ l ∈ exceptions.flatMap ExceptionRange.labels ++ named.flatMap LocalVariable.labels,
        l.val = x :=
  List.mem_map

/-- A method mentions the identities of its nodes and of its labels. -/
theorem Method.mem_identities {m : Method} {x : Nat} : x ∈ m.identities ↔
    (∃ insn ∈ m.body.toList, insn.id.val = x) ∨ ∃ l ∈ m.labels, l.val = x := by
  simp only [Method.identities, Method.labels, tableIdentities, Insn.identities, List.mem_append,
    List.mem_flatMap, List.mem_cons, List.mem_map]
  grind

/-- The labels of a renamed method. -/
theorem Method.labels_rename (m : Method) : (m.rename r).labels = m.labels.map (LabelId.rename r) := by
  have nodes (insn : Insn) : (insn.rename r).node.labels = insn.node.labels.map (LabelId.rename r) :=
    Node.labels_mapLabels _ _
  simp only [Method.labels, Method.rename, Array.toList_map, List.map_append, List.flatMap_map,
    List.map_flatMap, nodes]
  rfl

theorem Method.rename_congr {m : Method} (h : ∀ x ∈ m.identities, r x = r' x) :
    m.rename r = m.rename r' := by
  rw [Method.identities, List.forall_mem_append, List.forall_mem_flatMap] at h
  obtain ⟨body, tables⟩ := h
  obtain ⟨exceptions, named⟩ := tables_congr tables
  have bodies : m.body.map (Insn.rename r) = m.body.map (Insn.rename r') :=
    Array.map_congr_left fun insn member => Insn.rename_congr (body insn (Array.mem_toList_iff.mpr member))
  rw [Method.rename, Method.rename, bodies, exceptions, named]

end

/-! ## Two runs -/

/-- Which identities below `n` correspond to which below `n'`, in the same order. -/
structure Renaming (n n' : Nat) where
  map : Nat → Nat
  known : Set Nat
  rising : StrictMonoOn map known
  below : ∀ x ∈ known, x < n ∧ map x < n'

namespace Renaming

variable {n n' k k' : Nat}

/-- What is common to both sides corresponds to itself. -/
def same (n n' : Nat) : Renaming n n' where
  map := id
  known := {x | x < n ∧ x < n'}
  rising := strictMono_id.strictMonoOn _
  below := fun _ h => h

/-- What one renaming knows, another one knows as well. -/
structure Le (r : Renaming n n') (r' : Renaming k k') : Prop where
  known : r.known ⊆ r'.known
  same : ∀ x ∈ r.known, r'.map x = r.map x

theorem Le.refl (r : Renaming n n') : Le r r :=
  ⟨subset_rfl, fun _ _ => rfl⟩

theorem Le.trans {j j' : Nat} {r : Renaming n n'} {r₁ : Renaming k k'} {r₂ : Renaming j j'}
    (h : Le r r₁) (h' : Le r₁ r₂) : Le r r₂ :=
  ⟨h.known.trans h'.known, fun x known => (h'.same x (h.known known)).trans (h.same x known)⟩

/-- The identities that two runs take alike, from `k` and from `k'` on, are added. -/
def extend (r : Renaming n n') (k k' count : Nat) (above : n ≤ k) (above' : n' ≤ k') :
    Renaming (k + count) (k' + count) where
  map := fun x => if x < k then r.map x else x - k + k'
  known := r.known ∪ {x | k ≤ x ∧ x < k + count}
  rising := by
    rintro x (old | ⟨from_, until_⟩) y (old' | ⟨from', until'⟩) less
    · have hx := r.below x old
      have hy := r.below y old'
      simp only [if_pos (Nat.lt_of_lt_of_le hx.1 above), if_pos (Nat.lt_of_lt_of_le hy.1 above)]
      exact r.rising old old' less
    · have hx := r.below x old
      simp only [if_pos (Nat.lt_of_lt_of_le hx.1 above), if_neg (Nat.not_lt.mpr from')]
      omega
    · have hy := r.below y old'
      omega
    · simp only [if_neg (Nat.not_lt.mpr from_), if_neg (Nat.not_lt.mpr from')]
      omega
  below := by
    rintro x (old | ⟨from_, until_⟩)
    · have hx := r.below x old
      simp only [if_pos (Nat.lt_of_lt_of_le hx.1 above)]
      omega
    · simp only [if_neg (Nat.not_lt.mpr from_)]
      omega

theorem le_extend (r : Renaming n n') {count : Nat} (above : n ≤ k) (above' : n' ≤ k') :
    Le r (r.extend k k' count above above') where
  known := Set.subset_union_left
  same := fun x known => if_pos (Nat.lt_of_lt_of_le (r.below x known).1 above)

/-- Both runs may have taken further identities, of which nothing is known. -/
def skip (r : Renaming n n') (above : n ≤ k) (above' : n' ≤ k') : Renaming k k' where
  map := r.map
  known := r.known
  rising := r.rising
  below := fun x known => by
    have h := r.below x known
    omega

theorem le_skip (r : Renaming n n') (above : n ≤ k) (above' : n' ≤ k') : Le r (r.skip above above') :=
  ⟨subset_rfl, fun _ _ => rfl⟩

end Renaming

end Bytecode
