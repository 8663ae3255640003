import Bytecode.Proofs.Coding.Pieces
import Bytecode.Proofs.Labels
import Mathlib.Data.List.ReduceOption

/-!
# Outlines of bodies

The outline of a body is what it says apart from where its nodes stand and how its labels are named:
its instructions in their order, in which a label is replaced by the number of the instruction that
it denotes, and for every exception range that covers something the numbers of the instructions in
it, that of its handler, and the type that it catches. Instructions that are not kept do not count;
a body whose labels denote such instructions has no outline.

Numbers of instructions are compared with positions through `List.countP`: in an ascending list of
positions the number of a position is how many are less. The number of a label is how many kept
instructions stand in front of it. An outline is determined by the kept instructions and the numbers of
the labels that they and the exception ranges mention (`outline_of_numbers`), so that two bodies have the
same outline if they agree on these.
-/

namespace Bytecode

/-- The instructions among some nodes, of which the first stands at a position, that are kept. -/
def keptFrom (keep : Nat → Bool) : Nat → List Node → List (Nat × Node)
  | _, [] => []
  | i, node :: rest =>
    if keep i && !node.isPseudo then (i, node) :: keptFrom keep (i + 1) rest
    else keptFrom keep (i + 1) rest

theorem keptFrom_append (keep : Nat → Bool) (i : Nat) (xs ys : List Node) :
    keptFrom keep i (xs ++ ys) = keptFrom keep i xs ++ keptFrom keep (i + xs.length) ys := by
  induction xs generalizing i with
  | nil => rfl
  | cons x xs ih =>
    rw [List.cons_append, keptFrom, keptFrom, ih, List.length_cons, Nat.add_right_comm i 1,
      Nat.add_assoc]
    split <;> rfl

/-- The kept instructions are the real nodes at kept positions. -/
theorem mem_keptFrom {keep : Nat → Bool} {i : Nat} {nodes : List Node} {p : Nat × Node} :
    p ∈ keptFrom keep i nodes ↔
      i ≤ p.1 ∧ nodes[p.1 - i]? = some p.2 ∧ keep p.1 = true ∧ p.2.isPseudo = false := by
  induction nodes generalizing i with
  | nil => simp [keptFrom]
  | cons n nodes ih =>
    -- Either the first node is meant, or a later one, whose place in the tail is one less.
    have later (behind : i + 1 ≤ p.1) : (n :: nodes)[p.1 - i]? = nodes[p.1 - (i + 1)]? := by
      rw [show p.1 - i = p.1 - (i + 1) + 1 by omega, List.getElem?_cons_succ]
    have first (here : p.1 = i) : (n :: nodes)[p.1 - i]? = some n := by
      rw [here, Nat.sub_self, List.getElem?_cons_zero]
    have tail : p ∈ keptFrom keep (i + 1) nodes ↔ i + 1 ≤ p.1 ∧
        (n :: nodes)[p.1 - i]? = some p.2 ∧ keep p.1 = true ∧ p.2.isPseudo = false := by
      rw [ih]
      exact and_congr_right fun behind => by rw [later behind]
    have head (h : i ≤ p.1) : i + 1 ≤ p.1 ∨ p.1 = i := by omega
    rw [keptFrom]
    split
    · rename_i kept
      rw [Bool.and_eq_true, Bool.not_eq_true'] at kept
      rw [List.mem_cons, tail]
      constructor
      · rintro (rfl | ⟨behind, rest⟩)
        · exact ⟨Nat.le_refl i, by simp, kept⟩
        · exact ⟨by omega, rest⟩
      · rintro ⟨behind, found, rest⟩
        rcases head behind with behind | here
        · exact .inr ⟨behind, found, rest⟩
        · rw [first here] at found
          exact .inl (Prod.ext here (Option.some.inj found).symm)
    · rename_i dropped
      rw [tail]
      constructor
      · rintro ⟨behind, rest⟩
        exact ⟨by omega, rest⟩
      · rintro ⟨behind, found, keeps, real⟩
        rcases head behind with behind | here
        · exact ⟨behind, found, keeps, real⟩
        · rw [first here] at found
          rw [Option.some.inj found, ← here, keeps, real] at dropped
          exact absurd rfl dropped

/-- The positions of kept instructions ascend. -/
theorem keptFrom_ascending (keep : Nat → Bool) (i : Nat) (nodes : List Node) :
    (keptFrom keep i nodes).Pairwise fun p q => p.1 < q.1 := by
  induction nodes generalizing i with
  | nil => exact .nil
  | cons n nodes ih =>
    rw [keptFrom]
    split
    · exact .cons (fun q member => (mem_keptFrom.mp member).1) (ih _)
    · exact ih _

/-- An exception range in terms of numbers of instructions. -/
structure Coverage where
  covered : List Nat
  handler : Nat
  catchType : Option String

/-- What a body says apart from positions and names of labels. -/
structure Outline where
  nodes : List Node
  exceptions : List Coverage

namespace Method

/-- The instructions of a body that are kept, with their positions. -/
def kept (m : Method) (keep : Nat → Bool) : List (Nat × Node) :=
  keptFrom keep 0 (m.body.toList.map Insn.node)

/-- The number of the instruction that a label denotes, which is the first one that does not stand
before the label. -/
def denoted (m : Method) (keep : Nat → Bool) (l : LabelId) : Option Nat := do
  let position ← m.body.lastLabels l
  let target ← (m.kept fun _ => true).find? (position ≤ ·.1)
  ((m.kept keep).map Prod.fst).idxOf? target.1

/-- The numbers of the instructions between two labels. -/
def covered (m : Method) (keep : Nat → Bool) (start stop : LabelId) : Option (List Nat) := do
  let first ← m.body.lastLabels start
  let last ← m.body.lastLabels stop
  return ((((m.kept keep).map Prod.fst).zipIdx).filter fun p => first ≤ p.1 && p.1 < last).map
    Prod.snd

/-- An exception range in terms of numbers of instructions, unless it covers none. -/
def coverage (m : Method) (keep : Nat → Bool) (r : ExceptionRange) : Option (Option Coverage) := do
  let covered ← m.covered keep r.start r.stop
  if covered.isEmpty then return none
  return some ⟨covered, ← m.denoted keep r.handler, r.catchType⟩

/-- The outline of a body of which some positions are kept. -/
def outline (m : Method) (keep : Nat → Bool) : Option Outline := do
  let nodes ← (m.kept keep).mapM fun p => p.2.mapLabelsM fun l => LabelId.mk <$> m.denoted keep l
  let exceptions ← m.exceptions.mapM (m.coverage keep)
  return ⟨nodes, exceptions.reduceOption⟩

end Method

/-! ## Numbers in ascending lists -/

section Ascending

variable {ps : List Nat}

/-- No member of an ascending list is less than a bound below the first one. -/
private theorem countP_eq_zero {a bound : Nat} (first : ∀ b ∈ ps, a < b) (below : bound ≤ a) :
    (a :: ps).countP (· < bound) = 0 := by
  rw [List.countP_eq_zero]
  intro b member
  have : a ≤ b := by
    rcases List.mem_cons.mp member with rfl | later
    · exact Nat.le_refl _
    · exact Nat.le_of_lt (first b later)
  simp only [decide_eq_true_eq]
  omega

/-- The number of a member is how many members are less. -/
theorem idxOf?_of_ascending (ascending : ps.Pairwise (· < ·)) {q : Nat} (member : q ∈ ps) :
    ps.idxOf? q = some (ps.countP (· < q)) := by
  induction ps with
  | nil => cases member
  | cons a ps ih =>
    obtain ⟨first, rest⟩ := List.pairwise_cons.mp ascending
    rw [List.idxOf?_cons]
    by_cases here : a = q
    · subst here
      rw [countP_eq_zero first (Nat.le_refl a)]
      simp
    · have later : q ∈ ps := (List.mem_cons.mp member).resolve_left (Ne.symm here)
      have less : a < q := first q later
      rw [ih rest later, List.countP_cons_of_pos (by simpa using less)]
      simp [here]

/-- A member is not less than a bound if no more members are less than the bound than stand before
the member. -/
theorem le_getElem_iff (ascending : ps.Pairwise (· < ·)) {k a : Nat} (at_ : ps[k]? = some a)
    (bound : Nat) : bound ≤ a ↔ ps.countP (· < bound) ≤ k := by
  induction ps generalizing k with
  | nil => cases at_
  | cons b ps ih =>
    obtain ⟨first, rest⟩ := List.pairwise_cons.mp ascending
    cases k with
    | zero =>
      cases at_
      constructor
      · intro below
        exact Nat.le_of_eq (countP_eq_zero first below)
      · intro none_
        by_contra above
        rw [List.countP_cons_of_pos (by simpa using above)] at none_
        omega
    | succ k =>
      rw [List.getElem?_cons_succ] at at_
      by_cases below : b < bound
      · rw [List.countP_cons_of_pos (by simpa using below), ih rest at_]
        omega
      · have : b < a := first a (List.mem_of_getElem? at_)
        rw [countP_eq_zero first (Nat.le_of_not_lt below)]
        omega

/-- The numbers of the members between two bounds. -/
theorem zipIdx_between (ascending : ps.Pairwise (· < ·)) (first last : Nat) :
    (ps.zipIdx.filter fun p => first ≤ p.1 && p.1 < last).map Prod.snd =
      (List.range ps.length).filter fun k =>
        ps.countP (· < first) ≤ k && k < ps.countP (· < last) := by
  have numbers : List.range ps.length = ps.zipIdx.map Prod.snd := by
    rw [List.zipIdx_map_snd, List.range_eq_range']
  rw [numbers, List.filter_map]
  congr 1
  refine List.filter_congr fun p member => ?_
  have at_ := List.mem_zipIdx_iff_getElem?.mp member
  have lower := le_getElem_iff ascending at_ first
  have upper := le_getElem_iff ascending at_ last
  show (decide (first ≤ p.1) && decide (p.1 < last)) =
    (decide (ps.countP (· < first) ≤ p.2) && decide (p.2 < ps.countP (· < last)))
  rw [decide_eq_decide.mpr lower, decide_eq_decide.mpr (by omega : p.1 < last ↔ p.2 < ps.countP (· < last))]

end Ascending

namespace Method

variable {m : Method} {keep : Nat → Bool}

theorem mem_kept {p : Nat × Node} : p ∈ m.kept keep ↔
    m.body[p.1]?.map Insn.node = some p.2 ∧ keep p.1 = true ∧ p.2.isPseudo = false := by
  rw [kept, mem_keptFrom, Nat.sub_zero, List.getElem?_map, Array.getElem?_toList]
  exact and_iff_right (Nat.zero_le _)

theorem kept_ascending : ((m.kept keep).map Prod.fst).Pairwise (· < ·) :=
  List.pairwise_map.mpr (keptFrom_ascending keep 0 _)

/-- A label denotes the kept instruction that no other instruction stands between. -/
theorem denoted_eq {l : LabelId} {position target : Nat} {node : Node}
    (at_ : m.body.lastLabels l = some position) (member : (target, node) ∈ m.kept keep)
    (behind : position ≤ target)
    (next : ∀ p ∈ m.kept fun _ => true, position ≤ p.1 → target ≤ p.1) :
    m.denoted keep l = some (((m.kept keep).map Prod.fst).countP (· < position)) := by
  have all : (target, node) ∈ m.kept fun _ => true := by
    rw [mem_kept] at member ⊢
    exact ⟨member.1, rfl, member.2.2⟩
  -- The first instruction behind the label is the target.
  have found : ∃ p, (m.kept fun _ => true).find? (position ≤ ·.1) = some p ∧ p.1 = target := by
    cases search : (m.kept fun _ => true).find? (position ≤ ·.1) with
    | none => exact absurd (decide_eq_true behind) (List.find?_eq_none.mp search _ all)
    | some p =>
      refine ⟨p, rfl, ?_⟩
      obtain ⟨reached, before, after, parts, skipped⟩ := List.find?_eq_some_iff_append.mp search
      have lower := next p (parts ▸ by simp) (of_decide_eq_true reached)
      have ascending := keptFrom_ascending (fun _ => true) 0 (m.body.toList.map Insn.node)
      rw [show keptFrom (fun _ => true) 0 (m.body.toList.map Insn.node) = before ++ p :: after from
        parts, List.pairwise_append, List.pairwise_cons] at ascending
      rw [parts] at all
      rcases List.mem_append.mp all with early | late
      · have := skipped _ early
        simp only [Bool.not_eq_true', decide_eq_false_iff_not] at this
        exact absurd behind this
      · rcases List.mem_cons.mp late with here | late
        · exact congrArg Prod.fst here.symm
        · have := ascending.2.1.1 _ late
          omega
  obtain ⟨p, found, rfl⟩ := found
  have same : ((m.kept keep).map Prod.fst).countP (· < p.1) =
      ((m.kept keep).map Prod.fst).countP (· < position) := by
    refine List.countP_congr fun q mentioned => ?_
    obtain ⟨p', known, rfl⟩ := List.mem_map.mp mentioned
    have real : p' ∈ m.kept fun _ => true := by
      rw [mem_kept] at known ⊢
      exact ⟨known.1, rfl, known.2.2⟩
    have := next p' real
    simp only [decide_eq_true_eq]
    omega
  rw [denoted, at_]
  show (((m.kept fun _ => true).find? (position ≤ ·.1)).bind fun target =>
    ((m.kept keep).map Prod.fst).idxOf? target.1) = _
  rw [found, Option.bind_some, idxOf?_of_ascending kept_ascending
    (List.mem_map.mpr ⟨_, member, rfl⟩), same]

end Method

end Bytecode

/-! ## Numbers of instructions -/

namespace Bytecode

namespace Node

/-- Labels of an instruction that are renamed and then looked up. -/
theorem mapLabelsM_mapLabels {f h : LabelId → LabelId} {g : LabelId → Option LabelId} {n : Node}
    (real : n.isPseudo = false) (each : ∀ l ∈ n.targets, g (f l) = some (h l)) :
    (n.mapLabels f).mapLabelsM g = some (n.mapLabels h) := by
  have all {ls : List LabelId} (inside : ls ⊆ n.targets) :
      (ls.map f).mapM g = some (ls.map h) := by
    rw [mapM_eq_some, List.forall₂_map_left_iff, List.forall₂_map_right_iff, List.forall₂_same]
    exact fun l member => each l (inside member)
  cases n with
  | jump op target =>
    show (g (f target) >>= fun target => some (jump op target)) = _
    rw [each target List.mem_cons_self]
    rfl
  | tableSwitch low high default targets =>
    rw [mapLabels_tableSwitch, mapLabels_tableSwitch]
    show (g (f default) >>= fun default => (targets.map f).mapM g >>= fun targets =>
      some (tableSwitch low high default targets)) = _
    rw [each default List.mem_cons_self, all (List.subset_cons_self ..)]
    rfl
  | lookupSwitch default keys targets =>
    rw [mapLabels_lookupSwitch, mapLabels_lookupSwitch]
    show (g (f default) >>= fun default => (targets.map f).mapM g >>= fun targets =>
      some (lookupSwitch default keys targets)) = _
    rw [each default List.mem_cons_self, all (List.subset_cons_self ..)]
    rfl
  | label _ | line _ _ => cases real
  | _ => rfl

end Node

/-- An exception range of a body with so many instructions, in whose labels a renaming has put the
numbers of instructions, unless it covers none. -/
def Coverage.of (count : Nat) (number : LabelId → Nat) (r : ExceptionRange) : Option Coverage :=
  if number r.start < min (number r.stop) count then
    some ⟨(List.range count).filter fun k => number r.start ≤ k && k < number r.stop,
      number r.handler, r.catchType⟩
  else none

namespace Method

variable {m : Method} {keep : Nat → Bool}

/-- The number of a label, which is how many kept instructions stand in front of it. -/
def number (m : Method) (keep : Nat → Bool) (l : LabelId) : Option Nat :=
  (m.body.lastLabels l).map fun position => ((m.kept keep).map Prod.fst).countP (· < position)

/-- The instructions between two labels have the numbers between those of the labels. -/
theorem covered_eq {start stop : LabelId} {i j : Nat} (first : m.number keep start = some i)
    (last : m.number keep stop = some j) : m.covered keep start stop =
      some ((List.range (m.kept keep).length).filter fun k => i ≤ k && k < j) := by
  obtain ⟨p, starts, rfl⟩ := Option.map_eq_some_iff.mp first
  obtain ⟨q, stops, rfl⟩ := Option.map_eq_some_iff.mp last
  rw [covered, starts, stops]
  show some ((((m.kept keep).map Prod.fst).zipIdx.filter fun a => p ≤ a.1 && a.1 < q).map Prod.snd) = _
  rw [zipIdx_between kept_ascending, List.length_map]

/-- If all instructions are kept, a label denotes the one with its number. -/
theorem denoted_of_number {l : LabelId} {k : Nat} (numbered : m.number (fun _ => true) l = some k)
    (inside : k < (m.kept fun _ => true).length) : m.denoted (fun _ => true) l = some k := by
  obtain ⟨p, stands, rfl⟩ := Option.map_eq_some_iff.mp numbered
  have at_ := List.getElem?_eq_getElem inside
  have position {j : Nat} {q : Nat × Node} (found : (m.kept fun _ => true)[j]? = some q) :
      p ≤ q.1 ↔ ((m.kept fun _ => true).map Prod.fst).countP (· < p) ≤ j :=
    le_getElem_iff kept_ascending (by rw [List.getElem?_map, found]; rfl) p
  refine denoted_eq stands (List.getElem_mem inside) ((position at_).mpr (Nat.le_refl _)) ?_
  intro q member behind
  obtain ⟨j, there, rfl⟩ := List.mem_iff_getElem.mp member
  have later := (position (List.getElem?_eq_getElem there)).mp behind
  rcases Nat.lt_or_eq_of_le later with less | same
  · exact Nat.le_of_lt (List.pairwise_iff_getElem.mp (List.pairwise_map.mp kept_ascending) _ _ inside
      there less)
  · subst same
    exact Nat.le_refl _

/-- What a range covers is given by the numbers of its labels. -/
theorem coverage_of_numbers {f : LabelId → LabelId} {number : LabelId → Nat} {r : ExceptionRange}
    (first : m.number keep (f r.start) = some (number r.start))
    (last : m.number keep (f r.stop) = some (number r.stop))
    (handler : number r.start < min (number r.stop) (m.kept keep).length →
      m.denoted keep (f r.handler) = some (number r.handler)) :
    m.coverage keep (r.mapLabels f) = some (Coverage.of (m.kept keep).length number r) := by
  rw [coverage]
  show (m.covered keep (f r.start) (f r.stop) >>= _) = _
  rw [covered_eq first last, Coverage.of]
  by_cases some_ : number r.start < min (number r.stop) (m.kept keep).length
  · have nonempty : ((List.range (m.kept keep).length).filter fun k =>
        number r.start ≤ k && k < number r.stop).isEmpty = false := by
      rw [List.isEmpty_eq_false_iff, Ne, List.filter_eq_nil_iff]
      intro none_
      have := none_ (number r.start) (List.mem_range.mpr (by omega))
      simp only [Bool.and_eq_true, decide_eq_true_eq] at this
      omega
    show (if List.isEmpty _ = true then _ else _) = _
    rw [if_pos some_, nonempty]
    show (m.denoted keep (f r.handler) >>= _) = _
    rw [handler some_]
    rfl
  · have empty : ((List.range (m.kept keep).length).filter fun k =>
        number r.start ≤ k && k < number r.stop) = [] := by
      rw [List.filter_eq_nil_iff]
      intro k inside
      have := List.mem_range.mp inside
      simp only [Bool.and_eq_true, decide_eq_true_eq]
      omega
    rw [if_neg some_, empty]
    rfl

/-- The outline of a body is given by its kept instructions and the numbers of the labels. -/
theorem outline_of_numbers {nodes : List Node} {ranges : List ExceptionRange}
    {f : LabelId → LabelId} (number : LabelId → Nat)
    (kept : (m.kept keep).map Prod.snd = nodes.map (·.mapLabels f))
    (exceptions : m.exceptions = ranges.map (·.mapLabels f))
    (targets : ∀ n ∈ nodes, ∀ l ∈ n.targets, m.denoted keep (f l) = some (number l))
    (bounds : ∀ r ∈ ranges, m.number keep (f r.start) = some (number r.start) ∧
      m.number keep (f r.stop) = some (number r.stop))
    (handlers : ∀ r ∈ ranges, number r.start < min (number r.stop) nodes.length →
      m.denoted keep (f r.handler) = some (number r.handler)) :
    m.outline keep = some ⟨nodes.map (·.mapLabels fun l => ⟨number l⟩),
      ranges.filterMap (Coverage.of nodes.length number)⟩ := by
  have count : (m.kept keep).length = nodes.length := by
    simpa using congrArg List.length kept
  have instructions : ((m.kept keep).mapM fun p =>
      p.2.mapLabelsM fun l => LabelId.mk <$> m.denoted keep l) =
      some (nodes.map (·.mapLabels fun l => ⟨number l⟩)) := by
    have real : ∀ n ∈ nodes, n.isPseudo = false := by
      intro n member
      have : n.mapLabels f ∈ (m.kept keep).map Prod.snd := by
        rw [kept]
        exact List.mem_map_of_mem member
      obtain ⟨p, known, same⟩ := List.mem_map.mp this
      rw [← Node.isPseudo_mapLabels f n, ← same]
      exact (mem_kept.mp known).2.2
    show (m.kept keep).mapM ((fun n : Node => n.mapLabelsM fun l => LabelId.mk <$> m.denoted keep l) ∘
      Prod.snd) = _
    rw [← List.mapM_map, kept, mapM_eq_some, List.forall₂_map_left_iff,
      List.forall₂_map_right_iff, List.forall₂_same]
    intro n member
    refine Node.mapLabelsM_mapLabels (real n member) fun l target => ?_
    rw [targets n member l target]
    rfl
  have covers : m.exceptions.mapM (m.coverage keep) =
      some (ranges.map (Coverage.of nodes.length number)) := by
    rw [exceptions, mapM_eq_some, List.forall₂_map_left_iff, List.forall₂_map_right_iff,
      List.forall₂_same, ← count]
    exact fun r member => coverage_of_numbers (bounds r member).1 (bounds r member).2
      (count ▸ handlers r member)
  rw [outline, instructions, covers]
  show some (Outline.mk _ (ranges.map (Coverage.of nodes.length number)).reduceOption) = _
  rw [List.reduceOption, List.filterMap_map]
  rfl

end Method

end Bytecode
