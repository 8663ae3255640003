import Bytecode.Proofs.Analysis.Linking
import Bytecode.Proofs.Analysis.Producers

/-!
# Consumers of a value along a path

`consumers_known` follows a token along a path: wherever it lies, the frame value in that cell has the
instruction that finally consumes the token among its usages.

The proof goes along the path backwards. At the end the consumer is noted at its operands. A step that
keeps the token takes it from a cell whose value is linked to the value in the cell where it arrives,
so that both have the same usages. The token itself is known by its number: `Point.Distinct` says that
no two cells hold tokens of one number, and new tokens get numbers that were not handed out before.
-/

namespace Bytecode.Tokens

/-! ## Numbers of tokens -/

/-- Every cell holds a token of its own number, and all numbers have been handed out. -/
structure Point.Distinct (p : Point) : Prop where
  below : ∀ cell t, p.at? cell = some t → t.number < p.next
  apart : ∀ cell cell' t t', p.at? cell = some t → p.at? cell' = some t' →
    t.number = t'.number → cell = cell'

variable {code : Machine.Code} {p q : Point} {insn : Insn} {m : Movement} {x : Exchange}
  {slots : Nat → Option Kind} {kinds : List Kind}

/-- Copies followed by entries that stay. -/
theorem depth_of_copies_keep {count j depth : Nat}
    (h : (copies kinds ++ keep count)[j]? = some (.kept depth)) :
    j = kinds.length + depth ∧ depth < count := by
  simp only [copies, keep, List.getElem?_append, List.length_map, List.getElem?_map] at h
  split at h
  · obtain ⟨kind, -, same⟩ := Option.map_eq_some_iff.mp h
    cases same
  · obtain ⟨d, found, same⟩ := Option.map_eq_some_iff.mp h
    cases same
    obtain ⟨inside, here⟩ := List.getElem?_eq_some_iff.mp found
    simp only [List.getElem_range, List.length_range] at inside here
    omega

/-- Entries that stay followed by copies. -/
theorem depth_of_keep_copies {count j depth : Nat}
    (h : (keep count ++ copies kinds)[j]? = some (.kept depth)) : j = depth ∧ depth < count := by
  simp only [copies, keep, List.getElem?_append, List.length_map, List.getElem?_map] at h
  split at h
  · obtain ⟨d, found, same⟩ := Option.map_eq_some_iff.mp h
    cases same
    obtain ⟨inside, here⟩ := List.getElem?_eq_some_iff.mp found
    simp only [List.getElem_range, List.length_range] at inside here
    omega
  · obtain ⟨kind, -, same⟩ := Option.map_eq_some_iff.mp h
    cases same

/-- An entry that an instruction moves without copying it was taken, and comes back to one cell. -/
theorem pushed_kept (h : m.exchange slots kinds = some x) :
    (∀ (j depth : Nat), x.pushed[j]? = some (.kept depth) → depth < x.taken) ∧
      ∀ (j k depth : Nat), x.pushed[j]? = some (.kept depth) → x.pushed[k]? = some (.kept depth) →
        j = k := by
  have none (kinds : List Kind) (j depth : Nat) : (copies kinds)[j]? ≠ some (.kept depth) := by
    intro found
    rw [copies, List.getElem?_map] at found
    obtain ⟨kind, -, same⟩ := Option.map_eq_some_iff.mp found
    cases same
  have made (kinds : List Kind) (pushed : x.pushed = copies kinds) :
      (∀ (j depth : Nat), x.pushed[j]? = some (.kept depth) → depth < x.taken) ∧
      ∀ (j k depth : Nat), x.pushed[j]? = some (.kept depth) → x.pushed[k]? = some (.kept depth) →
        j = k := by
    rw [pushed]
    exact ⟨fun j depth found => absurd found (none kinds j depth),
      fun j k depth found => absurd found (none kinds j depth)⟩
  cases m with
  | operate count result =>
    rw [Movement.exchange] at h
    split at h <;> cases h
    exact made _ rfl
  | load slot =>
    obtain ⟨kind, -, rfl⟩ := Option.map_eq_some_iff.mp h
    exact made _ rfl
  | store slot =>
    rw [Movement.exchange] at h
    split at h <;> cases h
    exact made [] rfl
  | increment slot =>
    cases h
    exact made [] rfl
  | drop words =>
    obtain ⟨count, -, rfl⟩ := Option.map_eq_some_iff.mp h
    exact made [] rfl
  | shuffle form =>
    obtain ⟨top, -, h⟩ := Option.bind_eq_some_iff.mp h
    obtain ⟨middle, -, h⟩ := Option.bind_eq_some_iff.mp h
    cases form with
    | swap =>
      cases h
      exact made _ rfl
    | dup | dup2 =>
      cases h
      refine ⟨fun j depth found => (depth_of_copies_keep found).2, fun j k depth hj hk => ?_⟩
      rw [(depth_of_copies_keep hj).1, (depth_of_copies_keep hk).1]
    | dupX1 | dupX2 | dup2X1 | dup2X2 =>
      cases h
      refine ⟨fun j depth found => (depth_of_keep_copies found).2, fun j k depth hj hk => ?_⟩
      rw [(depth_of_keep_copies hj).1, (depth_of_keep_copies hk).1]

/-- The origin of an entry, below what was pushed and among it. -/
theorem origin_cases (x : Exchange) (k : Nat) :
    (k < x.pushed.length ∧ x.pushed[k]? = some (x.origin k)) ∨
      (x.pushed.length ≤ k ∧ x.origin k = .kept (k - x.pushed.length + x.taken)) := by
  by_cases inside : k < x.pushed.length
  · exact .inl ⟨inside, by simp [Exchange.origin, inside]⟩
  · exact .inr ⟨Nat.not_lt.mp inside, by simp [Exchange.origin, Nat.not_lt.mp inside]⟩

/-- An entry stays in at most one cell. -/
theorem origin_injective (h : m.exchange slots kinds = some x) {j k depth : Nat}
    (hj : x.origin j = .kept depth) (hk : x.origin k = .kept depth) : j = k := by
  obtain ⟨taken, once⟩ := pushed_kept h
  rcases origin_cases x j with ⟨-, pushedJ⟩ | ⟨beyondJ, keptJ⟩ <;>
    rcases origin_cases x k with ⟨-, pushedK⟩ | ⟨beyondK, keptK⟩
  · exact once j k depth (hj ▸ pushedJ) (hk ▸ pushedK)
  · have := taken j depth (hj ▸ pushedJ)
    rw [hk, Origin.kept.injEq] at keptK
    omega
  · have := taken k depth (hk ▸ pushedK)
    rw [hj, Origin.kept.injEq] at keptJ
    omega
  · rw [hj, Origin.kept.injEq] at keptJ
    rw [hk, Origin.kept.injEq] at keptK
    omega

/-- From which cell an instruction keeps the token in a cell. -/
inductive Point.Keeps (p : Point) (m : Movement) (x : Exchange) : Cell → Cell → Prop
  | entry {k depth : Nat} (origin : x.origin k = .kept depth) : Keeps p m x (.entry depth) (.entry k)
  | slot {k : Nat} (kept : m.change p.slotKind p.kinds k = .kept) : Keeps p m x (.slot k) (.slot k)

/-- A cell keeps its token in at most one cell. -/
theorem Point.Keeps.injective (h : m.exchange slots kinds = some x) {cell a b : Cell}
    (ha : p.Keeps m x cell a) (hb : p.Keeps m x cell b) : a = b := by
  cases ha with
  | entry origin =>
    cases hb with
    | entry origin' => rw [origin_injective h origin origin']
  | slot kept =>
    cases hb with
    | slot kept' => rfl

/-- A token behind an instruction is new, and its number says where it lies, or it was kept. -/
theorem Point.Advanced.origin_of_at (h : p.Advanced insn m x q) {cell : Cell} {t : Token}
    (found : q.at? cell = some t) :
    (∃ k, cell = .entry k ∧ k < x.pushed.length ∧ t.number = p.next + k) ∨
    (∃ k, cell = .slot k ∧ t.number = p.next + x.pushed.length ∧
      ∃ kind, m.change p.slotKind p.kinds k = .filled kind) ∨
    ∃ source, p.Keeps m x source cell ∧ p.at? source = some t := by
  cases cell with
  | entry k =>
    have found : q.stack[k]? = some t := found
    rw [h.entries] at found
    cases origin : x.origin k with
    | kept depth =>
      rw [origin] at found
      exact .inr (.inr ⟨_, .entry origin, found⟩)
    | made kind =>
      rw [origin] at found
      cases found
      rcases origin_cases x k with ⟨inside, -⟩ | ⟨-, kept⟩
      · exact .inl ⟨k, rfl, inside, rfl⟩
      · rw [origin] at kept
        cases kept
  | slot k =>
    have found : q.slots k = some t := found
    rw [h.slots] at found
    cases change : m.change p.slotKind p.kinds k with
    | kept =>
      rw [change] at found
      exact .inr (.inr ⟨_, .slot change, found⟩)
    | emptied =>
      rw [change] at found
      cases found
    | filled kind =>
      rw [change] at found
      cases found
      exact .inr (.inl ⟨k, rfl, rfl, kind, change⟩)

/-- An instruction fills at most one local variable. -/
theorem filled_once {j k : Nat} {a b : Kind} (hj : m.change slots kinds j = .filled a)
    (hk : m.change slots kinds k = .filled b) : j = k := by
  cases m with
  | store slot =>
    cases kinds with
    | nil => cases hj
    | cons kind kinds =>
      have hj : storeChange slots kind slot j = .filled a := hj
      have hk : storeChange slots kind slot k = .filled b := hk
      unfold storeChange at hj hk
      grind
  | increment slot =>
    have hj : (if j = slot.toNat then Change.filled .int else .kept) = .filled a := hj
    have hk : (if k = slot.toNat then Change.filled .int else .kept) = .filled b := hk
    grind
  | _ => cases hj

/-- An instruction keeps tokens apart. -/
theorem Point.Advanced.distinct (h : p.Distinct) (advanced : p.Advanced insn m x q) : q.Distinct where
  below := fun cell t found => by
    rw [advanced.next]
    rcases advanced.origin_of_at found with ⟨k, -, inside, number⟩ | ⟨k, -, number, -⟩ |
      ⟨source, -, before⟩
    · omega
    · omega
    · have := h.below source t before
      omega
  apart := fun cell cell' t t' found found' same => by
    rcases advanced.origin_of_at found with ⟨k, rfl, inside, number⟩ | ⟨k, rfl, number, kind, filled⟩ |
      ⟨source, keeps, before⟩ <;>
    rcases advanced.origin_of_at found' with ⟨k', rfl, inside', number'⟩ |
      ⟨k', rfl, number', kind', filled'⟩ | ⟨source', keeps', before'⟩
    · exact congrArg Cell.entry (by omega)
    · omega
    · have := h.below source' t' before'
      omega
    · omega
    · exact congrArg Cell.slot (filled_once filled filled')
    · have := h.below source' t' before'
      omega
    · have := h.below source t before
      omega
    · have := h.below source t before
      omega
    · obtain rfl := h.apart source source' t t' before before' same
      exact keeps.injective advanced.exchange keeps'

/-- A step keeps tokens apart. -/
theorem distinct_of_step (h : p.Distinct) (step : Step code p q) : q.Distinct := by
  cases step with
  | edge at_position edge advances =>
    obtain ⟨-, m, x, advanced⟩ := advanced_of_advance advances
    exact advanced.distinct h
  | @handler range member covers =>
    have old (k : Nat) (t : Token) (found : p.slots k = some t) : t.number < p.next :=
      h.below (.slot k) t found
    have only (depth : Nat) (t : Token) (found : (p.caught range.handler).at? (.entry depth) = some t) :
        depth = 0 ∧ t.number = p.next := by
      cases depth with
      | zero =>
        cases found
        exact ⟨rfl, rfl⟩
      | succ depth => cases found
    refine ⟨fun cell t found => ?_, fun cell cell' t t' found found' same => ?_⟩
    · show t.number < p.next + 1
      cases cell with
      | slot k => exact Nat.lt_succ_of_lt (old k t found)
      | entry depth =>
        rw [(only depth t found).2]
        exact Nat.lt_succ_self _
    · cases cell with
      | slot k =>
        have inside := old k t found
        cases cell' with
        | slot k' => exact h.apart (.slot k) (.slot k') t t' found found' same
        | entry depth =>
          have := (only depth t' found').2
          omega
      | entry depth =>
        have number := (only depth t found).2
        cases cell' with
        | slot k' =>
          have := old k' t' found'
          omega
        | entry depth' => rw [(only depth t found).1, (only depth' t' found').1]

/-- The tokens at the entry of a method are apart. -/
theorem distinct_start (kinds : List Kind) : (start kinds).Distinct := by
  have slot (cell : Cell) (t : Token) (found : (start kinds).at? cell = some t) :
      ∃ k, cell = .slot k ∧ t.number = k ∧ k < (laidOut kinds).length := by
    cases cell with
    | entry depth => cases found
    | slot k =>
      obtain ⟨kind, known, rfl⟩ := Option.map_eq_some_iff.mp found
      refine ⟨k, rfl, rfl, ?_⟩
      by_contra outside
      rw [List.getElem?_eq_none (Nat.not_lt.mp outside)] at known
      cases known
  refine ⟨fun cell t found => ?_, fun cell cell' t t' found found' same => ?_⟩
  · obtain ⟨k, -, rfl, inside⟩ := slot cell t found
    exact inside
  · obtain ⟨k, rfl, number, -⟩ := slot cell t found
    obtain ⟨k', rfl, number', -⟩ := slot cell' t' found'
    exact congrArg Cell.slot (by omega)

/-- Wherever a path of a method leads, tokens are apart. -/
theorem distinct_of_reaches (h : p.Distinct) (reaches : Reaches code p q) : q.Distinct := by
  induction reaches with
  | refl => exact h
  | tail _ step ih => exact distinct_of_step ih step

/-- A step hands out further numbers only. -/
theorem next_le_of_step (step : Step code p q) : p.next ≤ q.next := by
  cases step with
  | edge at_position edge advances =>
    obtain ⟨-, m, x, advanced⟩ := advanced_of_advance advances
    rw [advanced.next]
    omega
  | handler member covers => exact Nat.le_succ _

/-! ## Consumption -/

/-- A token lies in an operand of the instruction. -/
def Point.Consumes (p : Point) (insn : Insn) (t : Token) : Prop :=
  ∃ m x cell, movement? insn.node = some m ∧ m.exchange p.slotKind p.kinds = some x ∧
    cell ∈ m.operands x ∧ p.at? cell = some t

/-- The operands of an instruction depend on the kinds of the stack alone. -/
theorem operands_congr {slots' : Nat → Option Kind} {y : Exchange} (hx : m.exchange slots kinds = some x)
    (hy : m.exchange slots' kinds = some y) : m.operands x = m.operands y := by
  cases m with
  | load slot => rfl
  | _ =>
    obtain rfl : x = y := Option.some.inj (hx.symm.trans hy)
    rfl

end Bytecode.Tokens

namespace Bytecode.Analysis

open Tokens
open Machine (Code codeOf? parameterKinds)

/-! ## Values that hold one token -/

/-- What the last visits say about the final frames: instructions are noted at their operands, and
values are linked along all edges and to all handlers. -/
structure LinkedFrames (code : Code) (r : Frames) : Prop where
  moves : ∀ i f, r.frameAt i = some f → ∃ insn after m x, code.body[i]? = some insn ∧
    Moves (UsedIn r.store.usages insn.id) insn f after m x ∧
    ∀ t, Edge code i insn.node t → Arrives r.frameAt t after ∧
      ∃ g, r.frameAt t = some g ∧ Linked r.store.usages after.locals g.locals ∧
        Linked r.store.usages after.stack g.stack
  handlers : ∀ i f range, r.frameAt i = some f → range ∈ code.ranges → range.covers i = true →
    ∃ g, r.frameAt range.handler = some g ∧ Linked r.store.usages f.locals g.locals

section

variable {owner : String} {m : Method} {r : Frames} {code : Code} {p q : Point}

/-- The frames of an analysis are linked. -/
theorem linkedFrames_of_analyze (analyzed : analyze owner m = .ok r) (nonempty : 0 < m.body.size)
    (plain : ∀ insn ∈ m.body, PlainReturn insn.node) (executed : codeOf? m = some code) :
    LinkedFrames code r := by
  obtain ⟨ranges, visits, entry, flow, covered, fixpoint, left, final, store⟩ :=
    leaves_of_analyze analyzed nonempty plain
  rw [codeOf?, covered] at executed
  cases executed
  refine ⟨fun i f there => ?_, fun i f range there member covers => ?_⟩
  · obtain @⟨insn, _, _, after, _, targets, at_position, -, -, -, successors, arrives, -, visited⟩ :=
      fixpoint.settled i f there
    have leaves := left _ visited
    obtain ⟨m, x, moves⟩ := leaves.moves insn at_position
    refine ⟨insn, after, m, x, at_position, store ▸ moves, fun t edge => ?_⟩
    have target := (@mem_successors_iff ⟨_, _, ranges⟩ _ _ _ successors t).mpr edge
    obtain ⟨g, found, links⟩ := leaves.successors insn targets at_position successors t target
    exact ⟨arrives t target, g, final ▸ found, store ▸ links⟩
  · obtain ⟨-, -, -, -, -, -, -, visited⟩ := fixpoint.settled i f there
    obtain ⟨g, found, links, -⟩ := (left _ visited).handlers range member covers
    exact ⟨g, final ▸ found, store ▸ links⟩

/-- A token that a step keeps comes from a cell whose value is linked to the one where it lies. -/
theorem source_of_step (linked : LinkedFrames code r) (known : KnownKinds r.frameAt) {f g : Frame}
    (there : r.frameAt p.position = some f) (fits : f.Fits p) (there' : r.frameAt q.position = some g)
    (fits' : g.Fits q) (step : Tokens.Step code p q) {cell : Cell} {t : Token}
    (found : q.at? cell = some t) (old : t.number < p.next) :
    ∃ source v w, p.at? source = some t ∧ f.cell? source = some v ∧ g.cell? cell = some w ∧
      r.usages v = r.usages w := by
  have usages_eq {v w : Value} (same : r.store.usages.find v.key = r.store.usages.find w.key) :
      r.usages v = r.usages w := by
    rw [Frames.usages, Frames.usages, UsageTable.usages, same]
    rfl
  have slot (k : Nat) (found : q.slots k = some t) : ∃ w, g.locals[k]? = some w :=
    ⟨_, List.getElem?_eq_getElem (fits'.width k t found)⟩
  cases step with
  | @edge _ insn target at_position edge advances =>
    obtain ⟨insn', after, m, x, at_position', moves, links⟩ := linked.moves _ f there
    obtain rfl : insn = insn' := Option.some.inj (at_position.symm.trans at_position')
    obtain ⟨arrives, g', there'', linkedLocals, linkedStack⟩ := links target edge
    obtain ⟨q', advances', position, advanced⟩ :=
      moves.advance fits.kinds (fits.loaded moves (arrives.known known)) target
    obtain rfl : q = q' := Option.some.inj (advances.symm.trans advances')
    rw [position, there''] at there'
    cases there'
    rcases advanced.origin_of_at found with ⟨k, -, -, number⟩ | ⟨k, -, number, -⟩ | ⟨source, keeps, before⟩
    · omega
    · omega
    · cases keeps with
      | @entry k depth origin =>
        have found : q.stack[k]? = some t := found
        have inside : k < q.stack.length := (List.getElem?_eq_some_iff.mp found).1
        have height : q.stack.length = after.stack.length := by
          rw [advanced.height, moves.height, fits.stack.length_eq]
        obtain ⟨v, hv⟩ : ∃ v, after.stack[k]? = some v := ⟨_, List.getElem?_eq_getElem (height ▸ inside)⟩
        obtain ⟨w, hw⟩ : ∃ w, g.stack[k]? = some w :=
          ⟨_, List.getElem?_eq_getElem (fits'.stack.length_eq ▸ inside)⟩
        have comes := moves.entry hv
        rw [origin] at comes
        exact ⟨_, v, w, before, comes, hw, usages_eq (linkedStack k v w hv hw).2.2⟩
      | @slot k kept =>
        have inside : k < after.locals.length := moves.width ▸ fits.width k t before
        obtain ⟨v, hv⟩ : ∃ v, after.locals[k]? = some v := ⟨_, List.getElem?_eq_getElem inside⟩
        obtain ⟨w, hw⟩ := slot k found
        have remains := moves.locals k v hv
        rw [← fits.kinds, change_eq_kept kept fits.wide] at remains
        exact ⟨_, v, w, before, remains, hw, usages_eq (linkedLocals k v w hv hw).2.2⟩
  | @handler range member covers =>
    obtain ⟨g', there'', linkedLocals⟩ := linked.handlers _ f range there member covers
    obtain rfl : g = g' := Option.some.inj (there'.symm.trans there'')
    cases cell with
    | slot k =>
      have before : p.slots k = some t := found
      obtain ⟨v, hv⟩ : ∃ v, f.locals[k]? = some v := ⟨_, List.getElem?_eq_getElem (fits.width k t before)⟩
      obtain ⟨w, hw⟩ := slot k found
      exact ⟨.slot k, v, w, before, hv, hw, usages_eq (linkedLocals k v w hv hw).2.2⟩
    | entry depth =>
      cases depth with
      | zero =>
        cases found
        exact absurd old (Nat.lt_irrefl _)
      | succ depth => cases found

/-- An instruction is noted at the value that holds a token it consumes. -/
theorem used_of_consumes (linked : LinkedFrames code r) {f : Frame} {insn : Insn}
    (there : r.frameAt p.position = some f) (fits : f.Fits p)
    (at_position : code.body[p.position]? = some insn) {t : Token} (consumes : p.Consumes insn t) :
    ∃ cell v, p.at? cell = some t ∧ f.cell? cell = some v ∧ insn.id ∈ r.usages v := by
  obtain ⟨insn', after, m, x, at_position', moves, -⟩ := linked.moves _ f there
  obtain rfl : insn = insn' := Option.some.inj (at_position.symm.trans at_position')
  obtain ⟨m', y, cell, movement, exchange, operand, held⟩ := consumes
  obtain rfl : m = m' := Option.some.inj (moves.movement.symm.trans movement)
  rw [fits.kinds] at exchange
  rw [operands_congr exchange moves.exchange] at operand
  obtain ⟨v, found, -, used⟩ := moves.operands cell operand
  exact ⟨cell, v, held, found, used⟩

/-- Wherever a path comes by on its way to the consumer of a token, some cell there holds the token,
and the consumer is noted at the value in that cell. -/
theorem held_of_reaches (linked : LinkedFrames code r) (known : KnownKinds r.frameAt) {origin : Point}
    (fits : ∀ p, Reaches code origin p → ∃ f, r.frameAt p.position = some f ∧ f.Fits p) {insn : Insn}
    {t : Token} (at_position : code.body[q.position]? = some insn) (consumes : q.Consumes insn t)
    (onward : Reaches code p q) (path : Reaches code origin p) (old : t.number < p.next) :
    ∃ f cell v, r.frameAt p.position = some f ∧ p.at? cell = some t ∧ f.cell? cell = some v ∧
      insn.id ∈ r.usages v := by
  -- backwards along the path, from the consumer to the point in question
  induction onward using Relation.ReflTransGen.head_induction_on with
  | refl =>
    obtain ⟨f, there, hfits⟩ := fits q path
    obtain ⟨cell, v, held, found, used⟩ := used_of_consumes linked there hfits at_position consumes
    exact ⟨f, cell, v, there, held, found, used⟩
  | @head p c step _ ih =>
    have path' : Reaches code origin c := .tail path step
    obtain ⟨g, cell, w, there', held, found, used⟩ := ih path' (Nat.lt_of_lt_of_le old (next_le_of_step step))
    obtain ⟨f, there, hfits⟩ := fits p path
    obtain ⟨g', there'', hfits'⟩ := fits c path'
    obtain rfl : g = g' := Option.some.inj (there'.symm.trans there'')
    obtain ⟨source, v, w', before, hv, hw, same⟩ :=
      source_of_step linked known there hfits there' hfits' step held old
    obtain rfl : w = w' := Option.some.inj (found.symm.trans hw)
    exact ⟨f, source, v, there, before, hv, same ▸ used⟩

end

/-- **No consumer is missed.** If a path of a method goes on from a point to an instruction that consumes
one of the tokens there, then the instruction is among the usages of the frame value in the cell of the
token. -/
theorem consumers_known {owner : String} {m : Method} {r : Frames} {code : Code} {p q : Point}
    {insn : Insn} {cell : Cell} {t : Token} (analyzed : analyze owner m = .ok r)
    (plain : ∀ insn ∈ m.body, PlainReturn insn.node) (known : KnownKinds r.frameAt)
    (executed : codeOf? m = some code) (path : OnPath m p) (held : p.at? cell = some t)
    (onward : Reaches code p q) (at_position : m.body[q.position]? = some insn)
    (consumes : q.Consumes insn t) :
    ∃ f v, r.frameAt p.position = some f ∧ f.cell? cell = some v ∧ insn.id ∈ r.usages v := by
  have nonempty : 0 < m.body.size := Nat.zero_lt_of_lt (Array.getElem?_eq_some_iff.mp at_position).1
  obtain ⟨code', kinds, executed', passed, reaches⟩ := path
  obtain rfl : code = code' := Option.some.inj (executed.symm.trans executed')
  have body : code.body = m.body := by
    obtain ⟨ranges, -, rfl⟩ := Option.map_eq_some_iff.mp executed
    rfl
  have fits (p : Point) (reaches : Reaches code (start kinds) p) :=
    fits_of_onPath analyzed nonempty plain known ⟨code, kinds, executed, passed, reaches⟩
  have apart := distinct_of_reaches (distinct_start kinds) reaches
  obtain ⟨f, cell', v, there, held', found, used⟩ :=
    held_of_reaches (linkedFrames_of_analyze analyzed nonempty plain executed) known fits
      (body ▸ at_position) consumes onward reaches (apart.below cell t held)
  -- the token lies in one cell only
  obtain rfl : cell = cell' := apart.apart cell cell' t t held held' rfl
  exact ⟨f, v, there, found, used⟩

/-! ## Samples -/

/-- The usages of the value in a cell of the frame at a position. -/
def Frames.usagesAt (r : Frames) (i : Nat) (cell : Cell) : Option InsnSet :=
  (r.frameAt i).bind fun f => (f.cell? cell).map r.usages

/-- The constant that is copied is also an operand of the addition. -/
theorem consumers_known_double : ∃ r f v p t, analyze "A" doubleMethod = .ok r ∧ KnownKinds r.frameAt ∧
    OnPath doubleMethod p ∧ p.position = 1 ∧ p.stack[0]? = some t ∧ t.producer = some ⟨0⟩ ∧
    r.frameAt 1 = some f ∧ f.cell? (.entry 0) = some v ∧ ⟨2⟩ ∈ r.usages v := by
  have evaluated : (analyze "A" doubleMethod).toOption.any
      (fun r => decide (KnownKinds r.frameAt)) = true := by
    unfold analyze
    rw [Body.ofTable_labelTable]
    decide +kernel
  obtain ⟨r, analyzed, known⟩ := exists_of_any evaluated
  have known : KnownKinds r.frameAt := of_decide_eq_true known
  let code : Code := ⟨doubleMethod.body, doubleMethod.body.lastLabels, []⟩
  let constant : Token := ⟨0, .int, some ⟨0⟩⟩
  have first : Reaches code (start []) ⟨1, (start []).slots, [constant], 2⟩ :=
    .tail .refl (.edge rfl (.next rfl) rfl)
  have copied : Reaches code ⟨1, (start []).slots, [constant], 2⟩
      ⟨2, (start []).slots, [⟨2, .int, some ⟨1⟩⟩, constant], 5⟩ :=
    .tail .refl (.edge rfl (.next rfl) rfl)
  have path : OnPath doubleMethod ⟨1, (start []).slots, [constant], 2⟩ :=
    ⟨code, [], rfl, by decide +kernel, first⟩
  have held : Point.at? ⟨1, (start []).slots, [constant], 2⟩ (.entry 0) = some constant := rfl
  have addition : doubleMethod.body[2]? = some ⟨⟨2⟩, .simple 0x60⟩ := rfl
  obtain ⟨f, v, there, found, used⟩ := consumers_known analyzed
    (by simp [doubleMethod, numbered, PlainReturn, callDescriptor?]) known rfl path held copied addition
    ⟨.operate 2 (some .int), ⟨2, 2, [.made .int]⟩, .entry 1, rfl, rfl, by decide, rfl⟩
  exact ⟨r, f, v, _, constant, analyzed, known, path, rfl, rfl, rfl, there, found, used⟩

/-- A static method that stores the result of a call whose return type has a closing parenthesis in its
name, and then a constant from below. -/
def misplacedMethod : Method where
  id := ⟨0⟩
  access := 9
  name := "m"
  descriptor := "()V"
  maxLocals := 0
  body := numbered [.simple 0x04, .simple 0x05, .call Opcode.invokestatic "X" "f" "()La)b;" false,
    .field Opcode.putstatic "X" "a" "Ljava/lang/Object;", .field Opcode.putstatic "X" "b" "I",
    .simple Opcode.vreturn]

/-- The consumer of a constant is missing if the result of a call is hidden: the second store takes the
constant that lay on top before the call, but the value that the frame has there is used by the first
store alone. -/
theorem missed_consumer : ∃ r, analyze "A" misplacedMethod = .ok r ∧ KnownKinds r.frameAt ∧
    r.usagesAt 2 (.entry 0) = some [⟨3⟩] ∧
    ∃ code p q t, codeOf? misplacedMethod = some code ∧ OnPath misplacedMethod p ∧ p.position = 2 ∧
      p.at? (.entry 0) = some t ∧ Reaches code p q ∧ q.position = 4 ∧
      q.Consumes ⟨⟨4⟩, .field Opcode.putstatic "X" "b" "I"⟩ t := by
  have evaluated : (analyze "A" misplacedMethod).toOption.any (fun r =>
      decide (KnownKinds r.frameAt) && r.usagesAt 2 (.entry 0) == some [⟨3⟩]) = true := by
    unfold analyze
    rw [Body.ofTable_labelTable]
    decide +kernel
  obtain ⟨r, analyzed, holds⟩ := exists_of_any evaluated
  obtain ⟨known, usages⟩ := Bool.and_eq_true_iff.mp holds
  have call : callMovement 0 "()La)b;" = some (.operate 0 (some .reference)) := by decide +kernel
  let code : Code := ⟨misplacedMethod.body, misplacedMethod.body.lastLabels, []⟩
  let one : Token := ⟨0, .int, some ⟨0⟩⟩
  let two : Token := ⟨2, .int, some ⟨1⟩⟩
  let result : Token := ⟨4, .reference, some ⟨2⟩⟩
  have first : Reaches code (start []) ⟨1, (start []).slots, [one], 2⟩ :=
    .tail .refl (.edge rfl (.next rfl) rfl)
  have second : Reaches code (start []) ⟨2, (start []).slots, [two, one], 4⟩ :=
    .tail first (.edge rfl (.next rfl) rfl)
  have called : Reaches code ⟨2, (start []).slots, [two, one], 4⟩
      ⟨3, (start []).slots, [result, two, one], 6⟩ := by
    have at_call : misplacedMethod.body[2]? =
        some ⟨⟨2⟩, .call Opcode.invokestatic "X" "f" "()La)b;" false⟩ := rfl
    refine .tail .refl (.edge at_call (.next rfl) ?_)
    rw [Point.advance, movement?, if_pos rfl, call]
    rfl
  have stored : Reaches code ⟨2, (start []).slots, [two, one], 4⟩
      ⟨4, (start []).slots, [two, one], 7⟩ :=
    .tail called (.edge rfl (.next rfl) rfl)
  exact ⟨r, analyzed, of_decide_eq_true known, beq_iff_eq.mp usages, code, _, _, two, rfl,
    ⟨code, [], rfl, by decide +kernel, second⟩, rfl, rfl, stored, rfl,
    ⟨.operate 1 none, ⟨1, 1, []⟩, .entry 0, rfl, rfl, by decide, rfl⟩⟩

end Bytecode.Analysis
