import Bytecode.Proofs.Analysis.Constants
import Bytecode.Proofs.Analysis.Movements

/-!
# Frames along a path

Wherever a path of tokens leads, there is a frame, and the frame fits: its stack has the kinds of the
tokens, it knows the producer of every token on the stack, and a local variable whose kind it knows
holds a token of that kind. `fits_of_onPath` proves so from the post-fixpoint, one step after the
other, for analyses whose frames know the kind of every stack entry.

The step is the simulation of `execute_moves`: both sides move by kinds alone, and the kinds agree. A
local variable of unknown kind does not matter, since a load from it would push an unknown kind.
-/

namespace Bytecode.Tokens

/-! ## Points behind an instruction -/

/-- Where the entry at a depth comes from. -/
def Exchange.origin (x : Exchange) (k : Nat) : Origin :=
  x.pushed.getD k (.kept (k - x.pushed.length + x.taken))

/-- The point behind an instruction, cell by cell. -/
structure Point.Advanced (p : Point) (insn : Insn) (m : Movement) (x : Exchange) (q : Point) : Prop where
  movement : movement? insn.node = some m
  exchange : m.exchange p.slotKind p.kinds = some x
  entries : ∀ k, q.stack[k]? = p.token? insn.id (x.origin k, k)
  height : q.stack.length = x.pushed.length + (p.stack.length - x.taken)
  slots : ∀ k, q.slots k =
    p.changed insn.id (p.next + x.pushed.length) k (m.change p.slotKind p.kinds k)
  next : q.next = p.next + x.pushed.length + 1

variable {p q : Point} {insn : Insn} {m : Movement} {x : Exchange} {target : Nat}

open Analysis (forall₂_of_mapM)

/-- What a path does when it goes on, cell by cell. -/
theorem advanced_of_advance (h : p.advance insn target = some q) :
    q.position = target ∧ ∃ m x, p.Advanced insn m x q := by
  obtain ⟨m, movement, h⟩ := Option.bind_eq_some_iff.mp h
  obtain ⟨x, exchange, h⟩ := Option.bind_eq_some_iff.mp h
  obtain ⟨pushed, tokens, h⟩ := Option.bind_eq_some_iff.mp h
  cases h
  have each := forall₂_of_mapM tokens
  have length : pushed.length = x.pushed.length := by rw [← each.length_eq, List.length_zipIdx]
  refine ⟨rfl, m, x, movement, exchange, fun k => ?_, by simp [length], fun k => rfl, rfl⟩
  show (pushed ++ p.stack.drop x.taken)[k]? = _
  by_cases inside : k < x.pushed.length
  · have origin : x.origin k = x.pushed[k] := by simp [Exchange.origin, inside]
    have known := each.get (i := k) (by simpa using inside) (by simpa [length] using inside)
    rw [List.getElem?_append_left (by omega), origin, List.getElem?_eq_getElem (by omega)]
    simpa using known.symm
  · have origin : x.origin k = .kept (k - x.pushed.length + x.taken) := by
      simp [Exchange.origin, Nat.not_lt.mp inside]
    rw [List.getElem?_append_right (by omega), origin, List.getElem?_drop, length, Nat.add_comm]
    rfl

/-- A path goes on if the entries that stay are there. -/
theorem advance_of_exchange (movement : movement? insn.node = some m)
    (exchange : m.exchange p.slotKind p.kinds = some x)
    (present : ∀ depth, .kept depth ∈ x.pushed → depth < p.stack.length) (target : Nat) :
    ∃ q, p.advance insn target = some q := by
  have made : ∀ entries : List (Origin × Nat),
      (∀ depth index, (.kept depth, index) ∈ entries → depth < p.stack.length) →
      ∃ tokens, entries.mapM (p.token? insn.id) = some tokens := by
    intro entries inside
    induction entries with
    | nil => exact ⟨[], rfl⟩
    | cons entry entries ih =>
      obtain ⟨tokens, rest⟩ := ih fun depth index member =>
        inside depth index (List.mem_cons_of_mem _ member)
      obtain ⟨token, first⟩ : ∃ token, p.token? insn.id entry = some token := by
        obtain ⟨origin, index⟩ := entry
        cases origin with
        | kept depth => exact ⟨_, List.getElem?_eq_getElem (inside depth index List.mem_cons_self)⟩
        | made kind => exact ⟨_, rfl⟩
      exact ⟨token :: tokens, by rw [List.mapM_cons, first, rest]; rfl⟩
  obtain ⟨tokens, all⟩ := made x.pushed.zipIdx fun depth index member =>
    present depth (List.fst_mem_of_mem_zipIdx member)
  simp only [Point.advance, movement, exchange, all, Option.bind_eq_bind, Option.bind_some]
  exact ⟨_, rfl⟩

end Bytecode.Tokens

namespace Bytecode.Analysis

open Tokens
open Machine (Code codeOf? parameterKinds)

/-! ## Cells behind a simulated instruction -/

/-- Lists of one length are related if their entries are. -/
theorem forall₂_of_getElem? {α β : Type} {R : α → β → Prop} {xs : List α} {ys : List β}
    (length : xs.length = ys.length)
    (each : ∀ (k : Nat) a b, xs[k]? = some a → ys[k]? = some b → R a b) : List.Forall₂ R xs ys := by
  refine List.forall₂_iff_get.mpr ⟨length, fun k hx hy => ?_⟩
  exact each k _ _ (List.getElem?_eq_getElem hx) (List.getElem?_eq_getElem hy)

/-- The entries of related lists are related. -/
theorem getElem?_of_forall₂ {α β : Type} {R : α → β → Prop} {xs : List α} {ys : List β}
    (h : List.Forall₂ R xs ys) {k : Nat} {b : β} (found : ys[k]? = some b) :
    ∃ a, xs[k]? = some a ∧ R a b := by
  obtain ⟨inside, rfl⟩ := List.getElem?_eq_some_iff.mp found
  have inside' : k < xs.length := h.length_eq ▸ inside
  exact ⟨_, List.getElem?_eq_getElem inside', h.get inside' inside⟩

section

variable {used : Value → Prop} {insn : Insn} {f g : Frame} {p q : Point} {m : Movement} {x : Exchange}
  {v : Value} {k : Nat}

/-- The value at a depth comes from where its origin says. -/
theorem Moves.entry (h : Moves used insn f g m x) (found : g.stack[k]? = some v) :
    Comes f.stack insn.id (x.origin k) v := by
  obtain ⟨values, comes, stack⟩ := h.stack
  rw [stack] at found
  by_cases inside : k < values.length
  · rw [List.getElem?_append_left inside] at found
    obtain ⟨origin, known, comes⟩ := getElem?_of_forall₂ comes found
    rwa [Exchange.origin, List.getD_eq_getElem?_getD, known]
  · have outside : ¬k < x.pushed.length := comes.length_eq ▸ inside
    have origin : x.origin k = .kept (k - x.pushed.length + x.taken) := by
      simp [Exchange.origin, Nat.not_lt.mp outside]
    rw [List.getElem?_append_right (Nat.not_lt.mp inside), List.getElem?_drop, ← comes.length_eq,
      Nat.add_comm] at found
    rw [origin]
    exact found

theorem Moves.height (h : Moves used insn f g m x) :
    g.stack.length = x.pushed.length + (f.stack.length - x.taken) := by
  obtain ⟨values, comes, stack⟩ := h.stack
  rw [stack, List.length_append, List.length_drop, comes.length_eq]

/-- The entries that stay are there. -/
theorem Moves.present (h : Moves used insn f g m x) {depth : Nat} (kept : .kept depth ∈ x.pushed) :
    depth < f.stack.length := by
  obtain ⟨values, comes, -⟩ := h.stack
  obtain ⟨v, -, found⟩ := exists_of_mem_right comes.flip kept
  exact (List.getElem?_eq_some_iff.mp found).1

/-- The kinds of all stack entries are known. -/
def Frame.Known (f : Frame) : Prop :=
  ∀ v ∈ f.stack, v.kind ≠ .uninitialized

/-- If the kinds of the stack behind a load are known, so is that of the loaded variable. -/
theorem Moves.loaded {slot : UInt16} (h : Moves used insn f g (.load slot) x) (known : g.Known) :
    ∃ kind, f.slotKind slot.toNat = some kind ∧ kind ≠ .uninitialized := by
  obtain ⟨kind, found, rfl⟩ := Option.map_eq_some_iff.mp h.exchange
  obtain ⟨values, comes, stack⟩ := h.stack
  cases comes with
  | cons first _ =>
    have top := known _ (by rw [stack]; exact List.mem_cons_self)
    rw [first.1] at top
    exact ⟨kind, found, top⟩

/-- What an instruction does to a stack depends on the kinds of the stack and of the loaded variable.
-/
theorem exchange_congr {slots slots' : Nat → Option Kind} {kinds : List Kind}
    (same : ∀ slot, m = .load slot → slots slot.toNat = slots' slot.toNat) :
    m.exchange slots kinds = m.exchange slots' kinds := by
  cases m with
  | load slot => rw [Movement.exchange, Movement.exchange, same slot rfl]
  | _ => rfl

/-- A slot that stays as it is also stays where no more variables are wide. -/
theorem change_eq_kept {slots slots' : Nat → Option Kind} {kinds : List Kind}
    (h : m.change slots kinds k = .kept)
    (wider : (slots' k).any Kind.isWide = true → (slots k).any Kind.isWide = true) :
    m.change slots' kinds k = .kept := by
  cases m with
  | store slot =>
    cases kinds with
    | nil => rfl
    | cons kind kinds =>
      have h : storeChange slots kind slot k = .kept := h
      show storeChange slots' kind slot k = .kept
      unfold storeChange at h ⊢
      grind
  | _ => exact h

/-- A slot is filled whatever the others hold. -/
theorem change_eq_filled {slots slots' : Nat → Option Kind} {kinds : List Kind} {kind : Kind}
    (h : m.change slots kinds k = .filled kind) : m.change slots' kinds k = .filled kind := by
  cases m with
  | store slot =>
    cases kinds with
    | nil => cases h
    | cons top kinds =>
      have h : storeChange slots top slot k = .filled kind := h
      show storeChange slots' top slot k = .filled kind
      unfold storeChange at h ⊢
      grind
  | _ => exact h

/-! ## Frames that fit a point -/

/-- A value is what is known of a token. -/
def Knows (t : Token) (v : Value) : Prop :=
  v.kind = t.kind ∧ ∀ id, t.producer = some id → id ∈ v.sources

/-- A frame fits a point of a path. Tokens lie in slots that the frame has. -/
structure Frame.Fits (f : Frame) (p : Point) : Prop where
  stack : List.Forall₂ Knows p.stack f.stack
  slots : ∀ k v, f.locals[k]? = some v → v.kind ≠ .uninitialized →
    ∃ t, p.slots k = some t ∧ t.kind = v.kind
  width : ∀ k t, p.slots k = some t → k < f.locals.length

theorem Frame.Fits.kinds (h : f.Fits p) : p.kinds = f.kinds := by
  have equal : List.Forall₂ (· = ·) (p.stack.map Token.kind) (f.stack.map Value.kind) := by
    rw [List.forall₂_map_left_iff, List.forall₂_map_right_iff]
    exact h.stack.imp fun t v knows => knows.1.symm
  exact List.forall₂_eq_eq_eq ▸ equal

/-- What fits still fits where less is claimed. -/
theorem Frame.Fits.mono (h : f.Fits p) (below : f.Le g) (known : g.Known) : g.Fits p where
  stack := by
    refine forall₂_of_getElem? (h.stack.length_eq.trans below.stack.length_eq) fun k t v ht hv => ?_
    obtain ⟨u, hu, le⟩ := getElem?_of_forall₂ below.stack hv
    obtain ⟨t', ht', knows⟩ := getElem?_of_forall₂ h.stack hu
    obtain rfl : t = t' := Option.some.inj (ht.symm.trans ht')
    have kind := le.kind.resolve_right (known v (List.mem_of_getElem? hv))
    exact ⟨kind.trans knows.1, fun id producer => le.sources id (knows.2 id producer)⟩
  slots := fun k v found kind => by
    obtain ⟨u, hu, le⟩ := getElem?_of_forall₂ below.locals found
    have same := le.kind.resolve_right kind
    obtain ⟨t, ht, equal⟩ := h.slots k u hu (same ▸ kind)
    exact ⟨t, ht, equal.trans same.symm⟩
  width := fun k t found => below.locals.length_eq ▸ h.width k t found

/-- A variable of known kind has the kind of its token. -/
theorem Frame.Fits.slotKind (h : f.Fits p) {kind : Kind} (found : f.slotKind k = some kind)
    (known : kind ≠ .uninitialized) : p.slotKind k = some kind := by
  obtain ⟨v, there, rfl⟩ := Option.map_eq_some_iff.mp found
  obtain ⟨t, ht, same⟩ := h.slots k v there known
  rw [Point.slotKind, ht, Option.map_some, same]

/-- A variable that is wide in the frame holds a wide token. -/
theorem Frame.Fits.wide (h : f.Fits p) (wide : (f.slotKind k).any Kind.isWide = true) :
    (p.slotKind k).any Kind.isWide = true := by
  obtain ⟨kind, found, isWide⟩ := (Option.any_eq_true _ _).mp wide
  have known : kind ≠ .uninitialized := by
    rintro rfl
    cases isWide
  rw [h.slotKind found known]
  exact isWide

/-- A path goes on behind an instruction that was simulated on a frame of the same kinds. -/
theorem Moves.advance (moves : Moves used insn f g m x) (kinds : p.kinds = f.kinds)
    (slots : ∀ slot, m = .load slot → p.slotKind slot.toNat = f.slotKind slot.toNat) (target : Nat) :
    ∃ q, p.advance insn target = some q ∧ q.position = target ∧ p.Advanced insn m x q := by
  have exchange : m.exchange p.slotKind p.kinds = some x := by
    rw [kinds, exchange_congr slots]
    exact moves.exchange
  have length : p.stack.length = f.stack.length := by
    have := congrArg List.length kinds
    simpa [Point.kinds, Frame.kinds] using this
  obtain ⟨q, advances⟩ := advance_of_exchange moves.movement exchange
    (fun depth kept => length ▸ moves.present kept) target
  obtain ⟨position, m', x', advanced⟩ := advanced_of_advance advances
  obtain rfl : m = m' := Option.some.inj (moves.movement.symm.trans advanced.movement)
  obtain rfl : x = x' := Option.some.inj (exchange.symm.trans advanced.exchange)
  exact ⟨q, advances, position, advanced⟩

/-- The variable from which an instruction loads has the kind of its token. -/
theorem Frame.Fits.loaded (h : f.Fits p) (moves : Moves used insn f g m x) (known : g.Known)
    (slot : UInt16) (load : m = .load slot) : p.slotKind slot.toNat = f.slotKind slot.toNat := by
  subst load
  obtain ⟨kind, found, isKnown⟩ := moves.loaded known
  rw [found, h.slotKind found isKnown]

/-- The frame behind an instruction fits the point behind it. -/
theorem Frame.Fits.advanced (h : f.Fits p) (moves : Moves used insn f g m x)
    (advanced : p.Advanced insn m x q) : g.Fits q where
  stack := by
    have length : q.stack.length = g.stack.length := by
      rw [advanced.height, moves.height, h.stack.length_eq]
    refine forall₂_of_getElem? length fun k t v ht hv => ?_
    have comes := moves.entry hv
    rw [advanced.entries] at ht
    cases origin : x.origin k with
    | kept depth =>
      rw [origin] at comes ht
      obtain ⟨t', ht', knows⟩ := getElem?_of_forall₂ h.stack comes
      obtain rfl : t = t' := Option.some.inj (ht.symm.trans ht')
      exact knows
    | made kind =>
      rw [origin] at comes ht
      cases ht
      refine ⟨comes.1, fun id producer => ?_⟩
      cases producer
      rw [comes.2]
      exact List.mem_singleton.mpr rfl
  slots := fun k v found known => by
    have remains := moves.locals k v found
    rw [advanced.slots]
    cases change : m.change f.slotKind f.kinds k with
    | kept =>
      rw [change] at remains
      obtain ⟨t, ht, same⟩ := h.slots k v remains known
      have wider : (p.slotKind k).any Kind.isWide = true → (f.slotKind k).any Kind.isWide = true := by
        rw [Point.slotKind, ht, Frame.slotKind, remains, Option.map_some, Option.map_some, same]
        exact id
      rw [h.kinds, change_eq_kept change wider]
      exact ⟨t, ht, same⟩
    | emptied =>
      rw [change] at remains
      exact absurd remains known
    | filled kind =>
      rw [change] at remains
      rw [h.kinds, change_eq_filled change]
      exact ⟨_, rfl, remains.1.symm⟩
  width := fun k t found => by
    rw [moves.width]
    rw [advanced.slots] at found
    cases change : m.change p.slotKind p.kinds k with
    | kept =>
      rw [change] at found
      exact h.width k t found
    | emptied =>
      rw [change] at found
      cases found
    | filled kind => exact moves.filled k kind (h.kinds ▸ change_eq_filled change)

end

/-! ## Frames of an analysis -/

section

variable {code : Code} {i : Nat} {node : Node} {ts : List Nat} {visits : List Visit} {entry : Frame}
  {frames : Nat → Option Frame} {builders : Prop}

/-- The successors of a node are the ends of its edges. -/
theorem mem_successors_iff (h : code.body.successors code.positions Flow.always i node = .ok ts)
    (t : Nat) : t ∈ ts ↔ Edge code i node t := by
  constructor
  · intro member
    unfold Body.successors at h
    split at h
    · cases h
    · next jumps all =>
      have jump (member : t ∈ jumps) : Edge code i node t := by
        obtain ⟨l, target, found⟩ := exists_of_mem_right (forall₂_of_mapM all) member
        exact .jump target found
      split at h
      · next falls =>
        split at h
        · cases h
          rcases List.mem_append.mp member with early | last
          · exact jump early
          · rw [List.mem_singleton.mp last]
            exact .next falls
        · cases h
      · cases h
        exact jump member
  · rintro (⟨member, found⟩ | falls)
    · exact mem_successors_of_target h member found
    · exact mem_successors_of_next h falls

/-- The context in which an analysis works on a code. -/
def contextOf (code : Code) : Context :=
  ⟨code.body, code.positions, code.ranges⟩

/-- The kinds of all stack entries in the frames are known. -/
def KnownKinds (frames : Nat → Option Frame) : Prop :=
  ∀ i f, frames i = some f → f.Known

/-- What arrives with kinds that are known there was known before. -/
theorem Arrives.known {f : Frame} (h : Arrives frames i f) (known : KnownKinds frames) : f.Known := by
  obtain ⟨g, there, below⟩ := h
  intro v member
  obtain ⟨k, found⟩ := List.mem_iff_getElem?.mp member
  obtain ⟨w, hw, le⟩ := exists_of_mem_right below.stack.flip member
  have kind := known i g there w hw
  rw [le.kind.resolve_right kind] at kind
  exact kind

/-- What arrives fits there. -/
theorem Arrives.fits {f : Frame} {p : Point} (h : Arrives frames p.position f)
    (known : KnownKinds frames) (fits : f.Fits p) : ∃ g, frames p.position = some g ∧ g.Fits p := by
  obtain ⟨g, there, below⟩ := h
  exact ⟨g, there, fits.mono below (known _ g there)⟩

/-- The simulation of an instruction moves values as its movement says. -/
theorem moves_of_execute {f g : Frame} {insn : Insn} {body : Body} {s s' : Store}
    (plain : PlainReturn insn.node) (executed : f.execute body i insn s = .ok (g, s')) :
    ∃ m x, Moves (fun _ => True) insn f g m x := by
  have any : f.Every (anyPhase.good ()) := ⟨fun _ _ => trivial, fun _ _ => trivial⟩
  obtain ⟨_, _, _, _, moves⟩ :=
    execute_moves anyPhase_bookkeeping any plain s trivial g s' executed
  exact moves

/-- At the entry of a handler the exception is alone on the stack. -/
theorem handlerFrame_eq_ok {before entry : Frame} {caught : String} {s s' : Store}
    (h : Flow.handlerFrame before caught s = .ok (entry, s')) :
    ∃ v : Value, v.kind = .reference ∧ (v.sources = [] ∧ v.literal = none) ∧
      entry = { before with stack := [v] } := by
  obtain ⟨v, s₁, making, pushing⟩ := Step.bind_eq_ok h
  obtain ⟨pushed, -⟩ := Step.liftExcept_eq_ok pushing
  have made : Store.make .reference [] none s = (v, s₁) := Step.lift_eq_ok making
  cases made
  exact ⟨_, rfl, ⟨rfl, rfl⟩, Frame.push_eq_ok pushed⟩

/-- The entry of a handler fits the point there. -/
theorem fits_caught {before entry : Frame} {caught : String} {s s' : Store} {p : Point}
    (h : before.Fits p) (run : Flow.handlerFrame before caught s = .ok (entry, s')) (handler : Nat) :
    entry.Fits (p.caught handler) := by
  obtain ⟨v, kind, -, rfl⟩ := handlerFrame_eq_ok run
  exact ⟨.cons ⟨kind, nofun⟩ .nil, h.slots, h.width⟩

/-- One step of a path goes from a frame that fits to a frame that fits. -/
theorem fits_of_step (fixpoint : PostFixpoint builders (contextOf code) visits entry frames)
    (plain : ∀ insn ∈ code.body, PlainReturn insn.node) (known : KnownKinds frames) {p q : Point}
    (h : ∃ f, frames p.position = some f ∧ f.Fits p) (step : Tokens.Step code p q) :
    ∃ g, frames q.position = some g ∧ g.Fits q := by
  obtain ⟨f, there, fits⟩ := h
  obtain @⟨insn, _, _, after, _, _, at_position, -, -, executed, successors, arrives, handled, -⟩ :=
    fixpoint.settled _ f there
  cases step with
  | @edge _ insn' target at_position' edge advances =>
    obtain rfl : insn = insn' := Option.some.inj (at_position.symm.trans at_position')
    have arrived := arrives target ((mem_successors_iff successors target).mpr edge)
    obtain ⟨m, x, moves⟩ := moves_of_execute (plain _ (Array.mem_of_getElem? at_position)) executed
    obtain ⟨q', advances', position, advanced⟩ :=
      moves.advance fits.kinds (fits.loaded moves (arrived.known known)) target
    obtain rfl : q = q' := Option.some.inj (advances.symm.trans advances')
    rw [← position] at arrived
    exact arrived.fits known (fits.advanced moves advanced)
  | @handler range member covers =>
    obtain ⟨s₁, entry, s₂, run, arrived⟩ := handled range member covers
    exact Arrives.fits (p := p.caught range.handler) arrived known (fits_caught fits run _)

/-- Wherever a path leads, there is a frame that fits. -/
theorem fits_of_reaches (fixpoint : PostFixpoint builders (contextOf code) visits entry frames)
    (plain : ∀ insn ∈ code.body, PlainReturn insn.node) (known : KnownKinds frames) {p q : Point}
    (h : ∃ f, frames p.position = some f ∧ f.Fits p) (reaches : Tokens.Reaches code p q) :
    ∃ g, frames q.position = some g ∧ g.Fits q := by
  induction reaches with
  | refl => exact h
  | tail _ step ih => exact fits_of_step fixpoint plain known ih step

/-- The entry frame fits the point at the entry. -/
theorem fits_start {made : List Value} {kinds : List Kind} {count : Nat}
    (unknown : Unknown made entry.locals (spread kinds ++ List.replicate count .uninitialized))
    (empty : entry.stack = []) : entry.Fits (start kinds) := by
  have spreads : spread kinds = (laidOut kinds).map (·.getD .uninitialized) := by
    rw [laidOut, List.map_flatMap, spread]
    congr 1
    funext kind
    split <;> rfl
  have length : (laidOut kinds).length ≤ entry.locals.length := by
    have := congrArg List.length unknown.2
    simp only [List.length_map, List.length_append, spreads] at this
    omega
  refine ⟨by rw [empty]; exact .nil, fun k v found known => ?_, fun k t found => ?_⟩
  · have kind : (entry.locals.map Value.kind)[k]? = some v.kind := by
      rw [List.getElem?_map, found, Option.map_some]
    rw [unknown.2, spreads] at kind
    by_cases inside : k < (laidOut kinds).length
    · rw [List.getElem?_append_left (by simpa using inside), List.getElem?_map,
        List.getElem?_eq_getElem inside, Option.map_some, Option.some.injEq] at kind
      have filled : (laidOut kinds)[k] = some v.kind := by
        cases slot : (laidOut kinds)[k] with
        | none =>
          rw [slot] at kind
          exact absurd kind.symm known
        | some kind' =>
          rw [slot] at kind
          exact congrArg some kind
      refine ⟨⟨k, v.kind, none⟩, ?_, rfl⟩
      simp [start, List.getElem?_eq_getElem inside, filled]
    · rw [List.getElem?_append_right (by simpa using inside)] at kind
      exact absurd (List.eq_of_mem_replicate (List.mem_of_getElem? kind)) known
  · refine Nat.lt_of_lt_of_le ?_ length
    by_contra outside
    simp [start, List.getElem?_eq_none (Nat.not_lt.mp outside)] at found

end

/-- **There is a frame wherever a path leads.** It fits the point of the path. -/
theorem fits_of_onPath {owner : String} {m : Method} {r : Frames} {p : Point}
    (analyzed : analyze owner m = .ok r) (nonempty : 0 < m.body.size)
    (plain : ∀ insn ∈ m.body, PlainReturn insn.node) (known : KnownKinds r.frameAt)
    (path : OnPath m p) : ∃ f, r.frameAt p.position = some f ∧ f.Fits p := by
  obtain ⟨code, kinds, executed, passed, reaches⟩ := path
  obtain ⟨d, ranges, made, entry, count, parsed, covered, unknown, empty, fixpoint⟩ :=
    postFixpoint_of_analyze analyzed nonempty fun _ _ _ => True.intro
  rw [codeOf?, covered] at executed
  cases executed
  rw [parameterKinds, parsed] at passed
  cases passed
  rw [entryKinds_eq_spread parsed] at unknown
  have fixpoint : PostFixpoint True (contextOf ⟨m.body, m.body.lastLabels, ranges⟩) _ entry r.frameAt :=
    fixpoint
  refine fits_of_reaches fixpoint plain known ?_ reaches
  exact Arrives.fits (p := start _) fixpoint.entry known (fits_start unknown empty)

end Bytecode.Analysis
