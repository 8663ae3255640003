import Bytecode.Proofs.Analysis.Meaning

/-!
# A simulated instruction describes the executed one

A frame describes an activation, and after the simulation of an instruction the new frame describes
what the instruction does to the activation: `execute_describes`. The proof has one part for each way
in which instructions access an activation: operands on the stack, words on the stack, and slots.

An entry of unknown kind counts as one word in the analysis. Where an instruction behaves differently
for words and double words, the entries that it looks at must have a kind: `sizedEntries` counts them.
-/

namespace Bytecode.Analysis

open Machine

variable {stands : BufferId → Ref → Prop}

/-- A frame describes an activation. -/
structure Frame.Describes (stands : BufferId → Ref → Prop) (f : Frame) (a : Activation) : Prop where
  locals : ∀ (k : Nat) (v : Value), f.locals[k]? = some v → v.Describes stands (a.locals k)
  stack : DescribeAll stands f.stack a.stack

/-- The builder in the second value, if there is one, is the same in the first. -/
def Value.KeepsBuilder (v w : Value) : Prop :=
  ∀ b, w.literal = some (.builder b) → v.literal = some (.builder b)

/-- The builders in the second frame are the same in the first one. -/
structure Frame.KeepsBuilders (f g : Frame) : Prop where
  locals : List.Forall₂ Value.KeepsBuilder f.locals g.locals
  stack : List.Forall₂ Value.KeepsBuilder f.stack g.stack

/-- Values describe the same data as other values, if each of them does. -/
theorem DescribeAll.of_forall₂ {R : Value → Value → Prop} {vs ws : List Value} {ds : List Datum}
    (h : DescribeAll stands vs ds) (each : List.Forall₂ R vs ws)
    (step : ∀ v w o, R v w → v.Describes stands o → w.Describes stands o) :
    DescribeAll stands ws ds := by
  induction each generalizing ds with
  | nil => exact h
  | cons first _ ih =>
    cases h with
    | cons described rest => exact .cons (step _ _ _ first described) (ih rest)

theorem DescribeAll.mono {vs ws : List Value} {ds : List Datum} (h : DescribeAll stands vs ds)
    (below : List.Forall₂ Value.Le vs ws) (kept : List.Forall₂ Value.KeepsBuilder vs ws) :
    DescribeAll stands ws ds := by
  induction below generalizing ds with
  | nil => exact h
  | cons first _ ih =>
    cases kept with
    | cons keeps others =>
      cases h with
      | cons described rest => exact .cons (described.mono first keeps) (ih rest others)

/-- A frame that claims no more describes what the other one describes, if it keeps the builders. -/
theorem Frame.Describes.mono {f g : Frame} {a : Activation} (h : f.Describes stands a)
    (below : f.Le g) (kept : f.KeepsBuilders g) : g.Describes stands a := by
  refine ⟨fun k w found => ?_, h.stack.mono below.stack kept.stack⟩
  obtain ⟨inside, rfl⟩ := List.getElem?_eq_some_iff.mp found
  have inside' : k < f.locals.length := below.locals.length_eq ▸ inside
  exact (h.locals k _ (List.getElem?_eq_getElem inside')).mono (below.locals.get inside' inside)
    (kept.locals.get inside' inside)

/-- No value of a frame is known to be a builder. -/
structure Frame.Unbuilt (f : Frame) : Prop where
  locals : ∀ v ∈ f.locals, v.Unbuilt
  stack : ∀ v ∈ f.stack, v.Unbuilt

/-- Where nothing was known to be a builder, nothing is. -/
theorem Value.Unbuilt.mono {v w : Value} (h : v.Unbuilt) (below : v.Le w) : w.Unbuilt := by
  intro b known
  rcases below.literal _ known with same | ⟨-, m, same, builder⟩
  · exact h b same
  · cases m with
    | builder b' => exact h b' same
    | _ => cases builder

theorem keepsBuilders_of_unbuilt {vs ws : List Value} (h : ∀ v ∈ vs, v.Unbuilt)
    (below : List.Forall₂ Value.Le vs ws) : List.Forall₂ Value.KeepsBuilder vs ws := by
  induction below with
  | nil => exact .nil
  | cons first _ ih =>
    obtain ⟨plain, others⟩ := List.forall_mem_cons.mp h
    exact .cons (fun b known => absurd known (plain.mono first b)) (ih others)

/-- A frame without builders has none to keep. -/
theorem Frame.Unbuilt.keepsBuilders {f g : Frame} (h : f.Unbuilt) (below : f.Le g) :
    f.KeepsBuilders g :=
  ⟨keepsBuilders_of_unbuilt h.locals below.locals, keepsBuilders_of_unbuilt h.stack below.stack⟩

/-- What the frame behind an instruction has to be for an effect: it describes the activation that
the effect leads to if the surroundings give an answer. -/
def EffectDescribes (stands : BufferId → Ref → Prop) (node : Node) (answer : Option Datum) (g : Frame) :
    Effect → Prop
  | .next b => g.Describes stands b
  | .jump l b => l ∈ node.targets ∧ g.Describes stands b
  | .ask _ reply b => ∀ d, reply.pushed answer = some d → g.Describes stands (b.push? d)
  | .leave _ | .raise _ => True

/-! ## Operands on the stack -/

/-- The result of an instruction lies on the rest of the stack. -/
theorem describes_pushed {f : Frame} {a : Activation} (h : f.Describes stands a) {o : Option Value}
    {d : Option Datum} (pushed : PushedDescribes stands o d) {below : List Value} {stack : List Datum}
    (rest : DescribeAll stands below stack) :
    Frame.Describes stands { f with stack := o.toList ++ below }
      (Activation.push? { a with stack } d) := by
  refine ⟨h.locals, ?_⟩
  cases pushed with
  | none => exact rest
  | some first => exact .cons first rest

/-- The values that an instruction with operands of fixed kinds takes, the lowest first. -/
def takenValues (f : Frame) (node : Node) : List Value :=
  (f.stack.take ((operands node).getD []).length).reverse

/-- The values that an instruction takes describe the data with which it asks. -/
theorem takenValues_describe {f : Frame} {a b : Activation} {node : Node} {taken : List Datum}
    {reply : Reply} (h : f.Describes stands a) (asks : effect node a = some (.ask taken reply b)) :
    DescribeAll stands (takenValues f node) taken := by
  obtain ⟨kinds, known, goes⟩ := operandEffect_of_ask asks
  obtain ⟨taken', stack, act, took, -, same⟩ := operandEffect_eq_some goes
  obtain ⟨rfl, -, fits⟩ := take_eq_some took
  have sameTaken : (a.stack.take kinds.length).reverse = taken := by
    cases act <;> cases same
    rfl
  rw [takenValues, known, ← sameTaken]
  exact List.rel_reverse (List.forall₂_take _ h.stack)

/-- An instruction that takes operands of fixed kinds. -/
theorem apply_describes {f g : Frame} {a : Activation} {insn : Insn} {s s' : Store}
    {kinds : List Kind} {eff : Effect} {answer : Option Datum} (h : f.Describes stands a)
    (plain : PlainReturn insn.node)
    (expected : Expected stands insn.node (takenValues f insn.node) s.buffers answer)
    (known : operands insn.node = some kinds) (run : f.apply insn kinds.length s = .ok (g, s'))
    (goes : operandEffect insn.node kinds a = some eff) :
    EffectDescribes stands insn.node answer g eff := by
  obtain ⟨taken, stack, act, took, acts, rfl⟩ := operandEffect_eq_some goes
  obtain ⟨rfl, rfl, fits⟩ := take_eq_some took
  obtain ⟨-, o, result, rfl⟩ := Frame.apply_eq_ok run
  have taken : DescribeAll stands (f.stack.take kinds.length).reverse (a.stack.take kinds.length).reverse :=
    List.rel_reverse (List.forall₂_take _ h.stack)
  have rest : DescribeAll stands (f.stack.drop kinds.length) (a.stack.drop kinds.length) :=
    List.forall₂_drop _ h.stack
  rw [takenValues, known] at expected
  have described := resultOf_describes plain expected taken
    (known.trans (congrArg some fits.symm)) acts result
  cases act with
  | push d => exact describes_pushed h described rest
  | jump l =>
    obtain ⟨rfl, member⟩ := described
    exact ⟨member, h.locals, rest⟩
  | ask reply =>
    intro d pushed
    exact describes_pushed h (described d pushed) rest
  | leave | raise => trivial

/-! ## Words on the stack -/

/-- A known kind tells the size of a datum. -/
theorem Value.Describes.size_eq {v : Value} {d : Datum} (h : v.Describes stands (some d))
    (known : v.kind ≠ .uninitialized) : v.isWide = (d.size == 2) := by
  rw [Value.isWide, (h.kind d rfl).resolve_left known]
  rfl

/-- The number of topmost entries whose sizes decide what a rearrangement does. -/
def sizedBy : Bytecode.Shuffle → Nat
  | .dup | .dupX1 | .swap => 0
  | .dup2 | .dup2X1 => 1
  | .dupX2 => 2
  | .dup2X2 => 3

theorem Value.Describes.wide {v : Value} {d : Datum} (h : v.Describes stands (some d))
    (known : v.kind ≠ .uninitialized) (double : d.size = 2) : v.isWide = true := by
  rw [h.size_eq known, double]
  rfl

theorem Value.Describes.narrow {v : Value} {d : Datum} (h : v.Describes stands (some d))
    (known : v.kind ≠ .uninitialized) (single : d.size = 1) : v.isWide = false := by
  rw [h.size_eq known, single]
  rfl

/-- The planned entries describe the rearranged stack. -/
theorem plan_describes {form : Bytecode.Shuffle} {vs rest : List Value} {moved : List Moved}
    {ds ds' : List Datum} (described : DescribeAll stands vs ds)
    (sized : ∀ v ∈ vs.take (sizedBy form), v.kind ≠ .uninitialized)
    (planned : Shuffle.plan form vs = .ok (rest, moved)) (shuffled : Machine.shuffle form ds = some ds') :
    DescribeAll stands ((moved.map Moved.value).reverse ++ rest) ds' := by
  cases form with
  | dup =>
    obtain ⟨top, middle, below, below', first, second, rfl⟩ := duplicate_eq shuffled
    obtain ⟨d, rfl, rfl, -⟩ := cut_one first
    obtain ⟨rfl, rfl⟩ := cut_zero second
    obtain _ | ⟨ha, others⟩ := described
    simp only [Shuffle.plan] at planned
    split at planned <;> cases planned
    exact .cons ha (.cons ha others)
  | dupX1 =>
    obtain ⟨top, middle, below, below', first, second, rfl⟩ := duplicate_eq shuffled
    obtain ⟨d, rfl, rfl, -⟩ := cut_one first
    obtain ⟨e, rfl, rfl, -⟩ := cut_one second
    obtain _ | ⟨ha, _ | ⟨hb, others⟩⟩ := described
    simp only [Shuffle.plan] at planned
    split at planned <;> cases planned
    exact .cons ha (.cons hb (.cons ha others))
  | dupX2 =>
    obtain ⟨top, middle, below, below', first, second, rfl⟩ := duplicate_eq shuffled
    obtain ⟨d, rfl, rfl, -⟩ := cut_one first
    obtain ⟨e, rfl, rfl, he⟩ | ⟨e, e', rfl, rfl, he, -⟩ := cut_two second
    · obtain _ | ⟨ha, _ | ⟨hb, others⟩⟩ := described
      simp only [Shuffle.plan, hb.wide (sized _ (by simp [sizedBy])) he, if_true] at planned
      split at planned <;> cases planned
      exact .cons ha (.cons hb (.cons ha others))
    · obtain _ | ⟨ha, _ | ⟨hb, _ | ⟨hc, others⟩⟩⟩ := described
      simp only [Shuffle.plan, Bool.false_eq_true, if_false, hb.narrow (sized _ (by simp [sizedBy])) he] at planned
      split at planned
      · cases planned
      · split at planned <;> cases planned
        exact .cons ha (.cons hb (.cons hc (.cons ha others)))
  | dup2 =>
    obtain ⟨top, middle, below, below', first, second, rfl⟩ := duplicate_eq shuffled
    obtain ⟨rfl, rfl⟩ := cut_zero second
    obtain ⟨d, rfl, rfl, hd⟩ | ⟨d, e, rfl, rfl, hd, -⟩ := cut_two first
    · obtain _ | ⟨ha, others⟩ := described
      simp only [Shuffle.plan, ha.wide (sized _ (by simp [sizedBy])) hd, if_true] at planned
      cases planned
      exact .cons ha (.cons ha others)
    · obtain _ | ⟨ha, _ | ⟨hb, others⟩⟩ := described
      simp only [Shuffle.plan, Bool.false_eq_true, if_false, ha.narrow (sized _ (by simp [sizedBy])) hd] at planned
      split at planned <;> cases planned
      exact .cons ha (.cons hb (.cons ha (.cons hb others)))
  | dup2X1 =>
    obtain ⟨top, middle, below, below', first, second, rfl⟩ := duplicate_eq shuffled
    obtain ⟨d, rfl, rfl, hd⟩ | ⟨d, e, rfl, rfl, hd, -⟩ := cut_two first <;>
      obtain ⟨f, rfl, rfl, -⟩ := cut_one second
    · obtain _ | ⟨ha, _ | ⟨hb, others⟩⟩ := described
      simp only [Shuffle.plan, ha.wide (sized _ (by simp [sizedBy])) hd, if_true] at planned
      split at planned <;> cases planned
      exact .cons ha (.cons hb (.cons ha others))
    · obtain _ | ⟨ha, _ | ⟨hb, _ | ⟨hc, others⟩⟩⟩ := described
      simp only [Shuffle.plan, Bool.false_eq_true, if_false, ha.narrow (sized _ (by simp [sizedBy])) hd] at planned
      split at planned <;> cases planned
      exact .cons ha (.cons hb (.cons hc (.cons ha (.cons hb others))))
  | dup2X2 =>
    obtain ⟨top, middle, below, below', first, second, rfl⟩ := duplicate_eq shuffled
    obtain ⟨d, rfl, rfl, hd⟩ | ⟨d, e, rfl, rfl, hd, -⟩ := cut_two first <;>
      obtain ⟨f, rfl, rfl, hf⟩ | ⟨f, f', rfl, rfl, hf, -⟩ := cut_two second
    · obtain _ | ⟨ha, _ | ⟨hb, others⟩⟩ := described
      simp only [Shuffle.plan, ha.wide (sized _ (by simp [sizedBy])) hd,
        hb.wide (sized _ (by simp [sizedBy])) hf, if_true] at planned
      cases planned
      exact .cons ha (.cons hb (.cons ha others))
    · obtain _ | ⟨ha, _ | ⟨hb, _ | ⟨hc, others⟩⟩⟩ := described
      simp only [Shuffle.plan, ha.wide (sized _ (by simp [sizedBy])) hd, if_true,
        Bool.false_eq_true, if_false, hb.narrow (sized _ (by simp [sizedBy])) hf] at planned
      split at planned <;> cases planned
      exact .cons ha (.cons hb (.cons hc (.cons ha others)))
    · obtain _ | ⟨ha, _ | ⟨hb, _ | ⟨hc, others⟩⟩⟩ := described
      simp only [Shuffle.plan, Bool.false_eq_true, if_false, ha.narrow (sized _ (by simp [sizedBy])) hd,
        hc.wide (sized _ (by simp [sizedBy])) hf, if_true] at planned
      split at planned <;> cases planned
      exact .cons ha (.cons hb (.cons hc (.cons ha (.cons hb others))))
    · obtain _ | ⟨ha, _ | ⟨hb, _ | ⟨hc, _ | ⟨hd', others⟩⟩⟩⟩ := described
      simp only [Shuffle.plan, Bool.false_eq_true, if_false, ha.narrow (sized _ (by simp [sizedBy])) hd,
        hc.narrow (sized _ (by simp [sizedBy])) hf] at planned
      split at planned
      · cases planned
      · split at planned <;> cases planned
        exact .cons ha (.cons hb (.cons hc (.cons hd' (.cons ha (.cons hb others)))))
  | swap =>
    obtain ⟨⟨top, below⟩, first, shuffled⟩ := Option.bind_eq_some_iff.mp shuffled
    obtain ⟨⟨next, below'⟩, second, shuffled⟩ := Option.bind_eq_some_iff.mp shuffled
    cases shuffled
    obtain ⟨d, rfl, rfl, -⟩ := cut_one first
    obtain ⟨e, rfl, rfl, -⟩ := cut_one second
    obtain _ | ⟨ha, _ | ⟨hb, others⟩⟩ := described
    simp only [Shuffle.plan] at planned
    split at planned <;> cases planned
    exact .cons hb (.cons ha others)

/-- The builders that are not among the first `n` stand for what the builders among some values stand
for. -/
def Renews (stands : BufferId → Ref → Prop) (n : Nat) (vs : List Value) : Prop :=
  ∀ v ∈ vs, ∀ i j : BufferId, v.literal = some (.builder i) → n ≤ j.val → ∀ r, stands i r → stands j r

theorem renews_of_unbuilt {n : Nat} {vs : List Value} (h : ∀ v ∈ vs, v.Unbuilt) :
    Renews stands n vs :=
  fun v member i _ builder => absurd builder (h v member i)

theorem renews_of_free {n : Nat} {vs : List Value} (h : Free stands) : Renews stands n vs :=
  fun _ _ _ j _ _ r _ => h j r

/-- A copy describes what the original describes if it shares the buffer of a builder, or if the new
builder stands for what the old one stands for. -/
theorem Copies.describes {shared : Bool} {n : Nat} {v w : Value} {o : Option Datum}
    (h : Copies shared n v w) {vs : List Value} (member : v ∈ vs)
    (faithful : shared = true ∨ Renews stands n vs) (described : v.Describes stands o) :
    w.Describes stands o := by
  obtain ⟨kind, same | ⟨apart, i, j, builder, copy, new⟩⟩ := h
  · exact described.copy kind same
  · rcases faithful with shares | renews
    · rw [shares] at apart
      cases apart
    · refine ⟨fun l known => ?_, fun d holds => kind ▸ described.kind d holds⟩
      obtain ⟨d, holds, means⟩ := described.literal _ builder
      rw [copy] at known
      cases known
      cases means with
      | plain denotes => cases denotes
      | builder stands => exact ⟨_, holds, .builder (renews v member i j builder new _ stands)⟩

/-- The stack behind a shuffle describes the rearranged one. -/
theorem shuffled_describes {f g : Frame} {a : Activation} {op : Opcode} {form : Bytecode.Shuffle}
    {shared : Bool} {n : Nat} {ds : List Datum} (h : f.Describes stands a)
    (operation : Operation.ofOpcode op = .shuffle form)
    (sized : ∀ v ∈ f.stack.take (sizedBy form), v.kind ≠ .uninitialized)
    (faithful : shared = true ∨ Renews stands n (copied f (.simple op)))
    (shuffled : f.Shuffled shared n form g) (goes : Machine.shuffle form a.stack = some ds) :
    g.Describes stands { a with stack := ds } := by
  obtain ⟨rest, moved, values, planned, becomes, rfl⟩ := shuffled
  have originals : copied f (.simple op) = moved.filterMap Moved.original? := by
    simp only [copied, operation, planned]
    rfl
  rw [originals] at faithful
  have copies : List.Forall₂ (fun m w => ∀ o, m.value.Describes stands o → w.Describes stands o)
      moved values := by
    refine List.forall₂_iff_get.mpr ⟨becomes.length_eq, fun k inside inside' => ?_⟩
    have entry := becomes.get inside inside'
    have member : moved[k] ∈ moved := List.getElem_mem inside
    cases known : moved.get ⟨k, inside⟩ with
    | kept v =>
      rw [known] at entry
      obtain rfl := entry
      exact fun o described => described
    | duplicate v =>
      rw [known] at entry
      refine fun o => Copies.describes entry ?_ faithful
      have known : moved[k] = .duplicate v := known
      exact List.mem_filterMap.mpr ⟨_, member, by rw [known]; rfl⟩
  refine ⟨h.locals, (plan_describes h.stack sized planned goes).of_forall₂ (R := fun v w =>
    ∀ o, v.Describes stands o → w.Describes stands o) ?_ fun v w o related => related o⟩
  refine List.rel_append (List.rel_reverse ?_) (List.forall₂_same.mpr fun v _ o described => described)
  exact List.forall₂_map_left_iff.mpr copies

/-- The number of topmost stack entries whose sizes decide what an instruction does. -/
def sizedEntries : Node → Nat
  | .simple op =>
    match Operation.ofOpcode op with
    | .pop2 => 1
    | .shuffle form => sizedBy form
    | _ => 0
  | .var op _ =>
    match SlotAccess.ofOpcode op with
    | .store kind => if kind.isWide then 1 else 0
    | _ => 0
  | _ => 0

section

variable {f g : Frame} {a : Activation} {s s' : Store} {body : Body} {index : Nat}
  {builders : Prop} {made : List Value} {answer : Option Datum}

/-- An instruction that drops or rearranges words. -/
theorem rearranged_describes {id : InsnId} {op : Opcode} {ds : List Datum} (h : f.Describes stands a)
    (recorded : Recorded builders made s) (hf : f.Made made)
    (sized : ∀ v ∈ f.stack.take (sizedEntries (.simple op)), v.kind ≠ .uninitialized)
    (faithful : Transfer.followsAllocation body index = true ∨
      Renews stands s.buffers.texts.size (copied f (.simple op)))
    (run : f.executeSimple body index ⟨id, .simple op⟩ op s = .ok (g, s'))
    (goes : rearranged (Operation.ofOpcode op) a.stack = some ds) :
    g.Describes stands { a with stack := ds } := by
  obtain ⟨locals, stack, limit⟩ := f
  obtain ⟨slots, data⟩ := a
  have entries : sizedEntries (.simple op) =
      match Operation.ofOpcode op with
      | .pop2 => 1
      | .shuffle form => sizedBy form
      | _ => 0 := rfl
  unfold Frame.executeSimple at run
  cases operation : Operation.ofOpcode op <;> rw [operation] at run goes entries
  case pop =>
    obtain ⟨⟨top, rest⟩, cutting, rfl⟩ := Option.map_eq_some_iff.mp goes
    obtain ⟨d, rfl, rfl, -⟩ := cut_one cutting
    obtain _ | ⟨-, others⟩ := h.stack
    obtain ⟨⟨v, below⟩, s₁, popping, run⟩ := Step.bind_eq_ok run
    obtain ⟨popped, rfl⟩ := Step.liftExcept_eq_ok popping
    cases popped
    dsimp only at run
    split at run
    · cases run
    · cases run
      exact ⟨h.locals, others⟩
  case pop2 =>
    obtain ⟨⟨top, rest⟩, cutting, rfl⟩ := Option.map_eq_some_iff.mp goes
    obtain ⟨⟨v, below⟩, s₁, popping, run⟩ := Step.bind_eq_ok run
    obtain ⟨popped, rfl⟩ := Step.liftExcept_eq_ok popping
    rw [entries] at sized
    obtain ⟨d, rfl, rfl, double⟩ | ⟨d, e, rfl, rfl, single, -⟩ := cut_two cutting
    · obtain _ | ⟨hv, others⟩ := h.stack
      cases popped
      dsimp only at run
      rw [if_pos (hv.wide (sized _ (by simp)) double)] at run
      cases run
      exact ⟨h.locals, others⟩
    · obtain _ | ⟨hv, _ | ⟨-, others⟩⟩ := h.stack
      cases popped
      have narrow := hv.narrow (sized _ (by simp)) single
      dsimp only at run
      rw [if_neg (ne_true_of_eq_false narrow)] at run
      obtain ⟨⟨w, below⟩, s₂, popping', run⟩ := Step.bind_eq_ok run
      obtain ⟨popped', rfl⟩ := Step.liftExcept_eq_ok popping'
      cases popped'
      dsimp only at run
      split at run
      · cases run
      · cases run
        exact ⟨h.locals, others⟩
  case shuffle form =>
    obtain ⟨-, -, -, -, shuffled⟩ :=
      Frame.shuffle_kept (lending_supplies fun _ held => held)
        (fun _ _ phase => phase.1.symm ▸ phase.2.size) (Frame.every_lent.mpr fun i old => .inl old)
        rfl operation _ ⟨rfl, .refl _⟩ _ _ run
    rw [entries] at sized
    exact shuffled_describes h operation sized faithful shuffled goes
  all_goals cases goes

/-! ## Slots -/

/-- A wide literal stands in a wide value. -/
theorem wide_of_means {v : Value} {l : Literal} {d : Datum} (proper : v.Proper builders)
    (known : v.literal = some l) (means : Means stands l d) (double : d.size = 2) :
    v.isWide = true := by
  have wide : l.kind.isWide = true := by
    rw [means.kind, Kind.isWide, ← Datum.size, double]
    rfl
  rw [Value.isWide, proper.wide l known wide]
  exact wide

/-- The slots behind a store describe the written ones. -/
theorem stored_describes {slot : UInt16} {v w : Value} {d : Datum} {k : Nat}
    (h : ∀ (k : Nat) (v : Value), f.locals[k]? = some v → v.Describes stands (a.locals k))
    (proper : ∀ v ∈ f.locals, v.Proper builders) (hv : v.Describes stands (some d))
    (inside : slot.toNat + d.size ≤ slotCount) (wide : d.size = 2 → v.isWide = true)
    (stored : f.Stored slot v g) (found : g.locals[k]? = some w) :
    w.Describes stands (write a.locals slot.toNat d k) := by
  rcases stored.2 k w found with ⟨rfl, rfl⟩ | blank | ⟨old, away, tail, before⟩
  · rw [write, if_pos rfl]
    exact hv
  · exact blank.describes _
  · have described := h k w old
    rw [write, if_neg away]
    by_cases second : k = slot.toNat + 1 ∧ d.size = 2
    · obtain ⟨same, double⟩ := second
      have next : (slot + 1).toNat = slot.toNat + 1 := by
        rw [UInt16.toNat_add, UInt16.toNat_one, Nat.mod_eq_of_lt]
        rw [double, slotCount] at inside
        omega
      exact absurd (next ▸ same) (tail (wide double))
    · rw [if_neg second]
      by_cases torn : k + 1 = slot.toNat ∧ (a.locals k).elim false (·.size == 2) = true
      · rw [if_pos torn]
        refine ⟨fun l known => ?_, fun d holds => nomatch holds⟩
        -- a literal would be wide, and the store would have emptied the slot
        obtain ⟨e, there, means⟩ := described.literal l known
        have double : e.size = 2 := by
          have := torn.2
          rw [there] at this
          exact beq_iff_eq.mp this
        have isWide := wide_of_means (proper w (List.mem_of_getElem? old)) known means double
        rw [before torn.1] at isWide
        cases isWide
      · rw [if_neg torn]
        exact described

/-- The number of topmost entries whose size an access to a local variable looks at. -/
def sizedByAccess : SlotAccess → Nat
  | .store kind => if kind.isWide then 1 else 0
  | _ => 0

/-- The values that an access to a local variable copies. -/
def copiedByAccess (f : Frame) (slot : UInt16) : SlotAccess → List Value
  | .load _ => f.locals[slot.toNat]?.toList
  | .store _ => f.stack.head?.toList
  | .other => []

/-- An access to a local variable. -/
theorem access_describes {id : InsnId} {op : Opcode} {slot : UInt16} {eff : Effect} (h : f.Describes stands a)
    (recorded : Recorded builders made s) (hf : f.Made made)
    (sized : ∀ v ∈ f.stack.take (sizedEntries (.var op slot)), v.kind ≠ .uninitialized)
    (faithful : Transfer.followsAllocation body index = true ∨
      Renews stands s.buffers.texts.size (copied f (.var op slot)))
    (run : f.execute body index ⟨id, .var op slot⟩ s = .ok (g, s'))
    (goes : accessEffect (SlotAccess.ofOpcode op) slot.toNat a = some eff) :
    EffectDescribes stands (.var op slot) answer g eff := by
  have entries : sizedEntries (.var op slot) = sizedByAccess (SlotAccess.ofOpcode op) := rfl
  have originals : copied f (.var op slot) = copiedByAccess f slot (SlotAccess.ofOpcode op) := rfl
  rw [originals] at faithful
  unfold Frame.execute at run
  dsimp only at run
  cases access : SlotAccess.ofOpcode op <;> rw [access] at run goes entries faithful
  case load kind =>
    obtain ⟨d, there, goes⟩ := Option.bind_eq_some_iff.mp goes
    split at goes
    · cases goes
      obtain ⟨v, s₁, getting, copied⟩ := Step.bind_eq_ok run
      obtain ⟨got, rfl⟩ := Step.liftExcept_eq_ok getting
      have found := Frame.getLocal_eq_ok got
      obtain ⟨w, s₂, copying, pushing⟩ := Step.bind_eq_ok copied
      obtain ⟨pushed, rfl⟩ := Step.liftExcept_eq_ok pushing
      have described := (copies_copy (Nat.le_refl _) (Step.lift_eq_ok copying)).describes
        (by simp [copiedByAccess, found]) faithful (h.locals _ v found)
      rw [Frame.push_eq_ok pushed]
      exact ⟨h.locals, .cons (there ▸ described) h.stack⟩
    · cases goes
  case store kind =>
    obtain ⟨slots, data⟩ := a
    cases data with
    | nil => cases goes
    | cons d data =>
      simp only [accessEffect] at goes
      split at goes
      · next fits =>
        cases goes
        obtain ⟨⟨v, below⟩, s₁, popping, copied⟩ := Step.bind_eq_ok run
        obtain ⟨popped, rfl⟩ := Step.liftExcept_eq_ok popping
        obtain ⟨stack, rest⟩ := Frame.pop_eq_ok popped
        obtain ⟨w, s₂, copying, storing⟩ := Step.bind_eq_ok copied
        have described := h.stack
        rw [stack] at described
        obtain _ | ⟨hv, others⟩ := described
        have member : v ∈ f.stack := stack ▸ List.mem_cons_self
        have copy : Transfer.copy body index id v s₁ = (w, s₂) := Step.lift_eq_ok copying
        have copies := copies_copy (Nat.le_refl _) copy
        obtain ⟨made', longer, recorded', hw⟩ :=
          copy_records (recorded.proper_of_made (hf.stack v member)) _ recorded
        rw [copy] at hw recorded'
        have described := copies.describes (by simp [copiedByAccess, stack]) faithful hv
        have hbelow : Frame.Made made below := by
          rw [rest]
          exact ⟨hf.locals, fun u inside => hf.stack u (stack ▸ List.mem_cons_of_mem v inside)⟩
        have supply : Supplies (history builders) body index ⟨id, .var op slot⟩ f :=
          history_supplies nofun
        obtain ⟨made'', -, -, -, stored⟩ :=
          Frame.store_kept supply (hbelow.later longer) hw _ recorded' _ _ storing
        have wide (double : d.size = 2) : w.isWide = true := by
          have isWide : kind.isWide = true := by
            rw [← fits.1, Kind.isWide, ← Datum.size, double]
            rfl
          rw [entries] at sized
          simp only [sizedByAccess, isWide, if_true, stack] at sized
          rw [Value.isWide, copies.1]
          exact hv.wide (sized v (by simp)) double
        have locals : below.locals = f.locals := by rw [rest]
        have proper : ∀ v ∈ below.locals, v.Proper builders := fun v member =>
          recorded.proper_of_made (hbelow.locals v member)
        refine ⟨fun k u found => ?_, stored.1 ▸ others⟩
        exact stored_describes (a := ⟨slots, d :: data⟩)
          (fun k v there => h.locals k v (locals ▸ there)) proper described fits.2 wide
          stored found
      · cases goes
  case other => cases goes

/-- An increment of a local variable. -/
theorem increment_describes {id : InsnId} {slot : UInt16} {amount : Int16} {eff : Effect}
    (h : f.Describes stands a) (run : f.execute body index ⟨id, .increment slot amount⟩ s = .ok (g, s'))
    (goes : incrementEffect slot.toNat amount.toInt a = some eff) :
    EffectDescribes stands (.increment slot amount) answer g eff := by
  unfold incrementEffect at goes
  split at goes
  · next n there =>
    cases goes
    obtain ⟨v, s₁, getting, added⟩ := Step.bind_eq_ok run
    obtain ⟨got, rfl⟩ := Step.liftExcept_eq_ok getting
    have described := h.locals _ v (Frame.getLocal_eq_ok got)
    rw [there] at described
    obtain ⟨o, s₂, adding, setting⟩ := Step.bind_eq_ok added
    obtain ⟨w, rfl, kind, literal⟩ :=
      unary_eq (i := ⟨id, .increment slot amount⟩) (Step.lift_eq_ok adding)
    obtain ⟨set, rfl⟩ := Step.liftExcept_eq_ok setting
    obtain ⟨inside, rfl⟩ := Frame.setLocal_eq_ok set
    refine ⟨fun k u found => ?_, h.stack⟩
    show u.Describes stands (Function.update a.locals slot.toNat _ k)
    rw [List.getElem?_set, if_pos inside] at found
    split at found
    · next same =>
      subst same
      cases found
      rw [Function.update_self]
      refine Value.describes_of_means kind fun l known => ?_
      obtain ⟨m, hm, folded⟩ := Option.bind_eq_some_iff.mp (literal.symm.trans known)
      obtain ⟨e, same, means⟩ := described.literal m hm
      cases same
      cases means with
      | plain denotes => exact .plain (denotes_increment denotes folded)
    · next other =>
      rw [Function.update_of_ne (Ne.symm other)]
      exact h.locals k u found
  · cases goes

/-- The frame behind a simulated instruction describes what the machine makes of the activation. -/
theorem execute_describes {insn : Insn} {eff : Effect} (h : f.Describes stands a)
    (recorded : Recorded builders made s) (hf : f.Made made) (plain : PlainReturn insn.node)
    (expected : Expected stands insn.node (takenValues f insn.node) s.buffers answer)
    (sized : ∀ v ∈ f.stack.take (sizedEntries insn.node), v.kind ≠ .uninitialized)
    (faithful : Transfer.followsAllocation body index = true ∨
      Renews stands s.buffers.texts.size (copied f insn.node))
    (run : f.execute body index insn s = .ok (g, s')) (goes : effect insn.node a = some eff) :
    EffectDescribes stands insn.node answer g eff := by
  unfold effect at goes
  split at goes
  · next kinds known =>
    rw [Frame.execute_eq_apply known] at run
    exact apply_describes h plain expected known run goes
  · next op _ node =>
    obtain ⟨id, _⟩ := insn
    subst node
    obtain ⟨ds, moves, rfl⟩ := Option.map_eq_some_iff.mp goes
    exact rearranged_describes h recorded hf sized faithful run moves
  · next op slot _ node =>
    obtain ⟨id, _⟩ := insn
    subst node
    exact access_describes h recorded hf sized faithful run goes
  · next slot amount _ node =>
    obtain ⟨id, _⟩ := insn
    subst node
    exact increment_describes h run goes
  · cases goes

end

end Bytecode.Analysis
