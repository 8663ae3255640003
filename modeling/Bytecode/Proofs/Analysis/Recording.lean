import Bytecode.Proofs.Analysis.History

/-!
# The history behind an instruction

A simulated instruction makes values, and all of them enter the history: `execute_records` says that
the frame behind an instruction consists of values of the history if the frame before it does. The
proof follows the definitions from the transfer functions up to the frames.

On the way stands what a literal of a new value can be. Folding keeps the kind of an operation, and
a call returns a builder only if it was given one.
-/

namespace Bytecode.Analysis

/-- A successful computation on a list gives a result for every member. -/
theorem forall₂_of_mapM {α β : Type} {f : α → Option β} {xs : List α} {ys : List β}
    (h : xs.mapM f = some ys) : List.Forall₂ (fun x y => f x = some y) xs ys := by
  induction xs generalizing ys with
  | nil =>
    cases h
    exact .nil
  | cons x xs ih =>
    rw [List.mapM_cons] at h
    obtain ⟨y, first, h⟩ := Option.bind_eq_some_iff.mp h
    obtain ⟨rest, others, h⟩ := Option.bind_eq_some_iff.mp h
    cases h
    exact .cons first (ih others)

theorem exists_of_mem_right {α β : Type} {R : α → β → Prop} {xs : List α} {ys : List β}
    (h : List.Forall₂ R xs ys) {y : β} (member : y ∈ ys) : ∃ x ∈ xs, R x y := by
  induction h with
  | nil => cases member
  | cons first _ ih =>
    rcases List.mem_cons.mp member with rfl | member
    · exact ⟨_, List.mem_cons_self, first⟩
    · obtain ⟨x, hx, related⟩ := ih member
      exact ⟨x, List.mem_cons_of_mem _ hx, related⟩

/-! ## The kinds of folded literals -/

/-- A folded unary operation has a literal of its kind. -/
theorem kind_of_unary {op : UnaryOp} {l m : Literal} (h : Fold.unary op l = some m) :
    m.kind = op.kind ∧ m.isBuilder = false := by
  cases op with
  | neg kind => cases kind <;> cases l <;> cases h <;> exact ⟨rfl, rfl⟩
  | convert source target =>
    simp only [Fold.unary, Fold.convert] at h
    split at h
    · cases h
    · cases target <;> obtain ⟨n, -, rfl⟩ := Option.map_eq_some_iff.mp h <;> exact ⟨rfl, rfl⟩
  | narrow target => cases l <;> cases h <;> exact ⟨rfl, rfl⟩

/-- A folded binary operation has a literal of its kind. -/
theorem kind_of_binary {op : BinaryOp} {l m n : Literal} (h : Fold.binary op l m = some n) :
    n.kind = op.kind ∧ n.isBuilder = false := by
  unfold Fold.binary at h
  split at h
  case h_1 | h_2 =>
    obtain ⟨c, -, rfl⟩ := Option.map_eq_some_iff.mp h
    exact ⟨rfl, rfl⟩
  all_goals cases h
  all_goals exact ⟨rfl, rfl⟩

/-- What an instruction makes of one literal has the kind of what it makes of one value. -/
theorem kind_of_unaryLiteral {node : Node} {kind : Kind} {l m : Literal}
    (hkind : Transfer.unaryKind node = some kind) (h : Transfer.unaryLiteral node l = some m) :
    m.kind = kind ∧ m.isBuilder = false := by
  cases node with
  | simple op =>
    simp only [Transfer.unaryLiteral] at h
    simp only [Transfer.unaryKind] at hkind
    split at h
    · next u operation =>
      rw [operation] at hkind
      cases hkind
      exact kind_of_unary h
    · cases h
  | increment slot amount =>
    cases hkind
    obtain ⟨v, -, rfl⟩ := Option.map_eq_some_iff.mp h
    exact ⟨rfl, rfl⟩
  | _ => cases h

/-- What is known of the literal that a call returns: it is a reference, and a builder only if an
argument is one. -/
def CallLiteral (ls : List Literal) (result : Option Literal) : Prop :=
  ∀ l, result = some l → l.kind = .reference ∧ (l.isBuilder = true → ∃ m ∈ ls, m.isBuilder = true)

section

variable {builders : Prop} {made : List Value}

theorem get_records : Records builders made (get : StoreM Store) fun _ _ => True :=
  records_of_nextValue (fun _ => rfl) fun _ => trivial

theorem append_records (i : BufferId) (text : String) :
    Records builders made (Store.append i text) fun _ _ => True :=
  records_of_nextValue (fun _ => rfl) fun _ => trivial

/-- A call of a method of a builder hands out no identity. -/
theorem builderCall_records (name descriptor : String) (ls : List Literal) :
    Records builders made (Transfer.builderCall name descriptor ls) fun _ o => CallLiteral ls o := by
  have nothing : CallLiteral ls none := fun _ h => nomatch h
  unfold Transfer.builderCall
  split
  · next i rest =>
    refine .bind get_records fun made' s _ _ => ?_
    split
    · split
      · dsimp only
        split
        · exact .bind (append_records _ _) fun _ _ _ _ => .pure nothing
        · exact .pure nothing
      · exact .pure nothing
    · refine .pure fun l h => ?_
      split at h <;> cases h
      exact ⟨rfl, fun builder => nomatch builder⟩
    · dsimp only
      split
      · exact .pure nothing
      · refine .bind (append_records _ _) fun _ _ _ _ => .pure fun l h => ?_
        cases h
        exact ⟨rfl, fun builder => ⟨_, List.mem_cons_self, rfl⟩⟩
    · exact .pure nothing
  · exact .pure nothing

/-- A folded call hands out no identity. -/
theorem callLiteral_records (node : Node) (ls : List Literal) :
    Records builders made (Transfer.callLiteral node ls) fun _ o => CallLiteral ls o := by
  have nothing : CallLiteral ls none := fun _ h => nomatch h
  have text (o : Option String) : CallLiteral ls (o.map .string) := fun l h => by
    obtain ⟨text, -, rfl⟩ := Option.map_eq_some_iff.mp h
    exact ⟨rfl, fun builder => nomatch builder⟩
  unfold Transfer.callLiteral
  refine .bind get_records fun made' s _ _ => ?_
  split
  · split
    · exact builderCall_records _ _ _
    · split
      · refine .pure fun l h => ?_
        split at h
        · obtain ⟨first, -, h⟩ := Option.bind_eq_some_iff.mp h
          obtain ⟨second, -, h⟩ := Option.bind_eq_some_iff.mp h
          cases h
          exact ⟨rfl, fun builder => nomatch builder⟩
        · cases h
      · split
        · refine .pure fun l h => ?_
          split at h
          · obtain ⟨first, -, h⟩ := Option.bind_eq_some_iff.mp h
            obtain ⟨second, -, h⟩ := Option.bind_eq_some_iff.mp h
            cases h
            exact ⟨rfl, fun builder => nomatch builder⟩
          · cases h
        · exact .pure nothing
  · split
    · exact .pure (text _)
    · exact .pure nothing
  · exact .pure nothing

/-! ## The history behind an instruction -/

/-- A pushed value is in the history. An allocated builder must be allowed. -/
theorem push_records {insn : Insn}
    (allowed : ∀ op, insn.node = .type op builderClass → builders) :
    Records builders made (Transfer.push insn) fun made' v => Made made' v := by
  have constant (c : Constant) : Records builders made
      (Transfer.produce insn.id (Literal.ofConstant c).1 (Literal.ofConstant c).2)
      fun made' v => Made made' v := by
    refine (make_records (fun l known _ => ?_) fun l known builder => ?_).mono fun _ _ _ h => h.1
    · cases c <;> cases known <;> rfl
    · cases c <;> cases known <;> cases builder
  have unknown (kind : Kind) : Records builders made (Transfer.produce insn.id kind none)
      fun made' v => Made made' v :=
    make_unknown_records.mono fun _ _ _ h => h.1
  have small {kind : Kind} {l : Literal} (single : l.kind.isWide = false)
      (plain : l.isBuilder = false) :
      Records builders made (Transfer.produce insn.id kind (some l)) fun made' v => Made made' v := by
    refine (make_records (fun m known wide => ?_) fun m known builder => ?_).mono fun _ _ _ h => h.1
    · cases known
      rw [single] at wide
      cases wide
    · cases known
      rw [plain] at builder
      cases builder
  unfold Transfer.push
  split
  · split
    · exact small rfl rfl
    · exact constant _
    · exact unknown _
  · exact small rfl rfl
  · exact constant _
  · exact unknown _
  · next op name node =>
    split
    · next builder =>
      refine .bind (alloc_records _) fun made' i _ _ => ?_
      refine (make_records (fun m known wide => ?_) fun _ _ _ => ?_).mono fun _ _ _ h => h.1
      · cases known
        cases wide
      · exact allowed op (builder ▸ node)
    · exact unknown _
  · exact unknown _

/-- What an instruction makes of one value is in the history. -/
theorem unary_records {insn : Insn} {v : Value} :
    Records builders made (Transfer.unary insn v) fun made' o => IfAny (Made made') o := by
  refine .bind (consume_records _ _) fun made' _ _ _ => ?_
  split
  · exact .pure fun _ h => nomatch h
  · next kind known =>
    refine (make_records (fun l hl _ => ?_) fun l hl builder => ?_).map fun _ _ _ h w hw => ?_
    · obtain ⟨m, -, folded⟩ := Option.bind_eq_some_iff.mp hl
      exact (kind_of_unaryLiteral known folded).1.symm
    · obtain ⟨m, -, folded⟩ := Option.bind_eq_some_iff.mp hl
      rw [(kind_of_unaryLiteral known folded).2] at builder
      cases builder
    · cases hw
      exact h.1

/-- What an instruction makes of two values is in the history. -/
theorem binary_records {insn : Insn} {v w : Value} :
    Records builders made (Transfer.binary insn v w) fun made' o => IfAny (Made made') o := by
  refine .bind (consume_records _ _) fun _ _ _ _ => .bind (consume_records _ _) fun _ _ _ _ => ?_
  split
  · split
    · next b _ =>
      refine (make_records (fun l hl _ => ?_) fun l hl builder => ?_).map fun _ _ _ h u hu => ?_
      · obtain ⟨m, -, hl⟩ := Option.bind_eq_some_iff.mp hl
        obtain ⟨n, -, folded⟩ := Option.bind_eq_some_iff.mp hl
        exact (kind_of_binary folded).1.symm
      · obtain ⟨m, -, hl⟩ := Option.bind_eq_some_iff.mp hl
        obtain ⟨n, -, folded⟩ := Option.bind_eq_some_iff.mp hl
        rw [(kind_of_binary folded).2] at builder
        cases builder
      · cases hu
        exact h.1
    · refine make_unknown_records.map fun _ _ _ h u hu => ?_
      cases hu
      exact h.1
    · exact .pure fun _ h => nomatch h
  · exact .pure fun _ h => nomatch h

/-- Consuming a list of values hands out no identity. -/
theorem consumeAll_records (insn : InsnId) (taken : List Value) :
    Records builders made (taken.forM (Store.consume insn)) fun _ _ => True := by
  induction taken generalizing made with
  | nil => exact .pure trivial
  | cons v rest ih => exact .bind (consume_records _ _) fun _ _ _ _ => ih

/-- The result of a call is in the history. -/
theorem call_records {insn : Insn} {taken : List Value} (proper : ∀ v ∈ taken, v.Proper builders) :
    Records builders made (Transfer.call insn taken) fun made' o => IfAny (Made made') o := by
  refine .bind (consumeAll_records _ _) fun made' _ _ _ => ?_
  have produced (made' : List Value) (literal : Option Literal)
      (known : ∀ l, literal = some l → l.kind = .reference ∧ (l.isBuilder = true → builders)) :
      Records builders made' (returned insn literal) fun made'' o => IfAny (Made made'') o := by
    unfold returned
    split
    · refine .pure fun _ h => ?_
      cases h
    · refine (make_records (fun l hl wide => ?_) fun l hl => (known l hl).2).map fun _ _ _ h w hw => ?_
      · rw [(known l hl).1] at wide
        cases wide
      · cases hw
        exact h.1
  dsimp only
  split
  · next ls literals =>
    refine .bind (callLiteral_records _ ls) fun _ literal _ h => produced _ _ fun l hl => ?_
    refine ⟨(h l hl).1, fun builder => ?_⟩
    obtain ⟨m, member, isBuilder⟩ := (h l hl).2 builder
    obtain ⟨v, hv, hm⟩ := exists_of_mem_right (forall₂_of_mapM literals) member
    exact (proper v hv).builder m hm isBuilder
  · refine produced _ _ fun _ h => ?_
    cases h

end

/-- The transfer functions make values of the history. Only an allocation brings in a builder. -/
theorem history_supplies {builders : Prop} {body : Body} {index : Nat} {insn : Insn} {f : Frame}
    (allowed : insn.node = .type Opcode.new builderClass → builders) :
    Supplies (history builders) body index insn f where
  unknown := fun _ _ => make_unknown_records
  consume := fun _ => consume_records
  push := fun allocation _ => push_records fun op node => allowed (allocation op _ node ▸ node)
  copy := fun _ _ _ hv s recorded => copy_records (recorded.proper_of_made hv) s recorded
  unary := fun _ _ _ => unary_records
  binary := fun _ _ _ _ _ => binary_records
  call := fun _ _ htaken s recorded =>
    call_records (fun v member => recorded.proper_of_made (htaken v member)) s recorded

end Bytecode.Analysis
