import Bytecode.Proofs.Coding.Assembly
import Bytecode.Proofs.Coding.Encoded
import Bytecode.Proofs.Coding.Tallies
import Bytecode.Proofs.Verification.Visits
import Mathlib.Data.List.Sort

/-!
# What is written is a class file

`Yields x Q` says of a request that what it returns satisfies `Q`, whatever the builder; that a builder
whose octets are the slots that it has counted stays one; and that it takes on only what there is room
for. In contrast to `Provides` it asks
nothing of what is written: texts, constants and bodies can be any.

The lemmas follow the writer from its smallest parts to `Method.encode_yields`. Each finds the parts
of a class file whose octets have been written and shows that their tallies are cut.
-/

namespace Bytecode

open ConstantPool (Stored)

/-- A builder has counted the slots that its octets are. -/
def PoolBuilder.Files (b : PoolBuilder) : Prop :=
  ∃ slots, Stored 1 (b.source ++ b.added.toList.flatMap PoolEntry.encode) slots ∧
    b.size = slots.length + 1

/-- A builder that is asked for what there is no room for does not take it on. -/
structure PoolBuilder.Restrains (b later : PoolBuilder) : Prop where
  slots : later.size ≤ max 65535 b.size
  bootstraps : later.bootstraps.size ≤ max 65536 b.bootstraps.size

theorem PoolBuilder.Restrains.refl (b : PoolBuilder) : b.Restrains b :=
  ⟨Nat.le_max_right _ _, Nat.le_max_right _ _⟩

theorem PoolBuilder.Restrains.trans {b c d : PoolBuilder} (first : b.Restrains c)
    (second : c.Restrains d) : b.Restrains d := by
  have := first.slots
  have := first.bootstraps
  have := second.slots
  have := second.bootstraps
  exact ⟨by omega, by omega⟩

namespace Building

variable {α β : Type}

/-- What a request returns satisfies a condition, and the builder keeps its count and takes on only
what there is room for. -/
def Yields (x : Building α) (Q : α → Prop) : Prop :=
  ∀ b : PoolBuilder, b.Files → ∀ r b', x b = (r, b') →
    b'.Files ∧ b.Restrains b' ∧ ∀ a, r = .ok a → Q a

namespace Yields

variable {x : Building α} {Q R : α → Prop}

theorem mono (h : Yields x Q) (weaker : ∀ a, Q a → R a) : Yields x R := by
  intro b files r b' ran
  obtain ⟨files', restrains, right⟩ := h b files r b' ran
  exact ⟨files', restrains, fun a returned => weaker a (right a returned)⟩

theorem pure {a : α} (right : Q a) : Yields (Pure.pure a) Q := by
  intro b files r b' ran
  cases ran
  exact ⟨files, .refl b, fun a' returned => by cases returned; exact right⟩

theorem throw (cause : Failure) : Yields (MonadExcept.throw cause : Building α) Q := by
  intro b files r b' ran
  cases ran
  exact ⟨files, .refl b, fun _ returned => by cases returned⟩

theorem lift (e : Except Failure α) (right : ∀ a, e = .ok a → Q a) : Yields (liftM e) Q := by
  cases e with
  | error cause => exact throw cause
  | ok a => exact pure (right a rfl)

theorem fail (cause : WriteError) : Yields (Building.fail cause : Building α) Q := by
  intro b files r b' ran
  cases ran
  exact ⟨files, .refl b, fun _ returned => by cases returned⟩

theorem get : Yields (MonadState.get : Building PoolBuilder) fun _ => True := by
  intro b files r b' ran
  cases ran
  exact ⟨files, .refl b, fun _ _ => trivial⟩

/-- One request behind another. -/
theorem bind {next : α → Building β} {S : β → Prop} (first : Yields x Q)
    (second : ∀ a, Q a → Yields (next a) S) : Yields (x >>= next) S := by
  intro b files r b' ran
  rw [bind_eq] at ran
  obtain ⟨files₁, restrains₁, right⟩ := first b files (x b).1 (x b).2 rfl
  rcases here : x b with ⟨cause | a, c⟩
  · rw [here] at ran files₁ restrains₁
    cases ran
    exact ⟨files₁, restrains₁, fun _ returned => by cases returned⟩
  · rw [here] at ran files₁ restrains₁ right
    obtain ⟨files₂, restrains₂, right₂⟩ := second a (right a rfl) c files₁ r b' ran
    exact ⟨files₂, restrains₁.trans restrains₂, right₂⟩

theorem pure_bind {a : α} {next : α → Building β} {S : β → Prop} (h : Yields (next a) S) :
    Yields (Pure.pure a >>= next) S :=
  bind (Q := fun a' => a' = a) (pure rfl) fun _ same => same ▸ h

/-- A request behind one that fails. -/
theorem fail_bind (cause : WriteError) {next : α → Building β} {S : β → Prop} :
    Yields (Building.fail cause >>= next) S :=
  bind (Q := fun _ => False) (fail cause) fun _ absurd_ => absurd_.elim

theorem mapM {f : α → Building β} {Q : α → β → Prop} {l : List α}
    (each : ∀ a ∈ l, Yields (f a) (Q a)) : Yields (l.mapM f) fun r => List.Forall₂ Q l r := by
  induction l with
  | nil => exact pure .nil
  | cons a l ih =>
    rw [List.mapM_cons]
    exact (each a List.mem_cons_self).bind fun _ first =>
      (ih fun a member => each a (List.mem_cons_of_mem _ member)).bind fun _ rest =>
        pure (.cons first rest)

end Yields

/-! ## Requests for constants -/

/-- An entry that has a stored form, or that is there already, leaves its count. -/
theorem entry_yields {e : PoolEntry}
    (storable : ∀ b : PoolBuilder, b.slots[e]? = none → e.Storable) :
    Yields (entry e) fun _ => True := by
  intro b files r b' ran
  cases found : b.slots[e]? with
  | some slot =>
    rw [entry_of_some found] at ran
    cases ran
    exact ⟨files, .refl b, fun _ _ => trivial⟩
  | none =>
    rcases entry_of_none found ran with ⟨-, -, rfl⟩ | ⟨fits, -, rfl⟩
    · exact ⟨files, .refl b', fun _ _ => trivial⟩
    · refine ⟨?_, ⟨Nat.le_trans fits (Nat.le_max_left _ _), Nat.le_max_right _ _⟩, fun _ _ => trivial⟩
      obtain ⟨slots, stored, size⟩ := files
      refine ⟨slots ++ e.slots, ?_, ?_⟩
      · rw [Array.toList_push, List.flatMap_append, ← List.append_assoc]
        have := stored.append (Stored.single (storable b found))
        simpa using this
      · show b.size + e.slots.length = _
        rw [size, List.length_append]
        omega

theorem utf8_yields (text : String) : Yields (utf8 text) fun _ => True := by
  intro b files r b' ran
  rcases utf8_eq text b with ⟨-, long⟩ | ⟨asked, storable⟩
  · rw [long] at ran
    cases ran
    exact ⟨files, .refl b, fun _ _ => trivial⟩
  · rw [asked] at ran
    cases found : b.slots[PoolEntry.utf8 text]? with
    | some slot =>
      rw [entry_of_some found] at ran
      cases ran
      exact ⟨files, .refl b, fun _ _ => trivial⟩
    | none => exact entry_yields (fun _ _ => storable found) b files r b' ran

theorem classRef_yields (name : String) : Yields (classRef name) fun _ => True :=
  (utf8_yields name).bind fun _ _ => entry_yields fun _ _ => trivial

theorem nameAndType_yields (name descriptor : String) :
    Yields (nameAndType name descriptor) fun _ => True :=
  (utf8_yields name).bind fun _ _ => (utf8_yields descriptor).bind fun _ _ =>
    entry_yields fun _ _ => trivial

theorem field_yields (owner name descriptor : String) :
    Yields (field owner name descriptor) fun _ => True :=
  (classRef_yields owner).bind fun _ _ => (nameAndType_yields name descriptor).bind fun _ _ =>
    entry_yields fun _ _ => trivial

theorem method_yields (owner name descriptor : String) (isInterface : Bool) :
    Yields (method owner name descriptor isInterface) fun _ => True :=
  (classRef_yields owner).bind fun _ _ => (nameAndType_yields name descriptor).bind fun _ _ =>
    entry_yields fun _ _ => trivial

theorem handle_yields (h : Handle) : Yields (handle h) fun _ => True := by
  rw [handle]
  dsimp only
  split
  · exact (field_yields _ _ _).bind fun _ _ => entry_yields fun _ _ => trivial
  · exact (method_yields _ _ _ _).bind fun _ _ => entry_yields fun _ _ => trivial

theorem bootstrapMethod_yields (m : BootstrapMethod) :
    Yields (bootstrapMethod m) fun _ => True := by
  intro b files r b' ran
  cases found : b.bootstrapIndex[m]? with
  | some i =>
    rw [bootstrapMethod_of_some found] at ran
    cases ran
    exact ⟨files, .refl b, fun _ _ => trivial⟩
  | none =>
    rcases bootstrapMethod_of_none found ran with ⟨-, -, rfl⟩ | ⟨fits, -, rfl⟩
    · exact ⟨files, .refl b', fun _ _ => trivial⟩
    · refine ⟨files, ⟨Nat.le_max_right _ _, Nat.le_trans ?_ (Nat.le_max_left _ _)⟩,
        fun _ _ => trivial⟩
      show (b.bootstraps.push m).size ≤ 65536
      rw [Array.size_push]
      exact Nat.succ_le_succ fits

mutual

theorem loadable_yields (c : Constant) : Yields (loadable c) fun _ => True := by
  cases c with
  | string text | methodType text =>
    rw [loadable]
    exact (utf8_yields text).bind fun _ _ => entry_yields fun _ _ => trivial
  | classRef name =>
    rw [loadable]
    exact classRef_yields name
  | handle h =>
    rw [loadable]
    exact handle_yields h
  | dynamic name descriptor bootstrap arguments =>
    rw [loadable]
    refine (handle_yields bootstrap).bind fun _ _ => (loadables_yields arguments).bind fun _ _ => ?_
    exact (bootstrapMethod_yields _).bind fun _ _ => (nameAndType_yields name descriptor).bind
      fun _ _ => entry_yields fun _ _ => trivial
  | _ =>
    rw [loadable]
    exact entry_yields fun _ _ => trivial

theorem loadables_yields (l : List Constant) : Yields (loadables l) fun _ => True := by
  cases l with
  | nil =>
    rw [loadables]
    exact .pure trivial
  | cons c rest =>
    rw [loadables]
    exact (loadable_yields c).bind fun _ _ => (loadables_yields rest).bind fun _ _ => .pure trivial

end

theorem dynamicCall_yields (name descriptor : String) (h : Handle) (arguments : List Constant) :
    Yields (dynamicCall name descriptor h arguments) fun _ => True :=
  ((handle_yields h).bind fun _ _ => (loadables_yields arguments).bind fun _ _ =>
    bootstrapMethod_yields _).bind fun _ _ => (nameAndType_yields name descriptor).bind fun _ _ =>
      entry_yields fun _ _ => trivial

end Building

open Building

theorem Node.pieces_yields (n : Node) (offset : Nat) : Yields (n.pieces offset) fun _ => True := by
  cases n with
  | type op name =>
    rw [pieces]
    exact (classRef_yields name).bind fun _ _ => .pure trivial
  | field op owner name descriptor =>
    rw [pieces]
    exact (field_yields owner name descriptor).bind fun _ _ => .pure trivial
  | call op owner name descriptor isInterface =>
    rw [pieces]
    refine (method_yields owner name descriptor isInterface).bind fun _ _ => ?_
    split_ifs
    · exact (Yields.lift (Q := fun _ => True) _ fun _ _ => trivial).bind fun _ _ => .pure trivial
    · exact .pure trivial
  | constant value =>
    rw [pieces]
    exact (loadable_yields value).bind fun _ _ => .pure trivial
  | dynamicCall name descriptor bootstrap arguments =>
    rw [pieces]
    exact (dynamicCall_yields _ _ _ _).bind fun _ _ => .pure trivial
  | newArrays descriptor dimensions =>
    rw [pieces]
    exact (classRef_yields descriptor).bind fun _ _ => .pure trivial
  | _ =>
    rw [pieces]
    exact .pure trivial

/-! ## Code -/

namespace Emission

variable {e : Emission} {signature : String}

/-- The emission is as long as what has been laid out, and has a line for every marker among some
nodes. -/
structure Measures (e : Emission) (insns : List Insn) : Prop where
  length : e.length = total (fun p => Piece.totalSize p.pieces) e.placed.toList
  lines : e.lines.size = insns.countP (·.node.isLine)

/-- Laying out a node. -/
theorem emit_yields {frames : MethodFrames} {insns : List Insn} (h : e.Measures insns) (i : Nat)
    (insn : Insn) : (e.emit frames i insn.node).Yields fun e' => e'.Measures (insns ++ [insn]) := by
  have unmarked (real : insn.node.isPseudo = false) :
      (insns ++ [insn]).countP (·.node.isLine) = insns.countP (·.node.isLine) := by
    rw [List.countP_append, List.countP_singleton, Node.isLine_of_real real]
    rfl
  cases real : insn.node.isPseudo with
  | true =>
    have count : (insns ++ [insn]).countP (·.node.isLine) =
        insns.countP (·.node.isLine) + if insn.node.isLine then 1 else 0 := by
      rw [List.countP_append, List.countP_singleton]
    cases node : insn.node with
    | label l =>
      rw [node] at count
      exact .pure ⟨h.length, h.lines.trans count.symm⟩
    | line number start =>
      rw [node] at count
      refine .pure ⟨h.length, ?_⟩
      rw [count, ← h.lines]
      exact Array.size_push _
    | _ => rw [node] at real; cases real
  | false =>
    rw [emit_of_real real]
    split
    · refine (Node.pieces_yields _ _).bind fun pieces _ => .pure ⟨?_, ?_⟩
      · show e.length + _ = _
        rw [Array.toList_push, total_append, total_cons, total_nil, Nat.add_zero, h.length]
      · exact h.lines.trans (unmarked real).symm
    · exact .pure ⟨h.length, h.lines.trans (unmarked real).symm⟩

theorem emitFrom_yields {frames : MethodFrames} {insns done : List Insn} (h : e.Measures done)
    (i : Nat) : (emitFrom frames e i insns).Yields fun e' => e'.Measures (done ++ insns) := by
  induction insns generalizing e done i with
  | nil =>
    rw [List.append_nil]
    exact .pure h
  | cons insn insns ih =>
    rw [emitFrom]
    refine (emit_yields h i insn).bind fun e₁ measured => ?_
    have rest := ih measured (i + 1)
    rwa [List.append_assoc] at rest

/-- Laying out a body. -/
theorem ofBody_yields (frames : MethodFrames) (body : Body) :
    (ofBody frames body).Yields fun e => e.Measures body.toList :=
  have nothing : Measures {} [] := ⟨rfl, rfl⟩
  emitFrom_yields nothing 0

/-- What has been laid out of a body takes as many octets as its code. -/
theorem Measures.length_of_assemble {insns : List Insn} {code : Bytes} (h : e.Measures insns)
    (assembled : e.assemble signature = .ok code) : e.length = code.length := by
  obtain ⟨chunks, rfl, each⟩ := chunks_of_assemble assembled
  rw [h.length, length_of_assembled each]

theorem exceptionEntries_yields (rs : List ExceptionRange) :
    (e.exceptionEntries signature rs).Yields fun entries => entries.length ≤ rs.length := by
  induction rs with
  | nil => exact .pure (Nat.le_refl 0)
  | cons r rs ih =>
    rw [exceptionEntries]
    dsimp only
    refine Yields.bind (Q := fun _ => True) ?start fun start _ =>
      Yields.bind (Q := fun _ => True) ?stop fun stop _ =>
        Yields.bind (Q := fun _ => True) ?handler fun handler _ => ?_
    case start | stop | handler =>
      split
      · exact .pure trivial
      · exact .fail _
    split
    · have rest (slot : UInt16) := ih.bind fun entries fewer =>
        show Yields (Pure.pure ((⟨UInt16.ofNat start, UInt16.ofNat stop, UInt16.ofNat handler, slot⟩ :
          ExceptionEntry) :: entries)) fun l => l.length ≤ (r :: rs).length from
          .pure (Nat.succ_le_succ fewer)
      split
      · exact (classRef_yields _).bind fun slot _ => rest slot
      · exact Yields.pure_bind (rest 0)
    · exact ih.mono fun entries fewer => Nat.le_succ_of_le fewer

theorem variableEntries_yields (descriptor : LocalVariable → Option String)
    (vs : List LocalVariable) :
    (e.variableEntries descriptor vs).Yields fun entries => entries.length ≤ vs.length := by
  induction vs with
  | nil => exact .pure (Nat.le_refl 0)
  | cons v vs ih =>
    have dropped := ih.mono fun entries fewer =>
      show entries.length ≤ (v :: vs).length from Nat.le_succ_of_le fewer
    rw [variableEntries]
    split
    · split
      · exact dropped
      · exact (utf8_yields _).bind fun _ _ => (utf8_yields _).bind fun _ _ =>
          ih.bind fun entries fewer => .pure (Nat.succ_le_succ fewer)
    · exact dropped

/-! ## Stack maps -/

theorem encodeTypes_yields {offsets : Std.HashMap Nat Nat} {types : List VerificationType}
    {q : Quantity} (few : types.length ≤ 65535) :
    (encodeTypes offsets signature types).Yields fun data => ∃ filed : Counted Bytes,
      data = filed.octets id ∧ ∀ t ∈ filed.tallies q fun _ => [], t.Cut := by
  refine (Yields.mapM (Q := fun _ _ => True) fun type _ => ?_).bind fun encoded same => .pure ?_
  · cases type with
    | object name => exact (classRef_yields name).bind fun _ _ => .pure trivial
    | uninitialized creation =>
      rw [encodeType]
      split
      · exact .pure trivial
      · exact .fail _
    | _ => exact .pure trivial
  · refine ⟨.ofItems encoded, ?_, Counted.cut_ofItems (.inr ?_) fun _ _ => Tally.cut_nil⟩
    · rw [Counted.octets_ofItems, same.length_eq, List.flatMap_id]
    · rw [← same.length_eq]
      exact Nat.lt_succ_of_le few

theorem entriesOfWords_sublist (types : List VerificationType) :
    (entriesOfWords types).Sublist types := by
  fun_induction entriesOfWords types with
  | case1 => exact .slnil
  | case2 type wide => exact List.Sublist.refl _
  | case3 type wide second rest ih => exact (ih.cons second).cons_cons type
  | case4 type rest narrow ih => exact ih.cons_cons type

theorem entriesOfLocals_sublist (types : List VerificationType) :
    (entriesOfLocals types).Sublist types := by
  have kept := (List.dropWhile_sublist (l := (entriesOfWords types).reverse)
    (· == VerificationType.top)).reverse
  rw [List.reverse_reverse] at kept
  exact kept.trans (entriesOfWords_sublist types)

theorem encodeFrame_yields {offsets : Std.HashMap Nat Nat} {distance : Nat} {frame : TypeFrame}
    (locals_ : frame.locals.length ≤ 65535) (stack : frame.stack.length ≤ 65535) :
    (encodeFrame offsets signature distance frame).Yields fun data => ∃ filed : FiledFrame,
      data = filed.octets ∧ ∀ t ∈ filed.tallies, t.Cut := by
  have words := (entriesOfWords_sublist frame.stack.reverse).length_le
  rw [List.length_reverse] at words
  refine (encodeTypes_yields (q := .frameLocals)
    (Nat.le_trans (entriesOfLocals_sublist _).length_le locals_)).bind fun _ first => ?_
  refine (encodeTypes_yields (q := .frameWords) (Nat.le_trans words stack)).bind fun _ second =>
    .pure ?_
  obtain ⟨locals', rfl, cut⟩ := first
  obtain ⟨stack', rfl, cut'⟩ := second
  refine ⟨⟨UInt16.ofNat distance, locals', stack'⟩, ?_, fun t member => ?_⟩
  · rw [FiledFrame.octets, Word.encode_ofNat16]
  · exact (List.mem_append.mp member).elim (cut t) (cut' t)

theorem encodeFrames_yields {frameAt : Nat → Option TypeFrame} {offsets : Std.HashMap Nat Nat}
    (room : ∀ o f, frameAt o = some f → f.locals.length ≤ 65535 ∧ f.stack.length ≤ 65535)
    (base : Nat) (l : List Nat) :
    (encodeFrames frameAt offsets signature base l).Yields fun encoded =>
      ∃ filed : List FiledFrame, encoded = filed.map FiledFrame.octets ∧ filed.length = l.length ∧
        ∀ f ∈ filed, ∀ t ∈ f.tallies, t.Cut := by
  induction l generalizing base with
  | nil => exact .pure ⟨[], rfl, rfl, fun _ member => absurd member List.not_mem_nil⟩
  | cons offset l ih =>
    rw [encodeFrames]
    split
    · exact .fail _
    · rename_i frame found
      obtain ⟨locals_, stack⟩ := room _ _ found
      refine (encodeFrame_yields locals_ stack).bind fun _ first => (ih (offset + 1)).bind
        fun _ rest => .pure ?_
      obtain ⟨f, rfl, cut⟩ := first
      obtain ⟨filed, rfl, length, each⟩ := rest
      exact ⟨f :: filed, rfl, congrArg (· + 1) length, List.forall_mem_cons.mpr ⟨cut, each⟩⟩

/-- Ascending numbers without repetitions. -/
theorem dedupAscending_ascends {l : List Nat} (sorted : l.Pairwise (· ≤ ·)) :
    (dedupAscending l).Pairwise (· < ·) ∧ ∀ a ∈ dedupAscending l, a ∈ l := by
  induction l using dedupAscending.induct with
  | case1 b rest ih =>
    rw [dedupAscending, if_pos rfl]
    obtain ⟨ascending, inside⟩ := ih sorted.of_cons
    exact ⟨ascending, fun a member => List.mem_cons_of_mem _ (inside a member)⟩
  | case2 a b rest different ih =>
    rw [dedupAscending, if_neg different]
    obtain ⟨ascending, inside⟩ := ih sorted.of_cons
    refine ⟨List.pairwise_cons.mpr ⟨fun c member => ?_, ascending⟩, fun c member => ?_⟩
    · obtain ⟨first, rest_⟩ := List.pairwise_cons.mp sorted
      have below : a < b := Nat.lt_of_le_of_ne (first b List.mem_cons_self) different
      rcases List.mem_cons.mp (inside c member) with rfl | later
      · exact below
      · exact Nat.lt_of_lt_of_le below ((List.pairwise_cons.mp rest_).1 c later)
    · rcases List.mem_cons.mp member with rfl | later
      · exact List.mem_cons_self
      · exact List.mem_cons_of_mem _ (inside c later)
  | case3 l short =>
    have same : dedupAscending l = l := by
      rw [dedupAscending]
      exact short
    rw [same]
    refine ⟨?_, fun a member => member⟩
    rcases l with _ | ⟨a, _ | ⟨b, rest⟩⟩
    · exact .nil
    · exact List.pairwise_singleton _ _
    · exact (short a b rest rfl).elim

/-- There is at most one frame for every octet of the code. -/
theorem length_frameOffsets_le {exceptions : List ExceptionRange} {offsets : List Nat}
    (ran : e.frameOffsets signature exceptions = .ok offsets) : offsets.length ≤ e.length := by
  obtain ⟨targets, -, ran⟩ := ok_of_bind ran
  obtain ⟨handlers, -, ran⟩ := ok_of_bind ran
  cases ran
  set candidates := offsetsAfterTransfers e.placed.toList ++ targets ++ handlers
  have sorted : (((candidates.filter (· < e.length)).mergeSort).Pairwise (· ≤ ·)) :=
    List.pairwise_mergeSort' (· ≤ ·) _
  obtain ⟨ascending, inside⟩ := dedupAscending_ascends sorted
  have below : dedupAscending ((candidates.filter (· < e.length)).mergeSort) ⊆ List.range e.length := by
    intro offset member
    have listed := (List.mem_filter.mp (List.mem_mergeSort.mp (inside offset member))).2
    exact List.mem_range.mpr (of_decide_eq_true listed)
  have few := (List.subperm_of_subset (ascending.imp Nat.ne_of_lt) below).length_le
  rwa [List.length_range] at few

theorem stackMap_yields {frames : MethodFrames} {exceptions : List ExceptionRange}
    (short : e.length ≤ 65535)
    (room : ∀ (i : Nat) (f : TypeFrame), frames.frames[i]?.join = some f →
      f.locals.length ≤ 65535 ∧ f.stack.length ≤ 65535) :
    (e.stackMap frames signature exceptions).Yields fun map => ∃ filed : Option (Counted FiledFrame),
      map = filed.map (Counted.octets FiledFrame.octets) ∧
        ∀ c ∈ filed, ∀ t ∈ c.tallies .frames FiledFrame.tallies, t.Cut := by
  rw [stackMap]
  split
  · exact .fail _
  · exact .pure ⟨none, rfl, fun _ here => absurd here (Option.not_mem_none _)⟩
  · rename_i offsets _ ran
    refine (encodeFrames_yields (fun o f found => ?_) 0 offsets).bind fun _ filed => .pure ?_
    · obtain ⟨i, -, here⟩ := Option.bind_eq_some_iff.mp found
      exact room i f here
    · obtain ⟨filed, rfl, length, cut⟩ := filed
      refine ⟨some (.ofItems filed), ?_, fun c same => ?_⟩
      · rw [Option.map_some, Counted.octets_ofItems, length, List.flatMap_def]
      · cases same
        refine Counted.cut_ofItems (.inr ?_) cut
        rw [length]
        exact Nat.lt_succ_of_le (Nat.le_trans (length_frameOffsets_le ran) short)

end Emission

end Bytecode
