import Bytecode.Proofs.Coding.Filing
import Bytecode.Proofs.Coding.Offsets

/-!
# Where labels of laid out bodies stand

What `Layout` shows for bodies whose nodes can be stored holds of all bodies for which a layout is
returned: `Returns x Q` says of a request only that what it returns satisfies `Q`, and nothing about the
builder. So instructions take octets and stand in order, whatever they are (`ofBody_returns`).

A label to which control can come has the offset of an instruction (`Covers.lands`), and so has the handler
of a range between whose ends something has been laid out (`Covers.handler_lands`). These are the two
places where dropped instructions could make a label stand at the end of the code.
-/

namespace Bytecode

namespace Building

variable {α β : Type}

/-- Whatever a request returns satisfies a condition. -/
def Returns (x : Building α) (Q : α → Prop) : Prop :=
  ∀ b a b', x b = (.ok a, b') → Q a

/-- What is returned behind a request was returned for something that the request returned. -/
theorem ok_of_bind_run {x : Building α} {next : α → Building β} {b b' : PoolBuilder} {r : β}
    (ran : (x >>= next) b = (.ok r, b')) : ∃ a c, x b = (.ok a, c) ∧ next a c = (.ok r, b') := by
  rw [bind_eq] at ran
  rcases here : x b with ⟨_ | a, c⟩
  · rw [here] at ran
    cases ran
  · rw [here] at ran
    exact ⟨a, c, rfl, ran⟩

/-- What comes behind a request that is answered. -/
theorem bind_of_ok {x : Building α} {next : α → Building β} {b b' : PoolBuilder} {a : α}
    (ran : x b = (.ok a, b')) : (x >>= next) b = next a b' := by
  rw [bind_eq, ran]

theorem lift_of_ok {x : Except Failure α} {a : α} (ok : x = .ok a) (b : PoolBuilder) :
    (liftM x : Building α) b = (.ok a, b) := by
  rw [ok]
  rfl

/-- A computation that requests nothing. -/
theorem ok_of_lift_run {x : Except Failure α} {b b' : PoolBuilder} {a : α}
    (ran : (liftM x : Building α) b = (.ok a, b')) : x = .ok a := by
  cases x with
  | error cause => cases ran
  | ok a' =>
    cases ran
    rfl

namespace Returns

variable {x : Building α} {Q : α → Prop}

theorem any (x : Building α) : Returns x fun _ => True :=
  fun _ _ _ _ => trivial

theorem pure {a : α} (right : Q a) : Returns (Pure.pure a) Q := by
  intro b r b' ran
  cases ran
  exact right

/-- One request behind another. -/
theorem bind {next : α → Building β} {S : β → Prop} (first : Returns x Q)
    (second : ∀ a, Q a → Returns (next a) S) : Returns (x >>= next) S := by
  intro b r b' ran
  obtain ⟨a, c, here, there⟩ := ok_of_bind_run ran
  exact second a (first b a c here) c r b' there

end Returns

end Building

open Building

/-! ## Instructions take octets -/

theorem Node.varPieces_pos (op : Opcode) (slot : UInt16) : 0 < Piece.totalSize (varPieces op slot) := by
  unfold varPieces
  dsimp only
  split_ifs <;> exact Nat.succ_pos _

theorem Node.incrementPieces_pos (slot : UInt16) (amount : Int16) :
    0 < Piece.totalSize (incrementPieces slot amount) := by
  unfold incrementPieces
  split <;> exact Nat.succ_pos _

theorem Node.constantPieces_pos (value : Constant) (slot : UInt16) :
    0 < Piece.totalSize (constantPieces value slot) := by
  unfold constantPieces
  split_ifs <;> exact Nat.succ_pos _

theorem Piece.totalSize_pos (byte : UInt8) (bytes : Bytes) (pieces : List Piece) :
    0 < totalSize (octets (byte :: bytes) :: pieces) := by
  rw [totalSize, total_cons]
  exact Nat.add_pos_left (Nat.succ_pos _) _

/-- A real instruction starts with its opcode. -/
theorem Node.pieces_pos {n : Node} (real : n.isPseudo = false) (offset : Nat) :
    Returns (n.pieces offset) fun pieces => 0 < Piece.totalSize pieces := by
  cases n with
  | label | line => cases real
  | var op slot => exact .pure (varPieces_pos op slot)
  | increment slot amount => exact .pure (incrementPieces_pos slot amount)
  | constant value => exact (Returns.any _).bind fun slot _ => .pure (constantPieces_pos value slot)
  | call op owner name descriptor isInterface =>
    rw [pieces]
    refine (Returns.any _).bind fun slot _ => ?_
    dsimp only
    split_ifs
    · exact (Returns.any _).bind fun _ _ => .pure (Piece.totalSize_pos ..)
    · exact .pure (Piece.totalSize_pos ..)
  | type | field | dynamicCall | newArrays =>
    exact (Returns.any _).bind fun _ _ => .pure (Piece.totalSize_pos ..)
  | _ => exact .pure (Piece.totalSize_pos ..)

namespace Emission

/-- Every instruction that has been laid out takes an octet at least. -/
def Sized (e : Emission) : Prop :=
  ∀ p ∈ e.placed.toList, 0 < Piece.totalSize p.pieces

variable {e : Emission} {frames : MethodFrames} {insns : List Insn}

/-- Laying out a node, whatever it is. -/
theorem emit_returns (h : e.Covers frames insns) (sized : e.Sized) (insn : Insn) :
    (e.emit frames insns.length insn.node).Returns fun e' =>
      e'.Covers frames (insns ++ [insn]) ∧ e'.Sized := by
  cases real : insn.node.isPseudo with
  | true =>
    obtain ⟨e', same, covers, placed⟩ := h.emit_of_pseudo real
    rw [same]
    refine .pure ⟨covers, ?_⟩
    rwa [Sized, placed]
  | false =>
    rw [emit_of_real real]
    cases live : frames.isLive insns.length with
    | false => exact .pure ⟨h.leaveOut live real, sized⟩
    | true =>
      refine (Node.pieces_pos real e.length).bind fun pieces some_ => ?_
      refine .pure ⟨h.place pieces live real, fun p member => ?_⟩
      rw [Array.toList_push] at member
      rcases List.mem_append.mp member with before | new
      · exact sized p before
      · rw [List.mem_singleton.mp new]
        exact some_

theorem emitFrom_returns {done : List Insn} (h : e.Covers frames done) (sized : e.Sized) :
    (emitFrom frames e done.length insns).Returns fun e' =>
      e'.Covers frames (done ++ insns) ∧ e'.Sized := by
  induction insns generalizing e done with
  | nil =>
    rw [List.append_nil]
    exact .pure ⟨h, sized⟩
  | cons insn insns ih =>
    rw [emitFrom]
    refine (emit_returns h sized insn).bind fun e₁ both => ?_
    have rest := ih both.1 both.2
    rwa [List.length_append, List.length_singleton, List.append_assoc] at rest

/-- Laying out a body, whatever is in it. -/
theorem ofBody_returns (frames : MethodFrames) (body : Body) :
    (ofBody frames body).Returns fun e => e.Covers frames body.toList ∧ e.Ordered := by
  have nothing : Sized {} := fun p member => by cases member
  intro b e b' ran
  obtain ⟨covers, sized⟩ := emitFrom_returns (covers_nothing frames) nothing b e b' ran
  exact ⟨covers, covers.ordered_of_sized sized⟩

/-! ## Labels -/

/-- A label that has an offset stands at a position of the body. -/
theorem Covers.label_eq (h : e.Covers frames insns) {l : LabelId} {o : Nat}
    (found : e.labels[l]? = some o) : ∃ position, lastLabel l insns = some position ∧
      e.before position = o := by
  rw [h.labels] at found
  exact Option.map_eq_some_iff.mp found

/-- Fewer instructions stand in front of an earlier position. -/
theorem before_mono (e : Emission) {i j : Nat} (le : i ≤ j) : e.before i ≤ e.before j := by
  rw [before, before]
  generalize e.placed.toList = items
  induction items with
  | nil => exact Nat.le_refl _
  | cons p items ih =>
    rw [List.filter_cons, List.filter_cons]
    by_cases first : p.index < i
    · rw [if_pos (decide_eq_true first), if_pos (decide_eq_true (Nat.lt_of_lt_of_le first le)),
        total_cons, total_cons]
      exact Nat.add_le_add_left ih _
    · rw [if_neg (by simpa using first)]
      split
      · rw [total_cons]
        exact Nat.le_trans ih (Nat.le_add_left ..)
      · exact ih

/-- A label inside the code has the offset of an instruction, which does not stand before it. -/
theorem Covers.placed_of_label (h : e.Covers frames insns) {l : LabelId} {o : Nat}
    (found : e.labels[l]? = some o) (inside : o < e.length) :
    ∃ p ∈ e.placed.toList, p.offset = o := by
  obtain ⟨position, -, rfl⟩ := h.label_eq found
  rcases h.boundary position with ⟨end_, -⟩ | ⟨front, p, rest, split, here, -, -⟩
  · omega
  · exact ⟨p, by rw [split]; simp, here.symm⟩

variable {m : Method}

/-- A label to which control can come has the offset of an instruction. -/
theorem Covers.lands (h : e.Covers frames m.body.toList) (closed : frames.Closed m) {l : LabelId}
    {position o : Nat} (stands : m.body.lastLabels l = some position)
    (live : frames.isLive position = true) (found : e.labels[l]? = some o) :
    ∃ p ∈ e.placed.toList, p.offset = o := by
  obtain ⟨position', stands', rfl⟩ := h.label_eq found
  cases stands.symm.trans stands'
  obtain ⟨p, member, behind, -⟩ := closed.lands live
  rw [h.kept] at member
  obtain ⟨q, known, rfl⟩ := List.mem_map.mp member
  rcases h.boundary position with ⟨-, all⟩ | ⟨front, p, rest, split, here, -, -⟩
  · exact absurd (all q known) (Nat.not_lt.mpr behind)
  · exact ⟨p, by rw [split]; simp, here.symm⟩

/-- Between two labels with different offsets an instruction has been laid out. -/
theorem Covers.between (h : e.Covers frames m.body.toList) {start stop : LabelId} {a b : Nat}
    (starts : e.labels[start]? = some a) (stops : e.labels[stop]? = some b) (less : a < b) :
    ∃ first last, m.body.lastLabels start = some first ∧ m.body.lastLabels stop = some last ∧
      ∃ p ∈ e.placed.toList, p.offset = a ∧ first ≤ p.index ∧ p.index < last := by
  have bound := h.labels_le stops
  obtain ⟨first, first_, rfl⟩ := h.label_eq starts
  obtain ⟨last, last_, rfl⟩ := h.label_eq stops
  refine ⟨first, last, first_, last_, ?_⟩
  rcases h.boundary first with ⟨end_, -⟩ | ⟨front, p, rest, split, here, -, behind⟩
  · omega
  · have member : p ∈ e.placed.toList := by
      rw [split]
      simp
    refine ⟨p, member, here.symm, behind, ?_⟩
    by_contra late
    have := e.before_mono (Nat.le_of_not_lt late)
    have := h.offsets p member
    omega

/-- What has been laid out can be reached. -/
theorem Covers.live (h : e.Covers frames insns) {p : PlacedInsn} (member : p ∈ e.placed.toList) :
    frames.isLive p.index = true := by
  have inside : (p.index, p.node) ∈ keptFrom frames.isLive 0 (insns.map Insn.node) := by
    rw [← h.placed]
    exact List.mem_map.mpr ⟨p, member, rfl⟩
  exact (mem_keptFrom.mp inside).2.2.1

/-- The handler of a range that covers something has the offset of an instruction. -/
theorem Covers.handler_lands (h : e.Covers frames m.body.toList) (closed : frames.Closed m)
    {r : ExceptionRange} (listed : r ∈ m.exceptions) {a b o : Nat}
    (starts : e.labels[r.start]? = some a) (stops : e.labels[r.stop]? = some b) (less : a < b)
    (handles : e.labels[r.handler]? = some o) : ∃ p ∈ e.placed.toList, p.offset = o := by
  obtain ⟨first, last, first_, last_, p, member, -, behind, before⟩ := h.between starts stops less
  obtain ⟨start, stop, handler, start_, stop_, handler_, caught⟩ := closed.ranges r listed
  cases first_.symm.trans start_
  cases last_.symm.trans stop_
  exact h.lands closed handler_ (caught p.index (h.live member) behind before) handles

end Emission

end Bytecode
