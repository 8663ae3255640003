import Bytecode.Proofs.Coding.Layout

/-!
# Assembled code is read back

The octets of a body that has been laid out are read as its instructions, each at its offset. The
induction goes along the instructions; the offset of each is where those before it end.
-/

namespace Bytecode

open Reader

/-- An instruction takes an octet at least. -/
theorem CodeContext.ne_nil_of_reads {ctx : CodeContext} {start position : Nat} {bytes : Bytes}
    {n : Node} (h : Reads (ctx.instruction start) position bytes n) : bytes ≠ [] := by
  rintro rfl
  let c : Cursor := {
    data := List.replicate position 0
    position
    rest := []
    rest_eq := by rw [List.drop_of_length_le (by simp)]
    position_le := by simp }
  obtain ⟨_, ran, -⟩ := h c [] rfl rfl
  obtain ⟨_, _, first, -⟩ := bind_eq_ok ran
  obtain ⟨taken, shows, size, -⟩ := word_eq_ok first
  rw [(List.append_eq_nil_iff.mp (Eq.symm (show [] = taken ++ _ from shows))).1] at size
  cases size

/-- At the end of the code nothing is read. -/
theorem CodeContext.nodes_of_end {ctx : CodeContext} {c : Cursor} (nothing : c.rest = [])
    (fuel : Nat) : ctx.nodes fuel c = .ok ([], c) := by
  have done : c.hasMore = false := by
    rw [Cursor.hasMore, nothing]
    rfl
  cases fuel with
  | zero => rfl
  | succ fuel =>
    show (if (!c.hasMore) = true then (pure [] : Reader (List (Nat × Node))) else _) c = _
    rw [done]
    rfl

/-- Before the end of the code an instruction is read, and then what follows it. -/
theorem CodeContext.nodes_of_instruction {ctx : CodeContext} {fuel : Nat} {c c₁ c₂ : Cursor}
    {n : Node} {others : List (Nat × Node)} (more : c.rest ≠ [])
    (first : ctx.instruction c.position c = .ok (n, c₁)) (rest : ctx.nodes fuel c₁ = .ok (others, c₂)) :
    ctx.nodes (fuel + 1) c = .ok ((c.position, n) :: others, c₂) := by
  have there : c.hasMore = true := by
    rw [Cursor.hasMore]
    cases shown : c.rest with
    | nil => exact absurd shown more
    | cons b bytes => rfl
  show (if (!c.hasMore) = true then (pure [] : Reader (List (Nat × Node))) else _) c = _
  rw [there]
  show ((do
    let op ← Reader.u8
    let node ← ctx.node c.position op
    return (c.position, node) :: (← ctx.nodes fuel)) : Reader _) c = _
  obtain ⟨op, between, code, operands⟩ := bind_eq_ok first
  show (Reader.u8 c >>= fun p => _) = _
  rw [code]
  show (ctx.node c.position op between >>= fun p => _) = _
  rw [operands]
  show (ctx.nodes fuel c₁ >>= fun p => _) = _
  rw [rest]
  rfl

namespace Emission

variable {e : Emission} {frames : MethodFrames} {insns : List Insn}

/-- What has been laid out ascends. -/
theorem Covers.ascending (h : e.Covers frames insns) :
    e.placed.toList.Pairwise fun p q => p.index < q.index := by
  have := keptFrom_ascending frames.isLive 0 (insns.map Insn.node)
  rw [← h.placed, List.pairwise_map] at this
  exact this

/-- An instruction starts where those before it end. -/
theorem Covers.offset_eq (h : e.Covers frames insns) {xs ys : List PlacedInsn} {p : PlacedInsn}
    (split : e.placed.toList = xs ++ p :: ys) :
    p.offset = total (fun q => Piece.totalSize q.pieces) xs := by
  have sorted := h.ascending
  rw [split, List.pairwise_append] at sorted
  obtain ⟨-, behind, ahead⟩ := sorted
  have member : p ∈ e.placed.toList := by
    rw [split]
    simp
  rw [h.offsets p member, before, split, List.filter_append, List.filter_eq_self.mpr,
    List.filter_cons_of_neg (by simp), List.filter_eq_nil_iff.mpr, List.append_nil]
  · intro q later
    have := (List.pairwise_cons.mp behind).1 q later
    simp only [decide_eq_true_eq]
    omega
  · intro q earlier
    exact decide_eq_true (ahead q earlier p List.mem_cons_self)

/-- Instructions one behind the other, of which the first stands at an offset. -/
def Consecutive : Nat → List PlacedInsn → Prop
  | _, [] => True
  | start, p :: rest => p.offset = start ∧ Consecutive (start + Piece.totalSize p.pieces) rest

theorem Covers.consecutive (h : e.Covers frames insns) : Consecutive 0 e.placed.toList := by
  suffices rest : ∀ xs ys, e.placed.toList = xs ++ ys →
      Consecutive (total (fun q => Piece.totalSize q.pieces) xs) ys from rest [] _ rfl
  intro xs ys
  induction ys generalizing xs with
  | nil => exact fun _ => trivial
  | cons p ys ih =>
    intro split
    refine ⟨h.offset_eq split, ?_⟩
    have := ih (xs ++ [p]) (by rw [split, List.append_assoc, List.singleton_append])
    rwa [total_append, total_cons, total_nil, Nat.add_zero] at this

/-- What has been laid out ends where the emission ends. -/
theorem Covers.length_eq (h : e.Covers frames insns) :
    e.length = total (fun q => Piece.totalSize q.pieces) e.placed.toList := by
  rw [h.length, before, List.filter_eq_self.mpr]
  exact fun p member => decide_eq_true (h.index_lt member)

/-- Assembled instructions are read one behind the other to the end. -/
theorem nodes_of_assembled {signature : String} {t : Tables} {length start : Nat}
    {items : List PlacedInsn} {chunks : List Bytes}
    (assembled : List.Forall₂ (fun p => e.Assembles signature p.offset p.pieces) items chunks)
    (back : ∀ p ∈ items, p.node.ReadBack p.offset p.pieces t)
    (inside : ∀ p ∈ items, ∀ l ∈ p.node.targets, ∀ o, e.labels[l]? = some o → o < length)
    (fits : chunks.flatten.length ≤ length) (small : length < 2147483648)
    (consecutive : Consecutive start items) {fuel : Nat} {c : Cursor}
    (enough : chunks.flatten.length ≤ fuel) (at_ : c.position = start)
    (shows : c.rest = chunks.flatten) :
    ∃ c', CodeContext.nodes ⟨t.pool, t.bootstraps.toArray, length⟩ fuel c =
      .ok (items.map fun p => (p.offset, p.node.stored.mapLabels e.mark), c') := by
  induction assembled generalizing start fuel c with
  | nil => exact ⟨c, CodeContext.nodes_of_end shows fuel⟩
  | @cons p chunk items chunks first rest ih =>
    obtain ⟨starts, behind⟩ := consecutive
    rw [List.flatten_cons, List.length_append] at fits enough
    have reads := back p List.mem_cons_self e signature length chunk first
      (inside p List.mem_cons_self) (Nat.le_trans (Nat.le_add_right ..) fits) small
    have some_ : chunk ≠ [] := CodeContext.ne_nil_of_reads reads
    obtain ⟨c₁, read, shows₁, at₁⟩ := reads c chunks.flatten (at_.trans starts.symm) shows
    have octets : 0 < chunk.length := List.length_pos_iff.mpr some_
    obtain ⟨fuel, rfl⟩ : ∃ k, fuel = k + 1 := ⟨fuel - 1, by omega⟩
    rw [first.length_eq] at at₁
    have left : chunks.flatten.length ≤ fuel := by omega
    obtain ⟨c₂, others⟩ := ih (fun q member => back q (List.mem_cons_of_mem _ member))
      (fun q member => inside q (List.mem_cons_of_mem _ member))
      (Nat.le_trans (Nat.le_add_left ..) fits) behind left
      (at₁.trans (by rw [starts])) shows₁
    have here : c.position = p.offset := at_.trans starts.symm
    refine ⟨c₂, ?_⟩
    rw [← here] at read
    have := CodeContext.nodes_of_instruction (by rw [shows]; simp [some_]) read others
    rwa [here] at this

/-- Assembled instructions take as many octets as their pieces say. -/
theorem length_of_assembled {signature : String} {items : List PlacedInsn} {chunks : List Bytes}
    (assembled : List.Forall₂ (fun p => e.Assembles signature p.offset p.pieces) items chunks) :
    chunks.flatten.length = total (fun q => Piece.totalSize q.pieces) items := by
  induction assembled with
  | nil => rfl
  | cons first _ ih => rw [List.flatten_cons, List.length_append, ih, first.length_eq, total_cons]

/-- The octets of each instruction that has been laid out. -/
theorem chunks_of_assemble {signature : String} {code : Bytes}
    (assembled : e.assemble signature = .ok code) :
    ∃ chunks, chunks.flatten = code ∧
      List.Forall₂ (fun p => e.Assembles signature p.offset p.pieces) e.placed.toList chunks := by
  obtain ⟨chunks, all, assembled⟩ := ok_of_bind assembled
  cases assembled
  refine ⟨chunks, rfl, (mapM_eq_ok.mp all).imp fun p chunk one => ?_⟩
  obtain ⟨parts, pieces, one⟩ := ok_of_bind one
  cases one
  exact ⟨parts, pieces, rfl⟩

/-- No label stands behind the end of the code. -/
theorem Covers.labels_le (h : e.Covers frames insns) {l : LabelId} {o : Nat}
    (found : e.labels[l]? = some o) : o ≤ e.length := by
  rw [h.labels] at found
  obtain ⟨i, -, rfl⟩ := Option.map_eq_some_iff.mp found
  rw [h.length_eq, before]
  generalize e.placed.toList = items
  induction items with
  | nil => exact Nat.le_refl _
  | cons p items ih =>
    rw [List.filter_cons, total_cons]
    split
    · rw [total_cons]
      exact Nat.add_le_add_left ih _
    · exact Nat.le_trans ih (Nat.le_add_left ..)

/-- The offsets of what has been laid out ascend to the end of the code. -/
structure Ordered (e : Emission) : Prop where
  ascending : e.placed.toList.Pairwise fun p q => p.offset < q.offset
  inside : ∀ p ∈ e.placed.toList, p.offset < e.length

/-- Consecutive instructions with octets ascend. -/
theorem Consecutive.ascending {start : Nat} {items : List PlacedInsn}
    (consecutive : Consecutive start items) (some_ : ∀ p ∈ items, 0 < Piece.totalSize p.pieces) :
    (items.Pairwise fun p q => p.offset < q.offset) ∧ ∀ p ∈ items, start ≤ p.offset ∧
      p.offset < start + total (fun q => Piece.totalSize q.pieces) items := by
  induction items generalizing start with
  | nil => exact ⟨.nil, fun p member => (List.not_mem_nil member).elim⟩
  | cons p items ih =>
    obtain ⟨starts, behind⟩ := consecutive
    have size := some_ p List.mem_cons_self
    obtain ⟨ascending, bounds⟩ := ih behind fun q member => some_ q (List.mem_cons_of_mem _ member)
    rw [total_cons]
    refine ⟨.cons (fun q member => ?_) ascending, fun q member => ?_⟩
    · have := (bounds q member).1
      omega
    · rcases List.mem_cons.mp member with rfl | member
      · omega
      · have := bounds q member
        omega

/-- Instructions that take an octet at least stand in order. -/
theorem Covers.ordered_of_sized (h : e.Covers frames insns)
    (sized : ∀ p ∈ e.placed.toList, 0 < Piece.totalSize p.pieces) : e.Ordered := by
  obtain ⟨ascending, bounds⟩ := h.consecutive.ascending sized
  refine ⟨ascending, fun p member => ?_⟩
  rw [h.length_eq]
  have := (bounds p member).2
  omega

/-- Every instruction that is assembled takes an octet at least. -/
theorem Covers.ordered {signature : String} {t : Tables} {code : Bytes}
    (h : e.Covers frames insns) (back : e.ReadBack t)
    (assembled : e.assemble signature = .ok code) (small : code.length < 65536) : e.Ordered := by
  obtain ⟨chunks, rfl, each⟩ := chunks_of_assemble assembled
  have size : chunks.flatten.length = e.length := (length_of_assembled each).trans h.length_eq.symm
  refine h.ordered_of_sized fun p member => ?_
  obtain ⟨chunk, known, one⟩ := exists_of_mem_elements each member
  have fits : chunk.length ≤ chunks.flatten.length := (List.sublist_flatten_of_mem known).length_le
  -- The code is taken to be longer than it is, so that a label at its end lies inside too.
  have reads := back p member e signature (e.length + 1) chunk one
    (fun l _ o found => Nat.lt_succ_of_le (h.labels_le found)) (by omega) (by omega)
  rw [← one.length_eq]
  exact List.length_pos_iff.mpr (CodeContext.ne_nil_of_reads reads)

/-- Assembled code is decoded to the instructions that have been laid out. -/
theorem decodeNodes_of_assemble {signature : String} {t : Tables} {code : Bytes}
    (covers : e.Covers frames insns) (back : e.ReadBack t)
    (inside : ∀ p ∈ e.placed.toList, ∀ l ∈ p.node.targets, ∀ o, e.labels[l]? = some o →
      o < e.length)
    (assembled : e.assemble signature = .ok code) (small : code.length < 65536) :
    code.length = e.length ∧
      decodeNodes ⟨t.pool, t.bootstraps.toArray, code.length⟩ code =
        .ok (e.placed.toList.map fun p => (p.offset, p.node.stored.mapLabels e.mark)) := by
  obtain ⟨chunks, rfl, each⟩ := chunks_of_assemble assembled
  have size : chunks.flatten.length = e.length :=
    (length_of_assembled each).trans covers.length_eq.symm
  obtain ⟨c, ran⟩ := nodes_of_assembled each back (size ▸ inside) (Nat.le_refl _)
    (Nat.lt_trans small (by decide)) covers.consecutive (Nat.le_refl _)
    (c := Cursor.ofBytes chunks.flatten) rfl rfl
  refine ⟨size, ?_⟩
  rw [decodeNodes]
  show Prod.fst <$> CodeContext.nodes _ _ _ = _
  rw [ran]
  rfl

end Emission

end Bytecode
