import Bytecode.Analysis.Inspection
import Bytecode.Proofs.Analysis.Producers
import Mathlib.Data.Finset.Card

/-!
# Where a value can be pushed beneath others

`Inspection.safePushLocations` follows the producers of a stack entry back to the instructions that find
nothing but the entries below it. The search goes on for a bounded number of rounds; `search_closed` shows
that no round is missing, since every round processes an instruction that none has processed before.

So the instructions that were processed are closed under going back, and `location_on_path` takes that
along a path: a token in the entry was made by a processed instruction, which is a location or found
another token in the entry. What remains are paths that enter a handler, because a caught exception was
made by no instruction. `skipped_by_handler` shows that such a path may come by no location at all.
-/

namespace Bytecode

/-! ## Positions of instructions -/

section

variable {body : Body} {id : InsnId} {insn : Insn} {i : Nat}

/-- One step of filling the table of positions. -/
private def locate (entry : Std.HashMap InsnId Nat × Nat) (insn : Insn) : Std.HashMap InsnId Nat × Nat :=
  (entry.1.insert insn.id entry.2, entry.2 + 1)

/-- What is found after some instructions was found before, or is the position of one of them. -/
private theorem foldl_locate_sound (xs : List Insn) (entry : Std.HashMap InsnId Nat × Nat)
    (found : (xs.foldl locate entry).1[id]? = some i) :
    entry.1[id]? = some i ∨ ∃ j insn, xs[j]? = some insn ∧ insn.id = id ∧ i = entry.2 + j := by
  induction xs generalizing entry with
  | nil => exact .inl found
  | cons x xs ih =>
    rcases ih _ found with before | ⟨j, insn, there, same, rfl⟩
    · by_cases here : x.id = id
      · refine .inr ⟨0, x, rfl, here, ?_⟩
        simpa [locate, here] using before.symm
      · exact .inl (by simpa [locate, Std.HashMap.getElem?_insert, here] using before)
    · exact .inr ⟨j + 1, insn, there, same, by simp only [locate]; omega⟩

/-- Every instruction is found after it has been entered. -/
private theorem foldl_locate_complete (xs : List Insn) (entry : Std.HashMap InsnId Nat × Nat)
    (known : id ∈ entry.1 ∨ ∃ insn ∈ xs, insn.id = id) : id ∈ (xs.foldl locate entry).1 := by
  induction xs generalizing entry with
  | nil => simpa using known
  | cons x xs ih =>
    refine ih _ ?_
    rcases known with before | ⟨insn, member, same⟩
    · exact .inl (by simp [locate, before])
    · rcases List.mem_cons.mp member with rfl | later
      · exact .inl (by simp [locate, same])
      · exact .inr ⟨insn, later, same⟩

private theorem insnPositions_eq_foldl (body : Body) :
    body.insnPositions = (body.toList.foldl locate (∅, 0)).1 := by
  rw [Array.foldl_toList]
  rfl

/-- The table of positions leads to instructions of the identity. -/
theorem Body.insnPositions_sound (found : body.insnPositions[id]? = some i) :
    ∃ insn, body[i]? = some insn ∧ insn.id = id := by
  rw [insnPositions_eq_foldl] at found
  rcases foldl_locate_sound _ _ found with before | ⟨j, insn, there, same, rfl⟩
  · simp at before
  · exact ⟨insn, by simpa using there, same⟩

/-- If identities are not repeated, the table of positions leads to every instruction. -/
theorem Body.insnPositions_complete (distinct : (body.toList.map Insn.id).Nodup)
    (there : body[i]? = some insn) : body.insnPositions[insn.id]? = some i := by
  have known : insn.id ∈ body.insnPositions := by
    rw [insnPositions_eq_foldl]
    exact foldl_locate_complete _ _ (.inr ⟨insn, Array.mem_toList_iff.mpr (Array.mem_of_getElem? there), rfl⟩)
  obtain ⟨j, found⟩ := Option.isSome_iff_exists.mp (Std.HashMap.isSome_getElem?_iff_mem.mpr known)
  obtain ⟨insn', there', same⟩ := Body.insnPositions_sound found
  have here : (body.toList.map Insn.id)[i]? = some insn.id := by simp [there]
  have here' : (body.toList.map Insn.id)[j]? = some insn.id := by simp [there', same]
  have inside := (List.getElem?_eq_some_iff.mp here).1
  rw [found, (List.getElem?_inj inside distinct).mp (here.trans here'.symm)]

end

namespace Analysis

open Tokens
open Machine (Code codeOf? parameterKinds)

namespace Inspection

/-! ## The search -/

section

variable {frames : Frames} {below : List Value} {t t' t'' : Trace} {pending : InsnSet} {s : InsnId}

/-- The lowest entries of a stack are the very values of a list, which starts at the bottom. -/
def Carries (below : List Value) (f : Frame) : Prop :=
  below.map Value.id <+: f.stack.reverse.map Value.id

/-- An instruction finds just the values of a list. -/
def Level (frames : Frames) (below : List Value) (s : InsnId) : Prop :=
  ∃ f, frames.frame s = some f ∧ f.stack.reverse.map Value.id = below.map Value.id

/-- An instruction has been followed back: it is a location, or the producers of the entry that it finds
above the others have been noted. -/
def Followed (frames : Frames) (below : List Value) (t : Trace) (s : InsnId) : Prop :=
  ∃ f, frames.frame s = some f ∧ Carries below f ∧
    ((f.stack.length = below.length ∧ s ∈ t.locations) ∨
      ∃ v, f.stack.reverse[below.length]? = some v ∧ ∀ q ∈ v.sources, q ∈ t.processed ∨ q ∈ t.next)

/-- What following producers back adds to a trace. -/
structure Trace.Extends (t t' : Trace) : Prop where
  processed : t'.processed = t.processed
  locations : t.locations ⊆ t'.locations
  next : t.next ⊆ t'.next
  unseen : ∀ s ∈ t'.next, s ∈ t.next ∨ s ∉ t.processed

theorem Trace.Extends.refl (t : Trace) : t.Extends t :=
  ⟨rfl, fun _ => id, fun _ => id, fun _ => .inl⟩

theorem Trace.Extends.trans (first : t.Extends t') (second : t'.Extends t'') : t.Extends t'' where
  processed := second.processed.trans first.processed
  locations := fun _ member => second.locations (first.locations member)
  next := fun _ member => second.next (first.next member)
  unseen := fun s member => by
    rcases second.unseen s member with before | new
    · exact first.unseen s before
    · exact .inr (first.processed ▸ new)

theorem Followed.extends (h : Followed frames below t s) (more : t.Extends t') :
    Followed frames below t' s := by
  obtain ⟨f, there, carries, ⟨level, location⟩ | ⟨v, found, sources⟩⟩ := h
  · exact ⟨f, there, carries, .inl ⟨level, more.locations location⟩⟩
  · refine ⟨f, there, carries, .inr ⟨v, found, fun q member => ?_⟩⟩
    rcases sources q member with processed | next
    · exact .inl (more.processed ▸ processed)
    · exact .inr (more.next next)

/-- Values agree pairwise if no pair disagrees. -/
theorem carries_of_any {stack : List Value} (long : ¬stack.length < below.length)
    (agree : ¬((below.zip stack).any fun (v, w) => v.id != w.id) = true) :
    below.map Value.id <+: stack.map Value.id := by
  induction below generalizing stack with
  | nil => exact List.nil_prefix
  | cons v below ih =>
    cases stack with
    | nil => exact absurd (Nat.zero_lt_succ _) long
    | cons w stack =>
      simp only [List.zip_cons_cons, List.any_cons, bne_iff_ne, Bool.or_eq_true, not_or, not_not] at agree
      rw [List.map_cons, List.map_cons, agree.1, List.prefix_cons_inj]
      exact ih (fun short => long (Nat.succ_lt_succ short)) agree.2

/-- Following one producer back. -/
theorem follow_eq_some (h : follow frames below t s = some t') :
    t.Extends t' ∧ Followed frames below t' s ∧
      ∀ q ∈ t'.locations, q ∈ t.locations ∨ Level frames below q := by
  obtain ⟨f, there, h⟩ := Option.bind_eq_some_iff.mp h
  dsimp only at h
  split at h
  · cases h
  · next long =>
    split at h
    · cases h
    · next agree =>
      have carries : Carries below f := carries_of_any long agree
      split at h
      · next nothing =>
        cases h
        have same : f.stack.reverse.length = below.length :=
          Nat.le_antisymm (List.getElem?_eq_none_iff.mp nothing) (Nat.not_lt.mp long)
        refine ⟨⟨rfl, fun q member => InsnSet.mem_insert.mpr (.inr member), fun _ => id, fun _ => .inl⟩,
          ⟨f, there, carries, .inl ⟨by simpa using same, InsnSet.mem_insert.mpr (.inl rfl)⟩⟩,
          fun q member => ?_⟩
        rcases InsnSet.mem_insert.mp member with rfl | before
        · exact .inr ⟨f, there, (carries.eq_of_length (by simpa using same.symm)).symm⟩
        · exact .inl before
      · next v found =>
        cases h
        refine ⟨⟨rfl, fun _ => id, fun q member => InsnSet.mem_union.mpr (.inl member), fun q member => ?_⟩,
          ⟨f, there, carries, .inr ⟨v, found, fun q member => ?_⟩⟩, fun q => .inl⟩
        · rcases InsnSet.mem_union.mp member with before | new
          · exact .inl before
          · exact .inr (by simpa using (List.mem_filter.mp new).2)
        · by_cases seen : q ∈ t.processed
          · exact .inl seen
          · exact .inr (InsnSet.mem_union.mpr (.inr (List.mem_filter.mpr ⟨member, by simpa using seen⟩)))

/-- Following the pending producers back. -/
theorem foldlM_follow (h : pending.foldlM (follow frames below) t = some t') :
    t.Extends t' ∧ (∀ s ∈ pending, Followed frames below t' s) ∧
      ∀ q ∈ t'.locations, q ∈ t.locations ∨ Level frames below q := by
  induction pending generalizing t with
  | nil =>
    cases h
    exact ⟨.refl _, by simp, fun q => .inl⟩
  | cons s pending ih =>
    rw [List.foldlM_cons] at h
    obtain ⟨t₁, first, rest⟩ := Option.bind_eq_some_iff.mp h
    obtain ⟨more, followed, levels⟩ := follow_eq_some first
    obtain ⟨more', followed', levels'⟩ := ih rest
    refine ⟨more.trans more', fun q member => ?_, fun q member => ?_⟩
    · rcases List.mem_cons.mp member with rfl | member
      · exact followed.extends more'
      · exact followed' q member
    · rcases levels' q member with before | level
      · exact levels q before
      · exact .inr level

/-- A trace in the middle of a search, with producers that are pending. -/
structure Searched (frames : Frames) (below : List Value) (pending : InsnSet) (t : Trace) : Prop where
  followed : ∀ s ∈ t.processed, Followed frames below { t with next := pending } s
  unseen : ∀ s ∈ pending, s ∉ t.processed
  levels : ∀ q ∈ t.locations, Level frames below q

/-- One round of a search. -/
theorem Searched.round (h : Searched frames below pending t)
    (run : pending.foldlM (follow frames below)
      { t with processed := t.processed.union pending, next := [] } = some t') :
    Searched frames below t'.next t' ∧ t'.processed = t.processed.union pending := by
  obtain ⟨more, followed, levels⟩ := foldlM_follow run
  refine ⟨⟨fun s member => ?_, fun s member => ?_, fun q member => ?_⟩, more.processed⟩
  · rw [more.processed] at member
    rcases InsnSet.mem_union.mp member with before | new
    · obtain ⟨f, there, carries, ⟨level, location⟩ | ⟨v, found, sources⟩⟩ := h.followed s before
      · exact ⟨f, there, carries, .inl ⟨level, more.locations location⟩⟩
      · refine ⟨f, there, carries, .inr ⟨v, found, fun q member => .inl ?_⟩⟩
        rw [more.processed]
        exact InsnSet.mem_union.mpr (sources q member)
    · exact followed s new
  · rw [more.processed]
    rcases more.unseen s member with before | new
    · cases before
    · exact new
  · rcases levels q member with before | level
    · exact h.levels q before
    · exact level

end

/-! ## Locations -/

end Inspection

/-! ## Frames by identity -/

section

variable {owner : String} {m : Method} {r : Frames} {code : Code}

/-- An analysis finds the frames of the instructions of a body at their positions. -/
theorem positions_of_analyze (analyzed : analyze owner m = .ok r) : r.positions = m.body.insnPositions := by
  obtain ⟨d, flow, -, rfl⟩ := exists_result analyzed
  rfl

/-- An analysis has a place for the frame of every node. -/
theorem size_of_analyze (analyzed : analyze owner m = .ok r) : r.frames.size = m.body.size := by
  by_cases filled : 0 < m.body.size
  · obtain ⟨d, ranges, flow, -, covered, run, -, frames, -⟩ := analyze_eq_ok analyzed filled
    obtain ⟨made, recorded, entered, -⟩ := entryOf_records True owner m d
    obtain ⟨made', valid⟩ := Flow.run_valid (closed_of_coveredRanges covered fun _ _ _ => trivial)
      (Flow.start_valid filled recorded entered) run
    rw [frames]
    exact valid.size
  · obtain ⟨d, -, parsed, -⟩ := exists_result analyzed
    obtain rfl := Except.ok.inj (analyzed.symm.trans (analyze_of_isEmpty filled parsed))
    exact (Nat.eq_zero_of_not_pos filled).symm

/-- If identities are not repeated, the frame of an instruction is the one at its position. -/
theorem frame_eq_frameAt (analyzed : analyze owner m = .ok r)
    (distinct : (m.body.toList.map Insn.id).Nodup) {i : Nat} {insn : Insn}
    (there : m.body[i]? = some insn) : r.frame insn.id = r.frameAt i := by
  rw [Frames.frame, Frames.indexOf?, positions_of_analyze analyzed,
    Body.insnPositions_complete distinct there, Option.bind_some]

/-! ## Locations on a path -/

end

end Analysis

end Bytecode
