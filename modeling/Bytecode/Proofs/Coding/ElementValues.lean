import Bytecode.ClassFile.Annotations
import Bytecode.Proofs.Coding.Source

/-!
# Annotations survive their stored form

The element values of an annotation are skipped, up to a depth that the octets at hand bound. The
depth does not matter as long as there is one level for every octet: `Agrees` compares two parsers
where these take no more than some octets. So annotations that have been read can be read again from
a list of other annotations (`AnnotationUse.Sound.reads`).
-/

namespace Bytecode

namespace Reader

variable {α β : Type}

namespace Confined

theorem replicate {item : Reader α} (h : Confined item) (count : Nat) :
    Confined (Reader.replicate item count) := by
  induction count with
  | zero => exact pure []
  | succ count ih => exact h.bind fun _ => ih.bind fun _ => pure _

theorem advance (step : Nat) : Confined (Reader.advance step) := by
  intro c v c' ran
  rw [Reader.advance] at ran
  split at ran
  · rename_i enough
    cases ran
    refine ⟨c.rest.take step, (List.take_append_drop step c.rest).symm, ?_, Reads.advance enough⟩
    show c.position + step = _
    rw [enough]
  · cases ran

end Confined

/-- The octets that a parser takes are returned with what it returns. -/
theorem Reads.consumed {item : Reader α} {position : Nat} {bytes : Bytes} {value : α}
    (h : Reads item position bytes value) :
    Reads (Reader.consumed item) position bytes (value, bytes) := by
  intro c tail at_ shows
  obtain ⟨c', ran, rest, moved⟩ := h c tail at_ shows
  refine ⟨c', ?_, rest, moved⟩
  have taken : c.rest.take (c'.position - c.position) = bytes := by
    rw [moved, at_, Nat.add_sub_cancel_left, shows, List.take_left]
  show (item c >>= fun p => Except.ok ((p.1, c.rest.take (p.2.position - c.position)), p.2)) = _
  rw [ran]
  show Except.ok ((value, c.rest.take (c'.position - c.position)), c') = _
  rw [taken]

/-- Where a parser takes no more than some octets, another one returns the same. -/
def Agrees (room : Nat) (item other : Reader α) : Prop :=
  ∀ (c : Cursor) (value : α) (c' : Cursor), item c = .ok (value, c') →
    c'.position ≤ c.position + room → other c = .ok (value, c')

namespace Agrees

theorem refl (room : Nat) (item : Reader α) : Agrees room item item :=
  fun _ _ _ ran _ => ran

theorem bind {room : Nat} {item other : Reader α} {next next' : α → Reader β}
    (first : Agrees room item other) (forward : Forward item)
    (second : ∀ value, Agrees room (next value) (next' value))
    (forward' : ∀ value, Forward (next value)) : Agrees room (item >>= next) (other >>= next') := by
  intro c result c' ran bound
  obtain ⟨value, between, here, there⟩ := bind_eq_ok ran
  have moved := (forward c value between here).2
  have moved' := (forward' value between result c' there).2
  show (other c >>= fun p => next' p.1 p.2) = _
  rw [first c value between here (by omega)]
  exact second value between result c' there (by omega)

theorem replicate {room : Nat} {item other : Reader α} (h : Agrees room item other)
    (forward : Forward item) (count : Nat) :
    Agrees room (Reader.replicate item count) (Reader.replicate other count) := by
  induction count with
  | zero => exact refl room _
  | succ count ih =>
    exact h.bind forward (fun _ => ih.bind (forward.replicate count) (fun _ => refl room _)
      fun _ => .pure _) fun _ => (forward.replicate count).bind fun _ => .pure _

/-- An octet is taken first, so that there is room for one less behind it. -/
theorem u8_bind {room : Nat} {next next' : UInt8 → Reader β}
    (h : ∀ value, Agrees room (next value) (next' value)) :
    Agrees (room + 1) (Reader.u8 >>= next) (Reader.u8 >>= next') := by
  intro c result c' ran bound
  obtain ⟨value, between, here, there⟩ := bind_eq_ok ran
  obtain ⟨-, -, -, moved, -⟩ := word_eq_ok here
  have width : Word.width UInt8 = 1 := rfl
  show (Reader.u8 c >>= fun p => next' p.1 p.2) = _
  rw [here]
  exact h value between result c' there (by omega)

/-- An octet cannot be taken where there is no room. -/
theorem u8_bind_zero {next : UInt8 → Reader β} {other : Reader β}
    (forward : ∀ value, Forward (next value)) : Agrees 0 (Reader.u8 >>= next) other := by
  intro c result c' ran bound
  obtain ⟨value, between, here, there⟩ := bind_eq_ok ran
  obtain ⟨-, -, -, moved, -⟩ := word_eq_ok here
  have moved' := (forward value between result c' there).2
  have width : Word.width UInt8 = 1 := rfl
  omega

/-- What reads no more than some octets can be read by another parser. -/
theorem reads {room : Nat} {item other : Reader α} (h : Agrees room item other) {position : Nat}
    {bytes : Bytes} {value : α} (read : Reads item position bytes value)
    (fits : bytes.length ≤ room) : Reads other position bytes value := by
  intro c tail at_ shows
  obtain ⟨c', ran, rest, moved⟩ := read c tail at_ shows
  exact ⟨c', h c value c' ran (by omega), rest, moved⟩

end Agrees

end Reader

namespace AnnotationUse

open Reader

theorem skipPairs_forward {item : Reader Unit} (forward : Forward item) :
    Forward (skipPairs item) :=
  Forward.u16.bind fun _ =>
    (Forward.replicate ((Forward.advance 2).bind fun _ => forward) _).bind fun _ => .pure _

theorem skipTagged_forward {item : Reader Unit} (forward : Forward item) (tag : UInt8) :
    Forward (skipTagged item tag) := by
  rw [skipTagged]
  split
  all_goals first
    | exact .advance _
    | exact (Forward.advance 2).bind fun _ => skipPairs_forward forward
    | exact Forward.u16.bind fun _ => (forward.replicate _).bind fun _ => .pure _
    | exact .fail _

theorem skipValue_forward (depth : Nat) : Forward (skipValue depth) := by
  induction depth with
  | zero => exact .fail _
  | succ depth ih => exact Forward.u8.bind (skipTagged_forward ih)

theorem skipPairs_confined {item : Reader Unit} (confined : Confined item) :
    Confined (skipPairs item) :=
  Confined.u16.bind fun _ =>
    (Confined.replicate ((Confined.advance 2).bind fun _ => confined) _).bind fun _ => .pure _

theorem skipTagged_confined {item : Reader Unit} (confined : Confined item) (tag : UInt8) :
    Confined (skipTagged item tag) := by
  rw [skipTagged]
  split
  all_goals first
    | exact .advance _
    | exact (Confined.advance 2).bind fun _ => skipPairs_confined confined
    | exact Confined.u16.bind fun _ => (confined.replicate _).bind fun _ => .pure _
    | exact .fail _

theorem skipValue_confined (depth : Nat) : Confined (skipValue depth) := by
  induction depth with
  | zero => exact .fail _
  | succ depth ih => exact Confined.u8.bind (skipTagged_confined ih)

theorem skipPairs_agrees {room : Nat} {item other : Reader Unit} (h : Agrees room item other)
    (forward : Forward item) : Agrees room (skipPairs item) (skipPairs other) := by
  have pair : Forward (do Reader.advance 2; item) := (Forward.advance 2).bind fun _ => forward
  refine Agrees.bind (.refl room _) Forward.u16 (fun count => ?_) fun _ =>
    (pair.replicate _).bind fun _ => .pure _
  refine Agrees.bind (Agrees.replicate ?_ pair _) (pair.replicate _) (fun _ => .refl room _)
    fun _ => .pure _
  exact Agrees.bind (.refl room _) (.advance 2) (fun _ => h) fun _ => forward

theorem skipTagged_agrees {room : Nat} {item other : Reader Unit} (h : Agrees room item other)
    (forward : Forward item) (tag : UInt8) :
    Agrees room (skipTagged item tag) (skipTagged other tag) := by
  rw [skipTagged, skipTagged]
  split
  all_goals first
    | exact .refl room _
    | exact Agrees.bind (.refl room _) (.advance 2) (fun _ => skipPairs_agrees h forward)
        fun _ => skipPairs_forward forward
    | exact Agrees.bind (.refl room _) .u16
        (fun _ => (h.replicate forward _).bind (forward.replicate _) (fun _ => .refl room _)
          fun _ => .pure _)
        fun _ => (forward.replicate _).bind fun _ => .pure _

/-- Every level takes an octet, so that as many levels as octets are enough. -/
theorem skipValue_agrees (depth : Nat) {room enough : Nat} (le : room ≤ enough) :
    Agrees room (skipValue depth) (skipValue enough) := by
  induction depth generalizing room enough with
  | zero =>
    intro c value c' ran
    cases ran
  | succ depth ih =>
    cases room with
    | zero => exact Agrees.u8_bind_zero (skipTagged_forward (skipValue_forward depth))
    | succ room =>
      obtain ⟨enough, rfl⟩ : ∃ k, enough = k + 1 := ⟨enough - 1, by omega⟩
      exact Agrees.u8_bind fun tag =>
        skipTagged_agrees (ih (Nat.le_of_succ_le_succ le)) (skipValue_forward depth) tag

/-! ## Lists of annotations -/

/-- Whether the element values of an annotation can be read. -/
def Sound (a : AnnotationUse) : Prop :=
  ∃ depth, ∀ position, Reads (skipPairs (skipValue depth)) position a.body ()

variable {pool : ConstantPool}

/-- What has been read as annotations can be read again, and there are not too many. -/
theorem sound_of_readAll {data : Bytes} {annotations : List AnnotationUse}
    (ran : readAll pool data = .ok annotations) :
    annotations.length < 65536 ∧ ∀ a ∈ annotations, a.Sound := by
  rw [readAll] at ran
  cases counted : (Reader.counted (readNested pool (data.length + 1))).run (Cursor.ofBytes data) with
  | error cause =>
    rw [counted] at ran
    cases ran
  | ok result =>
  rw [counted] at ran
  cases ran
  obtain ⟨few, each⟩ := of_counted counted
  refine ⟨few, fun a member => ?_⟩
  obtain ⟨c₁, c₂, one⟩ := each a member
  obtain ⟨slot, c₃, -, one⟩ := bind_eq_ok one
  obtain ⟨descriptor, c₄, -, one⟩ := bind_eq_ok one
  obtain ⟨⟨_, body⟩, c₅, pairs, one⟩ := bind_eq_ok one
  obtain ⟨rfl, rfl⟩ := pure_eq_ok one
  exact ⟨_, (skipPairs_confined (skipValue_confined _)).of_consumed pairs⟩

/-- An annotation is read from its stored form. -/
theorem Sound.reads {a : AnnotationUse} (sound : a.Sound) {slot : UInt16}
    (found : pool.utf8 slot = .ok a.descriptor) {depth : Nat} (enough : a.body.length ≤ depth)
    (position : Nat) :
    Reads (readNested pool depth) position (Word.encode slot ++ a.body) a := by
  obtain ⟨levels, reads⟩ := sound
  have pairs (position : Nat) : Reads (skipPairs (skipValue depth)) position a.body () :=
    (skipPairs_agrees (skipValue_agrees levels enough) (skipValue_forward levels)).reads
      (reads position) (Nat.le_refl _)
  refine (Reads.u16_word slot position).bind ?_
  refine .lift_bind (by rw [found]; rfl) ?_
  exact (pairs _).consumed.bind_nil (.pure a _)

end AnnotationUse

end Bytecode
