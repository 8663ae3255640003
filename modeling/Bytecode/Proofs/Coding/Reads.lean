import Bytecode.Bytes.Cursor

/-!
# Parsers on stored forms

`Reads item position bytes value` says that a parser which stands at a position before some octets
takes exactly these octets and returns a value, whatever follows them. The rules below follow the
construction of a parser. The position matters only to parsers that align themselves.

`Confined item` is the converse view of a parser: whatever it returns was read from the octets that
it has taken, so that it returns the same wherever these octets occur. `Placed item` says so of
octets that stay where they stand, which is all that holds of a parser that aligns itself.
-/

namespace Bytecode

/-- A fixed width type of which nothing gets lost in its octets. -/
class LawfulWord (α : Type) [Word α] : Prop where
  ofBits_toBits : ∀ value : α, Word.ofBits (Word.toBits value) = value
  toBits_lt : ∀ value : α, Word.toBits value < Nat.pow 256 (Word.width α)

instance : LawfulWord UInt8 := ⟨fun _ => UInt8.ofNat_toNat, UInt8.toNat_lt⟩
instance : LawfulWord UInt16 := ⟨fun _ => UInt16.ofNat_toNat, UInt16.toNat_lt⟩
instance : LawfulWord UInt32 := ⟨fun _ => UInt32.ofNat_toNat, UInt32.toNat_lt⟩
instance : LawfulWord UInt64 := ⟨fun _ => UInt64.ofNat_toNat, UInt64.toNat_lt⟩

instance : LawfulWord Int8 :=
  ⟨fun value => by
    show Int8.ofNat value.toUInt8.toNat = value
    apply Int8.toBitVec_inj.mp
    simp [Int8.ofNat],
    fun value => value.toUInt8.toNat_lt⟩

instance : LawfulWord Int16 :=
  ⟨fun value => by
    show Int16.ofNat value.toUInt16.toNat = value
    apply Int16.toBitVec_inj.mp
    simp [Int16.ofNat],
    fun value => value.toUInt16.toNat_lt⟩

instance : LawfulWord Int32 :=
  ⟨fun value => by
    show Int32.ofNat value.toUInt32.toNat = value
    apply Int32.toBitVec_inj.mp
    simp [Int32.ofNat],
    fun value => value.toUInt32.toNat_lt⟩

instance : LawfulWord Int64 :=
  ⟨fun value => by
    show Int64.ofNat value.toUInt64.toNat = value
    apply Int64.toBitVec_inj.mp
    simp [Int64.ofNat],
    fun value => value.toUInt64.toNat_lt⟩

/-- The octets of a word denote the word. -/
theorem Word.decode_encode {α : Type} [Word α] [LawfulWord α] (value : α) :
    (Word.decode (Word.encode value) : α) = value := by
  rw [decode, encode, Bytes.toNat_ofNat, Nat.mod_eq_of_lt (LawfulWord.toBits_lt value),
    LawfulWord.ofBits_toBits]

@[simp]
theorem Word.length_encode {α : Type} [Word α] (value : α) :
    (Word.encode value).length = Word.width α :=
  Bytes.length_ofNat ..

@[simp]
theorem Bytes.length_u16 (n : Nat) : (Bytes.u16 n).length = 2 :=
  Bytes.length_ofNat ..

@[simp]
theorem Bytes.length_u32 (n : Nat) : (Bytes.u32 n).length = 4 :=
  Bytes.length_ofNat ..

namespace Reader

variable {α β : Type}

/-- What a parser and then another one have returned. -/
theorem bind_eq_ok {item : Reader α} {next : α → Reader β} {c c' : Cursor} {result : β}
    (ran : (item >>= next) c = .ok (result, c')) :
    ∃ value between, item c = .ok (value, between) ∧ next value between = .ok (result, c') := by
  change (item c >>= fun p => next p.1 p.2) = _ at ran
  cases first : item c with
  | error cause => rw [first] at ran; cases ran
  | ok p =>
    rw [first] at ran
    exact ⟨p.1, p.2, rfl, ran⟩

theorem pure_eq_ok {value result : α} {c c' : Cursor}
    (ran : (Pure.pure value : Reader α) c = .ok (result, c')) : value = result ∧ c = c' := by
  injection ran with same
  exact Prod.mk.inj same

/-- What has been returned behind a condition that makes a parser fail. -/
theorem guard_eq_ok {p : Prop} [Decidable p] {cause : Failure} {next : Unit → Reader α}
    {item : Reader α} {c c' : Cursor} {value : α}
    (ran : (if p then throw cause >>= next else item) c = .ok (value, c')) :
    ¬ p ∧ item c = .ok (value, c') := by
  by_cases h : p
  · rw [if_pos h] at ran
    cases ran
  · rw [if_neg h] at ran
    exact ⟨h, ran⟩

theorem lift_eq_ok {x : Except Failure α} {result : α} {c c' : Cursor}
    (ran : (liftM x : Reader α) c = .ok (result, c')) : x = .ok result ∧ c = c' := by
  cases x with
  | error cause => cases ran
  | ok value =>
    obtain ⟨rfl, rfl⟩ := pure_eq_ok ran
    exact ⟨rfl, rfl⟩

/-- The octets that have been read are those at the cursor. -/
theorem bytes_eq_ok {count : Nat} {c c' : Cursor} {taken : Bytes}
    (ran : Reader.bytes count c = .ok (taken, c')) :
    c.rest = taken ++ c'.rest ∧ taken.length = count ∧ c'.position = c.position + count := by
  rw [Reader.bytes] at ran
  split at ran
  · rename_i enough
    obtain ⟨rfl, rfl⟩ : c.rest.take count = taken ∧ c.skip count enough = c' := by
      injection ran with same
      exact Prod.mk.inj same
    exact ⟨(List.take_append_drop _ _).symm, enough, rfl⟩
  · cases ran

theorem word_eq_ok [Word α] {c c' : Cursor} {value : α}
    (ran : Reader.word α c = .ok (value, c')) :
    ∃ taken, c.rest = taken ++ c'.rest ∧ taken.length = Word.width α ∧
      c'.position = c.position + Word.width α ∧ value = Word.decode taken := by
  obtain ⟨taken, c₁, read, ran⟩ := bind_eq_ok ran
  obtain ⟨rfl, rfl⟩ := pure_eq_ok ran
  obtain ⟨shows, size, moved⟩ := bytes_eq_ok read
  exact ⟨taken, shows, size, moved, rfl⟩

/-- A parser at a position takes some octets and returns a value, whatever follows them. -/
def Reads (item : Reader α) (position : Nat) (bytes : Bytes) (value : α) : Prop :=
  ∀ (c : Cursor) (tail : Bytes), c.position = position → c.rest = bytes ++ tail →
    ∃ c', item c = .ok (value, c') ∧ c'.rest = tail ∧ c'.position = position + bytes.length

namespace Reads

variable {position : Nat} {bytes more : Bytes} {item : Reader α} {value : α}

/-- At the start of its octets a parser returns the value. -/
theorem run (h : Reads item 0 bytes value) (tail : Bytes) :
    ∃ c, item.run (Cursor.ofBytes (bytes ++ tail)) = .ok (value, c) ∧ c.rest = tail := by
  obtain ⟨c, ran, rest, -⟩ := h (Cursor.ofBytes (bytes ++ tail)) tail rfl rfl
  exact ⟨c, ran, rest⟩

theorem pure (value : α) (position : Nat) : Reads (Pure.pure value) position [] value :=
  fun c _ at_ shows => ⟨c, rfl, shows, at_⟩

/-- One parser behind another takes the octets of both. -/
theorem bind {next : α → Reader β} {result : β} (first : Reads item position bytes value)
    (second : Reads (next value) (position + bytes.length) more result) :
    Reads (item >>= next) position (bytes ++ more) result := by
  intro c tail at_ shows
  rw [List.append_assoc] at shows
  obtain ⟨c₁, ran₁, shows₁, at₁⟩ := first c (more ++ tail) at_ shows
  obtain ⟨c₂, ran₂, shows₂, at₂⟩ := second c₁ tail at₁ shows₁
  refine ⟨c₂, ?_, shows₂, by rw [at₂, List.length_append, Nat.add_assoc]⟩
  show (item c >>= fun p => next p.1 p.2) = _
  rw [ran₁]
  exact ran₂

/-- A parser in front of one that takes no octets. -/
theorem bind_nil {next : α → Reader β} {result : β} (first : Reads item position bytes value)
    (second : Reads (next value) (position + bytes.length) [] result) :
    Reads (item >>= next) position bytes result := by
  have := first.bind second
  rwa [List.append_nil] at this

/-- A parser whose result is used behind it. -/
theorem map {f : α → β} (h : Reads item position bytes value) :
    Reads (item >>= fun a => Pure.pure (f a)) position bytes (f value) :=
  h.bind_nil (pure (f value) _)

theorem lift (value : α) (position : Nat) :
    Reads (liftM (Except.ok value : Except Failure α)) position [] value :=
  fun c _ at_ shows => ⟨c, rfl, shows, at_⟩

/-- A computation that takes no octets, in front of a parser. -/
theorem lift_bind {next : α → Reader β} {result : β} {x : Except Failure α} (ok : x = .ok value)
    (second : Reads (next value) position bytes result) :
    Reads (liftM x >>= next) position bytes result := by
  subst ok
  exact (lift value position).bind second

theorem bytes_self (bytes : Bytes) (position : Nat) :
    Reads (Reader.bytes bytes.length) position bytes bytes := by
  intro c tail at_ shows
  have taken : c.rest.take bytes.length = bytes := by rw [shows, List.take_left]
  refine ⟨c.skip bytes.length (by rw [taken]), ?_, ?_, congrArg (· + bytes.length) at_⟩
  · simp only [Reader.bytes, taken, dite_true]
  · show c.rest.drop bytes.length = tail
    rw [shows, List.drop_left]

theorem bytes_of_length {count : Nat} (size : bytes.length = count) (position : Nat) :
    Reads (Reader.bytes count) position bytes bytes :=
  size ▸ bytes_self bytes position

theorem advance {step : Nat} (size : bytes.length = step) (position : Nat) :
    Reads (Reader.advance step) position bytes () := by
  intro c tail at_ shows
  have taken : c.rest.take step = bytes := by rw [shows, ← size, List.take_left]
  refine ⟨c.skip step (by rw [taken, size]), ?_, ?_, ?_⟩
  · rw [Reader.advance, dif_pos (by rw [taken, size])]
  · show c.rest.drop step = tail
    rw [shows, ← size, List.drop_left]
  · show c.position + step = _
    rw [at_, size]

/-- The octets up to the next multiple of an alignment. -/
theorem align {alignment : Nat}
    (size : bytes.length = (alignment - position % alignment) % alignment) :
    Reads (Reader.align alignment) position bytes () := by
  intro c tail at_ shows
  exact advance (size.trans (by rw [at_])) position c tail at_ shows

theorem word [Word α] [LawfulWord α] (value : α) (position : Nat) :
    Reads (Reader.word α) position (Word.encode value) value := by
  have := (bytes_of_length (Word.length_encode value) position).map (f := Word.decode (α := α))
  rwa [Word.decode_encode] at this

theorem u8 (b : UInt8) (position : Nat) : Reads Reader.u8 position [b] b := by
  have := word b position
  rwa [show Word.encode b = [b] from congrArg (fun x => [x]) UInt8.ofNat_toNat] at this

/-- An octet that decides how to go on. -/
theorem u8_bind {next : UInt8 → Reader α} {tag : UInt8}
    (h : Reads (next tag) (position + 1) bytes value) :
    Reads (Reader.u8 >>= next) position (tag :: bytes) value :=
  (u8 tag position).bind h

theorem u16_word (value : UInt16) (position : Nat) :
    Reads Reader.u16 position (Word.encode value) value :=
  word value position

theorem u32_word (value : UInt32) (position : Nat) :
    Reads Reader.u32 position (Word.encode value) value :=
  word value position

/-- The octets of a number are read as a word modulo what they hold. -/
theorem word_ofNat (α : Type) [Word α] (n position : Nat) :
    Reads (Reader.word α) position (Bytes.ofNat (Word.width α) n)
      (Word.ofBits (n % Nat.pow 256 (Word.width α))) := by
  have := (bytes_of_length (Bytes.length_ofNat (Word.width α) n) position).map
    (f := Word.decode (α := α))
  rwa [Word.decode, Bytes.toNat_ofNat] at this

/-- A count that is stored in two octets is read back modulo what these hold. -/
theorem u16 (n position : Nat) : Reads Reader.u16 position (Bytes.u16 n) (UInt16.ofNat n) := by
  have := word_ofNat UInt16 n position
  rwa [show Word.ofBits (n % Nat.pow 256 (Word.width UInt16)) = UInt16.ofNat n from
    UInt16.toNat_inj.mp (by simp [Word.ofBits, Word.width])] at this

theorem u32 (n position : Nat) : Reads Reader.u32 position (Bytes.u32 n) (UInt32.ofNat n) := by
  have := word_ofNat UInt32 n position
  rwa [show Word.ofBits (n % Nat.pow 256 (Word.width UInt32)) = UInt32.ofNat n from
    UInt32.toNat_inj.mp (by simp [Word.ofBits, Word.width])] at this

/-- A count that is stored with a sign. -/
theorem int32_count {n : Nat} (small : n < 2147483648) (position : Nat) :
    Reads (Reader.word Int32) position (Bytes.u32 n) (Int32.ofNat n) := by
  have := word_ofNat Int32 n position
  rwa [Nat.mod_eq_of_lt (Nat.lt_trans small (by decide))] at this

/-- A condition that makes a parser fail does not hold. -/
theorem guard {p : Prop} [Decidable p] {failing : Reader α} (fine : ¬ p)
    (h : Reads item position bytes value) :
    Reads (if p then failing else item) position bytes value := by
  rwa [if_neg fine]

/-- Items one behind the other, each in its stored form. -/
theorem replicate {stored : β → Bytes} {f : β → α} (l : List β)
    (each : ∀ b ∈ l, ∀ position, Reads item position (stored b) (f b)) (position : Nat) :
    Reads (Reader.replicate item l.length) position (l.flatMap stored) (l.map f) := by
  induction l generalizing position with
  | nil => exact pure [] position
  | cons b l ih =>
    have first := each b List.mem_cons_self position
    have others := ih (fun b member => each b (List.mem_cons_of_mem _ member))
    exact first.bind ((others _).map)

/-- A count, and behind it so many items. -/
theorem counted {stored : β → Bytes} {f : β → α} (l : List β) (size : l.length < 65536)
    (each : ∀ b ∈ l, ∀ position, Reads item position (stored b) (f b)) (position : Nat) :
    Reads (Reader.counted item) position (Bytes.u16 l.length ++ l.flatMap stored)
      (l.map f) := by
  have count : (UInt16.ofNat l.length).toNat = l.length := UInt16.toNat_ofNat_of_lt' size
  refine (u16 l.length position).bind ?_
  rw [count]
  exact replicate l each _

end Reads

/-- What a parser returns comes from the octets that it takes: it returns the same at any other
place where these octets stand. -/
def Confined (item : Reader α) : Prop :=
  ∀ (c : Cursor) (value : α) (c' : Cursor), item c = .ok (value, c') →
    ∃ bytes, c.rest = bytes ++ c'.rest ∧ c'.position = c.position + bytes.length ∧
      ∀ position, Reads item position bytes value

namespace Confined

theorem pure (value : α) : Confined (Pure.pure value) := by
  intro c v c' ran
  obtain ⟨rfl, rfl⟩ := pure_eq_ok ran
  exact ⟨[], rfl, rfl, Reads.pure value⟩

theorem bind {item : Reader α} {next : α → Reader β} (first : Confined item)
    (second : ∀ value, Confined (next value)) : Confined (item >>= next) := by
  intro c result c' ran
  obtain ⟨value, between, here, there⟩ := bind_eq_ok ran
  obtain ⟨taken, shows₁, at₁, reads₁⟩ := first c value between here
  obtain ⟨more, shows₂, at₂, reads₂⟩ := second value between result c' there
  refine ⟨taken ++ more, ?_, ?_, fun position => (reads₁ position).bind (reads₂ _)⟩
  · rw [shows₁, shows₂, List.append_assoc]
  · rw [at₂, at₁, List.length_append, Nat.add_assoc]

theorem fail (cause : Failure) : Confined (throw cause : Reader α) := by
  intro c v c' ran
  cases ran

theorem lift (x : Except Failure α) : Confined (liftM x : Reader α) := by
  cases x with
  | error cause => exact fail cause
  | ok value => exact pure value

theorem bytes (count : Nat) : Confined (Reader.bytes count) := by
  intro c taken c' ran
  obtain ⟨shows, size, moved⟩ := bytes_eq_ok ran
  exact ⟨taken, shows, by rw [moved, size], Reads.bytes_of_length size⟩

theorem word (α : Type) [Word α] : Confined (Reader.word α) :=
  (bytes _).bind fun _ => pure _

theorem u8 : Confined Reader.u8 :=
  word UInt8

theorem u16 : Confined Reader.u16 :=
  word UInt16

/-- The octets that a parser is said to have taken are those that it returns the value from. -/
theorem of_consumed {item : Reader α} (confined : Confined item) {c c' : Cursor} {value : α}
    {taken : Bytes} (ran : Reader.consumed item c = .ok ((value, taken), c')) (position : Nat) :
    Reads item position taken value := by
  obtain ⟨before, c₀, got, ran⟩ := bind_eq_ok ran
  obtain ⟨rfl, rfl⟩ : c = before ∧ c = c₀ := pure_eq_ok got
  obtain ⟨v, c₁, here, ran⟩ := bind_eq_ok ran
  obtain ⟨stop, c₂, at_, ran⟩ := bind_eq_ok ran
  obtain ⟨rfl, rfl⟩ : c₁.position = stop ∧ c₁ = c₂ := pure_eq_ok at_
  obtain ⟨same, rfl⟩ := pure_eq_ok ran
  obtain ⟨rfl, rfl⟩ := Prod.mk.inj same
  obtain ⟨bytes, shows, moved, reads⟩ := confined c v c₁ here
  have exactly : c.rest.take (c₁.position - c.position) = bytes := by
    rw [moved, Nat.add_sub_cancel_left, shows, List.take_left]
  rw [exactly]
  exact reads position

end Confined

/-- A parser never goes back, and stays in its contents. -/
def Forward (item : Reader α) : Prop :=
  ∀ (c : Cursor) (value : α) (c' : Cursor), item c = .ok (value, c') →
    c'.data = c.data ∧ c.position ≤ c'.position

namespace Forward

theorem pure (value : α) : Forward (Pure.pure value) := by
  intro c v c' ran
  obtain ⟨-, rfl⟩ := pure_eq_ok ran
  exact ⟨rfl, Nat.le_refl _⟩

theorem bind {item : Reader α} {next : α → Reader β} (first : Forward item)
    (second : ∀ value, Forward (next value)) : Forward (item >>= next) := by
  intro c result c' ran
  obtain ⟨value, between, here, there⟩ := bind_eq_ok ran
  obtain ⟨same₁, moved₁⟩ := first c value between here
  obtain ⟨same₂, moved₂⟩ := second value between result c' there
  exact ⟨same₂.trans same₁, Nat.le_trans moved₁ moved₂⟩

theorem fail (cause : Failure) : Forward (throw cause : Reader α) := by
  intro c v c' ran
  cases ran

/-- A condition that makes a parser fail. -/
theorem guard {p : Prop} [Decidable p] {cause : Failure} {next : Unit → Reader α}
    {item : Reader α} (h : Forward item) :
    Forward (if p then throw cause >>= next else item) := by
  intro c v c' ran
  exact h c v c' (guard_eq_ok ran).2

theorem lift (x : Except Failure α) : Forward (liftM x : Reader α) := by
  intro c v c' ran
  obtain ⟨-, rfl⟩ := lift_eq_ok ran
  exact ⟨rfl, Nat.le_refl _⟩

theorem advance (step : Nat) : Forward (Reader.advance step) := by
  intro c v c' ran
  rw [Reader.advance] at ran
  split at ran
  · cases ran
    exact ⟨rfl, Nat.le_add_right ..⟩
  · cases ran

theorem align (alignment : Nat) : Forward (Reader.align alignment) := by
  intro c v c' ran
  exact advance _ c v c' ran

theorem bytes (count : Nat) : Forward (Reader.bytes count) := by
  intro c v c' ran
  rw [Reader.bytes] at ran
  split at ran
  · cases ran
    exact ⟨rfl, Nat.le_add_right ..⟩
  · cases ran

theorem word (α : Type) [Word α] : Forward (Reader.word α) :=
  (bytes _).bind fun _ => pure _

theorem u8 : Forward Reader.u8 :=
  word UInt8

theorem u16 : Forward Reader.u16 :=
  word UInt16

theorem replicate {item : Reader α} (h : Forward item) (count : Nat) :
    Forward (Reader.replicate item count) := by
  induction count with
  | zero => exact pure []
  | succ count ih => exact h.bind fun _ => ih.bind fun _ => pure _

end Forward

/-- What a parser returns comes from the octets that it takes and from where these stand: at the same
position it returns the same, whatever follows them. -/
def Placed (item : Reader α) : Prop :=
  ∀ (c : Cursor) (value : α) (c' : Cursor), item c = .ok (value, c') → c'.data = c.data ∧
    ∃ bytes, c.rest = bytes ++ c'.rest ∧ c'.position = c.position + bytes.length ∧
      Reads item c.position bytes value

namespace Placed

theorem forward {item : Reader α} (h : Placed item) : Forward item := by
  intro c v c' ran
  obtain ⟨same, taken, -, moved, -⟩ := h c v c' ran
  exact ⟨same, moved ▸ Nat.le_add_right ..⟩

theorem pure (value : α) : Placed (Pure.pure value) := by
  intro c v c' ran
  obtain ⟨rfl, rfl⟩ := pure_eq_ok ran
  exact ⟨rfl, [], rfl, rfl, Reads.pure value _⟩

theorem bind {item : Reader α} {next : α → Reader β} (first : Placed item)
    (second : ∀ value, Placed (next value)) : Placed (item >>= next) := by
  intro c result c' ran
  obtain ⟨value, between, here, there⟩ := bind_eq_ok ran
  obtain ⟨same₁, taken, shows₁, at₁, reads₁⟩ := first c value between here
  obtain ⟨same₂, more, shows₂, at₂, reads₂⟩ := second value between result c' there
  refine ⟨same₂.trans same₁, taken ++ more, ?_, ?_, reads₁.bind (at₁ ▸ reads₂)⟩
  · rw [shows₁, shows₂, List.append_assoc]
  · rw [at₂, at₁, List.length_append, Nat.add_assoc]

theorem fail (cause : Failure) : Placed (throw cause : Reader α) := by
  intro c v c' ran
  cases ran

/-- A condition that makes a parser fail. -/
theorem guard {p : Prop} [Decidable p] {cause : Failure} {next : Unit → Reader α}
    {item : Reader α} (h : Placed item) :
    Placed (if p then throw cause >>= next else item) := by
  intro c v c' ran
  obtain ⟨fine, ran⟩ := guard_eq_ok ran
  obtain ⟨same, taken, shows, moved, reads⟩ := h c v c' ran
  exact ⟨same, taken, shows, moved, reads.guard fine⟩

theorem lift (x : Except Failure α) : Placed (liftM x : Reader α) := by
  cases x with
  | error cause => exact fail cause
  | ok value => exact pure value

theorem bytes (count : Nat) : Placed (Reader.bytes count) := by
  intro c taken c' ran
  obtain ⟨shows, size, moved⟩ := bytes_eq_ok ran
  exact ⟨(Forward.bytes count c taken c' ran).1, taken, shows, by rw [moved, size],
    Reads.bytes_of_length size _⟩

theorem word (α : Type) [Word α] : Placed (Reader.word α) :=
  (bytes _).bind fun _ => pure _

theorem u8 : Placed Reader.u8 :=
  word UInt8

theorem u16 : Placed Reader.u16 :=
  word UInt16

theorem advance (step : Nat) : Placed (Reader.advance step) := by
  intro c v c' ran
  refine ⟨(Forward.advance step c v c' ran).1, c.rest.take step, ?_⟩
  rw [Reader.advance] at ran
  split at ran
  · rename_i enough
    cases ran
    exact ⟨(List.take_append_drop ..).symm, congrArg (c.position + ·) enough.symm,
      Reads.advance enough _⟩
  · cases ran

theorem align (alignment : Nat) : Placed (Reader.align alignment) := by
  intro c v c' ran
  obtain ⟨same, taken, shows, moved, -⟩ := advance _ c v c' ran
  refine ⟨same, taken, shows, moved, Reads.align ?_⟩
  -- How far the cursor moves is all that the position decides.
  have : c'.position = c.position + (alignment - c.position % alignment) % alignment := by
    change Reader.advance _ c = _ at ran
    rw [Reader.advance] at ran
    split at ran
    · cases ran
      rfl
    · cases ran
  omega

theorem replicate {item : Reader α} (h : Placed item) (count : Nat) :
    Placed (Reader.replicate item count) := by
  induction count with
  | zero => exact pure []
  | succ count ih => exact h.bind fun _ => ih.bind fun _ => pure _

end Placed

end Reader

end Bytecode
