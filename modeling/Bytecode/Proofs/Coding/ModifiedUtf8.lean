import Bytecode.Proofs.Coding.Results
import Bytecode.Text.ModifiedUtf8

/-!
# Texts and their stored form

Every text is read back from its modified UTF-8 form. The octets of a unit are read back as that
unit, whatever follows them, and the units of a character as that character. The shortcut for octets
that are all characters by themselves gives what the units give.

`Groups` relates octets to the UTF-16 units that they stand for: an octet by itself, or two or three
of which the later ones continue the first. `Paired` says of units that no surrogate stands alone.
These two decide what can be read (`stored_texts`).
-/

namespace Bytecode.Text

/-- An octet that is a character by itself is a unit by itself. -/
theorem decodeUnits_cons_plain {b : UInt8} (one : 1 ≤ b.toNat ∧ b.toNat < 0x80) (position : Nat)
    (rest : Bytes) :
    decodeUnits position (b :: rest) = (b.toNat :: ·) <$> decodeUnits (position + 1) rest := by
  rw [decodeUnits.eq_def]
  exact if_pos one

/-- The octets of a unit are read back as the unit. -/
theorem decodeUnits_encodeUnit {u : Nat} (small : u < 0x10000) (position : Nat) (rest : Bytes) :
    decodeUnits position (encodeUnit u ++ rest) =
      (u :: ·) <$> decodeUnits (position + (encodeUnit u).length) rest := by
  rw [encodeUnit]
  split
  · rename_i one
    have value : (UInt8.ofNat u).toNat = u :=
      UInt8.toNat_ofNat_of_lt' (Nat.lt_trans one.2 (by decide))
    have read := decodeUnits_cons_plain (b := UInt8.ofNat u) (by rwa [value]) position rest
    rw [value] at read
    exact read
  · rename_i not_one
    split
    · rename_i two
      have first : (UInt8.ofNat (0xc0 + u / 0x40)).toNat = 0xc0 + u / 0x40 :=
        UInt8.toNat_ofNat_of_lt' (by show _ < 256; omega)
      have second : (UInt8.ofNat (0x80 + u % 0x40)).toNat = 0x80 + u % 0x40 :=
        UInt8.toNat_ofNat_of_lt' (by show _ < 256; omega)
      simp only [List.cons_append, List.nil_append, decodeUnits, first, continuation?, second,
        List.length_cons, List.length_nil]
      rw [if_neg (by omega), if_pos (by omega), if_pos (by omega)]
      show (((0xc0 + u / 0x40) % 0x20 * 0x40 + (0x80 + u % 0x40) % 0x40) :: ·) <$> _ = _
      rw [show (0xc0 + u / 0x40) % 0x20 * 0x40 + (0x80 + u % 0x40) % 0x40 = u by omega]
    · rename_i three
      have first : (UInt8.ofNat (0xe0 + u / 0x1000)).toNat = 0xe0 + u / 0x1000 :=
        UInt8.toNat_ofNat_of_lt' (by show _ < 256; omega)
      have second : (UInt8.ofNat (0x80 + u / 0x40 % 0x40)).toNat = 0x80 + u / 0x40 % 0x40 :=
        UInt8.toNat_ofNat_of_lt' (by show _ < 256; omega)
      have third : (UInt8.ofNat (0x80 + u % 0x40)).toNat = 0x80 + u % 0x40 :=
        UInt8.toNat_ofNat_of_lt' (by show _ < 256; omega)
      simp only [List.cons_append, List.nil_append, decodeUnits, first, continuation?, second,
        third, List.length_cons, List.length_nil]
      rw [if_neg (by omega), if_neg (by omega), if_pos (by omega), if_pos (by omega),
        if_pos (by omega)]
      show (((0xe0 + u / 0x1000) % 0x10 * 0x1000 + (0x80 + u / 0x40 % 0x40) % 0x40 * 0x40 +
        (0x80 + u % 0x40) % 0x40) :: ·) <$> _ = _
      rw [show (0xe0 + u / 0x1000) % 0x10 * 0x1000 + (0x80 + u / 0x40 % 0x40) % 0x40 * 0x40 +
        (0x80 + u % 0x40) % 0x40 = u by omega]

/-- The octets of units are read back as the units. -/
theorem decodeUnits_flatMap {units : List Nat} (small : ∀ u ∈ units, u < 0x10000)
    (position : Nat) : decodeUnits position (units.flatMap encodeUnit) = .ok units := by
  induction units generalizing position with
  | nil => rfl
  | cons u units ih =>
    rw [List.flatMap_cons, decodeUnits_encodeUnit (small u List.mem_cons_self),
      ih fun v member => small v (List.mem_cons_of_mem _ member)]
    rfl

/-- The number of a character is outside of the surrogates. -/
theorem toNat_valid (c : Char) : c.toNat < 0xd800 ∨ 0xdfff < c.toNat ∧ c.toNat < 0x110000 :=
  c.valid

theorem lt_of_mem_unitsOf {c : Char} {u : Nat} (member : u ∈ unitsOf c) : u < 0x10000 := by
  have := toNat_valid c
  rw [unitsOf] at member
  split at member <;> simp only [List.mem_cons, List.not_mem_nil, or_false] at member <;> omega

theorem toNat_ofNat {n : Nat} (valid : n < 0xd800 ∨ 0xdfff < n ∧ n < 0x110000) :
    (Char.ofNat n).toNat = n := by
  rw [Char.ofNat, dif_pos valid]
  rfl

/-- The units of a character of the basic plane. -/
theorem unitsOf_single {u : Nat} (plain : u < 0xd800 ∨ 0xdfff < u) (small : u < 0x10000) :
    unitsOf (Char.ofNat u) = [u] := by
  rw [unitsOf, toNat_ofNat (by omega), if_pos small]

/-- A unit that is no surrogate is a character. -/
theorem ofUtf16_cons_plain {u : Nat} (plain : u < 0xd800 ∨ 0xdfff < u) (units : List Nat) :
    ofUtf16 (u :: units) = (Char.ofNat u :: ·) <$> ofUtf16 units := by
  have high : isHighSurrogate u = false := by
    simp only [isHighSurrogate, Bool.and_eq_false_iff, decide_eq_false_iff_not]
    omega
  have low : isLowSurrogate u = false := by
    simp only [isLowSurrogate, Bool.and_eq_false_iff, decide_eq_false_iff_not]
    omega
  cases units <;> simp [ofUtf16, high, low]

/-- A high surrogate and a low one are a character. -/
theorem ofUtf16_cons_pair {u v : Nat} (high : 0xd800 ≤ u ∧ u < 0xdc00)
    (low : 0xdc00 ≤ v ∧ v < 0xe000) (units : List Nat) :
    ofUtf16 (u :: v :: units) =
      (Char.ofNat (0x10000 + (u - 0xd800) * 0x400 + (v - 0xdc00)) :: ·) <$> ofUtf16 units := by
  have high : isHighSurrogate u = true := by simpa [isHighSurrogate] using high
  have low : isLowSurrogate v = true := by simpa [isLowSurrogate] using low
  simp only [ofUtf16, high, low, if_true]

/-- The units of a character are read back as the character. -/
theorem ofUtf16_unitsOf (c : Char) (units : List Nat) :
    ofUtf16 (unitsOf c ++ units) = (c :: ·) <$> ofUtf16 units := by
  have valid := toNat_valid c
  rw [unitsOf]
  split
  · -- A character of the basic plane is a unit of its own, and no surrogate.
    rw [List.singleton_append, ofUtf16_cons_plain (by omega), Char.ofNat_toNat]
  · have joined : 0x10000 + (0xd800 + (c.toNat - 0x10000) / 0x400 - 0xd800) * 0x400 +
        (0xdc00 + (c.toNat - 0x10000) % 0x400 - 0xdc00) = c.toNat := by omega
    rw [List.cons_append, List.singleton_append, ofUtf16_cons_pair (by omega) (by omega), joined,
      Char.ofNat_toNat]

theorem ofUtf16_utf16 (cs : List Char) : ofUtf16 (utf16 cs) = some cs := by
  induction cs with
  | nil => rfl
  | cons c cs ih =>
    show ofUtf16 (unitsOf c ++ utf16 cs) = _
    rw [ofUtf16_unitsOf, ih]
    rfl

/-- Octets that are characters by themselves are units by themselves. -/
theorem decodeUnits_of_plain {bytes : Bytes} (plain : bytes.all isPlain = true) (position : Nat) :
    decodeUnits position bytes = .ok (bytes.map UInt8.toNat) := by
  induction bytes generalizing position with
  | nil => rfl
  | cons b bytes ih =>
    rw [List.all_cons, Bool.and_eq_true] at plain
    have one : 1 ≤ b.toNat ∧ b.toNat < 0x80 := by
      have := plain.1
      simp only [isPlain, Bool.and_eq_true, decide_eq_true_eq] at this
      exact ⟨UInt8.le_iff_toNat_le.mp this.1, UInt8.lt_iff_toNat_lt.mp this.2⟩
    rw [decodeUnits_cons_plain one, ih plain.2]
    rfl

/-- Units below the surrogates are the numbers of characters. -/
theorem ofUtf16_of_small {units : List Nat} (small : ∀ u ∈ units, u < 0xd800) :
    ofUtf16 units = some (units.map Char.ofNat) := by
  induction units with
  | nil => rfl
  | cons u units ih =>
    rw [ofUtf16_cons_plain (.inl (small u List.mem_cons_self)),
      ih fun v member => small v (List.mem_cons_of_mem _ member)]
    rfl

/-- The text of octets, without the shortcut for octets that are all characters by themselves. -/
def decodeByUnits (bytes : Bytes) : Except FormatError String := do
  match ofUtf16 (← decodeUnits 0 bytes) with
  | some cs => return String.ofList cs
  | none => throw .unpairedSurrogate

/-- The shortcut gives what the units give. -/
theorem decodeModified_eq (bytes : Bytes) : decodeModified bytes = decodeByUnits bytes := by
  rw [decodeModified]
  split
  · rename_i plain
    have small : ∀ u ∈ bytes.map UInt8.toNat, u < 0xd800 := by
      intro u member
      obtain ⟨b, -, rfl⟩ := List.mem_map.mp member
      have := b.toNat_lt
      omega
    simp only [decodeByUnits, decodeUnits_of_plain plain, bind, Except.bind, ofUtf16_of_small small,
      List.map_map]
    rfl
  · rfl

/-- Every text is read back from its stored form. -/
theorem decodeModified_encodeModified (text : String) :
    decodeModified (encodeModified text) = .ok text := by
  have units : decodeUnits 0 (encodeModified text) = .ok (utf16 text.toList) := by
    refine decodeUnits_flatMap (fun u member => ?_) 0
    obtain ⟨c, -, unit⟩ := List.mem_flatMap.mp member
    exact lt_of_mem_unitsOf unit
  simp only [decodeModified_eq, decodeByUnits, units, bind, Except.bind, ofUtf16_utf16, pure,
    Except.pure, String.ofList_toList]

/-! ## The grammar -/

/-- An octet continues a group. -/
def Continues (b : UInt8) : Prop := 0x80 ≤ b.toNat ∧ b.toNat < 0xc0

/-- Octets in groups, and the units that these stand for. -/
inductive Groups : Bytes → List Nat → Prop where
  | nil : Groups [] []
  | one {a : UInt8} {rest : Bytes} {units : List Nat} (first : 1 ≤ a.toNat ∧ a.toNat < 0x80)
    (others : Groups rest units) : Groups (a :: rest) (a.toNat :: units)
  | two {a b : UInt8} {rest : Bytes} {units : List Nat} (first : 0xc0 ≤ a.toNat ∧ a.toNat < 0xe0)
    (second : Continues b) (others : Groups rest units) :
    Groups (a :: b :: rest) (((a.toNat - 0xc0) * 0x40 + (b.toNat - 0x80)) :: units)
  | three {a b c : UInt8} {rest : Bytes} {units : List Nat}
    (first : 0xe0 ≤ a.toNat ∧ a.toNat < 0xf0) (second : Continues b) (third : Continues c)
    (others : Groups rest units) :
    Groups (a :: b :: c :: rest)
      (((a.toNat - 0xe0) * 0x1000 + (b.toNat - 0x80) * 0x40 + (c.toNat - 0x80)) :: units)

/-- Among units surrogates come in pairs, the high one first. -/
inductive Paired : List Nat → Prop where
  | nil : Paired []
  | single {u : Nat} {units : List Nat} (plain : u < 0xd800 ∨ 0xdfff < u) (others : Paired units) :
    Paired (u :: units)
  | pair {u v : Nat} {units : List Nat} (high : 0xd800 ≤ u ∧ u < 0xdc00)
    (low : 0xdc00 ≤ v ∧ v < 0xe000) (others : Paired units) : Paired (u :: v :: units)

/-- What an octet contributes that continues a group. -/
theorem continuation?_eq_some {b : UInt8} {x : Nat} :
    continuation? b = some x ↔ Continues b ∧ x = b.toNat - 0x80 := by
  unfold continuation? Continues
  have := b.toNat_lt
  split
  · rw [Option.some.injEq]
    omega
  · simp only [reduceCtorEq, false_iff, not_and]
    omega

/-- What is read is the units that the octets stand for. -/
theorem groups_of_decodeUnits {position : Nat} {bytes : Bytes} {units : List Nat}
    (h : decodeUnits position bytes = .ok units) : Groups bytes units := by
  fun_induction decodeUnits position bytes generalizing units
  case case1 => cases h; exact .nil
  case case2 a rest n first ih =>
    obtain ⟨others, found, rfl⟩ := ok_of_map h
    exact .one first (ih found)
  case case4 a n one two b rest x continues ih =>
    obtain ⟨others, found, rfl⟩ := ok_of_map h
    obtain ⟨second, low⟩ := continuation?_eq_some.mp continues
    have value : n % 0x20 * 0x40 + x =
        (a.toNat - 0xc0) * 0x40 + (b.toNat - 0x80) := by omega
    simp only [value]
    exact .two (by omega) second (ih found)
  case case6 a n one two three b c rest x y continues' continues ih =>
    obtain ⟨others, found, rfl⟩ := ok_of_map h
    obtain ⟨second, low⟩ := continuation?_eq_some.mp continues
    obtain ⟨third, lower⟩ := continuation?_eq_some.mp continues'
    have value : n % 0x10 * 0x1000 + x * 0x40 + y =
        (a.toNat - 0xe0) * 0x1000 + (b.toNat - 0x80) * 0x40 + (c.toNat - 0x80) := by omega
    simp only [value]
    exact .three (by omega) second third (ih found)
  all_goals cases h

/-- Octets in groups are read as the units that they stand for. -/
theorem decodeUnits_of_groups {bytes : Bytes} {units : List Nat} (groups : Groups bytes units)
    (position : Nat) : decodeUnits position bytes = .ok units := by
  induction groups generalizing position with
  | nil => rfl
  | one first _ ih => rw [decodeUnits_cons_plain first, ih]; rfl
  | @two a b rest units first second _ ih =>
    have continues := continuation?_eq_some.mpr ⟨second, rfl⟩
    rw [decodeUnits, if_neg (by omega), if_pos (by omega)]
    simp only [continues, ih]
    show Except.ok ((a.toNat % 0x20 * 0x40 + (b.toNat - 0x80)) :: units) = _
    rw [show a.toNat % 0x20 = a.toNat - 0xc0 by omega]
  | @three a b c rest units first second third _ ih =>
    have continues := continuation?_eq_some.mpr ⟨second, rfl⟩
    have continues' := continuation?_eq_some.mpr ⟨third, rfl⟩
    rw [decodeUnits, if_neg (by omega), if_neg (by omega), if_pos (by omega)]
    simp only [continues, continues', ih]
    show Except.ok ((a.toNat % 0x10 * 0x1000 + (b.toNat - 0x80) * 0x40 + (c.toNat - 0x80)) ::
      units) = _
    rw [show a.toNat % 0x10 = a.toNat - 0xe0 by omega]

/-- What octets stand for are units of 16 bits. -/
theorem lt_of_groups {bytes : Bytes} {units : List Nat} (groups : Groups bytes units) :
    ∀ u ∈ units, u < 0x10000 := by
  induction groups with
  | nil => simp
  | one first _ ih => exact List.forall_mem_cons.mpr ⟨by omega, ih⟩
  | two first second _ ih =>
    have := second.2
    exact List.forall_mem_cons.mpr ⟨by omega, ih⟩
  | three first second third _ ih =>
    have := second.2
    have := third.2
    exact List.forall_mem_cons.mpr ⟨by omega, ih⟩

/-- The units of a character beyond the basic plane. -/
theorem unitsOf_pair {u v : Nat} (high : 0xd800 ≤ u ∧ u < 0xdc00) (low : 0xdc00 ≤ v ∧ v < 0xe000) :
    unitsOf (Char.ofNat (0x10000 + (u - 0xd800) * 0x400 + (v - 0xdc00))) = [u, v] := by
  rw [unitsOf, toNat_ofNat (by omega), if_neg (by omega)]
  simp only [List.cons.injEq, and_true]
  omega

/-- Units that are a text are those of the text, and no surrogate stands alone among them. -/
theorem paired_of_ofUtf16 {units : List Nat} {cs : List Char} (small : ∀ u ∈ units, u < 0x10000)
    (h : ofUtf16 units = some cs) : Paired units ∧ utf16 cs = units := by
  fun_induction ofUtf16 units generalizing cs
  case case1 =>
    cases h
    exact ⟨.nil, rfl⟩
  case case3 u neither =>
    cases h
    have plain : u < 0xd800 ∨ 0xdfff < u := by
      simp [isHighSurrogate, isLowSurrogate] at neither
      omega
    exact ⟨.single plain .nil, by
      rw [utf16, List.flatMap_singleton, unitsOf_single plain (small u List.mem_cons_self)]⟩
  case case4 u v rest high low ih =>
    simp only [isHighSurrogate, isLowSurrogate, Bool.and_eq_true, decide_eq_true_eq] at high low
    obtain ⟨others, read, rfl⟩ := Option.map_eq_some_iff.mp h
    obtain ⟨paired, same⟩ := ih (fun w member => small w (by simp [member])) read
    refine ⟨.pair high low paired, ?_⟩
    rw [utf16, List.flatMap_cons, unitsOf_pair high low]
    exact congrArg ([u, v] ++ ·) same
  case case7 u v rest notHigh notLow ih =>
    have plain : u < 0xd800 ∨ 0xdfff < u := by
      simp [isHighSurrogate, isLowSurrogate] at notHigh notLow
      omega
    obtain ⟨first, later⟩ := List.forall_mem_cons.mp small
    obtain ⟨others, read, rfl⟩ := Option.map_eq_some_iff.mp h
    obtain ⟨paired, same⟩ := ih later read
    refine ⟨.single plain paired, ?_⟩
    rw [utf16, List.flatMap_cons, unitsOf_single plain first]
    exact congrArg ([u] ++ ·) same
  all_goals cases h

/-- Units among which no surrogate stands alone are a text. -/
theorem ofUtf16_of_paired {units : List Nat} (paired : Paired units) :
    ∃ cs, ofUtf16 units = some cs := by
  induction paired with
  | nil => exact ⟨[], rfl⟩
  | single plain _ ih =>
    obtain ⟨cs, read⟩ := ih
    exact ⟨_, by rw [ofUtf16_cons_plain plain, read]; rfl⟩
  | pair high low _ ih =>
    obtain ⟨cs, read⟩ := ih
    exact ⟨_, by rw [ofUtf16_cons_pair high low, read]; rfl⟩

/-- What is read is a text whose units the octets stand for. -/
theorem decodeModified_eq_ok {bytes : Bytes} {text : String} :
    decodeModified bytes = .ok text ↔
      ∃ units, Groups bytes units ∧ ofUtf16 units = some text.toList := by
  rw [decodeModified_eq, decodeByUnits]
  cases read : decodeUnits 0 bytes with
  | error e =>
    refine ⟨fun h => (nomatch h), fun ⟨units, groups, _⟩ => ?_⟩
    rw [decodeUnits_of_groups groups] at read
    cases read
  | ok units =>
    have groups := groups_of_decodeUnits read
    constructor
    · intro h
      refine ⟨units, groups, ?_⟩
      simp only [bind, Except.bind] at h
      split at h
      · next cs found =>
        cases h
        rw [found, String.toList_ofList]
      · cases h
    · rintro ⟨units', groups', found⟩
      have same := (decodeUnits_of_groups groups' 0).symm.trans read
      cases same
      simp only [bind, Except.bind, found, pure, Except.pure, String.ofList_toList]

/-- No octet of a unit is zero. -/
theorem zero_notMem_encodeUnit {u : Nat} (small : u < 0x10000) : 0 ∉ encodeUnit u := by
  have nonzero {n : Nat} (positive : 0 < n) (below : n < 256) : (0 : UInt8) ≠ UInt8.ofNat n := by
    intro same
    have := congrArg UInt8.toNat same
    rw [UInt8.toNat_ofNat_of_lt' below] at this
    exact absurd this (by simp; omega)
  rw [encodeUnit]
  split
  · simp only [List.mem_singleton]
    exact nonzero (by omega) (by omega)
  · split
    · simp only [List.mem_cons, List.not_mem_nil, or_false, not_or]
      exact ⟨nonzero (by omega) (by omega), nonzero (by omega) (by omega)⟩
    · simp only [List.mem_cons, List.not_mem_nil, or_false, not_or]
      exact ⟨nonzero (by omega) (by omega), nonzero (by omega) (by omega),
        nonzero (by omega) (by omega)⟩

/-- Every text is read back from its stored form, which has no zero in it; and octets are read
exactly if they are groups that stand for units among which no surrogate stands alone. What is read
is the text of these units, and the shortcut for octets that are characters by themselves gives the
same. -/
theorem stored_texts :
    (∀ text, decodeModified (encodeModified text) = .ok text ∧ 0 ∉ encodeModified text) ∧
    (∀ bytes, (∃ text, decodeModified bytes = .ok text) ↔
      ∃ units, Groups bytes units ∧ Paired units) ∧
    (∀ bytes text, decodeModified bytes = .ok text ↔ Groups bytes (utf16 text.toList)) ∧
    ∀ bytes, decodeModified bytes = decodeByUnits bytes := by
  refine ⟨fun text => ⟨decodeModified_encodeModified text, fun member => ?_⟩,
    fun bytes => ⟨fun ⟨text, h⟩ => ?_, fun ⟨units, groups, paired⟩ => ?_⟩,
    fun bytes text => ⟨fun h => ?_, fun groups => ?_⟩, decodeModified_eq⟩
  · obtain ⟨u, unit, octet⟩ := List.mem_flatMap.mp member
    obtain ⟨c, -, unit⟩ := List.mem_flatMap.mp unit
    exact zero_notMem_encodeUnit (lt_of_mem_unitsOf unit) octet
  · obtain ⟨units, groups, found⟩ := decodeModified_eq_ok.mp h
    exact ⟨units, groups, (paired_of_ofUtf16 (lt_of_groups groups) found).1⟩
  · obtain ⟨cs, found⟩ := ofUtf16_of_paired paired
    exact ⟨String.ofList cs, decodeModified_eq_ok.mpr
      ⟨units, groups, by rw [found, String.toList_ofList]⟩⟩
  · obtain ⟨units, groups, found⟩ := decodeModified_eq_ok.mp h
    rw [(paired_of_ofUtf16 (lt_of_groups groups) found).2]
    exact groups
  · exact decodeModified_eq_ok.mpr ⟨_, groups, ofUtf16_utf16 text.toList⟩

end Bytecode.Text
