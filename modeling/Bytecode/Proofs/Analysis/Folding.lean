import Bytecode.Proofs.Machine.Datum
import Mathlib.Tactic.Positivity
import Mathlib.Tactic.NormNum

/-!
# Folding is the arithmetic of the machine

`Fold.unary` and `Fold.binary` compute on literals with machine words, and the reference machine
with integers that are brought back into their width. The first half of this module proves the two
equal for every operation on integers: `fold_int32`, `fold_shift32`, `fold_narrow` and their
counterparts for longs say so operation by operation.

`Denotes` relates a literal to the datum that it stands for. The second half lifts the equalities to
it: an operation on literals has the literal of the machine's result, if it has one at all.
-/

namespace Bytecode.Machine

open Analysis

/-! ## Integers -/

/-- A shift to the left multiplies. -/
private theorem bmod_shiftLeft {w : Nat} (x : BitVec w) (k : Nat) :
    (x.toInt * 2 ^ k).bmod (2 ^ w) = (x <<< k).toInt := by
  rw [BitVec.toInt_shiftLeft, BitVec.toInt_eq_toNat_bmod, Nat.shiftLeft_eq]
  push_cast
  rw [Int.bmod_mul_bmod]

/-- A shift to the right that keeps the sign divides. -/
private theorem bmod_sshiftRight {w : Nat} (x : BitVec w) (k : Nat) :
    (x.toInt / 2 ^ k).bmod (2 ^ w) = (x.sshiftRight k).toInt := by
  rw [← BitVec.toInt_bmod_cancel (x.sshiftRight k), BitVec.toInt_sshiftRight,
    Int.shiftRight_eq_div_pow]
  push_cast
  rfl

/-- The number without its sign is the number modulo two to the power of the width. -/
theorem toInt_emod {w : Nat} (x : BitVec w) : x.toInt % 2 ^ w = (x.toNat : Int) := by
  have dropped := Int.bmod_emod (x := (x.toNat : Int)) (m := 2 ^ w)
  push_cast at dropped
  rw [BitVec.toInt_eq_toNat_bmod, dropped]
  exact Int.emod_eq_of_lt (by positivity) (by exact_mod_cast x.isLt)

/-- A shift to the right without a sign divides the unsigned number. -/
private theorem bmod_ushiftRight {w : Nat} (x : BitVec w) (k : Nat) :
    (x.toInt % 2 ^ w / 2 ^ k).bmod (2 ^ w) = (x >>> k).toInt := by
  rw [toInt_emod, BitVec.toInt_eq_toNat_bmod (x >>> k), BitVec.toNat_ushiftRight,
    Nat.shiftRight_eq_div_pow]
  push_cast
  rfl

/-- Folding on ints is arithmetic on integers, and has no result where that raises an exception. -/
theorem fold_int32 (op : Arithmetic) (a b : Int32) :
    Fold.int32 op a b = (integral op a.toInt b.toInt).toOption.map Int32.ofInt := by
  cases op with
  | add => simp [Fold.int32, integral, Except.toOption]
  | sub => simp [Fold.int32, integral, Except.toOption]
  | mul => simp [Fold.int32, integral, Except.toOption]
  | div =>
    by_cases zero : b = 0
    · simp [Fold.int32, integral, zero, Except.toOption]
    · have nonzero : b.toInt ≠ 0 := fun e => zero (Int32.toInt_inj.mp (e.trans Int32.toInt_zero.symm))
      have quotient : Int32.ofInt (a.toInt.tdiv b.toInt) = a / b := by
        rw [Int32.ofInt_eq_iff_bmod_eq_toInt, ← Int32.toInt_div]
      simp [Fold.int32, integral, zero, nonzero, Except.toOption, quotient]
  | rem =>
    by_cases zero : b = 0
    · simp [Fold.int32, integral, zero, Except.toOption]
    · have nonzero : b.toInt ≠ 0 := fun e => zero (Int32.toInt_inj.mp (e.trans Int32.toInt_zero.symm))
      have remainder : Int32.ofInt (a.toInt.tmod b.toInt) = a % b := by
        rw [← Int32.toInt_mod, Int32.ofInt_toInt]
      simp [Fold.int32, integral, zero, nonzero, Except.toOption, remainder]

/-- Folding on longs is arithmetic on integers, and has no result where that raises an exception. -/
theorem fold_int64 (op : Arithmetic) (a b : Int64) :
    Fold.int64 op a b = (integral op a.toInt b.toInt).toOption.map Int64.ofInt := by
  cases op with
  | add => simp [Fold.int64, integral, Except.toOption]
  | sub => simp [Fold.int64, integral, Except.toOption]
  | mul => simp [Fold.int64, integral, Except.toOption]
  | div =>
    by_cases zero : b = 0
    · simp [Fold.int64, integral, zero, Except.toOption]
    · have nonzero : b.toInt ≠ 0 := fun e => zero (Int64.toInt_inj.mp (e.trans Int64.toInt_zero.symm))
      have quotient : Int64.ofInt (a.toInt.tdiv b.toInt) = a / b := by
        rw [Int64.ofInt_eq_iff_bmod_eq_toInt, ← Int64.toInt_div]
      simp [Fold.int64, integral, zero, nonzero, Except.toOption, quotient]
  | rem =>
    by_cases zero : b = 0
    · simp [Fold.int64, integral, zero, Except.toOption]
    · have nonzero : b.toInt ≠ 0 := fun e => zero (Int64.toInt_inj.mp (e.trans Int64.toInt_zero.symm))
      have remainder : Int64.ofInt (a.toInt.tmod b.toInt) = a % b := by
        rw [← Int64.toInt_mod, Int64.ofInt_toInt]
      simp [Fold.int64, integral, zero, nonzero, Except.toOption, remainder]

/-- A small number is its own remainder, also as a signed one. -/
private theorem smod_ofNat {w k m : Nat} (width : 2 * m ≤ 2 ^ w) (small : k < m)
    (modulus : (BitVec.ofNat w m).toInt = m) :
    (BitVec.ofNat w k).smod (BitVec.ofNat w m) = BitVec.ofNat w k := by
  have value : (BitVec.ofNat w k).toInt = k := by
    rw [BitVec.toInt_ofNat', Int.bmod_eq_of_le] <;> omega
  rw [← BitVec.toInt_inj, BitVec.toInt_smod, value, modulus,
    Int.fmod_eq_emod_of_nonneg _ (by omega), Int.emod_eq_of_lt (by omega) (by omega)]

/-- A folded shift of an int is the shift of the integer, brought back into 32 bits. -/
theorem fold_shift32 (op : Shift) (a d : Int32) :
    Fold.shift32 op a d = Int32.ofInt (shifted op 32 a.toInt d.toInt) := by
  symm
  rw [Int32.ofInt_eq_iff_bmod_eq_toInt]
  have small : (d.toInt % 32).toNat < 32 := by omega
  unfold Fold.shift32 shifted
  rw [show ((32 : Nat) : Int) = 32 from rfl]
  generalize (d.toInt % 32).toNat = k at small ⊢
  have distance : (UInt32.ofNat k).toBitVec % 32 = BitVec.ofNat 32 k := by
    apply BitVec.eq_of_toNat_eq
    show k % 2 ^ 32 % 32 = k % 2 ^ 32
    omega
  have places : (BitVec.ofNat 32 k).toNat = k := by
    simp only [BitVec.toNat_ofNat]
    omega
  cases op with
  | left =>
    show _ = (a.toBitVec <<< ((UInt32.ofNat k).toBitVec % 32)).toInt
    rw [distance, BitVec.shiftLeft_eq', places]
    exact bmod_shiftLeft a.toBitVec k
  | right =>
    show _ = (a.toBitVec.sshiftRight' ((BitVec.ofNat 32 k).smod (BitVec.ofNat 32 32))).toInt
    rw [smod_ofNat (by decide) small (by decide), BitVec.sshiftRight_eq', places]
    exact bmod_sshiftRight a.toBitVec k
  | unsignedRight =>
    show _ = (a.toBitVec >>> ((UInt32.ofNat k).toBitVec % 32)).toInt
    rw [distance, BitVec.ushiftRight_eq', places]
    exact bmod_ushiftRight a.toBitVec k

/-- A folded shift of a long is the shift of the integer, brought back into 64 bits. -/
theorem fold_shift64 (op : Shift) (a : Int64) (d : Int32) :
    Fold.shift64 op a d = Int64.ofInt (shifted op 64 a.toInt d.toInt) := by
  symm
  rw [Int64.ofInt_eq_iff_bmod_eq_toInt]
  have small : (d.toInt % 64).toNat < 64 := by omega
  unfold Fold.shift64 shifted
  rw [show ((64 : Nat) : Int) = 64 from rfl]
  generalize (d.toInt % 64).toNat = k at small ⊢
  have distance : (UInt64.ofNat k).toBitVec % 64 = BitVec.ofNat 64 k := by
    apply BitVec.eq_of_toNat_eq
    show k % 2 ^ 64 % 64 = k % 2 ^ 64
    omega
  have places : (BitVec.ofNat 64 k).toNat = k := by
    simp only [BitVec.toNat_ofNat]
    omega
  cases op with
  | left =>
    show _ = (a.toBitVec <<< ((UInt64.ofNat k).toBitVec % 64)).toInt
    rw [distance, BitVec.shiftLeft_eq', places]
    exact bmod_shiftLeft a.toBitVec k
  | right =>
    show _ = (a.toBitVec.sshiftRight' ((BitVec.ofNat 64 k).smod (BitVec.ofNat 64 64))).toInt
    rw [smod_ofNat (by decide) small (by decide), BitVec.sshiftRight_eq', places]
    exact bmod_sshiftRight a.toBitVec k
  | unsignedRight =>
    show _ = (a.toBitVec >>> ((UInt64.ofNat k).toBitVec % 64)).toInt
    rw [distance, BitVec.ushiftRight_eq', places]
    exact bmod_ushiftRight a.toBitVec k

/-- The low half of an int, as an unsigned number. -/
theorem toNat_toUInt16 (v : Int32) : (v.toUInt32.toUInt16.toNat : Int) = v.toInt % 65536 := by
  have low : v.toUInt32.toUInt16.toNat = v.toBitVec.toNat % 65536 := rfl
  have sign : v.toInt = (v.toBitVec.toNat : Int).bmod (2 ^ 32) := BitVec.toInt_eq_toNat_bmod _
  have parts := Int.bmod_def (v.toBitVec.toNat : Int) (2 ^ 32)
  rw [low, sign, parts]
  norm_num
  split <;> omega

/-- Narrowing keeps the low bits. -/
theorem fold_narrow (target : Narrowing) (v : Int32) :
    Fold.narrow target v = Int32.ofInt (narrowed target v.toInt) := by
  symm
  rw [Int32.ofInt_eq_iff_bmod_eq_toInt]
  cases target with
  | byte =>
    simp only [narrowed, Fold.narrow, Int8.toInt_toInt32, Int32.toInt_toInt8]
    have above := v.toInt.bmod_lt (m := 256) (by decide)
    have below := v.toInt.le_bmod (m := 256) (by decide)
    rw [Int.bmod_eq_of_le] <;> omega
  | char =>
    have wide : (Fold.narrow .char v).toInt = ((v.toUInt32.toUInt16.toNat : Int)).bmod (2 ^ 32) := by
      rw [← Int32.toInt_toBitVec, BitVec.toInt_eq_toNat_bmod]
      rfl
    rw [wide, toNat_toUInt16, narrowed]
  | short =>
    simp only [narrowed, Fold.narrow, Int16.toInt_toInt32, Int32.toInt_toInt16]
    have above := v.toInt.bmod_lt (m := 65536) (by decide)
    have below := v.toInt.le_bmod (m := 65536) (by decide)
    rw [Int.bmod_eq_of_le] <;> omega

/-- The folded comparison of longs is the order of the integers. -/
theorem fold_compare (a b : Int) : Fold.ordering 0 (some (compare a b)) = orderOf a b := by
  unfold orderOf
  rcases lt_trichotomy a b with less | rfl | greater
  · rw [Int.compare_eq_lt.mpr less, if_pos less]
    rfl
  · rw [Int.compare_eq_eq.mpr rfl, if_neg (lt_irrefl a), if_pos rfl]
    rfl
  · rw [Int.compare_eq_gt.mpr greater, if_neg (not_lt_of_gt greater), if_neg (ne_of_gt greater)]
    rfl

/-! ## Literals -/

/-- A literal stands for a datum. The contents of a builder are no matter of the literal alone, so
that a builder literal stands for none. -/
inductive Denotes : Literal → Datum → Prop
  | int (v : Int32) : Denotes (.int v) (.int v)
  | long (v : Int64) : Denotes (.long v) (.long v)
  | float (b : UInt32) : Denotes (.float b) (.float b)
  | double (b : UInt64) : Denotes (.double b) (.double b)
  | string (text : String) (identity : Nat) :
      Denotes (.string text) (.ref (.text identity (unitsOf text)))
  | classRef (name : String) : Denotes (.classRef name) (.ref (.classRef name))
  | null : Denotes .null (.ref .null)

/-- The literal of a constant stands for the datum of the constant. -/
theorem denotes_ofConstant {c : Constant} {l : Literal} (h : (Literal.ofConstant c).2 = some l) :
    ∃ d, ofConstant c = some d ∧ Denotes l d := by
  cases c <;> simp only [Literal.ofConstant, Option.some.injEq, reduceCtorEq] at h <;> subst h
  · exact ⟨_, rfl, .int _⟩
  · exact ⟨_, rfl, .float _⟩
  · exact ⟨_, rfl, .long _⟩
  · exact ⟨_, rfl, .double _⟩
  · exact ⟨_, rfl, .string _ _⟩
  · exact ⟨_, rfl, .classRef _⟩

/-- A folded conversion has the literal of the machine's result. -/
theorem denotes_convert {source target : NumericKind} {l m : Literal} {d e : Datum}
    (denotes : Denotes l d) (folded : Fold.convert source target l = some m)
    (computed : d.convert source target = some e) : Denotes m e := by
  unfold Fold.convert at folded
  split at folded
  · cases folded
  · cases denotes <;> cases source <;> cases target <;>
      simp_all [Datum.convert, Fold.toInteger, Fold.toFloating, Fold.numericKind?] <;>
      subst folded computed <;> constructor

/-- A folded unary operation has the literal of the machine's result. -/
theorem denotes_unary {op : UnaryOp} {l m : Literal} {d e : Datum} (denotes : Denotes l d)
    (folded : Fold.unary op l = some m) (computed : d.unary op = some e) : Denotes m e := by
  cases op with
  | neg kind =>
    cases denotes <;> cases kind <;> simp_all [Fold.unary, Datum.unary] <;>
      subst folded computed <;> constructor
  | convert source target => exact denotes_convert denotes folded computed
  | narrow target =>
    cases denotes <;> simp_all [Fold.unary, Datum.unary, fold_narrow]
    subst folded computed
    exact .int _

/-- A folded binary operation has the literal of the machine's result, and the machine raises no
exception. -/
theorem denotes_binary {op : BinaryOp} {l m n : Literal} {d e : Datum} {r : Except String Datum}
    (left : Denotes l d) (right : Denotes m e) (folded : Fold.binary op l m = some n)
    (computed : d.binary op e = some r) : ∃ f, r = .ok f ∧ Denotes n f := by
  cases op with
  | arithmetic op kind =>
    cases left <;> cases right <;> cases kind <;>
      simp only [Fold.binary, reduceCtorEq, Option.map_eq_some_iff] at folded <;>
      simp only [Datum.binary, Option.some.injEq] at computed <;> subst computed
    case int.int.int a b =>
      obtain ⟨c, folded, rfl⟩ := folded
      rw [fold_int32] at folded
      cases result : integral op a.toInt b.toInt <;> simp [result, Except.toOption] at folded
      exact ⟨_, rfl, folded ▸ .int _⟩
    case long.long.long a b =>
      obtain ⟨c, folded, rfl⟩ := folded
      rw [fold_int64] at folded
      cases result : integral op a.toInt b.toInt <;> simp [result, Except.toOption] at folded
      exact ⟨_, rfl, folded ▸ .long _⟩
    all_goals
      cases folded
      exact ⟨_, rfl, by constructor⟩
  | shift op wide =>
    cases left <;> cases right <;> cases wide <;>
      simp only [Fold.binary, reduceCtorEq, Option.some.injEq] at folded <;>
      simp only [Datum.binary, Option.some.injEq] at computed <;> subst folded computed
    · exact ⟨_, rfl, fold_shift32 .. ▸ .int _⟩
    · exact ⟨_, rfl, fold_shift64 .. ▸ .long _⟩
  | bitwise op wide =>
    cases left <;> cases right <;> cases wide <;>
      simp only [Fold.binary, reduceCtorEq, Option.some.injEq] at folded <;>
      simp only [Datum.binary, Option.some.injEq] at computed <;> subst folded computed
    · exact ⟨_, rfl, .int _⟩
    · exact ⟨_, rfl, .long _⟩
  | compareLong =>
    cases left <;> cases right <;>
      simp only [Fold.binary, reduceCtorEq, Option.some.injEq] at folded <;>
      simp only [Datum.binary, Option.some.injEq] at computed
    subst folded computed
    exact ⟨_, rfl, fold_compare .. ▸ .int _⟩
  | compareFloating wide unordered =>
    cases left <;> cases right <;> cases wide <;>
      simp only [Fold.binary, reduceCtorEq, Option.some.injEq] at folded <;>
      simp only [Datum.binary, Option.some.injEq] at computed <;> subst folded computed
    · exact ⟨_, rfl, .int _⟩
    · exact ⟨_, rfl, .int _⟩

/-- A folded increment has the literal of the machine's sum. -/
theorem denotes_increment {amount : Int16} {l m : Literal} {v : Int32} (denotes : Denotes l (.int v))
    (folded : Fold.increment amount l = some m) :
    Denotes m (.int (.ofInt (v.toInt + amount.toInt))) := by
  cases denotes
  have sum : Int32.ofInt (v.toInt + amount.toInt) = v + amount.toInt32 := by
    rw [Int32.ofInt_add, Int32.ofInt_toInt, Int32.ofInt_int16ToInt]
  simp only [Fold.increment, Literal.asInt?, Option.map_some, Option.some.injEq] at folded
  rw [← folded, sum]
  exact .int _

end Bytecode.Machine
