import IncrementalC.Proofs.Machine.Represented
import Mathlib.Data.Int.Bitwise
import Mathlib.Data.Int.ModEq

/-!
# Arithmetic modulo the width

The low `w` bits of a word stand for a number, with or without a sign as the kind has it (`Scalar.number`). What a kind
represents as it is has no other bits (`Scalar.number_of_fits`).

The operators compute with whole words and bring the result into the range of the kind at the end. Sums, differences,
products, shifts to the left and operators on bits may do so, for their low bits hang on those of the operands only.
Quotients, remainders, shifts to the right and comparisons look at all bits, but read them as the kind does. So the result
is congruent to that of the operator on numbers (`Operation.unbounded`), and only a division by zero fails
(`Operation.binary_modular`).
-/
namespace IncrementalC
set_option autoImplicit false

/-! ## Bits of integers -/

theorem toNat_emod_lt (a : Int) (n : Nat) : (a % 2 ^ n).toNat < 2 ^ n := by
  have positive : (0 : Int) < 2 ^ n := Int.pow_pos (by decide)
  have below := Int.emod_lt_of_pos a positive
  rw [Int.toNat_lt (Int.emod_nonneg a positive.ne')]
  exact_mod_cast below

/-- The low bits of an integer are those of its remainder. -/
theorem testBit_emod (a : Int) {n i : Nat} (inside : i < n) : (a % 2 ^ n).toNat.testBit i = a.testBit i := by
  cases a with
  | ofNat m =>
    have rest : Int.ofNat m % 2 ^ n = ((m % 2 ^ n : Nat) : Int) := by
      push_cast
      rfl
    rw [rest, Int.toNat_natCast, Nat.testBit_mod_two_pow, decide_eq_true inside, Bool.true_and]
    rfl
  | negSucc m =>
    -- the bits of a negative number are those of its complement, inverted
    have below : m % 2 ^ n < 2 ^ n := Nat.mod_lt m (Nat.two_pow_pos n)
    have rest : Int.negSucc m % 2 ^ n = ((2 ^ n - (m % 2 ^ n + 1) : Nat) : Int) := by
      rw [Int.negSucc_emod m (Int.pow_pos (by decide)), Nat.cast_sub below]
      push_cast
      omega
    rw [rest, Int.toNat_natCast, Nat.testBit_two_pow_sub_succ below, Nat.testBit_mod_two_pow, decide_eq_true inside,
      Bool.true_and, Bool.true_and]
    rfl

theorem modEq_iff_testBit {a b : Int} {n : Nat} : a ≡ b [ZMOD 2 ^ n] ↔ ∀ i < n, a.testBit i = b.testBit i := by
  constructor
  · intro same i inside
    rw [← testBit_emod a inside, ← testBit_emod b inside, same]
  · intro same
    have rest : (a % 2 ^ n).toNat = (b % 2 ^ n).toNat := by
      refine Nat.eq_of_testBit_eq fun i => ?_
      by_cases inside : i < n
      · rw [testBit_emod a inside, testBit_emod b inside, same i inside]
      · have wide : 2 ^ n ≤ 2 ^ i := Nat.pow_le_pow_right Nat.two_pos (Nat.le_of_not_lt inside)
        rw [Nat.testBit_lt_two_pow (Nat.lt_of_lt_of_le (toNat_emod_lt a n) wide),
          Nat.testBit_lt_two_pow (Nat.lt_of_lt_of_le (toNat_emod_lt b n) wide)]
    have positive : (0 : Int) < 2 ^ n := Int.pow_pos (by decide)
    have first := Int.emod_nonneg a positive.ne'
    have second := Int.emod_nonneg b positive.ne'
    show a % 2 ^ n = b % 2 ^ n
    omega

/-! ## Words -/

/-- A word without a sign and with one. -/
theorem toNat_modEq_toInt (v : Int64) : v.toUInt64.toNat ≡ v.toInt [ZMOD 2 ^ 64] := by
  show (v.toBitVec.toNat : Int) % _ = v.toBitVec.toInt % _
  rw [BitVec.toInt_eq_toNat_bmod]
  exact Int.bmod_emod.symm

theorem toInt64_modEq (u : UInt64) : u.toInt64.toInt ≡ u.toNat [ZMOD 2 ^ 64] := (toNat_modEq_toInt u.toInt64).symm

theorem testBit_toInt (v : Int64) {i : Nat} (inside : i < 64) : v.toInt.testBit i = v.toUInt64.toNat.testBit i :=
  (modEq_iff_testBit.mp (toNat_modEq_toInt v) i inside).symm

/-! ## Numbers of a kind -/

namespace Scalar

/-- The number of bits of an integer. Truth values are no integers here. -/
def width? : Scalar → Option Nat
  | .i8 | .u8 => some 8
  | .i16 | .u16 => some 16
  | .i32 | .u32 => some 32
  | .i64 | .u64 => some 64
  | .bool | .f32 | .f64 | .ptr | .dyn => none

/-- The number that the low `w` bits of a word stand for. The highest one counts as negative in a kind with a sign. -/
def number (k : Scalar) (w : Nat) (v : Int64) : Int :=
  if k.isUnsigned then v.toInt % 2 ^ w else v.toInt.bmod (2 ^ w)

variable {k : Scalar} {w : Nat} {x : Int64}

theorem isInteger_of_width (width : k.width? = some w) : k.isInteger := by
  cases k <;> first | rfl | cases width

theorem width_le (width : k.width? = some w) : w ≤ 64 := by
  cases k <;> cases width <;> decide

theorem shiftable (width : k.width? = some w) : (64 : Int) ∣ 2 ^ w := by
  cases k <;> cases width <;> decide

theorem wrap_truth (k : Scalar) (b : Bool) : k.wrap (if b then 1 else 0) = if b then 1 else 0 := by
  cases b <;> cases k <;> rfl

theorem number_modEq (k : Scalar) (w : Nat) (v : Int64) : k.number w v ≡ v.toInt [ZMOD 2 ^ w] := by
  unfold number
  split
  · exact Int.mod_modEq _ _
  · show _ % _ = _ % _
    exact_mod_cast Int.bmod_emod

theorem toInt_wrap (width : k.width? = some w) (signed : k.isUnsigned = false) (v : Int64) :
    (k.wrap v).toInt = v.toInt.bmod (2 ^ w) := by
  cases k with
  | i8 =>
    cases width
    exact (Int8.toInt_toInt64 _).trans (Int64.toInt_toInt8 v)
  | i16 =>
    cases width
    exact (Int16.toInt_toInt64 _).trans (Int64.toInt_toInt16 v)
  | i32 =>
    cases width
    exact (Int32.toInt_toInt64 _).trans (Int64.toInt_toInt32 v)
  | i64 =>
    cases width
    have least := Int64.le_toInt v
    have most := Int64.toInt_lt v
    show v.toInt = v.toInt.bmod (2 ^ 64)
    exact (Int.bmod_eq_of_le (by omega) (by omega)).symm
  | u8 | u16 | u32 | u64 => cases signed
  | _ => cases width

theorem toNat_wrap (width : k.width? = some w) (unsigned : k.isUnsigned) (v : Int64) :
    (k.wrap v).toUInt64.toNat = v.toUInt64.toNat % 2 ^ w := by
  cases k with
  | u8 | u16 | u32 =>
    cases width
    simp [wrap]
  | u64 =>
    cases width
    exact (Nat.mod_eq_of_lt v.toUInt64.toNat_lt).symm
  | i8 | i16 | i32 | i64 => cases unsigned
  | _ => cases width

theorem wrap_modEq (width : k.width? = some w) (v : Int64) : (k.wrap v).toInt ≡ v.toInt [ZMOD 2 ^ w] := by
  have divides : (2 : Int) ^ w ∣ 2 ^ 64 := pow_dvd_pow 2 (width_le width)
  cases unsigned : k.isUnsigned with
  | false =>
    rw [toInt_wrap width unsigned]
    show _ % _ = _ % _
    exact_mod_cast Int.bmod_emod
  | true =>
    have rest : (k.wrap v).toUInt64.toNat ≡ v.toUInt64.toNat [ZMOD 2 ^ w] := by
      rw [toNat_wrap width unsigned]
      push_cast
      exact Int.mod_modEq _ _
    exact ((toNat_modEq_toInt (k.wrap v)).of_dvd divides).symm.trans (rest.trans ((toNat_modEq_toInt v).of_dvd divides))

/-- All bits of a word that the kind represents as it is belong to its number. -/
theorem number_of_fits (width : k.width? = some w) (fits : k.wrap x = x) :
    k.number w x = if k.isUnsigned then (x.toUInt64.toNat : Int) else x.toInt := by
  have divides : (2 : Int) ^ w ∣ 2 ^ 64 := pow_dvd_pow 2 (width_le width)
  unfold number
  cases unsigned : k.isUnsigned with
  | false => rw [if_neg Bool.false_ne_true, if_neg Bool.false_ne_true, ← toInt_wrap width unsigned, fits]
  | true =>
    have rest : x.toInt % 2 ^ w = x.toUInt64.toNat % 2 ^ w := ((toNat_modEq_toInt x).of_dvd divides).symm
    rw [if_pos rfl, if_pos rfl, rest]
    conv_rhs => rw [← fits, toNat_wrap width unsigned]
    push_cast
    rfl

theorem number_eq_zero (width : k.width? = some w) (fits : k.wrap x = x) : k.number w x = 0 ↔ x = 0 := by
  rw [number_of_fits width fits]
  split
  · rw [← Int64.toBitVec_inj, ← BitVec.toNat_inj]
    exact Int.ofNat_inj
  · exact Int64.toInt_inj (y := 0)

end Scalar

/-! ## Operators on numbers -/

def Code.BinaryOp.isDivision : Code.BinaryOp → Bool
  | .div | .rem => true
  | _ => false

namespace Operation

/-- The number of places by which a shift moves bits. -/
def shiftCount (y : Int) : Nat := (y % 64).toNat

/-- What an operator makes of two integers if nothing bounds the result. A quotient is rounded towards zero and a remainder has
the sign of the dividend, a shift to the right rounds down, a negative number has ones for all its higher bits, and a
comparison gives one or zero. -/
def unbounded (op : Code.BinaryOp) (x y : Int) : Int :=
  match op with
  | .add => x + y
  | .sub => x - y
  | .mul => x * y
  | .div => x.tdiv y
  | .rem => x.tmod y
  | .shl => x * 2 ^ shiftCount y
  | .shr => x.fdiv (2 ^ shiftCount y)
  | .bitAnd => x.land y
  | .bitOr => x.lor y
  | .bitXor => x.xor y
  | .lt => if x < y then 1 else 0
  | .le => if x ≤ y then 1 else 0
  | .gt => if x > y then 1 else 0
  | .ge => if x ≥ y then 1 else 0
  | .eq => if x = y then 1 else 0
  | .ne => if x ≠ y then 1 else 0

/-! ## Operators on words -/

section Words

variable (x y : Int64)

theorem add_modEq : (x + y).toInt ≡ x.toInt + y.toInt [ZMOD 2 ^ 64] := by
  rw [Int64.toInt_add]
  exact Int.bmod_emod

theorem sub_modEq : (x - y).toInt ≡ x.toInt - y.toInt [ZMOD 2 ^ 64] := by
  rw [Int64.toInt_sub]
  exact Int.bmod_emod

theorem mul_modEq : (x * y).toInt ≡ x.toInt * y.toInt [ZMOD 2 ^ 64] := by
  rw [Int64.toInt_mul]
  exact Int.bmod_emod

theorem shiftCount_unsigned : y.toUInt64.toNat % 64 = shiftCount y.toInt := by
  have same : (y.toUInt64.toNat : Int) % 64 = y.toInt % 64 := (toNat_modEq_toInt y).of_dvd (by decide)
  unfold shiftCount
  omega

theorem shiftCount_signed : (y.toBitVec.smod 64).toNat = shiftCount y.toInt := by
  have rest : (y.toBitVec.smod 64).toInt = y.toInt % 64 := by
    rw [BitVec.toInt_smod]
    exact Int.fmod_eq_emod_of_nonneg _ (by decide)
  rw [BitVec.toInt_eq_toNat_cond] at rest
  unfold shiftCount
  split at rest <;> omega

theorem shl_modEq : (x <<< y).toInt ≡ x.toInt * 2 ^ shiftCount y.toInt [ZMOD 2 ^ 64] := by
  have word : (x <<< y).toInt = ((x.toUInt64.toNat * 2 ^ shiftCount y.toInt : Nat) : Int).bmod (2 ^ 64) := by
    show (x <<< y).toBitVec.toInt = _
    rw [Int64.toBitVec_shiftLeft, BitVec.shiftLeft_eq', BitVec.toInt_shiftLeft, shiftCount_signed, Nat.shiftLeft_eq]
    rfl
  rw [word]
  refine (show _ ≡ _ [ZMOD 2 ^ 64] from Int.bmod_emod).trans ?_
  push_cast
  exact (toNat_modEq_toInt x).mul_right _

theorem shr_signed : (x >>> y).toInt = x.toInt.fdiv (2 ^ shiftCount y.toInt) := by
  show (x >>> y).toBitVec.toInt = _
  rw [Int64.toBitVec_shiftRight, BitVec.sshiftRight_eq', BitVec.toInt_sshiftRight, shiftCount_signed,
    Int.shiftRight_eq_div_pow, Int.fdiv_eq_ediv_of_nonneg _ (Int.pow_nonneg (by decide))]
  push_cast
  rfl

theorem shr_unsigned :
    ((x.toUInt64 >>> y.toUInt64).toNat : Int) = (x.toUInt64.toNat : Int).fdiv (2 ^ shiftCount y.toInt) := by
  rw [UInt64.toNat_shiftRight, shiftCount_unsigned, Nat.shiftRight_eq_div_pow,
    Int.fdiv_eq_ediv_of_nonneg _ (Int.pow_nonneg (by decide))]
  push_cast
  rfl

end Words

variable {op : Code.BinaryOp} {k : Scalar} {w : Nat} {x y r : Int64} {a b c : Int}

/-- An operator on bits makes of two integers, bit by bit, what it makes of the words with their low bits. -/
theorem bits_modEq {f : Bool → Bool → Bool} (narrow : w ≤ 64)
    (word : ∀ i, r.toUInt64.toNat.testBit i = f (x.toUInt64.toNat.testBit i) (y.toUInt64.toNat.testBit i))
    (bits : ∀ i, c.testBit i = f (a.testBit i) (b.testBit i)) (ha : a ≡ x.toInt [ZMOD 2 ^ w])
    (hb : b ≡ y.toInt [ZMOD 2 ^ w]) : r.toInt ≡ c [ZMOD 2 ^ w] := by
  refine modEq_iff_testBit.mpr fun i inside => ?_
  have low : i < 64 := Nat.lt_of_lt_of_le inside narrow
  rw [testBit_toInt r low, word, bits, modEq_iff_testBit.mp ha i inside, modEq_iff_testBit.mp hb i inside,
    testBit_toInt x low, testBit_toInt y low]

theorem binary_by_zero (integer : k.isInteger) (division : op.isDivision) :
    binary op k (.int x) (.int 0) = .error .divisionByZero := by
  rw [binary_int integer]
  cases op with
  | div | rem => rfl
  | _ => cases division

/-! ## Operators in a kind -/

section Kind

variable (width : k.width? = some w)
include width

theorem shiftCount_number : shiftCount (k.number w y) = shiftCount y.toInt := by
  have same : k.number w y % 64 = y.toInt % 64 := (k.number_modEq w y).of_dvd (Scalar.shiftable width)
  unfold shiftCount
  rw [same]

variable (hx : k.wrap x = x)
include hx

theorem shr_modEq : (if k.isUnsigned then (x.toUInt64 >>> y.toUInt64).toInt64 else x >>> y).toInt ≡
    (k.number w x).fdiv (2 ^ shiftCount (k.number w y)) [ZMOD 2 ^ 64] := by
  rw [shiftCount_number width, Scalar.number_of_fits width hx]
  split
  · rw [← shr_unsigned]
    exact toInt64_modEq _
  · rw [← shr_signed]

variable (hy : k.wrap y = y)
include hy

theorem div_modEq : (if k.isUnsigned then (x.toUInt64 / y.toUInt64).toInt64 else x / y).toInt ≡
    (k.number w x).tdiv (k.number w y) [ZMOD 2 ^ 64] := by
  rw [Scalar.number_of_fits width hx, Scalar.number_of_fits width hy]
  split
  · rw [← Int.ofNat_tdiv, ← UInt64.toNat_div]
    exact toInt64_modEq _
  · rw [Int64.toInt_div]
    exact Int.bmod_emod

theorem rem_modEq : (if k.isUnsigned then (x.toUInt64 % y.toUInt64).toInt64 else x % y).toInt ≡
    (k.number w x).tmod (k.number w y) [ZMOD 2 ^ 64] := by
  rw [Scalar.number_of_fits width hx, Scalar.number_of_fits width hy]
  split
  · rw [← Int.ofNat_tmod, ← UInt64.toNat_mod]
    exact toInt64_modEq _
  · rw [← Int64.toInt_mod]

/-- The word that is brought into the range of the kind at the end. -/
theorem integers_modEq (arithmetic : op.isComparison = false) (defined : op.isDivision → y ≠ 0) :
    ∃ r, integers op k x y = .ok (k.wrap r) ∧ r.toInt ≡ unbounded op (k.number w x) (k.number w y) [ZMOD 2 ^ w] := by
  have narrow : w ≤ 64 := Scalar.width_le width
  have word {a b : Int} (h : a ≡ b [ZMOD 2 ^ 64]) : a ≡ b [ZMOD 2 ^ w] := h.of_dvd (pow_dvd_pow 2 narrow)
  have first : x.toInt ≡ k.number w x [ZMOD 2 ^ w] := (k.number_modEq w x).symm
  have second : y.toInt ≡ k.number w y [ZMOD 2 ^ w] := (k.number_modEq w y).symm
  cases op with
  | add => exact ⟨_, rfl, (word (add_modEq x y)).trans (first.add second)⟩
  | sub => exact ⟨_, rfl, (word (sub_modEq x y)).trans (first.sub second)⟩
  | mul => exact ⟨_, rfl, (word (mul_modEq x y)).trans (first.mul second)⟩
  | div =>
    refine ⟨_, ?_, word (div_modEq width hx hy)⟩
    simp only [integers, defined rfl, if_false]
    rfl
  | rem =>
    refine ⟨_, ?_, word (rem_modEq width hx hy)⟩
    simp only [integers, defined rfl, if_false]
    rfl
  | shl =>
    refine ⟨_, rfl, (word (shl_modEq x y)).trans ?_⟩
    rw [← shiftCount_number width]
    exact first.mul_right _
  | shr => exact ⟨_, rfl, word (shr_modEq width hx)⟩
  | bitAnd =>
    refine ⟨_, rfl, bits_modEq (f := and) narrow (fun i => ?_) (fun i => Int.testBit_land _ _ i) first.symm second.symm⟩
    rw [Int64.toUInt64_and, UInt64.toNat_and, Nat.testBit_and]
  | bitOr =>
    refine ⟨_, rfl, bits_modEq (f := or) narrow (fun i => ?_) (fun i => Int.testBit_lor _ _ i) first.symm second.symm⟩
    rw [Int64.toUInt64_or, UInt64.toNat_or, Nat.testBit_or]
  | bitXor =>
    refine ⟨_, rfl, bits_modEq (f := xor) narrow (fun i => ?_) (fun i => Int.testBit_lxor _ _ i) first.symm second.symm⟩
    rw [Int64.toUInt64_xor, UInt64.toNat_xor, Nat.testBit_xor]
  | lt | le | gt | ge | eq | ne => cases arithmetic

/-- A kind compares words as their numbers are ordered. -/
theorem compare_eq (comparison : op.isComparison) :
    (if compare op k (.int x) (.int y) then 1 else 0 : Int64).toInt = unbounded op (k.number w x) (k.number w y) := by
  have truth {b : Bool} {p : Prop} [Decidable p] (h : b ↔ p) :
      (if b then 1 else 0 : Int64).toInt = if p then 1 else 0 := by
    cases b with
    | false => exact (if_neg fun holds => Bool.false_ne_true (h.mpr holds)).symm
    | true => exact (if_pos (h.mp rfl)).symm
  rw [compare_int (Scalar.isInteger_of_width width), Scalar.number_of_fits width hx, Scalar.number_of_fits width hy]
  split
  · cases op with
    | lt | gt => exact truth (by simp [compareWords, UInt64.lt_iff_toNat_lt])
    | le | ge => exact truth (by simp [compareWords, UInt64.le_iff_toNat_le])
    | eq | ne => exact truth (by simp [compareWords, ← UInt64.toNat_inj])
    | _ => cases comparison
  · cases op with
    | lt | gt => exact truth (by simp [compareSigned, Int64.lt_iff_toInt_lt])
    | le | ge => exact truth (by simp [compareSigned, Int64.le_iff_toInt_le])
    | eq | ne => exact truth (by simp [compareSigned, Int64.toInt_inj])
    | _ => cases comparison

end Kind

/-- Every integer kind computes modulo its width. Only a division by zero fails. Any other operator, and a division by
another number, gives a word in the range of the kind, which is congruent to what the operator makes of the numbers and, if
the operator compares them, the same. -/
theorem binary_modular (width : k.width? = some w) (hx : k.wrap x = x) (hy : k.wrap y = y) (op : Code.BinaryOp) :
    (∀ f, binary op k (.int x) (.int y) = .error f ↔ f = .divisionByZero ∧ op.isDivision ∧ k.number w y = 0) ∧
    (¬(op.isDivision ∧ k.number w y = 0) → ∃ r, binary op k (.int x) (.int y) = .ok (.int r) ∧ k.wrap r = r ∧
      k.number w r ≡ unbounded op (k.number w x) (k.number w y) [ZMOD 2 ^ w] ∧
      (op.isComparison → r.toInt = unbounded op (k.number w x) (k.number w y))) := by
  have integer : k.isInteger := Scalar.isInteger_of_width width
  have computes (defined : ¬(op.isDivision ∧ k.number w y = 0)) : ∃ r, binary op k (.int x) (.int y) = .ok (.int r) ∧
      k.wrap r = r ∧ k.number w r ≡ unbounded op (k.number w x) (k.number w y) [ZMOD 2 ^ w] ∧
      (op.isComparison → r.toInt = unbounded op (k.number w x) (k.number w y)) := by
    rw [binary_int integer]
    cases comparison : op.isComparison with
    | true =>
      have ordered := compare_eq width hx hy comparison
      refine ⟨_, rfl, ?_, ?_, fun _ => ordered⟩
      · exact k.wrap_truth _
      · rw [← ordered]
        exact k.number_modEq w _
    | false =>
      have nonzero (division : op.isDivision) : y ≠ 0 := fun zero =>
        defined ⟨division, (Scalar.number_eq_zero width hy).mpr zero⟩
      obtain ⟨r, result, same⟩ := integers_modEq width hx hy comparison nonzero
      refine ⟨k.wrap r, ?_, k.wrap_wrap r, ?_, nofun⟩
      · rw [result]
        rfl
      · exact (k.number_modEq w _).trans ((Scalar.wrap_modEq width r).trans same)
  refine ⟨fun f => ?_, computes⟩
  by_cases defined : op.isDivision ∧ k.number w y = 0
  · obtain ⟨division, zero⟩ := defined
    obtain rfl : y = 0 := (Scalar.number_eq_zero width hy).mp zero
    rw [binary_by_zero integer division]
    exact ⟨fun failed => ⟨(Except.error.inj failed).symm, division, zero⟩, fun ⟨fault, _⟩ => fault ▸ rfl⟩
  · obtain ⟨r, result, -⟩ := computes defined
    rw [result]
    exact ⟨nofun, fun ⟨_, undefined⟩ => absurd undefined defined⟩

/-- The least byte divided by minus one comes back to itself, which is congruent to the quotient. -/
theorem least_byte_divided : Scalar.width? .i8 = some 8 ∧ Scalar.wrap .i8 (-128) = -128 ∧ Scalar.wrap .i8 (-1) = -1 ∧
    binary .div .i8 (.int (-128)) (.int (-1)) = .ok (.int (-128)) ∧ Scalar.number .i8 8 (-128) ≡ 128 [ZMOD 2 ^ 8] := by
  have fits : Scalar.wrap .i8 (-128) = -128 := rfl
  have fits' : Scalar.wrap .i8 (-1) = -1 := rfl
  obtain ⟨-, computes⟩ := binary_modular (k := .i8) rfl fits fits' .div
  obtain ⟨r, result, -, same, -⟩ := computes (by decide)
  have least : r = -128 := by
    cases result
    rfl
  subst least
  exact ⟨rfl, fits, fits', result, same⟩

end Operation

end IncrementalC
