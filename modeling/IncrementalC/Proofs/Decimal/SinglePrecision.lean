import IncrementalC.Double
import Mathlib.Algebra.Group.Nat.Defs

/-!
# Rounding to single precision

A rounded number is a single-precision number, so rounding it again changes nothing
(`Double.roundSingle_roundSingle`).
-/
namespace IncrementalC
set_option autoImplicit false

theorem roundHalfEven_mul (k : Nat) {unit : Nat} (positive : 0 < unit) : roundHalfEven (k * unit) unit = k := by
  have below : compare (2 * 0) unit = .lt := Nat.compare_eq_lt.mpr (by omega)
  unfold roundHalfEven
  rw [Nat.mul_mod_left, below]
  exact Nat.mul_div_cancel k positive

theorem roundHalfEven_small {m unit : Nat} (small : 2 * m < unit) : roundHalfEven m unit = 0 := by
  have below : compare (2 * m) unit = .lt := Nat.compare_eq_lt.mpr small
  unfold roundHalfEven
  rw [Nat.mod_eq_of_lt (by omega), below]
  exact Nat.div_eq_of_lt (by omega)

theorem roundHalfEven_between (m unit : Nat) :
    m / unit ≤ roundHalfEven m unit ∧ roundHalfEven m unit ≤ m / unit + 1 := by
  unfold roundHalfEven
  dsimp only
  split
  · exact ⟨Nat.le_refl _, Nat.le_succ _⟩
  · exact ⟨Nat.le_succ _, Nat.le_refl _⟩
  · split
    · exact ⟨Nat.le_refl _, Nat.le_succ _⟩
    · exact ⟨Nat.le_succ _, Nat.le_refl _⟩

/-- A number that lies between two multiples of the unit is rounded to one between them. -/
theorem rounded_between {m unit low high : Nat} (positive : 0 < unit) (above : low * unit ≤ m) (below : m < high * unit) :
    low * unit ≤ roundHalfEven m unit * unit ∧ roundHalfEven m unit * unit ≤ high * unit := by
  obtain ⟨least, most⟩ := roundHalfEven_between m unit
  have first : low ≤ m / unit := (Nat.le_div_iff_mul_le positive).mpr above
  have last : m / unit < high := (Nat.div_lt_iff_lt_mul positive).mpr below
  exact ⟨Nat.mul_le_mul_right _ (by omega), Nat.mul_le_mul_right _ (by omega)⟩

namespace Double

theorem singleBits_eq (b : Nat) : singleBits b = (
    let e := max (b / 2 ^ 52) 1
    let base := (e - 1) * 2 ^ 52
    let unit := 2 ^ (29 + (897 - e))
    let rounded := roundHalfEven (b - base) unit * unit
    if rounded = 0 then 0 else if base + rounded < 1151 * 2 ^ 52 then base + rounded else infinity.bits.toNat) := by
  unfold singleBits
  simp only [Nat.shiftRight_eq_div_pow, Nat.shiftLeft_eq, Nat.one_mul]

/-- The bits of a single-precision number: the significand `m` at the exponent `e` has no bits below the last one
that is kept. -/
theorem singleBits_fixed {e m : Nat} (normal : 1 ≤ e) (low : 2 ^ 52 ≤ m) (high : m < 2 ^ 53)
    (kept : 2 ^ (29 + (897 - e)) ∣ m) (inside : (e - 1) * 2 ^ 52 + m < 1151 * 2 ^ 52) :
    singleBits ((e - 1) * 2 ^ 52 + m) = (e - 1) * 2 ^ 52 + m := by
  have exponent : max (((e - 1) * 2 ^ 52 + m) / 2 ^ 52) 1 = e := by
    rw [Nat.add_comm, Nat.add_mul_div_right _ _ (by decide)]
    omega
  obtain ⟨k, rfl⟩ := kept
  have positive : 0 < 2 ^ (29 + (897 - e)) := Nat.two_pow_pos _
  rw [singleBits_eq]
  dsimp only
  rw [exponent, Nat.add_sub_cancel_left, Nat.mul_comm _ k, roundHalfEven_mul k positive, Nat.mul_comm k, if_neg (by omega),
    if_pos inside]

/-- A significand whose last `d` bits are dropped becomes nothing, or a significand of the same exponent or of the
next one. -/
theorem rounded_cases {d m : Nat} (high : m < 2 ^ 53) (normal : d ≤ 52 → 2 ^ 52 ≤ m) :
    roundHalfEven m (2 ^ d) = 0 ∨
      d ≤ 53 ∧ 2 ^ 52 ≤ roundHalfEven m (2 ^ d) * 2 ^ d ∧ roundHalfEven m (2 ^ d) * 2 ^ d ≤ 2 ^ 53 := by
  have power {n : Nat} (le : d ≤ n) : 2 ^ (n - d) * 2 ^ d = 2 ^ n := by rw [← Nat.pow_add, Nat.sub_add_cancel le]
  have positive : 0 < 2 ^ d := Nat.two_pow_pos d
  by_cases coarse : 54 ≤ d
  · have wide : 2 ^ 54 ≤ 2 ^ d := Nat.pow_le_pow_right (by decide) coarse
    exact .inl (roundHalfEven_small (by omega))
  by_cases fine : d ≤ 52
  · have least : 2 ^ (52 - d) * 2 ^ d ≤ m := by
      rw [power fine]
      exact normal fine
    have most : m < 2 ^ (53 - d) * 2 ^ d := by
      rw [power (by omega)]
      exact high
    have between := rounded_between positive least most
    rw [power fine, power (by omega)] at between
    exact .inr ⟨by omega, between⟩
  · obtain rfl : d = 53 := by omega
    have most := (roundHalfEven_between m (2 ^ 53)).2
    rw [Nat.div_eq_of_lt high] at most
    generalize roundHalfEven m (2 ^ 53) = k at most
    obtain rfl | rfl : k = 0 ∨ k = 1 := by omega
    · exact .inl rfl
    · exact .inr (by omega)

theorem singleBits_zero : singleBits 0 = 0 := by decide +kernel

theorem singleBits_infinity : singleBits infinity.bits.toNat = infinity.bits.toNat := by decide +kernel

theorem singleBits_singleBits (b : Nat) : singleBits (singleBits b) = singleBits b := by
  generalize exponent : max (b / 2 ^ 52) 1 = e
  have normal : 1 ≤ e := exponent ▸ Nat.le_max_right _ _
  have high : b - (e - 1) * 2 ^ 52 < 2 ^ 53 := by omega
  have outcome := rounded_cases (d := 29 + (897 - e)) high (by omega)
  have unfolded : singleBits b = (
      let rounded := roundHalfEven (b - (e - 1) * 2 ^ 52) (2 ^ (29 + (897 - e))) * 2 ^ (29 + (897 - e))
      if rounded = 0 then 0 else if (e - 1) * 2 ^ 52 + rounded < 1151 * 2 ^ 52 then (e - 1) * 2 ^ 52 + rounded
      else infinity.bits.toNat) := by
    rw [singleBits_eq, exponent]
  dsimp only at unfolded outcome
  rw [unfolded]
  obtain nothing | ⟨fine, least, most⟩ := outcome
  · rw [nothing, Nat.zero_mul, if_pos rfl, singleBits_zero]
  have kept : 2 ^ (29 + (897 - e)) ∣ roundHalfEven (b - (e - 1) * 2 ^ 52) (2 ^ (29 + (897 - e))) * 2 ^ (29 + (897 - e)) :=
    Nat.dvd_mul_left _ _
  generalize roundHalfEven (b - (e - 1) * 2 ^ 52) (2 ^ (29 + (897 - e))) * 2 ^ (29 + (897 - e)) = r at least most kept
  rw [if_neg (by omega)]
  by_cases inside : (e - 1) * 2 ^ 52 + r < 1151 * 2 ^ 52
  · rw [if_pos inside]
    by_cases here : r < 2 ^ 53
    · exact singleBits_fixed normal least here kept inside
    · -- the significand has become a power of two, which is one at the next exponent
      have next : (e - 1) * 2 ^ 52 + r = (e + 1 - 1) * 2 ^ 52 + 2 ^ 52 := by omega
      rw [next] at inside ⊢
      exact singleBits_fixed (by omega) (Nat.le_refl _) (by decide) (Nat.pow_dvd_pow 2 (by omega)) inside
  · rw [if_neg inside, singleBits_infinity]

theorem singleBits_le (b : Nat) : singleBits b ≤ infinity.bits.toNat := by
  have infinite : infinity.bits.toNat = 2047 * 2 ^ 52 := by decide
  rw [singleBits_eq]
  dsimp only
  rw [infinite]
  split
  · omega
  · split <;> omega

theorem getElem_signBit (i : Nat) (inside : i < 64) : signBit.toBitVec[i] = decide (i = 63) := by
  decide +revert

/-- Bits without a sign, and a sign. -/
theorem bits_signed {s : Nat} (small : s < 2 ^ 63) (sign : UInt64) :
    (UInt64.ofNat s ||| sign &&& signBit) &&& ~~~signBit = UInt64.ofNat s ∧
      (UInt64.ofNat s ||| sign &&& signBit) &&& signBit = sign &&& signBit := by
  have top : (UInt64.ofNat s).toBitVec[63] = false := by
    have bit : (BitVec.ofNat 64 s)[63] = (s % 2 ^ 64).testBit 63 := rfl
    exact bit.trans (Nat.testBit_lt_two_pow (Nat.lt_of_le_of_lt (Nat.mod_le _ _) small))
  refine ⟨UInt64.eq_of_toBitVec_eq ?_, UInt64.eq_of_toBitVec_eq ?_⟩
  · ext i inside
    by_cases last : i = 63
    · simp [getElem_signBit, last, top]
    · simp [getElem_signBit, last]
  · ext i inside
    by_cases last : i = 63
    · simp [getElem_signBit, last, top]
    · simp [getElem_signBit, last]

theorem roundSingle_roundSingle (x : Double) : x.roundSingle.roundSingle = x.roundSingle := by
  by_cases nan : x.isNaN
  · have same : x.roundSingle = x := if_pos nan
    rw [same, same]
  · have small := singleBits_le x.abs.bits.toNat
    obtain ⟨magnitude, sign⟩ := bits_signed (Nat.lt_of_le_of_lt small (by decide)) x.bits
    have rounded : x.roundSingle = ⟨UInt64.ofNat (singleBits x.abs.bits.toNat) ||| (x.bits &&& signBit)⟩ := if_neg nan
    have abs : x.roundSingle.abs.bits = UInt64.ofNat (singleBits x.abs.bits.toNat) := by
      rw [rounded]
      exact magnitude
    have toNat : x.roundSingle.abs.bits.toNat = singleBits x.abs.bits.toNat := by
      rw [abs]
      exact UInt64.toNat_ofNat_of_lt' (Nat.lt_of_le_of_lt small (by decide))
    have notNan : ¬x.roundSingle.isNaN := by
      unfold isNaN
      rw [decide_eq_true_eq, UInt64.lt_iff_toNat_lt, toNat]
      omega
    have again : x.roundSingle.roundSingle =
        ⟨UInt64.ofNat (singleBits x.roundSingle.abs.bits.toNat) ||| (x.roundSingle.bits &&& signBit)⟩ := if_neg notNan
    rw [again, toNat, singleBits_singleBits, rounded]
    exact congrArg (fun t => Double.mk (UInt64.ofNat _ ||| t)) sign

/-- An integer that is not negative is the same number with a sign and without. -/
theorem ofInt64_of_nonneg {v : Int64} (nonneg : 0 ≤ v) : ofInt64 v = ofUInt64 v.toUInt64 :=
  if_neg (Int64.not_lt.mpr nonneg)

end Double

end IncrementalC
