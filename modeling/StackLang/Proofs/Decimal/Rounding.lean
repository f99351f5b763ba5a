import StackLang.Proofs.Decimal.Float
import StackLang.Decimal.Shortest
import Mathlib.Algebra.Order.Field.Power
import Mathlib.Data.Rat.Cast.Order
import Mathlib.Tactic

namespace StackLang

/-!
# Decimals that are floats exactly

* `Decimal.scaled`, `Binary.value` — the rational numbers that decimals and binary fractions are;
* `Decimal.magnitude_congr` — the float nearest to a decimal depends on its value alone;
* `Binary.Fits` — a binary fraction with the mantissa and the exponent of a float;
* `Binary.Fits.magnitude` — a decimal of such a value is read as that very float;
* `Binary.magnitude_shortest` — the shortest decimal of a float reads back;
* `Decimal.isNaN_toFloat` — no decimal is read as NaN.
-/

namespace Decimal

/-! ### Values -/

/-- The number `n · 10 ^ p`. -/
def scaled (n : Nat) (p : Int) : ℚ := n * 10 ^ p

/-- A number with digits is positive, whatever its power of ten. -/
theorem scaled_pos {n : Nat} (h : n ≠ 0) (p : Int) : 0 < scaled n p := by
  have hn : (0 : ℚ) < n := by exact_mod_cast Nat.pos_of_ne_zero h
  unfold scaled
  positivity

/-- Zeros behind the digits add to the power of ten. -/
theorem scaled_mul_pow (n k : Nat) (p : Int) : scaled (n * 10 ^ k) p = scaled n (p + k) := by
  unfold scaled
  rw [zpow_add₀ (by norm_num), zpow_natCast]
  push_cast
  ring

theorem scaled_zero (p : Int) : scaled 0 p = 0 := by
  simp [scaled]

/-! ### Trailing zeros -/

/-- A number is below the power of ten that has one digit more. -/
theorem lt_pow_width (n : Nat) : n < 10 ^ width n :=
  (Nat.length_toDigits_le_iff (by decide) Nat.length_toDigits_pos).mp (Nat.le_refl _)

/-- A number other than zero has no more digits than it needs. -/
theorem pow_width_le {n : Nat} (h : n ≠ 0) : 10 ^ (width n - 1) ≤ n := by
  by_contra hlt
  -- one digit less would do, if there were more than one
  have hpos : 0 < width n - 1 := by
    by_contra hz
    have h0 : width n - 1 = 0 := by omega
    rw [h0] at hlt
    omega
  have := (Nat.length_toDigits_le_iff (b := 10) (by decide) hpos).mpr (Nat.lt_of_not_le hlt)
  unfold width at *
  omega

/-- Trailing zeros are taken off without changing the number, if there is fuel for all digits. -/
theorem trimZeros_spec (fuel n : Nat) (p : Int) (hn : n ≠ 0) (hf : n < 10 ^ fuel) :
    (trimZeros fuel n p).1 % 10 ≠ 0 ∧
      scaled (trimZeros fuel n p).1 (trimZeros fuel n p).2 = scaled n p := by
  -- The fuel bounds the number of digits, so it cannot run out before the zeros do.
  induction fuel generalizing n p with
  | zero => omega
  | succ fuel ih =>
    unfold trimZeros
    by_cases h : n % 10 = 0
    · rw [if_pos (by simp [hn, h])]
      obtain ⟨hlast, hvalue⟩ := ih (n / 10) (p + 1) (by omega) (by omega)
      refine ⟨hlast, hvalue.trans ?_⟩
      have hten : n / 10 * 10 ^ 1 = n := by omega
      have hshift := scaled_mul_pow (n / 10) 1 p
      rw [hten] at hshift
      exact hshift.symm
    · rw [if_neg (by simp [h])]
      exact ⟨h, rfl⟩

theorem trimmed_zero (p : Int) : trimmed 0 p = (0, p) := rfl

/-- A number other than zero is left without trailing zeros and unchanged. -/
theorem trimmed_spec {n : Nat} (hn : n ≠ 0) (p : Int) :
    (trimmed n p).1 % 10 ≠ 0 ∧ scaled (trimmed n p).1 (trimmed n p).2 = scaled n p :=
  trimZeros_spec (width n) n p hn (lt_pow_width n)

/-- Taking trailing zeros off does not change the number. -/
theorem scaled_trimmed (n : Nat) (p : Int) :
    scaled (trimmed n p).1 (trimmed n p).2 = scaled n p := by
  by_cases hn : n = 0
  · rw [hn, trimmed_zero]
  · exact (trimmed_spec hn p).2

/-- A number has one form without trailing zeros. -/
theorem eq_of_scaled_eq {n m : Nat} {p q : Int} (hn : n % 10 ≠ 0) (hm : m % 10 ≠ 0)
    (h : scaled n p = scaled m q) : n = m ∧ p = q := by
  -- Written with the smaller power of ten, the other number has a trailing zero.
  have hle : ∀ {n m : Nat} {p q : Int}, n % 10 ≠ 0 → scaled n p = scaled m q → q ≤ p := by
    intro n m p q hn h
    by_contra hlt
    obtain ⟨k, hk⟩ : ∃ k : Nat, q = p + (k + 1 : Nat) := ⟨(q - p - 1).toNat, by omega⟩
    rw [hk, ← scaled_mul_pow] at h
    have hnm : n = m * 10 ^ (k + 1) := by
      have h10 : (10 : ℚ) ^ p ≠ 0 := by positivity
      exact_mod_cast mul_right_cancel₀ h10 h
    rw [hnm, Nat.pow_succ, ← Nat.mul_assoc, Nat.mul_mod_left] at hn
    exact hn rfl
  obtain rfl : p = q := le_antisymm (hle hm h.symm) (hle hn h)
  have h10 : (10 : ℚ) ^ p ≠ 0 := by positivity
  exact ⟨by exact_mod_cast mul_right_cancel₀ h10 h, rfl⟩

/-- Numbers that are equal have the same digits without trailing zeros. -/
theorem trimmed_congr {n m : Nat} {p q : Int} (hn : n ≠ 0) (h : scaled n p = scaled m q) :
    trimmed n p = trimmed m q := by
  have hm : m ≠ 0 := by
    rintro rfl
    rw [scaled_zero] at h
    exact (scaled_pos hn p).ne' h
  -- Both trimmed forms have the same value and no trailing zero.
  obtain ⟨hnl, hnv⟩ := trimmed_spec hn p
  obtain ⟨hml, hmv⟩ := trimmed_spec hm q
  obtain ⟨h1, h2⟩ := eq_of_scaled_eq hnl hml (by rw [hnv, hmv, h])
  exact Prod.ext h1 h2

/-- The float nearest to a decimal depends on its value alone. -/
theorem magnitude_congr {n m : Nat} {p q : Int} {s t : Bool} (h : scaled n p = scaled m q) :
    (Decimal.mk s n p).magnitude = (Decimal.mk t m q).magnitude := by
  unfold magnitude
  by_cases hn : n = 0
  · have hm : m = 0 := by
      by_contra hm
      rw [hn, scaled_zero] at h
      exact (scaled_pos hm q).ne h
    rw [hn, hm, trimmed_zero, trimmed_zero]
    rfl
  · rw [trimmed_congr hn h]

end Decimal

/-! ### Rounding what needs none -/

namespace Binary

open Float.Model Float.Model.UnpackedFloat

/-- The number that a binary fraction is. -/
def value (b : Binary) : ℚ := b.mantissa * 2 ^ b.exponent

/-- The mantissa and the exponent of a float: either the mantissa has all its bits, or the
    exponent is the least one. -/
structure Fits (b : Binary) : Prop where
  pos : 0 < b.mantissa
  lt : b.mantissa < 2 ^ 53
  least : -1074 ≤ b.exponent
  most : b.exponent ≤ 971
  full : 2 ^ 52 ≤ b.mantissa ∨ b.exponent = -1074

variable {b : Binary}

/-- The exponent of a float is the one to which its number is rounded. -/
theorem Fits.targetExponent (h : b.Fits) :
    Format.targetExponent .binary64 (totalExponent b.mantissa b.exponent) = b.exponent := by
  have hne : b.mantissa ≠ 0 := h.pos.ne'
  have hlog : b.mantissa.log2 < 53 := (Nat.log2_lt hne).mpr h.lt
  have hleast := h.least
  show max ((b.mantissa.log2 + 1 : Nat) + b.exponent - (53 : Nat)) (-1074) = b.exponent
  -- A full mantissa has 53 bits; a shorter one stands at the least exponent.
  rcases h.full with hfull | hfull
  · have h52 : 52 ≤ b.mantissa.log2 := (Nat.le_log2 hne).mpr hfull
    omega
  · omega

/-- Zeros behind the bits do not change the exponent of the leading bit. -/
theorem totalExponent_mul_pow {m : Nat} (hm : m ≠ 0) (e : Int) (j : Nat) :
    totalExponent (m * 2 ^ j) (e - j) = totalExponent m e := by
  have hlog : (m * 2 ^ j).log2 = m.log2 + j := by
    have hlow := Nat.log2_self_le hm
    have hhigh : m < 2 ^ (m.log2 + 1) := Nat.lt_log2_self
    rw [Nat.log2_eq_iff (by positivity)]
    constructor
    · rw [Nat.pow_add]
      exact Nat.mul_le_mul_right _ hlow
    · rw [show m.log2 + j + 1 = m.log2 + 1 + j by omega, Nat.pow_add]
      exact Nat.mul_lt_mul_of_pos_right hhigh (by positivity)
  unfold totalExponent
  rw [hlog]
  push_cast
  ring

/-- Shifting zeros out leaves nothing behind the last bit. -/
theorem shift_zeros (m j : Nat) :
    (ExtendedMantissa.mk (m * 2 ^ j) false false) >>> j = ExtendedMantissa.mk m false false := by
  show Nat.repeat ExtendedMantissa.shiftRightOne j _ = _
  induction j generalizing m with
  | zero => simp [Nat.repeat]
  | succ j ih =>
    have hodd : m * 2 ^ (j + 1) = m * 2 * 2 ^ j := by ring
    rw [Nat.repeat, hodd, ih]
    simp [ExtendedMantissa.shiftRightOne]

/-- The bits of a float, with zeros behind them, are shifted back to the float. -/
theorem Fits.shift_zeros (h : b.Fits) (j : Nat) :
    shiftToTargetExponent .binary64 (b.mantissa * 2 ^ j) (b.exponent - j) .exact
      = (⟨b.mantissa, false, false⟩, b.exponent) := by
  have hj : (b.exponent - (b.exponent - j)).toNat = j := by omega
  unfold shiftToTargetExponent shiftToExponent
  simp only [totalExponent_mul_pow h.pos.ne', h.targetExponent, hj]
  show ((ExtendedMantissa.mk (b.mantissa * 2 ^ j) false false) >>> j, b.exponent - j + j) = _
  rw [Binary.shift_zeros, Int.sub_add_cancel]

/-- Rounding gives back a number that fits, however many zeros stand behind its mantissa. -/
theorem Fits.round_zeros (h : b.Fits) (s : Sign) (j : Nat) :
    roundWithAccuracy .binary64 s (b.mantissa * 2 ^ j) (b.exponent - j) .exact
      = .finite s b.mantissa b.exponent h.pos := by
  -- The second shift finds nothing left to do: it is the first one without zeros.
  have hsecond : shiftToTargetExponent .binary64 b.mantissa b.exponent .exact
      = (⟨b.mantissa, false, false⟩, b.exponent) := by
    simpa using h.shift_zeros 0
  have hround : (ExtendedMantissa.mk b.mantissa false false).roundedMantissa = b.mantissa := rfl
  unfold roundWithAccuracy
  simp only [h.shift_zeros j, hround, hsecond]
  exact dif_neg h.pos.ne'

/-! ### Reading what is a float exactly -/

/-- A float that is a whole number has bits enough for an exact product. -/
theorem Fits.nonneg_of_whole (h : b.Fits) {n : Nat} (hn : n ≠ 0) {p : Int} (hp : 0 ≤ p)
    (hv : Decimal.scaled n p = b.value) : 0 ≤ b.exponent + 53 := by
  -- Below this exponent a float is less than 1, and the whole number is not.
  by_contra hneg
  have hone : 1 ≤ Decimal.scaled n p := by
    have hn1 : (1 : ℚ) ≤ n := by exact_mod_cast Nat.pos_of_ne_zero hn
    have hp1 : (1 : ℚ) ≤ 10 ^ p := one_le_zpow₀ (by norm_num) hp
    exact one_le_mul_of_one_le_of_one_le hn1 hp1
  have hlt : b.value < 1 := by
    have hm : (b.mantissa : ℚ) < 2 ^ (53 : Int) := by exact_mod_cast h.lt
    have he : (2 : ℚ) ^ b.exponent ≤ 2 ^ (-53 : Int) :=
      zpow_le_zpow_right₀ (by norm_num) (by omega)
    calc b.value < 2 ^ (53 : Int) * 2 ^ b.exponent := by
          exact mul_lt_mul_of_pos_right hm (by positivity)
      _ ≤ 2 ^ (53 : Int) * 2 ^ (-53 : Int) := by gcongr
      _ = 1 := by norm_num
  rw [hv] at hone
  exact absurd hone (not_le.mpr hlt)

/-- The length of a quotient in bits is at most the difference of the lengths, and one more. -/
theorem log2_le_of_value {n : Nat} (hn : n ≠ 0) {q : Nat}
    (hv : (n : ℚ) = b.value * 10 ^ q) :
    (n.log2 : Int) - (10 ^ q : Nat).log2 ≤ b.mantissa.log2 + 1 + b.exponent := by
  -- All three numbers are enclosed between powers of two.
  have hlow : (2 : ℚ) ^ (n.log2 : Int) ≤ n := by exact_mod_cast Nat.log2_self_le hn
  have hm : (b.mantissa : ℚ) < 2 ^ ((b.mantissa.log2 : Int) + 1) := by
    exact_mod_cast (Nat.lt_log2_self : b.mantissa < 2 ^ (b.mantissa.log2 + 1))
  have hq : (10 : ℚ) ^ q < 2 ^ (((10 ^ q : Nat).log2 : Int) + 1) := by
    exact_mod_cast (Nat.lt_log2_self : 10 ^ q < 2 ^ ((10 ^ q : Nat).log2 + 1))
  have hlt : (2 : ℚ) ^ (n.log2 : Int)
      < 2 ^ (((b.mantissa.log2 : Int) + 1) + b.exponent + (((10 ^ q : Nat).log2 : Int) + 1)) := by
    calc (2 : ℚ) ^ (n.log2 : Int) ≤ b.mantissa * 2 ^ b.exponent * 10 ^ q := hlow.trans_eq hv
      _ < 2 ^ ((b.mantissa.log2 : Int) + 1) * 2 ^ b.exponent
            * 2 ^ (((10 ^ q : Nat).log2 : Int) + 1) := by gcongr
      _ = _ := by rw [← zpow_add₀ (by norm_num), ← zpow_add₀ (by norm_num)]
  have := (zpow_lt_zpow_iff_right₀ (by norm_num : (1 : ℚ) < 2)).mp hlt
  omega

/-- For a whole number the digits times the power of ten are the bits of the float. -/
theorem Fits.mul_exact (h : b.Fits) {n : Nat} (hn : n ≠ 0) {p : Int} (hp : 0 ≤ p)
    (hv : Decimal.scaled n p = b.value) :
    n <<< 53 * 10 ^ p.toNat = b.mantissa * 2 ^ (b.exponent + 53).toNat := by
  have hexp := h.nonneg_of_whole hn hp hv
  have hq : (n : ℚ) * 2 ^ 53 * 10 ^ p.toNat = b.mantissa * 2 ^ (b.exponent + 53).toNat := by
    rw [← zpow_natCast 10, ← zpow_natCast 2 (b.exponent + 53).toNat, Int.toNat_of_nonneg hp,
      Int.toNat_of_nonneg hexp, zpow_add₀ (by norm_num)]
    unfold Decimal.scaled Binary.value at hv
    calc (n : ℚ) * 2 ^ 53 * 10 ^ p = n * 10 ^ p * 2 ^ 53 := by ring
      _ = _ := by
        rw [hv]
        norm_num
        ring
  rw [Nat.shiftLeft_eq]
  exact_mod_cast hq

/-- For a fraction the quotient of the digits by the power of ten is exact, with zeros behind the
    bits. -/
theorem Fits.divCore_exact (h : b.Fits) {n : Nat} (hn : n ≠ 0) {q : Nat}
    (hv : (n : ℚ) = b.value * 10 ^ q) :
    ∃ j : Nat, divCore .binary64 n 0 (10 ^ q) 0
      = (b.mantissa * 2 ^ j, b.exponent - j, .exact) := by
  have hlog := log2_le_of_value hn hv
  have htarget := h.targetExponent
  -- `t` is the exponent that the quotient is computed at, which is at most that of the result.
  obtain ⟨t, ht⟩ : ∃ t, t = min ((0 : Int) - 0) (Format.targetExponent .binary64
      (totalExponent n 0 - totalExponent (10 ^ q) 0)) := ⟨_, rfl⟩
  have hle : t ≤ b.exponent ∧ t ≤ 0 := by
    rw [ht]
    have hmono : Format.targetExponent .binary64 (totalExponent n 0 - totalExponent (10 ^ q) 0)
        ≤ Format.targetExponent .binary64 (totalExponent b.mantissa b.exponent) := by
      unfold Format.targetExponent totalExponent
      omega
    omega
  -- At that exponent the division leaves no remainder.
  have hexact : n <<< (0 - 0 - t).toNat = b.mantissa * 2 ^ (b.exponent - t).toNat * 10 ^ q := by
    have hk : ((0 - 0 - t).toNat : Int) = -t := by omega
    have hj : ((b.exponent - t).toNat : Int) = b.exponent - t := by omega
    have hq : (n : ℚ) * 2 ^ (0 - 0 - t).toNat
        = b.mantissa * 2 ^ (b.exponent - t).toNat * 10 ^ q := by
      rw [← zpow_natCast 2, ← zpow_natCast 2 (b.exponent - t).toNat, hk, hj, hv, Int.sub_eq_add_neg,
        zpow_add₀ (by norm_num)]
      unfold Binary.value
      ring
    rw [Nat.shiftLeft_eq]
    exact_mod_cast hq
  refine ⟨(b.exponent - t).toNat, ?_⟩
  have hpos : 0 < 10 ^ q := by positivity
  unfold divCore
  simp only [← ht, hexact, Nat.mul_div_cancel _ hpos, Nat.mul_mod_left]
  refine Prod.ext rfl (Prod.ext ?_ rfl)
  show t = b.exponent - ((b.exponent - t).toNat : Nat)
  omega

/-- A decimal whose value is that of a float is read as that float. -/
theorem Fits.ofScientific (h : b.Fits) {n : Nat} (hn : n ≠ 0) {p : Int} (hle : p ≤ 2 ^ 11)
    (hge : -(2 ^ 11 + n.log2) ≤ p) (hv : Decimal.scaled n p = b.value) :
    UnpackedFloat.ofScientific .binary64 n p
      = .finite .positive b.mantissa b.exponent h.pos := by
  unfold UnpackedFloat.ofScientific
  rw [dif_neg hn, if_neg (by show ¬p > 2 ^ 11; omega),
    if_neg (by show ¬p < -(2 ^ 11 + (n.log2 : Int)); omega)]
  by_cases hp : 0 ≤ p
  · -- A whole number: the product has zeros behind the mantissa.
    rw [if_pos hp]
    have hexp := h.nonneg_of_whole hn hp hv
    have hround := h.round_zeros .positive (b.exponent + 53).toNat
    rw [← h.mul_exact hn hp hv] at hround
    rw [← hround]
    show roundWithAccuracy .binary64 .positive (n <<< 53 * 10 ^ p.toNat) (-53 + 0) .exact = _
    congr 1
    omega
  · -- A fraction: the quotient is exact.
    rw [if_neg hp]
    have hquot : (n : ℚ) = b.value * 10 ^ (-p).toNat := by
      rw [← hv, ← zpow_natCast, Int.toNat_of_nonneg (by omega)]
      unfold Decimal.scaled
      rw [mul_assoc, ← zpow_add₀ (by norm_num)]
      simp
    obtain ⟨j, hj⟩ := h.divCore_exact hn hquot
    rw [← h.round_zeros .positive j]
    unfold UnpackedFloat.div
    simp only [hj]
    rfl

/-- No float other than zero is below the least one. -/
theorem Fits.le_value (h : b.Fits) : (2 : ℚ) ^ (-1074 : Int) ≤ b.value := by
  have hm : (1 : ℚ) ≤ b.mantissa := by exact_mod_cast h.pos
  calc (2 : ℚ) ^ (-1074 : Int) ≤ 2 ^ b.exponent := zpow_le_zpow_right₀ (by norm_num) h.least
    _ ≤ b.mantissa * 2 ^ b.exponent := le_mul_of_one_le_left (by positivity) hm

/-- Floats are below `2 ^ 1024`. -/
theorem Fits.value_lt (h : b.Fits) : b.value < 2 ^ (1024 : Int) := by
  have hm : (b.mantissa : ℚ) < 2 ^ (53 : Int) := by exact_mod_cast h.lt
  calc b.value < 2 ^ (53 : Int) * 2 ^ b.exponent := mul_lt_mul_of_pos_right hm (by positivity)
    _ ≤ 2 ^ (53 : Int) * 2 ^ (971 : Int) := by
        gcongr
        · norm_num
        · exact h.most
    _ = 2 ^ (1024 : Int) := by rw [← zpow_add₀ (by norm_num)]; norm_num

/-- Three bits hold less than one decimal digit. -/
theorem two_pow_le_ten_pow {j k : Nat} (h : j ≤ 3 * k) : (2 : ℚ) ^ (j : Int) ≤ 10 ^ (k : Int) := by
  rw [zpow_natCast, zpow_natCast]
  calc (2 : ℚ) ^ j ≤ 2 ^ (3 * k) := pow_le_pow_right₀ (by norm_num) h
    _ = 8 ^ k := by
        rw [pow_mul]
        norm_num
    _ ≤ 10 ^ k := pow_le_pow_left₀ (by norm_num) (by norm_num) k

/-- The digits of a float begin well inside the range of floats. -/
theorem Fits.size_bounds (h : b.Fits) {n : Nat} (hn : n ≠ 0) {p : Int}
    (hv : Decimal.scaled n p = b.value) :
    -400 ≤ p + Decimal.width n ∧ p + Decimal.width n ≤ 400 := by
  have hwidth : 0 < Decimal.width n := Nat.length_toDigits_pos
  constructor
  · -- The least float is above `10 ^ (-400)`.
    have hdigits : (n : ℚ) < 10 ^ (Decimal.width n : Int) := by
      exact_mod_cast Decimal.lt_pow_width n
    have hlt : (10 : ℚ) ^ (-400 : Int) < 10 ^ (p + Decimal.width n) := by
      have hpow : (2 : ℚ) ^ (1074 : Int) ≤ 10 ^ (400 : Int) :=
        two_pow_le_ten_pow (j := 1074) (k := 400) (by decide)
      calc (10 : ℚ) ^ (-400 : Int) ≤ 2 ^ (-1074 : Int) := by
            rw [zpow_neg, zpow_neg]
            exact inv_anti₀ (by positivity) hpow
        _ ≤ Decimal.scaled n p := hv ▸ h.le_value
        _ < 10 ^ (Decimal.width n : Int) * 10 ^ p := mul_lt_mul_of_pos_right hdigits (by positivity)
        _ = 10 ^ (p + Decimal.width n) := by rw [← zpow_add₀ (by norm_num), Int.add_comm]
    exact ((zpow_lt_zpow_iff_right₀ (by norm_num)).mp hlt).le
  · -- The greatest float is below `10 ^ 400`.
    have hdigits : (10 : ℚ) ^ ((Decimal.width n : Int) - 1) ≤ n := by
      have hle := Decimal.pow_width_le hn
      rw [show (Decimal.width n : Int) - 1 = (Decimal.width n - 1 : Nat) by omega, zpow_natCast]
      exact_mod_cast hle
    have hlt : (10 : ℚ) ^ (p + Decimal.width n - 1) < 10 ^ (400 : Int) := by
      calc (10 : ℚ) ^ (p + Decimal.width n - 1)
          = 10 ^ ((Decimal.width n : Int) - 1) * 10 ^ p := by
            rw [← zpow_add₀ (by norm_num)]
            congr 1
            omega
        _ ≤ Decimal.scaled n p := mul_le_mul_of_nonneg_right hdigits (by positivity)
        _ < 2 ^ (1024 : Int) := hv ▸ h.value_lt
        _ ≤ 10 ^ (400 : Int) := two_pow_le_ten_pow (j := 1024) (k := 400) (by decide)
    have := (zpow_lt_zpow_iff_right₀ (by norm_num : (1 : ℚ) < 10)).mp hlt
    omega

/-- A number has no more decimal digits than bits. -/
theorem width_le_log2 (n : Nat) : Decimal.width n ≤ n.log2 + 1 := by
  have hlt : n < 10 ^ (n.log2 + 1) :=
    calc n < 2 ^ (n.log2 + 1) := Nat.lt_log2_self
      _ ≤ 10 ^ (n.log2 + 1) := Nat.pow_le_pow_left (by decide) _
  exact (Nat.length_toDigits_le_iff (by decide) (by omega)).mpr hlt

/-- A decimal of the value of a float is read as that float. -/
theorem Fits.magnitude (h : b.Fits) {n : Nat} {p : Int} {s : Bool}
    (hv : Decimal.scaled n p = b.value) :
    (Decimal.mk s n p).magnitude
      = .ofModel (.pack (.finite .positive b.mantissa b.exponent h.pos)) := by
  have hpos : 0 < b.value := lt_of_lt_of_le (by positivity) h.le_value
  have hn : n ≠ 0 := by
    rintro rfl
    rw [Decimal.scaled_zero] at hv
    exact hpos.ne hv
  -- What is read are the trimmed digits, which have the same value.
  obtain ⟨hlast, hvalue⟩ := Decimal.trimmed_spec hn p
  unfold Decimal.magnitude
  generalize Decimal.trimmed n p = t at hlast hvalue ⊢
  obtain ⟨m, q⟩ := t
  have hm : m ≠ 0 := by
    rintro rfl
    exact hlast rfl
  have hmq : Decimal.scaled m q = b.value := hvalue.trans hv
  -- None of the cases out of range applies.
  have hbounds := h.size_bounds hm hmq
  have hwidth : 0 < Decimal.width m := Nat.length_toDigits_pos
  have hlog := width_le_log2 m
  show (if m == 0 then 0 else if q + Decimal.width m > 400 then Decimal.infinity
    else if q + Decimal.width m < -400 then 0
    else Float.ofModel (.pack (UnpackedFloat.ofScientific .binary64 m q))) = _
  rw [if_neg (by simpa using hm), if_neg (by omega), if_neg (by omega),
    h.ofScientific hm (by omega) (by omega) hmq]

/-! ### Shortest decimals read back -/

/-- The bits of a float that is neither zero nor infinite fit. -/
theorem fits_of_unpack {w : BitVec Format.binary64.numBits} {s : Sign} {m : Nat} {e : Int}
    {hm : 0 < m} (h : UnpackedFloat.unpack .binary64 w = .finite s m e hm) : Fits ⟨m, e⟩ := by
  rw [← Parts.packComponents_fields w, Parts.unpack_packComponents] at h
  generalize unpackExponent w = ew at h
  generalize unpackMantissa w = mw at h
  have hmw : mw.toNat < 2 ^ 52 := mw.isLt
  have hew : ew.toNat < 2 ^ 11 := ew.isLt
  by_cases h1 : ew = -1#11
  · -- infinities and NaN are not finite
    rw [if_pos h1] at h
    split_ifs at h
  · rw [if_neg h1] at h
    by_cases h0 : ew = 0#11
    · rw [if_pos h0] at h
      by_cases hz : mw = 0#52
      · rw [dif_pos hz] at h
        exact UnpackedFloat.noConfusion h
      · rw [dif_neg hz] at h
        injection h with _ h2 h3
        refine ⟨hm, ?_, ?_, ?_, Or.inr h3.symm⟩ <;> dsimp only <;> omega
    · rw [if_neg h0] at h
      injection h with _ h2 h3
      have hpos : ew.toNat ≠ 0 := by
        intro hz
        exact h0 (BitVec.eq_of_toNat_eq hz)
      have hlast : ew.toNat ≠ 2047 := by
        intro hz
        exact h1 (BitVec.eq_of_toNat_eq hz)
      refine ⟨hm, ?_, ?_, ?_, Or.inl ?_⟩ <;> dsimp only <;> omega

/-- A finite float other than zero has the magnitude that its parts make up. -/
theorem abs_of_ofFloat? {x : Float} (h : ofFloat? x = some b) (hb : b.mantissa ≠ 0) :
    ∃ hf : b.Fits, x.abs = .ofModel (.pack (.finite .positive b.mantissa b.exponent hf.pos)) := by
  obtain ⟨x⟩ := x
  unfold ofFloat? at h
  show ∃ hf : b.Fits, Float.ofModel (.pack x.unpack.abs) = _
  have hx : x.unpack = UnpackedFloat.unpack .binary64 x.toBits.toBitVec := rfl
  generalize x.unpack = u at h hx ⊢
  cases u with
  | notANumber => exact absurd h (by simp)
  | infinity s => exact absurd h (by simp)
  | zero s =>
    injection h with h
    rw [← h] at hb
    exact absurd rfl hb
  | finite s m e hm =>
    injection h with h
    subst h
    exact ⟨fits_of_unpack hx.symm, rfl⟩

/-- A float without mantissa is zero, up to its sign. -/
theorem abs_of_zero {x : Float} (h : ofFloat? x = some b) (hb : b.mantissa = 0) :
    x.abs = .ofModel (.pack (.zero .positive)) := by
  obtain ⟨x⟩ := x
  unfold ofFloat? at h
  show Float.ofModel (.pack x.unpack.abs) = _
  generalize x.unpack = u at h ⊢
  cases u with
  | notANumber => exact absurd h (by simp)
  | infinity s => exact absurd h (by simp)
  | zero s => rfl
  | finite s m e hm =>
    injection h with h
    rw [← h] at hb
    exact absurd hb hm.ne'

/-- A float without magnitude is infinite, unless it is NaN. -/
theorem abs_of_infinite {x : Float} (hnan : x.isNaN = false) (h : ofFloat? x = none) :
    x.abs = .ofModel (.pack (.infinity .positive)) := by
  obtain ⟨x⟩ := x
  have hn : x.unpack.isNaN = false := hnan
  unfold ofFloat? at h
  show Float.ofModel (.pack x.unpack.abs) = _
  generalize x.unpack = u at h hn ⊢
  cases u with
  | notANumber => exact absurd hn (by decide)
  | infinity s => rfl
  | zero s => exact absurd h (by simp)
  | finite s m e hm => exact absurd h (by simp)

/-- The exact decimal expansion of a float is its number. -/
theorem scaled_exact (b : Binary) : Decimal.scaled b.exact.1 b.exact.2 = b.value := by
  show ((b.mantissa * 2 ^ b.exponent.toNat * 5 ^ (-b.exponent).toNat : Nat) : ℚ)
    * 10 ^ min b.exponent 0 = b.mantissa * 2 ^ b.exponent
  push_cast
  rcases le_or_gt 0 b.exponent with hle | hlt
  · obtain ⟨k, hk⟩ := Int.eq_ofNat_of_zero_le hle
    have h0 : (-(k : Int)).toNat = 0 := by omega
    have hmin : min (k : Int) 0 = 0 := by omega
    rw [hk, h0, hmin, Int.toNat_natCast]
    simp
  · -- Each half is five tenths.
    obtain ⟨k, hk⟩ := Int.eq_ofNat_of_zero_le (by omega : 0 ≤ -b.exponent)
    have he : b.exponent = -(k : Int) := by omega
    have h0 : (-(k : Int)).toNat = 0 := by omega
    have hmin : min (-(k : Int)) 0 = -(k : Int) := by omega
    have hten : (10 : ℚ) = 5 * 2 := by norm_num
    rw [he, neg_neg, h0, hmin, Int.toNat_natCast, hten, mul_zpow, zpow_neg 5, zpow_natCast]
    field_simp

/-- A decimal found on a grid is read back as the float. -/
theorem onGrid?_readsBack {x : Float} {p : Int} {d : Nat × Int} (h : b.onGrid? x p = some d) :
    readsBack x d.1 d.2 = true := by
  unfold onGrid? at h
  simp only at h
  split_ifs at h with hnear hfar
  · injection h with h
    rw [← h]
    exact hnear
  · injection h with h
    rw [← h]
    exact hfar

/-- The shortest decimal of a float is read as that float. -/
theorem magnitude_shortest {x : Float} (h : ofFloat? x = some b) (hb : b.mantissa ≠ 0) (s : Bool) :
    (Decimal.mk s (b.shortest x.abs).1 (b.shortest x.abs).2).magnitude = x.abs := by
  unfold shortest
  rw [Decimal.magnitude_congr (t := false) (Decimal.scaled_trimmed _ _)]
  cases hfound : (List.range 24).findSome? fun (i : Nat) => b.onGrid? x.abs (b.top - i) with
  | some d =>
    -- It was taken because it reads back.
    obtain ⟨i, -, hi⟩ := List.exists_of_findSome?_eq_some hfound
    have hbits := onGrid?_readsBack hi
    exact Parts.eq_of_toBits (by simpa [readsBack, Decimal.toFloat] using hbits)
  | none =>
    -- If nothing had been found, the exact expansion would read back.
    obtain ⟨hf, hx⟩ := abs_of_ofFloat? h hb
    rw [hx]
    exact hf.magnitude (scaled_exact b)

/-! ### Decimals are read as numbers -/

/-- Rounding makes no NaN. -/
theorem isNaN_roundWithAccuracy (F : Format) (s : Sign) (m : Nat) (e : Int) (a : Accuracy) :
    (roundWithAccuracy F s m e a).isNaN = false := by
  unfold roundWithAccuracy
  simp only
  split_ifs <;> rfl

/-- No decimal is read as NaN. -/
theorem isNaN_ofScientific (F : Format) (n : Nat) (p : Int) :
    (UnpackedFloat.ofScientific F n p).isNaN = false := by
  unfold UnpackedFloat.ofScientific
  split_ifs
  · rfl
  · rfl
  · rfl
  · exact isNaN_roundWithAccuracy ..
  · exact isNaN_roundWithAccuracy ..

end Binary

namespace Decimal

/-- The magnitude of a decimal is not NaN. -/
theorem isNaN_magnitude (d : Decimal) : d.magnitude.isNaN = false := by
  unfold magnitude
  simp only
  split_ifs
  · decide
  · decide
  · decide
  · exact Parts.isNaN_pack (Binary.isNaN_ofScientific _ _ _)

/-- No decimal is read as NaN. -/
theorem isNaN_toFloat (d : Decimal) : d.toFloat.isNaN = false := by
  unfold toFloat
  split_ifs
  · exact Parts.isNaN_neg d.isNaN_magnitude
  · exact d.isNaN_magnitude

end Decimal

end StackLang
