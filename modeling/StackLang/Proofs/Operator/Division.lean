import StackLang.Proofs.Simulation.Basic
import Mathlib.Data.Int.ModEq
import Mathlib.Data.Rat.Floor
import Mathlib.Tactic.FieldSimp
import Mathlib.Tactic.Linarith

namespace StackLang

/-!
# Division and shifts of integers

The remainder of words is that of a quotient rounded towards zero, and shifts of words look at the
last bits of a count only.  The operators correct both.

* `Arithmetic.floor_div_eq` — a remainder between zero and the divisor is that of the floor;
* `Arithmetic.Corrected`, `Arithmetic.toInt_corrected` — when the divisor is added to a remainder,
  and that the sum fits into a word;
* `Arithmetic.toInt_remainder`, `Arithmetic.toInt_quotient_modEq` — modulus and quotient, against
  those of rational numbers;
* `Arithmetic.toInt_leftShifted_modEq`, `Arithmetic.toInt_rightShifted` — shifts by any count;
* `Evaluator.integers_exact` — the four operators on integers.
-/

namespace Arithmetic

/-! ### Quotients of rational numbers -/

section

variable {a b q r : ℤ}

/-- The integer part of a number, towards zero. -/
def truncated (x : ℚ) : ℤ := if 0 ≤ x then ⌊x⌋ else ⌈x⌉

/-- A remainder is zero, or lies between zero and the divisor. -/
def IsFloored (b r : ℤ) : Prop := 0 ≤ r ∧ r < b ∨ b < r ∧ r ≤ 0

/-- A floored remainder other than zero has the sign of the divisor. -/
theorem IsFloored.sign_eq (h : IsFloored b r) (hr : r ≠ 0) : r.sign = b.sign := by
  rcases h with h | h
  · rw [Int.sign_eq_one_of_pos (by omega), Int.sign_eq_one_of_pos (by omega)]
  · rw [Int.sign_eq_neg_one_of_neg (by omega), Int.sign_eq_neg_one_of_neg (by omega)]

/-- With a floored remainder the quotient is the floor of the exact one. -/
theorem floor_div_eq (h : a = b * q + r) (hr : IsFloored b r) : ⌊(a : ℚ) / b⌋ = q := by
  have hb : (b : ℚ) ≠ 0 := by
    rw [Int.cast_ne_zero]
    rcases hr with hr | hr <;> omega
  have hquotient : (a : ℚ) / b = q + r / b := by
    rw [h]
    push_cast
    field_simp
  -- The remainder is less than one divisor, whatever the sign of both.
  have hrange : 0 ≤ (r : ℚ) / b ∧ (r : ℚ) / b < 1 := by
    rcases hr with ⟨hzero, hlt⟩ | ⟨hlt, hzero⟩
    · have hpos : (0 : ℚ) < b := by exact_mod_cast (by omega : 0 < b)
      exact ⟨div_nonneg (by exact_mod_cast hzero) hpos.le,
        (div_lt_one hpos).mpr (by exact_mod_cast hlt)⟩
    · have hneg : (b : ℚ) < 0 := by exact_mod_cast (by omega : b < 0)
      exact ⟨div_nonneg_of_nonpos (by exact_mod_cast hzero) hneg.le,
        (div_lt_one_of_neg hneg).mpr (by exact_mod_cast hlt)⟩
  rw [hquotient, Int.floor_eq_iff]
  constructor
  · linarith [hrange.1]
  · linarith [hrange.2]

/-- The remainder of a quotient that is rounded towards zero has the sign of the dividend. -/
theorem tmod_range (a : ℤ) (hb : b ≠ 0) :
    (a.tmod b).natAbs < b.natAbs ∧ (0 ≤ a → 0 ≤ a.tmod b) ∧ (a ≤ 0 → a.tmod b ≤ 0) := by
  refine ⟨?_, Int.tmod_nonneg b, fun ha => ?_⟩
  · rw [Int.natAbs_tmod]
    exact Nat.mod_lt _ (Int.natAbs_pos.mpr hb)
  · have hneg := Int.tmod_nonneg (a := -a) b (by omega)
    rw [Int.neg_tmod] at hneg
    omega

/-- Where the quotient is not negative, rounding towards zero is rounding down. -/
theorem floor_div_eq_tdiv (h : 0 ≤ a ∧ 0 < b ∨ a ≤ 0 ∧ b < 0) : ⌊(a : ℚ) / b⌋ = a.tdiv b := by
  have hb : b ≠ 0 := by omega
  obtain ⟨hlt, hpos, hneg⟩ := tmod_range a hb
  refine floor_div_eq (Int.mul_tdiv_add_tmod a b).symm ?_
  rcases h with ⟨ha, hb⟩ | ⟨ha, hb⟩
  · have := hpos ha
    exact Or.inl (by omega)
  · have := hneg ha
    exact Or.inr (by omega)

/-- The exact quotient without its fraction is the integer quotient towards zero. -/
theorem truncated_div (a : ℤ) (hb : b ≠ 0) : truncated (a / b) = a.tdiv b := by
  unfold truncated
  by_cases hsame : 0 ≤ a ∧ 0 < b ∨ a ≤ 0 ∧ b < 0
  · have hnonneg : (0 : ℚ) ≤ a / b := by
      rcases hsame with ⟨ha, hb⟩ | ⟨ha, hb⟩
      · exact div_nonneg (by exact_mod_cast ha) (by exact_mod_cast hb.le)
      · exact div_nonneg_of_nonpos (by exact_mod_cast ha) (by exact_mod_cast hb.le)
    rw [if_pos hnonneg, floor_div_eq_tdiv hsame]
  · have hneg : (a : ℚ) / b < 0 := by
      rcases Int.lt_or_gt_of_ne hb with hb | hb
      · exact div_neg_of_pos_of_neg (by exact_mod_cast (by omega : 0 < a)) (by exact_mod_cast hb)
      · exact div_neg_of_neg_of_pos (by exact_mod_cast (by omega : a < 0)) (by exact_mod_cast hb)
    have hopposite : 0 ≤ -a ∧ 0 < b ∨ -a ≤ 0 ∧ b < 0 := by omega
    have hfloor := floor_div_eq_tdiv hopposite
    rw [Int.neg_tdiv, Int.cast_neg, neg_div, Int.floor_neg] at hfloor
    rw [if_neg (not_le.mpr hneg)]
    omega

end

/-! ### Quotients of words -/

section

variable {a b : Int64}

/-- A word other than zero stands for an integer other than zero. -/
theorem toInt_ne_zero (hb : b ≠ 0) : b.toInt ≠ 0 := fun h =>
  hb (Int64.toInt_inj.mp (h.trans Int64.toInt_zero.symm))

/-- What is reduced into the range of words is congruent to what it was. -/
theorem bmod_modEq (z : ℤ) : z.bmod (2 ^ 64) ≡ z [ZMOD 2 ^ 64] := Int.bmod_emod

/-- The quotient of words is that of their integers without its fraction, wrapped to 64 bits. -/
theorem toInt_quotient_modEq (a : Int64) (hb : b ≠ 0) :
    (a / b).toInt ≡ truncated (a.toInt / b.toInt) [ZMOD 2 ^ 64] := by
  rw [truncated_div _ (toInt_ne_zero hb), Int64.toInt_div]
  exact bmod_modEq _

/-- A remainder is not zero, and of another sign than the divisor. -/
def Corrected (a b : Int64) : Prop := a % b ≠ 0 ∧ (a % b < 0 ↔ ¬ b < 0)

instance (a b : Int64) : Decidable (Corrected a b) := inferInstanceAs (Decidable (_ ∧ _))

/-- The remainder that the operator leaves. -/
def remainder (a b : Int64) : Int64 := if Corrected a b then a % b + b else a % b

theorem quotient_zero (a : Int64) : quotient a 0 = .error .divisionByZero := rfl

/-- A quotient by anything else is that of the words. -/
theorem quotient_eq (a : Int64) (hb : b ≠ 0) : quotient a b = .ok (a / b) :=
  if_neg (by simpa using hb)

theorem modulus_zero (a : Int64) : modulus a 0 = .error .divisionByZero := rfl

/-- A modulus by anything else is the remainder with the sign of the divisor. -/
theorem modulus_eq (a : Int64) (hb : b ≠ 0) : modulus a b = .ok (remainder a b) := by
  have hcorrected : ((a % b != 0 && decide (a % b < 0) != decide (b < 0)) = true) ↔
      Corrected a b := by
    unfold Corrected
    by_cases hr : a % b < 0 <;> by_cases hneg : b < 0 <;> simp [hr, hneg]
  unfold modulus remainder
  rw [if_neg (by simpa using hb)]
  exact congrArg Except.ok (if_congr hcorrected rfl rfl)

/-- A correction takes the remainder across zero, to less than one divisor. -/
theorem corrected_range (hb : b ≠ 0) (h : Corrected a b) :
    IsFloored b.toInt (a.toInt.tmod b.toInt + b.toInt) := by
  obtain ⟨hzero, hsign⟩ := h
  have hr := toInt_ne_zero hzero
  obtain ⟨hlt, -⟩ := tmod_range a.toInt (toInt_ne_zero hb)
  rw [Int64.lt_iff_toInt_lt, Int64.lt_iff_toInt_lt, Int64.toInt_zero, Int64.toInt_mod] at hsign
  rw [Int64.toInt_mod] at hr
  by_cases hneg : b.toInt < 0
  · exact Or.inr (by omega)
  · exact Or.inl (by omega)

/-- **A correction does not overflow.** -/
theorem toInt_corrected (hb : b ≠ 0) (h : Corrected a b) :
    (a % b + b).toInt = (a % b).toInt + b.toInt := by
  have hrange := corrected_range hb h
  have hlow := b.le_toInt
  have hhigh := b.toInt_lt
  rw [Int64.toInt_add, Int64.toInt_mod]
  apply Int.bmod_eq_of_le
  · rcases hrange with hrange | hrange <;> omega
  · rcases hrange with hrange | hrange <;> omega

/-- Without a correction, the remainder is on the right side of zero already. -/
theorem floored_of_not_corrected (hb : b ≠ 0) (h : ¬ Corrected a b) :
    IsFloored b.toInt (a.toInt.tmod b.toInt) := by
  obtain ⟨hlt, -⟩ := tmod_range a.toInt (toInt_ne_zero hb)
  -- A remainder that is not corrected is zero, or has the sign of the divisor already.
  by_cases hzero : a.toInt.tmod b.toInt = 0
  · have hb := toInt_ne_zero hb
    rw [hzero]
    rcases Int.lt_or_gt_of_ne hb with hb | hb
    · exact Or.inr ⟨hb, le_refl 0⟩
    · exact Or.inl ⟨le_refl 0, hb⟩
  · have hr : a % b ≠ 0 := by
      rintro hr
      exact hzero (by rw [← Int64.toInt_mod, hr, Int64.toInt_zero])
    have hsign : ¬ (a % b < 0 ↔ ¬ b < 0) := fun hsign => h ⟨hr, hsign⟩
    rw [Int64.lt_iff_toInt_lt, Int64.lt_iff_toInt_lt, Int64.toInt_zero, Int64.toInt_mod] at hsign
    by_cases hneg : b.toInt < 0
    · exact Or.inr (by omega)
    · exact Or.inl (by omega)

/-- **The remainder** is that of the quotient rounded down, and is zero or has the sign of the
    divisor. -/
theorem toInt_remainder (a : Int64) (hb : b ≠ 0) :
    (remainder a b).toInt = a.toInt - b.toInt * ⌊(a.toInt : ℚ) / b.toInt⌋ ∧
      IsFloored b.toInt (remainder a b).toInt := by
  have hdivision := Int.mul_tdiv_add_tmod a.toInt b.toInt
  unfold remainder
  by_cases hcorrected : Corrected a b
  · -- One more divisor in the remainder is one less in the quotient.
    have hrange := corrected_range hb hcorrected
    have hless : a.toInt = b.toInt * (a.toInt.tdiv b.toInt - 1)
        + (a.toInt.tmod b.toInt + b.toInt) := by
      linarith
    rw [if_pos hcorrected, toInt_corrected hb hcorrected, Int64.toInt_mod,
      floor_div_eq hless hrange]
    exact ⟨by linarith, hrange⟩
  · have hrange := floored_of_not_corrected hb hcorrected
    rw [if_neg hcorrected, Int64.toInt_mod, floor_div_eq hdivision.symm hrange]
    exact ⟨by linarith, hrange⟩

end

/-! ### Shifts of words -/

section

variable {n : Int64}

/-- The word shifted to the left by a count of any size. -/
def leftShifted (a n : Int64) : Int64 := if n.toInt.toNat < 64 then a <<< n else 0

/-- The word shifted to the right by a count of any size. -/
def rightShifted (a n : Int64) : Int64 :=
  if n.toInt.toNat < 64 then a >>> n else if a < 0 then -1 else 0

/-- A shift to the left by a negative count is refused, and the count is reported. -/
theorem shiftLeft_of_neg (a : Int64) (hn : n < 0) :
    shiftLeft a n = .error (.negativeCount (utf8 "shift count") n.toInt) := by
  rw [shiftLeft, count, if_pos hn]
  rfl

theorem shiftRight_of_neg (a : Int64) (hn : n < 0) :
    shiftRight a n = .error (.negativeCount (utf8 "shift count") n.toInt) := by
  rw [shiftRight, count, if_pos hn]
  rfl

/-- A shift to the left by any other count shifts the word. -/
theorem shiftLeft_eq (a : Int64) (hn : ¬ n < 0) : shiftLeft a n = .ok (leftShifted a n) := by
  rw [shiftLeft, count, if_neg hn]
  rfl

theorem shiftRight_eq (a : Int64) (hn : ¬ n < 0) : shiftRight a n = .ok (rightShifted a n) := by
  rw [shiftRight, count, if_neg hn]
  rfl

/-- Of a count below 64 the last bits are all. -/
theorem toNat_smod (hn : ¬ n < 0) (h : n.toInt.toNat < 64) :
    (n.toBitVec.smod 64).toNat = n.toInt.toNat := by
  rw [Int64.lt_iff_toInt_lt, Int64.toInt_zero] at hn
  have hmod : (n.toBitVec.smod 64).toInt = n.toInt := by
    rw [BitVec.toInt_smod]
    show n.toInt.fmod 64 = n.toInt
    rw [Int.fmod_eq_emod_of_nonneg _ (by decide)]
    omega
  have hcond := BitVec.toInt_eq_toNat_cond (n.toBitVec.smod 64)
  rw [hmod] at hcond
  split at hcond <;> omega

/-- **A shift to the left** multiplies by a power of two. -/
theorem toInt_leftShifted_modEq (a : Int64) (hn : ¬ n < 0) :
    (leftShifted a n).toInt ≡ a.toInt * 2 ^ n.toInt.toNat [ZMOD 2 ^ 64] := by
  unfold leftShifted
  by_cases h : n.toInt.toNat < 64
  · rw [if_pos h, ← Int64.toInt_toBitVec, Int64.toBitVec_shiftLeft, BitVec.shiftLeft_eq',
      toNat_smod hn h, BitVec.toInt_shiftLeft, Nat.shiftLeft_eq]
    have hword : (a.toBitVec.toNat : ℤ) ≡ a.toInt [ZMOD 2 ^ 64] := by
      rw [← Int64.toInt_toBitVec, BitVec.toInt_eq_toNat_bmod]
      exact (bmod_modEq _).symm
    calc ((a.toBitVec.toNat * 2 ^ n.toInt.toNat : ℕ) : ℤ).bmod (2 ^ 64)
        ≡ ((a.toBitVec.toNat * 2 ^ n.toInt.toNat : ℕ) : ℤ) [ZMOD 2 ^ 64] := bmod_modEq _
      _ = a.toBitVec.toNat * 2 ^ n.toInt.toNat := by push_cast; rfl
      _ ≡ a.toInt * 2 ^ n.toInt.toNat [ZMOD 2 ^ 64] := hword.mul_right _
  · -- All bits are shifted out.
    rw [if_neg h, Int64.toInt_zero]
    have hdvd : (2 ^ 64 : ℤ) ∣ 2 ^ n.toInt.toNat := pow_dvd_pow 2 (Nat.not_lt.mp h)
    exact (Int.modEq_zero_iff_dvd.mpr (hdvd.mul_left _)).symm

/-- **A shift to the right** divides by a power of two, and rounds down. -/
theorem toInt_rightShifted (a : Int64) (hn : ¬ n < 0) :
    (rightShifted a n).toInt = ⌊(a.toInt : ℚ) / 2 ^ n.toInt.toNat⌋ := by
  have hpow : (2 ^ n.toInt.toNat : ℚ) = ((2 ^ n.toInt.toNat : ℤ) : ℚ) := by push_cast; rfl
  unfold rightShifted
  by_cases h : n.toInt.toNat < 64
  · have hnat : (2 ^ n.toInt.toNat : ℚ) = ((2 ^ n.toInt.toNat : ℕ) : ℚ) := by push_cast; rfl
    rw [if_pos h, ← Int64.toInt_toBitVec, Int64.toBitVec_shiftRight, BitVec.sshiftRight',
      toNat_smod hn h, BitVec.toInt_sshiftRight, Int.shiftRight_eq_div_pow, hnat,
      Rat.floor_intCast_div_natCast]
    rfl
  · -- The power exceeds every word, so that only the sign is left.
    have hlarge : (2 ^ 64 : ℤ) ≤ 2 ^ n.toInt.toNat :=
      pow_le_pow_right₀ (by decide) (Nat.not_lt.mp h)
    have hlow := a.le_toInt
    have hhigh := a.toInt_lt
    rw [if_neg h, hpow]
    by_cases hneg : a < 0
    · rw [if_pos hneg]
      rw [Int64.lt_iff_toInt_lt, Int64.toInt_zero] at hneg
      exact (floor_div_eq (q := -1) (r := a.toInt + 2 ^ n.toInt.toNat) (by ring)
        (Or.inl (by omega))).symm
    · rw [if_neg hneg]
      rw [Int64.lt_iff_toInt_lt, Int64.toInt_zero] at hneg
      exact (floor_div_eq (q := 0) (r := a.toInt) (by ring) (Or.inl (by omega))).symm

end

end Arithmetic

/-! ### The operators -/

namespace Evaluator

/-- An operator of the language puts an integer in the place of two integers. -/
def Gives (op : String) (a b r : Int64) : Prop :=
  ∀ (ctx : Context) (m : Machine) (below : List Value),
    operate .builtin ctx (utf8 op) (m.withVisible (.int b :: .int a :: below))
      = .ok () (m.withVisible (.int r :: below))

/-- An operator of the language fails on two integers, with an error of a class. -/
def Fails (op : String) (a b : Int64) (kind : ErrorKind) : Prop :=
  ∀ (ctx : Context) (m : Machine) (below : List Value),
    ∃ f k, operate .builtin ctx (utf8 op) (m.withVisible (.int b :: .int a :: below))
      = .error (.issue (.failure f)) k ∧ f.kind = kind

/-- An operator of the language has the result of a function of two integers. -/
def Computes (op : String) (f : Int64 → Int64 → Except Cause Int64) : Prop :=
  ∀ (ctx : Context) (m : Machine) (below : List Value) (a b : Int64),
    operate .builtin ctx (utf8 op) (m.withVisible (.int b :: .int a :: below))
      = Arithmetic.result .int (f a b) (m.withVisible below)

section

variable {op : String} {f : Int64 → Int64 → Except Cause Int64} {a b r : Int64} {c : Cause}

/-- An operator gives the integers that its function computes. -/
theorem Computes.gives (h : Computes op f) (hf : f a b = .ok r) : Gives op a b r := by
  intro ctx m below
  rw [h, hf]
  rfl

/-- An operator fails with the causes that its function computes. -/
theorem Computes.fails (h : Computes op f) (hf : f a b = .error c) : Fails op a b c.kind := by
  intro ctx m below
  rw [h, hf]
  exact ⟨_, _, rfl, rfl⟩

/-- An operator that gives an integer, unless something is wrong, fails exactly then. -/
theorem fails_iff_and_gives {kind : ErrorKind} {wrong : Prop} {P : Int64 → Prop}
    (hfails : wrong → Fails op a b kind) (hgives : ¬ wrong → ∃ r, Gives op a b r ∧ P r) :
    (Fails op a b kind ↔ wrong) ∧ (¬ wrong → ∃ r, Gives op a b r ∧ P r) := by
  refine ⟨⟨fun h => by_contra fun hwrong => ?_, hfails⟩, hgives⟩
  obtain ⟨r, hr, -⟩ := hgives hwrong
  obtain ⟨f, k, hf, -⟩ := h ⟨fun _ => .ok [], fun _ => pure (), 0⟩ (.start .empty 0) []
  rw [hr] at hf
  cases hf

end

open Arithmetic

/-- `%` of two integers is the modulus. -/
theorem computes_modulus : Computes "%" modulus := fun _ _ _ _ _ => rfl

theorem computes_quotient : Computes "/" quotient := fun _ _ _ _ _ => rfl

theorem computes_shiftLeft : Computes "<<" shiftLeft := fun _ _ _ _ _ => rfl

theorem computes_shiftRight : Computes ">>" shiftRight := fun _ _ _ _ _ => rfl

/-- **Modulus, quotient and shifts of integers are exact.**  The modulus and the quotient fail
    exactly if the divisor is zero.  The modulus is that of the quotient rounded down, and is zero
    or has the sign of the divisor; where the divisor is added to the remainder, the sum fits into a
    word.  The quotient is rounded towards zero, and wraps around.  Shifts fail exactly if the count
    is negative; otherwise they multiply by a power of two and wrap around, or divide by it and
    round down, for counts of any size. -/
theorem integers_exact (a b : Int64) :
    ((Fails "%" a b .divisionError ↔ b = 0) ∧
      (b ≠ 0 → ∃ r, Gives "%" a b r ∧
        r.toInt = a.toInt - b.toInt * ⌊(a.toInt : ℚ) / b.toInt⌋ ∧
        (r = 0 ∨ r.toInt.sign = b.toInt.sign) ∧
        (Corrected a b → r = a % b + b ∧ r.toInt = (a % b).toInt + b.toInt))) ∧
    ((Fails "/" a b .divisionError ↔ b = 0) ∧
      (b ≠ 0 → ∃ r, Gives "/" a b r ∧
        r.toInt ≡ truncated (a.toInt / b.toInt) [ZMOD 2 ^ 64] ∧
        -2 ^ 63 ≤ r.toInt ∧ r.toInt < 2 ^ 63)) ∧
    ((Fails "<<" a b .typeError ↔ b < 0) ∧
      (¬ b < 0 → ∃ r, Gives "<<" a b r ∧
        r.toInt ≡ a.toInt * 2 ^ b.toInt.toNat [ZMOD 2 ^ 64] ∧
        -2 ^ 63 ≤ r.toInt ∧ r.toInt < 2 ^ 63)) ∧
    (Fails ">>" a b .typeError ↔ b < 0) ∧
      (¬ b < 0 → ∃ r, Gives ">>" a b r ∧
        r.toInt = ⌊(a.toInt : ℚ) / 2 ^ b.toInt.toNat⌋) := by
  refine ⟨fails_iff_and_gives ?_ fun hb => ?_, fails_iff_and_gives ?_ fun hb => ?_,
    fails_iff_and_gives ?_ fun hb => ?_, fails_iff_and_gives ?_ fun hb => ?_⟩
  · rintro rfl
    exact computes_modulus.fails (modulus_zero a)
  · -- The remainder is the floored one, corrected where the signs differ.
    obtain ⟨hfloor, hfloored⟩ := toInt_remainder a hb
    refine ⟨_, computes_modulus.gives (modulus_eq a hb), hfloor, ?_, fun hcorrected => ?_⟩
    · -- A remainder of zero has no sign; any other one lies on the side of the divisor.
      by_cases hzero : remainder a b = 0
      · exact Or.inl hzero
      · exact Or.inr (hfloored.sign_eq (toInt_ne_zero hzero))
    · rw [remainder, if_pos hcorrected]
      exact ⟨rfl, toInt_corrected hb hcorrected⟩
  · rintro rfl
    exact computes_quotient.fails (quotient_zero a)
  · exact ⟨_, computes_quotient.gives (quotient_eq a hb), toInt_quotient_modEq a hb,
      Int64.le_toInt _, Int64.toInt_lt _⟩
  · exact fun hb => computes_shiftLeft.fails (shiftLeft_of_neg a hb)
  · exact ⟨_, computes_shiftLeft.gives (shiftLeft_eq a hb), toInt_leftShifted_modEq a hb,
      Int64.le_toInt _, Int64.toInt_lt _⟩
  · exact fun hb => computes_shiftRight.fails (shiftRight_of_neg a hb)
  · exact ⟨_, computes_shiftRight.gives (shiftRight_eq a hb), toInt_rightShifted a hb⟩

/-- At the limits: a quotient that wraps around, a remainder that does not, and shifts by as many
    bits as there are. -/
example :
    quotient Int64.minValue (-1) = .ok Int64.minValue ∧ modulus Int64.minValue 7 = .ok 6 ∧
      shiftLeft 1 64 = .ok 0 ∧ shiftRight Int64.minValue Int64.maxValue = .ok (-1) := by
  decide

end Evaluator

end StackLang
