import StackLang.Proofs.Simulation.Basic
import Mathlib.Data.Int.ModEq
import Mathlib.Tactic.Ring

namespace StackLang

/-!
# Powers of integers

A power is made of squares and products of 64-bit words, which wrap around as soon as they no longer
fit.  Wrapping around loses nothing modulo `2 ^ 64`, so that the power is right modulo `2 ^ 64`.

* `Power.round_modEq` — one round of the loop keeps `acc · base ^ exp`;
* `Power.square_modEq` — so does the whole loop, if it may take as many rounds as the exponent has
  binary digits;
* `Power.square_add` — further rounds change nothing, as the loop has ended;
* `Evaluator.power_wraps` — the power of two integers on the stack.
-/

namespace Power

/-! ### The loop -/

/-- The product of words is that of their integers, wrapped to 64 bits. -/
theorem toInt_mul_modEq (a b : Int64) : (a * b).toInt ≡ a.toInt * b.toInt [ZMOD 2 ^ 64] := by
  rw [Int64.toInt_mul]
  exact Int.bmod_emod

/-- What one round hands on to the next one: an odd exponent gives the base to the product. -/
def handOn (acc base : Int64) (exp : Nat) : Int64 := if exp % 2 == 1 then acc * base else acc

/-- **One round** keeps `acc · base ^ exp`. -/
theorem round_modEq (acc base : Int64) (exp : Nat) :
    (handOn acc base exp).toInt * (base * base).toInt ^ (exp / 2) ≡
      acc.toInt * base.toInt ^ exp [ZMOD 2 ^ 64] := by
  have hsquares : (base * base).toInt ^ (exp / 2) ≡ base.toInt ^ (2 * (exp / 2)) [ZMOD 2 ^ 64] := by
    rw [pow_mul, pow_two]
    exact (toInt_mul_modEq base base).pow _
  unfold handOn
  by_cases hodd : exp % 2 = 1
  · have hexp : exp = 2 * (exp / 2) + 1 := by omega
    rw [if_pos (by simp [hodd])]
    calc (acc * base).toInt * (base * base).toInt ^ (exp / 2)
        ≡ acc.toInt * base.toInt * base.toInt ^ (2 * (exp / 2)) [ZMOD 2 ^ 64] :=
          (toInt_mul_modEq acc base).mul hsquares
      _ = acc.toInt * base.toInt ^ (2 * (exp / 2) + 1) := by ring
      _ = acc.toInt * base.toInt ^ exp := by rw [← hexp]
  · have hexp : exp = 2 * (exp / 2) := by omega
    rw [if_neg (by simp [hodd])]
    calc acc.toInt * (base * base).toInt ^ (exp / 2)
        ≡ acc.toInt * base.toInt ^ (2 * (exp / 2)) [ZMOD 2 ^ 64] := hsquares.mul_left _
      _ = acc.toInt * base.toInt ^ exp := by rw [← hexp]

/-- A round of the loop squares the base and halves the exponent. -/
theorem square_succ (bits : Nat) (acc base : Int64) {exp : Nat} (h : exp ≠ 0) :
    square (bits + 1) acc base exp = square bits (handOn acc base exp) (base * base) (exp / 2) := by
  rw [square, if_neg (by simpa using h)]
  rfl

/-- The loop ends at the exponent zero. -/
theorem square_zero (bits : Nat) (acc base : Int64) : square bits acc base 0 = acc := by
  cases bits <;> rfl

variable {bits exp : Nat}

/-- A round takes the last binary digit off. -/
theorem half_lt (h : exp < 2 ^ (bits + 1)) : exp / 2 < 2 ^ bits := by
  rw [pow_succ] at h
  omega

/-- **The loop** yields `acc · base ^ exp` modulo `2 ^ 64`. -/
theorem square_modEq (acc base : Int64) (h : exp < 2 ^ bits) :
    (square bits acc base exp).toInt ≡ acc.toInt * base.toInt ^ exp [ZMOD 2 ^ 64] := by
  -- On the rounds that are left; the congruence is for any product and base met on the way.
  induction bits generalizing acc base exp with
  | zero =>
    obtain rfl : exp = 0 := by simpa using h
    rw [square_zero, pow_zero, mul_one]
  | succ bits ih =>
    by_cases hzero : exp = 0
    · rw [hzero, square_zero, pow_zero, mul_one]
    · rw [square_succ bits acc base hzero]
      exact (ih _ _ (half_lt h)).trans (round_modEq acc base exp)

/-- With a round for each digit of the exponent, the loop ends by itself. -/
theorem square_add (acc base : Int64) (h : exp < 2 ^ bits) (more : Nat) :
    square (bits + more) acc base exp = square bits acc base exp := by
  induction bits generalizing acc base exp with
  | zero =>
    obtain rfl : exp = 0 := by simpa using h
    rw [square_zero, square_zero]
  | succ bits ih =>
    by_cases hzero : exp = 0
    · rw [hzero, square_zero, square_zero]
    · rw [Nat.add_right_comm, square_succ _ acc base hzero, square_succ _ acc base hzero,
        ih _ _ (half_lt h)]

end Power

/-! ### The operator -/

namespace Evaluator

/-- `**` replaces a base and an exponent by the power. -/
theorem operate_power (ctx : Context) (m : Machine) (below : List Value) (base : Int64)
    {exp : Int64} (h : 0 ≤ exp) :
    operate .builtin ctx (utf8 "**") (m.withVisible (.int exp :: .int base :: below)) =
      .ok () (m.withVisible (.int (Power.ofInt base exp.toInt.toNat) :: below)) := by
  have hselect :
      operate .builtin ctx (utf8 "**") (m.withVisible (.int exp :: .int base :: below)) =
        Arithmetic.power ctx [.int base, .int exp] (m.withVisible below) := rfl
  rw [hselect, Arithmetic.power, if_neg (Int64.not_lt.mpr h)]
  rfl

/-- **Powers wrap around exactly.**  For an exponent that is not negative, the operator puts in the
    place of base and exponent the integer of 64 bits that is congruent to the power modulo
    `2 ^ 64`.  The loop behind it needs at most 63 rounds: with any larger number of rounds it
    yields the same integer. -/
theorem power_wraps (ctx : Context) (m : Machine) (below : List Value) (base : Int64) {exp : Int64}
    (h : 0 ≤ exp) :
    ∃ r : Int64,
      operate .builtin ctx (utf8 "**") (m.withVisible (.int exp :: .int base :: below)) =
          .ok () (m.withVisible (.int r :: below)) ∧
        r.toInt ≡ base.toInt ^ exp.toInt.toNat [ZMOD 2 ^ 64] ∧
        (-2 ^ 63 ≤ r.toInt ∧ r.toInt < 2 ^ 63) ∧
        ∀ rounds, 63 ≤ rounds → Power.square rounds 1 base exp.toInt.toNat = r := by
  have hexp : exp.toInt.toNat < 2 ^ 63 := by
    have := exp.toInt_lt
    omega
  have hrounds : ∀ rounds, 63 ≤ rounds →
      Power.square rounds 1 base exp.toInt.toNat = Power.square 63 1 base exp.toInt.toNat := by
    intro rounds hle
    obtain ⟨more, rfl⟩ := Nat.exists_eq_add_of_le hle
    exact Power.square_add 1 base hexp more
  refine ⟨Power.square 63 1 base exp.toInt.toNat, ?_, ?_, ⟨Int64.le_toInt _, Int64.toInt_lt _⟩,
    hrounds⟩
  · rw [operate_power ctx m below base h, Power.ofInt, hrounds 64 (by decide)]
  · simpa using Power.square_modEq 1 base hexp

/-- `(-7) ** 23` does not fit into 64 bits. -/
theorem power_wraps_odd :
    ((0 : Int64) ≤ 23 ∧ (-7 : Int) ^ 23 < -2 ^ 63) ∧
      ∀ (ctx : Context) (m : Machine),
        ∃ r : Int64,
          operate .builtin ctx (utf8 "**") (m.withVisible [.int 23, .int (-7)]) =
              .ok () (m.withVisible [.int r]) ∧
            r.toInt ≡ (-7) ^ 23 [ZMOD 2 ^ 64] ∧
            (-2 ^ 63 ≤ r.toInt ∧ r.toInt < 2 ^ 63) ∧
            ∀ rounds, 63 ≤ rounds → Power.square rounds 1 (-7) 23 = r :=
  ⟨by decide, fun ctx m => power_wraps ctx m [] (-7) (show (0 : Int64) ≤ 23 by decide)⟩

end Evaluator

end StackLang
