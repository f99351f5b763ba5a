import StackLang.Operator.Exponential

namespace StackLang

/-!
# Powers

* `Power.ofInt` — powers of 64-bit integers with exponents that are not negative, by
  squaring; products wrap around;
* `Power.ofFloat` — powers of floats with the special cases of IEEE 754.  For the whole
  part of the exponent mantissa and binary exponent are squared apart, so that no
  intermediate result overflows; the rest of it goes through the logarithm.
-/

namespace Power

/-! ### Integers -/

/-- `acc · base ^ exp` for an exponent of at most `bits` binary digits. -/
def square : (bits : Nat) → (acc base : Int64) → (exp : Nat) → Int64
  | 0, acc, _, _ => acc
  | bits + 1, acc, base, exp =>
    if exp == 0 then acc
    else square bits (if exp % 2 == 1 then acc * base else acc) (base * base) (exp / 2)

/-- `base ^ exp` in 64 bits. -/
def ofInt (base : Int64) (exp : Nat) : Int64 := square 64 1 base exp

/-! ### Floats -/

/-- The number `mantissa · 2 ^ exponent`. -/
structure Scaled where
  mantissa : Float
  exponent : Int

/-- `acc · base ^ exp` for an exponent of at most `bits` binary digits. -/
def squareScaled : (bits : Nat) → (acc base : Scaled) → (exp : Nat) → Scaled
  | 0, acc, _, _ => acc
  | bits + 1, acc, base, exp =>
    if exp == 0 then acc
    else if base.exponent.natAbs > 4096 then { acc with exponent := acc.exponent + base.exponent }
    else
      let acc := if exp % 2 == 1 then
          ⟨acc.mantissa * base.mantissa, acc.exponent + base.exponent⟩
        else acc
      let m := base.mantissa * base.mantissa
      let base := if m < 0.5 then ⟨m + m, 2 * base.exponent - 1⟩ else ⟨m, 2 * base.exponent⟩
      squareScaled bits acc base (exp / 2)

/-- A positive float as a whole number and a rest of magnitude at most one half, which is
    positive if it is one half. -/
def parts (y : Float) : Float × Float :=
  let rest := y - y.floor
  if 0.5 < rest then (y.floor + 1, rest - 1) else (y.floor, rest)

/-- `x ^ y` for finite `x` other than 0 and a `y` below `2 ^ 63` in magnitude, which is a
    whole number if `x` is negative. -/
def regular (x y : Float) : Float :=
  let (whole, rest) := parts y.abs
  let start := if rest == 0 then 1 else Exponential.exp (rest * Exponential.log x)
  let (m, e) := x.frExp
  let r := squareScaled 64 ⟨start, 0⟩ ⟨m, e⟩ whole.toUInt64.toNat
  if y < 0 then (1 / r.mantissa).scaleB (-r.exponent) else r.mantissa.scaleB r.exponent

/-- Whether a float is a whole number. -/
def isWhole (y : Float) : Bool := y.floor == y

/-- Whether a float is an odd whole number. -/
def isOdd (y : Float) : Bool := isWhole y && y.abs < 9007199254740992 && y.abs.toUInt64 % 2 == 1

/-- A power of zero, by the signs of base and exponent. -/
def ofZero (x y : Float) : Float :=
  if y < 0 then
    if Binary.signOf x && isOdd y then -Decimal.infinity else Decimal.infinity
  else if Binary.signOf x && isOdd y then x else 0

/-- A power of which the exponent is infinite, or so large that it might as well be:
    by whether the base is below 1 in magnitude. -/
def limit (x y : Float) : Float :=
  if x == -1 then 1
  else if (x.abs < 1) == (0 < y) then 0
  else Decimal.infinity

/-- A power of an infinity. -/
def ofInfinity (x y : Float) : Float :=
  if x < 0 then ofZero (1 / x) (-y)
  else if y < 0 then 0
  else Decimal.infinity

/-- `x ^ y`. -/
def ofFloat (x y : Float) : Float :=
  if y == 0 || x == 1 then 1
  else if y == 1 then x
  else if x.isNaN || y.isNaN then 0 / 0
  else if x == 0 then ofZero x y
  else if y.isInf then limit x y
  else if x.isInf then ofInfinity x y
  else if y == 0.5 then x.sqrt
  else if y == -0.5 then 1 / x.sqrt
  else if !isWhole y && x < 0 then 0 / 0
  else if 9223372036854775808 ≤ y.abs then limit x y
  else regular x y

end Power

end StackLang
