import StackLang.Decimal.Basic

namespace StackLang

/-!
# Exponential and natural logarithm

Both functions divide a power of two out of the argument and evaluate a polynomial in
what is left.  The order of the roundings is part of the result, down to the last bit.

* `Exponential.mulAdd` — product and sum with one rounding;
* `Exponential.log` — the natural logarithm of a positive float;
* `Exponential.exp` — the exponential of a float well inside the range of results.
-/

namespace Exponential

/-! ### Building blocks -/

/-- A finite float as an integer times a power of two; zero if it is not finite. -/
def exact (x : Float) : Int × Int :=
  match Binary.ofFloat? x with
  | some b => (if Binary.signOf x then -b.mantissa else b.mantissa, b.exponent)
  | none => (0, 0)

/-- The float nearest to `m * 2 ^ e`, if it is a normal one.  Of a long integer the hundred
    leading bits decide, the last of which is set if anything below them is. -/
def rounded (m e : Int) : Float :=
  let drop := m.natAbs.log2 - 100
  let top := m.natAbs / Nat.pow 2 drop
  let top := if m.natAbs % Nat.pow 2 drop == 0 then top else top / 2 * 2 + 1
  (Float.ofInt (m.sign * top)).scaleB (e + drop)

/-- `a * b + c` with one rounding, for finite operands and a result in the normal range. -/
def mulAdd (a b c : Float) : Float :=
  let (m, p) := exact a
  let (n, q) := exact b
  let (k, r) := exact c
  let low := min (p + q) r
  rounded (m * n * Int.pow 2 (p + q - low).toNat + k * Int.pow 2 (r - low).toNat) low

/-- The value of a polynomial, coefficients from the highest power down, with one
    rounding for each of them. -/
def horner (coefficients : List Float) (x : Float) : Float :=
  coefficients.foldl (fun sum c => mulAdd sum x c) 0

/-- The nearest whole number, ties to even, of a float far below `2 ^ 51` in magnitude:
    floats beside the added constant are whole. -/
def nearest (x : Float) : Float := x + 6755399441055744 - 6755399441055744

/-! ### The logarithm -/

/-- The natural logarithm of `1 + f` without its leading terms, as a function of
    `s = f / (2 + f)`: two interleaved polynomials in even powers of `s`. -/
def logTail (s : Float) : Float :=
  let s2 := s * s
  let s4 := s2 * s2
  let odd := s2 * (6.666666666666735130e-01 + s4 * (2.857142874366239149e-01
    + s4 * (1.818357216161805012e-01 + s4 * 1.479819860511658591e-01)))
  let even := s4 * (3.999999999940941908e-01 + s4 * (2.222219843214978396e-01
    + s4 * 1.531383769920937332e-01))
  odd + even

/-- The mantissa, between `√½` and `√2`, and the binary exponent of a positive float. -/
def centred (x : Float) : Float × Float :=
  let (m, e) := x.frExp
  if m < 0.70710678118654752440 then (m * 2, Float.ofInt (e - 1)) else (m, Float.ofInt e)

/-- The natural logarithm of a positive float.  The logarithm of 2 is taken in two
    parts, of which the higher one times the exponent is exact. -/
def log (x : Float) : Float :=
  let (m, k) := centred x
  let f := m - 1
  let s := f / (2 + f)
  let half := 0.5 * f * f
  k * 6.93147180369123816490e-01
    - ((half - (s * (half + logTail s) + k * 1.90821492927058770002e-10)) - f)

/-! ### The exponential -/

/-- The coefficients of `(eʳ - 1) / r`, from the highest power down. -/
def expCoefficients : List Float :=
  [2.4801587301587301587e-5, 1.9841269841269841270e-4, 1.3888888888888888889e-3,
    8.3333333333333333333e-3, 4.1666666666666666667e-2, 1.6666666666666666667e-1, 0.5, 1]

/-- From `eʳ - 1` to `e²ʳ - 1`. -/
def double (y : Float) : Float := y * (y + 2)

/-- The exponential of a float of magnitude below 700.  The multiple of the logarithm of
    2 is removed in two parts, and the polynomial is evaluated at a sixteenth of the rest. -/
def exp (x : Float) : Float :=
  let k := nearest (1.4426950408889634073599246810018920 * x)
  let r := mulAdd (-0.69314718055966295651160180568695068359375) k x
  let r := mulAdd (-0.28235290563031577122588448175013436025525412068e-12) k r
  let r := r * 0.0625
  let y := double (double (double (r * horner expCoefficients r)))
  (mulAdd y (y + 2) 1).scaleB k.toInt64.toInt

end Exponential

end StackLang
