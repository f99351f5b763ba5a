import StackLang.Text.Bytes

namespace StackLang

/-!
# Decimal numbers and floats

* `Decimal` — a sign, digits and a power of ten;
* `Decimal.toFloat` — the nearest float, ties to even; too large a number is
  infinite and too small a one is zero;
* `Decimal.read?` — the number that a numeral such as `-12.5e+3` denotes;
* `Binary`, `Binary.ofFloat?` — a finite float as an exact `mantissa · 2 ^ exponent`.
-/

/-- The number `± digits · 10 ^ exponent`. -/
structure Decimal where
  negative : Bool
  digits : Nat
  exponent : Int
deriving DecidableEq, Repr

namespace Decimal

/-- The float of infinite magnitude. -/
def infinity : Float := Float.ofBits 0x7FF0000000000000

/-- A number of this many digits before the point, or zeros behind it, is beyond
    the range of floats. -/
def beyond : Int := 400

/-- The number of decimal digits of a natural number. -/
def width (n : Nat) : Nat := (Nat.toDigits 10 n).length

/-- Takes trailing zeros off the digits of `n · 10 ^ p`, at most `fuel` of them. -/
def trimZeros : (fuel : Nat) → (n : Nat) → (p : Int) → Nat × Int
  | 0, n, p => (n, p)
  | fuel + 1, n, p =>
    if n != 0 && n % 10 == 0 then trimZeros fuel (n / 10) (p + 1) else (n, p)

/-- Digits without trailing zeros and the power of ten of the last digit, for the number
    `n · 10 ^ p`. -/
def trimmed (n : Nat) (p : Int) : Nat × Int := trimZeros (width n) n p

/-- The float nearest to the magnitude of a decimal.  It depends on the number alone, and
    not on trailing zeros of the digits. -/
def magnitude (d : Decimal) : Float :=
  let (n, p) := trimmed d.digits d.exponent
  let size := p + width n
  if n == 0 then 0
  else if size > beyond then infinity
  else if size < -beyond then 0
  else .ofModel (.ofScientific n p)

/-- The float nearest to a decimal. -/
def toFloat (d : Decimal) : Float :=
  if d.negative then -d.magnitude else d.magnitude

/-! ### Reading numerals -/

open Bytes (ascii isDigit)

/-- Splits an optional sign off a numeral; the flag tells a minus. -/
def splitSign : Bytes → Bool × Bytes
  | b :: rest =>
    if b == ascii '-' then (true, rest)
    else if b == ascii '+' then (false, rest)
    else (false, b :: rest)
  | [] => (false, [])

/-- The number written by decimal digits; none if there is no digit or another byte. -/
def natural? (ds : Bytes) : Option Nat :=
  if ds.isEmpty || !ds.all isDigit then none
  else some (ds.foldl (fun n b => n * 10 + (b.toNat - 48)) 0)

/-- The integer written by an optional sign and decimal digits. -/
def integer? (text : Bytes) : Option Int :=
  let (negative, ds) := splitSign text
  (natural? ds).map fun n => if negative then -n else n

/-- Cuts a text at the first byte with a property; none if there is no such byte. -/
def cutAt? (p : UInt8 → Bool) (text : Bytes) : Option (Bytes × Bytes) :=
  match text.dropWhile (!p ·) with
  | [] => none
  | _ :: after => some (text.takeWhile (!p ·), after)

/-- Splits a power of ten off a numeral without sign; without such a power it is 0. -/
def splitPower? (text : Bytes) : Option (Bytes × Int) :=
  match cutAt? (fun b => b == ascii 'e' || b == ascii 'E') text with
  | some (number, power) => (integer? power).map (number, ·)
  | none => some (text, 0)

/-- The number written by digits with an optional point among them, the point left out, and
    how many digits stand behind the point. -/
def pointed? (number : Bytes) : Option (Nat × Nat) :=
  match cutAt? (· == ascii '.') number with
  | some (whole, fraction) => do
    let w ← natural? whole
    let f ← natural? fraction
    some (w * Nat.pow 10 fraction.length + f, fraction.length)
  | none => (natural? number).map (·, 0)

/-- The number that a numeral denotes: an optional sign, digits, an optional
    fraction, and an optional power of ten. -/
def read? (text : Bytes) : Option Decimal := do
  let (negative, rest) := splitSign text
  let (number, exponent) ← splitPower? rest
  let (digits, behind) ← pointed? number
  some ⟨negative, digits, exponent - behind⟩

end Decimal

/-! ### Floats as binary fractions -/

/-- The number `mantissa · 2 ^ exponent`. -/
structure Binary where
  mantissa : Nat
  exponent : Int
deriving DecidableEq, Repr

namespace Binary

/-- Whether a float carries a minus sign, which zero may do too. -/
def signOf (x : Float) : Bool :=
  match x.toModel.unpack with
  | .infinity .negative => true
  | .zero .negative => true
  | .finite .negative _ _ _ => true
  | _ => false

/-- The magnitude of a finite float; none for infinities and NaN. -/
def ofFloat? (x : Float) : Option Binary :=
  match x.toModel.unpack with
  | .zero _ => some ⟨0, -1074⟩
  | .finite _ m e _ => some ⟨m, e⟩
  | _ => none

end Binary

end StackLang
