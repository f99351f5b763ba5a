import StackLang.Decimal.Basic

namespace StackLang

/-!
# Shortest decimals

* `Binary.shortest` — of the decimals that read back as a given float, one with the
  fewest digits, and of those the nearest (an exact tie goes to the even digit).

The search goes through the decimal grids `10 ^ p` from coarse to fine.  If a point
of a grid reads back, so does one of the two neighbours of the number on that grid;
the nearer one is tried first.
-/

namespace Binary

/-- Numerator and denominator of the number divided by `10 ^ p`. -/
def scaled (b : Binary) (p : Int) : Nat × Nat :=
  (b.mantissa * Nat.pow 2 b.exponent.toNat * Nat.pow 10 (-p).toNat,
    Nat.pow 2 (-b.exponent).toNat * Nat.pow 10 p.toNat)

/-- The two neighbours of a fraction among the integers, the nearer one first; of
    two equally near ones the even one is first. -/
def neighbours (num den : Nat) : Nat × Nat :=
  let low := num / den
  let twice := 2 * (num % den)
  if twice < den || (twice == den && low % 2 == 0) then (low, low + 1) else (low + 1, low)

/-- Whether `digits · 10 ^ p` is read as the float of magnitude `x`. -/
def readsBack (x : Float) (digits : Nat) (p : Int) : Bool :=
  (Decimal.mk false digits p).toFloat.toBits == x.toBits

/-- A neighbour on the grid `10 ^ p` that reads back. -/
def onGrid? (b : Binary) (x : Float) (p : Int) : Option (Nat × Int) :=
  let (num, den) := b.scaled p
  let (near, far) := neighbours num den
  if readsBack x near p then some (near, p)
  else if readsBack x far p then some (far, p)
  else none

/-- An exponent above that of the leading decimal digit. -/
def top (b : Binary) : Int := ((Nat.log2 b.mantissa : Int) + b.exponent) * 30103 / 100000 + 2

/-- The exact decimal expansion. -/
def exact (b : Binary) : Nat × Int :=
  (b.mantissa * Nat.pow 2 b.exponent.toNat * Nat.pow 5 (-b.exponent).toNat, min b.exponent 0)

/-- Digits and exponent of the shortest decimal that reads back as `x`, whose
    magnitude is `b`. -/
def shortest (b : Binary) (x : Float) : Nat × Int :=
  let found := (List.range 24).findSome? fun (i : Nat) => b.onGrid? x (b.top - i)
  let (n, p) := found.getD b.exact
  Decimal.trimmed n p

end Binary

end StackLang
