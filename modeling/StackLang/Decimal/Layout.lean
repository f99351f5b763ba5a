import StackLang.Decimal.Shortest

namespace StackLang

/-!
# Floats as text

* `Layout` — the decisions of a float format;
* `Layout.inspection` — the format of the language: a point or an exponent is always
  shown, so that the text is read as a float again;
* `Layout.text` — a float in a format.
-/

/-- The decisions of a float format. -/
structure Layout where
  /-- The least power of ten of the leading digit that is written positionally. -/
  leastPlain : Int
  /-- The least power of ten from which on an exponent is written. -/
  leastScientific : Int
  /-- The least number of digits of an exponent. -/
  exponentWidth : Nat
  /-- The magnitude of an infinity. -/
  infinite : Bytes
  /-- The value that is not a number. -/
  notANumber : Bytes

namespace Layout

open Bytes (ascii)

/-- Positional from `0.0001` to below one million, exponents with a sign and at
    least two digits, infinities as a numeral out of range. -/
def inspection : Layout where
  leastPlain := -4
  leastScientific := 6
  exponentWidth := 2
  infinite := utf8 "1e999"
  notANumber := utf8 "NaN"

/-- Zeros in front of a numeral, up to a width. -/
def padded (width n : Nat) : Bytes :=
  let ds := Bytes.decimal n
  List.replicate (width - ds.length) (ascii '0') ++ ds

/-- A signed exponent. -/
def exponent (l : Layout) (e : Int) : Bytes :=
  ascii 'e' :: ascii (if e < 0 then '-' else '+') :: padded l.exponentWidth e.natAbs

/-- Digits whose first one counts `10 ^ e`, written with an exponent. -/
def scientific (l : Layout) (ds : Bytes) (e : Int) : Bytes :=
  match ds with
  | [d] => d :: l.exponent e
  | d :: rest => d :: ascii '.' :: rest ++ l.exponent e
  | [] => []

/-- Digits whose first one counts `10 ^ e`, written positionally with a point. -/
def plain (ds : Bytes) (e : Int) : Bytes :=
  if e < 0 then utf8 "0." ++ List.replicate (-e - 1).toNat (ascii '0') ++ ds
  else
    let whole := e.toNat + 1
    if ds.length ≤ whole then
      ds ++ List.replicate (whole - ds.length) (ascii '0') ++ utf8 ".0"
    else ds.take whole ++ ascii '.' :: ds.drop whole

/-- The magnitude of a float of which the digits and the power of ten of the last
    digit are given. -/
def digits (l : Layout) (n : Nat) (p : Int) : Bytes :=
  let ds := Bytes.decimal n
  let e := p + ds.length - 1
  if e < l.leastPlain || l.leastScientific ≤ e then l.scientific ds e else plain ds e

/-- The magnitude of a float other than NaN. -/
def magnitude (l : Layout) (x : Float) : Bytes :=
  match Binary.ofFloat? x with
  | none => l.infinite
  | some b =>
    if b.mantissa == 0 then l.digits 0 0
    else
      let (n, p) := b.shortest x.abs
      l.digits n p

/-- A float in a format. -/
def text (l : Layout) (x : Float) : Bytes :=
  if x.isNaN then l.notANumber
  else if Binary.signOf x then ascii '-' :: l.magnitude x
  else l.magnitude x

end Layout

end StackLang
