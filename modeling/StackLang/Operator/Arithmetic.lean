import StackLang.Operator.General
import StackLang.Operator.Power

namespace StackLang

/-!
# Operators on numbers and truth values

Integer arithmetic is that of 64-bit words; an operator on numbers of different kinds
works on floats.

* `Arithmetic.quotient`, `modulus` — division towards zero, and the modulus that has the
  sign of the divisor;
* `Arithmetic.shiftLeft`, `shiftRight` — shifts by any count that is not negative;
* `Arithmetic.actions` — the operators with their signatures.
-/

namespace Arithmetic

/-! ### Functions on numbers -/

/-- The quotient, rounded towards zero. -/
def quotient (a b : Int64) : Except Cause Int64 :=
  if b == 0 then .error .divisionByZero else .ok (a / b)

/-- The modulus that is zero or has the sign of the divisor. -/
def modulus (a b : Int64) : Except Cause Int64 :=
  if b == 0 then .error .divisionByZero
  else
    let r := a % b
    .ok (if r != 0 && decide (r < 0) != decide (b < 0) then r + b else r)

/-- The quotient of floats. -/
def floatQuotient (x y : Float) : Except Cause Float :=
  if y == 0 then .error .divisionByZero else .ok (x / y)

/-- A count, unless it is negative. -/
def count (what : String) (n : Int64) : Except Cause Nat :=
  if n < 0 then .error (.negativeCount (utf8 what) n.toInt) else .ok n.toInt.toNat

/-- The integer times a power of two. -/
def shiftLeft (a n : Int64) : Except Cause Int64 := do
  let k ← count "shift count" n
  return if k < 64 then a <<< n else 0

/-- The integer divided by a power of two, rounded down. -/
def shiftRight (a n : Int64) : Except Cause Int64 := do
  let k ← count "shift count" n
  return if k < 64 then a >>> n else if a < 0 then -1 else 0

/-! ### Lifting to operators -/

/-- Pushes a result, or fails. -/
def result {α : Type} (make : α → Value) (r : Except Cause α) : Eval Unit :=
  match r with
  | .ok a => Eval.push (make a)
  | .error c => Eval.fail c

/-- An operator on two integers. -/
def ints (f : Int64 → Int64 → Except Cause Int64) : Action
  | _, [.int a, .int b] => result .int (f a b)
  | _, _ => Action.wrongOperands

/-- An operator on two numbers, taken as floats. -/
def floats (f : Float → Float → Except Cause Float) : Action
  | _, [a, b] => result .float (f a.asFloat b.asFloat)
  | _, _ => Action.wrongOperands

/-- An operator on two truth values. -/
def bools (f : Bool → Bool → Bool) : Action
  | _, [.bool a, .bool b] => Eval.push (.bool (f a b))
  | _, _ => Action.wrongOperands

/-- A test on the order of two numbers. -/
def comparison (test : Ordering → Bool) : Action
  | _, [a, b] => do Eval.push (.bool (test (← Eval.ofExcept (a.compare b))))
  | _, _ => Action.wrongOperands

/-- `a b ** → a ^ b`, a float if `b` is negative. -/
def power : Action
  | _, [.int a, .int b] =>
    if b < 0 then Eval.push (.float (Power.ofFloat (Value.floatOfInt a) (Value.floatOfInt b)))
    else Eval.push (.int (Power.ofInt a b.toInt.toNat))
  | _, _ => Action.wrongOperands

/-- The operators on numbers and truth values. -/
def actions : List (String × List Operand × Action) :=
  [("+", [.int, .int], ints fun a b => .ok (a + b)),
    ("+", [.number, .number], floats fun x y => .ok (x + y)),
    ("-", [.int, .int], ints fun a b => .ok (a - b)),
    ("-", [.number, .number], floats fun x y => .ok (x - y)),
    ("*", [.int, .int], ints fun a b => .ok (a * b)),
    ("*", [.number, .number], floats fun x y => .ok (x * y)),
    ("/", [.int, .int], ints quotient),
    ("/", [.number, .number], floats floatQuotient),
    ("%", [.int, .int], ints modulus),
    ("**", [.int, .int], power),
    ("**", [.number, .number], floats fun x y => .ok (Power.ofFloat x y)),
    ("|", [.int, .int], ints fun a b => .ok (a ||| b)),
    ("&", [.int, .int], ints fun a b => .ok (a &&& b)),
    ("^", [.int, .int], ints fun a b => .ok (a ^^^ b)),
    ("|", [.bool, .bool], bools (· || ·)),
    ("&", [.bool, .bool], bools (· && ·)),
    ("^", [.bool, .bool], bools (· != ·)),
    ("<<", [.int, .int], ints shiftLeft),
    (">>", [.int, .int], ints shiftRight),
    ("<", [.number, .number], comparison (· == .lt)),
    ("<=", [.number, .number], comparison (· != .gt)),
    (">", [.number, .number], comparison (· == .gt)),
    (">=", [.number, .number], comparison (· != .lt))]

end Arithmetic

end StackLang
