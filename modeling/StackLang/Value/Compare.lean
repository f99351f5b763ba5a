import StackLang.Failure

namespace StackLang

/-!
# Truth, equality and order of values

* `Value.truthy` — zero and whatever is empty count as false; blocks count as true;
* `Value.equals` — numbers of different kinds are compared as floats, lists are equal
  only to themselves, all else is compared part by part; positions do not count;
* `Value.compare` — the order of numbers.
-/

namespace Value

/-- Whether a value counts as true. -/
def truthy : Value → Bool
  | bool b => b
  | int n => n != 0
  | float x => x != 0
  | str s => !s.isEmpty
  | list _ elems => !elems.isEmpty
  | tuple elems => !elems.isEmpty
  | block _ => true

/-- Whether a value is a number. -/
def isNumber : Value → Bool
  | int _ => true
  | float _ => true
  | _ => false

/-- The float nearest to an integer. -/
def floatOfInt (n : Int64) : Float := Float.ofInt n.toInt

/-- A number as a float; other values count as zero. -/
def asFloat : Value → Float
  | int n => floatOfInt n
  | float x => x
  | _ => 0

end Value

/-! ### Equality -/

mutual

/-- Whether two values are equal. -/
def Value.equals : Value → Value → Bool
  | .int a, .int b => a == b
  | .int a, .float y => Value.floatOfInt a == y
  | .float x, .int b => x == Value.floatOfInt b
  | .float x, .float y => x == y
  | .bool a, .bool b => a == b
  | .str a, .str b => a == b
  | .list i _, .list j _ => i == j
  | .tuple as, .tuple bs => Value.equalsAll as bs
  | .block as, .block bs => Symbol.equalsAll as bs
  | _, _ => false

/-- Whether two sequences of values are equal element by element. -/
def Value.equalsAll : List Value → List Value → Bool
  | [], [] => true
  | a :: as, b :: bs => a.equals b && Value.equalsAll as bs
  | _, _ => false

/-- Whether two symbols are equal; literals must also be of one kind. -/
def Symbol.equals : Symbol → Symbol → Bool
  | .literal a _, .literal b _ => a.kind == b.kind && a.equals b
  | .name a _, .name b _ => a == b
  | .operator a _, .operator b _ => a == b
  | .group k as _, .group l bs _ => k == l && Symbol.equalsAll as bs
  | .blank _, .blank _ => true
  | _, _ => false

/-- Whether two programs are equal symbol by symbol. -/
def Symbol.equalsAll : List Symbol → List Symbol → Bool
  | [], [] => true
  | a :: as, b :: bs => a.equals b && Symbol.equalsAll as bs
  | _, _ => false

end

/-! ### Order -/

namespace Value

/-- The order of two floats; a float that is not a number is in no order, which
    counts as equal. -/
def compareFloats (x y : Float) : Ordering :=
  if x < y then .lt else if y < x then .gt else .eq

/-- The order of two integers. -/
def compareInts (a b : Int64) : Ordering :=
  if a < b then .lt else if b < a then .gt else .eq

/-- The order of two numbers; mixed kinds are compared as floats. -/
def compare (a b : Value) : Except Failure Ordering :=
  match a, b with
  | int m, int n => .ok (compareInts m n)
  | _, _ =>
    if a.isNumber && b.isNumber then .ok (compareFloats a.asFloat b.asFloat)
    else .error { cause := .notNumbers (kindNames [a, b]) }

end Value

end StackLang
