import StackLang.Operator.Table
import StackLang.Value.Inspection

namespace StackLang

/-!
# Operators on any values

Duplicate, drop, clear, inspect, equality, negation, size, index, inversion and
unpacking.

* `Action.wrongOperands` — what an action does with operands that its signature rules
  out;
* `General.actions` — the operators with their signatures.
-/

namespace Action

/-- Operands that the signature rules out. -/
def wrongOperands {α : Type} : Eval α := throw (.fault .wrongOperands)

end Action

namespace General

/-- `a . → a a` -/
def duplicate : Action
  | _, [v] => Eval.pushAll [v, v]
  | _, _ => Action.wrongOperands

/-- `a , →` -/
def drop : Action
  | _, [_] => pure ()
  | _, _ => Action.wrongOperands

/-- `… ; →` clears the visible stack. -/
def clear : Action := fun _ _ => modify fun m => { m with stack := m.stack.clear }

/-- `a`, a backtick `→` the inspection text of `a`. -/
def inspect : Action
  | _, [v] => Eval.push (.str v.text)
  | _, _ => Action.wrongOperands

/-- `a b = → a = b` -/
def equal : Action
  | _, [a, b] => Eval.push (.bool (a.equals b))
  | _, _ => Action.wrongOperands

/-- `a b ~= → a ≠ b` -/
def notEqual : Action
  | _, [a, b] => Eval.push (.bool (!a.equals b))
  | _, _ => Action.wrongOperands

/-- `a not →` whether `a` counts as false. -/
def negate : Action
  | _, [v] => Eval.push (.bool (!v.truthy))
  | _, _ => Action.wrongOperands

/-- `v # →` the number of elements of `v`. -/
def size : Action
  | _, [v] => Eval.push (.int (Int64.ofNat v.length))
  | _, _ => Action.wrongOperands

/-- `v i $ →` the element of `v` at position `i`, counted from 1. -/
def index : Action
  | _, [v, .int i] =>
    match v.index? i.toInt with
    | some e => Eval.push e
    | none => Eval.fail (.outOfRange i.toInt v.length)
  | _, _ => Action.wrongOperands

/-- `n ~ →` the bitwise complement of `n`. -/
def complement : Action
  | _, [.int n] => Eval.push (.int (~~~n))
  | _, _ => Action.wrongOperands

/-- `v ~ →` the elements of `v`. -/
def unpack : Action
  | _, [v] => Eval.pushAll v.elements
  | _, _ => Action.wrongOperands

/-- The operators on any values. -/
def actions : List (String × List Operand × Action) :=
  [(".", [.any], duplicate), (",", [.any], drop), (";", [], clear), ("`", [.any], inspect),
    ("=", [.any, .any], equal), ("~=", [.any, .any], notEqual), ("not", [.any], negate),
    ("#", [.iterable], size), ("$", [.iterable, .int], index), ("~", [.int], complement),
    ("~", [.iterable], unpack)]

end General

end StackLang
