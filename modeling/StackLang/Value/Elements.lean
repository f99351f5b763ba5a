import StackLang.Value.Basic
import StackLang.Text.Utf8

namespace StackLang

/-!
# Elements of values

Lists, tuples and strings have elements; those of a string are its characters, as
strings of one character each.

* `Value.elements?` — the elements, from left to right;
* `Value.length?` — their number;
* `Value.index?` — the element at a position, counted from 1;
* `Cursor` — a walk over the elements, one at a time;
* `Cursor.values` — the elements that a walk has before it.
-/

namespace Value

/-- The characters of a string, each as a string. -/
def characters (s : Bytes) : List Value := (Utf8.chars s).map fun c => str (Utf8.encode c)

/-- The elements of a list, tuple or string. -/
def elements? : Value → Option (List Value)
  | list _ elems => some elems
  | tuple elems => some elems
  | str s => some (characters s)
  | _ => none

/-- The elements of a value; none for a value without elements. -/
def elements (v : Value) : List Value := v.elements?.getD []

/-- The number of elements of a list, tuple or string. -/
def length? : Value → Option Nat
  | list _ elems => some elems.length
  | tuple elems => some elems.length
  | str s => some (Utf8.chars s).length
  | _ => none

/-- The number of elements of a value; zero for a value without elements. -/
def length (v : Value) : Nat := v.length?.getD 0

/-- The element at a position, counted from 1. -/
def index? (v : Value) (i : Int) : Option Value :=
  if i < 1 then none
  else match v with
    | list _ elems => elems[(i - 1).toNat]?
    | tuple elems => elems[(i - 1).toNat]?
    | str s => (Utf8.chars s)[(i - 1).toNat]?.map fun c => str (Utf8.encode c)
    | _ => none

end Value

/-- A walk over elements: those not yet seen. -/
structure Cursor where
  rest : List Value

namespace Cursor

/-- A walk over the elements that a value has now. -/
def ofValue? (v : Value) : Option Cursor := v.elements?.map Cursor.mk

/-- The next element, if there is one, and the walk behind it. -/
def next (c : Cursor) : Option Value × Cursor :=
  match c.rest with
  | [] => (none, c)
  | v :: rest => (some v, ⟨rest⟩)

/-- A step leaves fewer elements to be seen. -/
theorem length_rest_of_next {c behind : Cursor} {v : Value} (h : c.next = (some v, behind)) :
    behind.rest.length < c.rest.length := by
  unfold next at h
  split at h
  case h_1 => cases h
  case h_2 rest hrest =>
    cases h
    rw [hrest]
    exact Nat.lt_succ_self _

/-- The elements not yet seen, taken one after the other until there is none. -/
def values (c : Cursor) : List Value :=
  match _ : c.next with
  | (none, _) => []
  | (some v, behind) => v :: behind.values
termination_by c.rest.length
decreasing_by exact length_rest_of_next ‹_›

end Cursor

end StackLang
