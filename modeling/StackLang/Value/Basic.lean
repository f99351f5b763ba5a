import StackLang.Span

namespace StackLang

/-!
# Values and symbols

A program is a sequence of symbols; evaluating it moves values on a stack.  Blocks
are values that hold symbols, and literal symbols hold values.

* `Value` — the seven kinds of values; integers are 64-bit words, strings are byte
  strings, and a list carries the identity it was given when it was made;
* `Symbol` — literals, names, operators and groups, each with its span;
* `Program` — a sequence of symbols;
* `Kind` — the kind of a value, by which operators are selected.
-/

/-- What the body of a group is collected into. -/
inductive Group where
  /-- A group of no stated kind. -/
  | unspecified
  | list
  | tuple
deriving DecidableEq, Repr

mutual

/-- A value. -/
inductive Value where
  | bool (b : Bool)
  | int (n : Int64)
  | float (x : Float)
  | str (s : Bytes)
  | list (id : Nat) (elems : List Value)
  | tuple (elems : List Value)
  | block (body : List Symbol)

/-- An element of a program. -/
inductive Symbol where
  | literal (v : Value) (span : Span)
  | name (s : Bytes) (span : Span)
  | operator (s : Bytes) (span : Span)
  | group (kind : Group) (body : List Symbol) (span : Span)
  /-- A symbol of no type. -/
  | blank (span : Span)

end

instance : Inhabited Value := ⟨.bool false⟩

instance : Inhabited Symbol := ⟨.blank .none⟩

/-- A sequence of symbols. -/
abbrev Program := List Symbol

/-- The kind of a value. -/
inductive Kind where
  | bool
  | int
  | float
  | str
  | list
  | tuple
  | block
deriving DecidableEq, Repr

namespace Kind

/-- The name of a kind in messages. -/
def text : Kind → Bytes
  | bool => utf8 "bool"
  | int => utf8 "int"
  | float => utf8 "float"
  | str => utf8 "string"
  | list => utf8 "list"
  | tuple => utf8 "tuple"
  | block => utf8 "block"

end Kind

namespace Value

/-- The kind of a value. -/
def kind : Value → Kind
  | bool _ => .bool
  | int _ => .int
  | float _ => .float
  | str _ => .str
  | list _ _ => .list
  | tuple _ => .tuple
  | block _ => .block

/-- The names of the kinds of some values. -/
def kindNames (vs : List Value) : List Bytes := vs.map fun v => v.kind.text

end Value

namespace Symbol

/-- The position of a symbol. -/
def span : Symbol → Span
  | literal _ s => s
  | name _ s => s
  | operator _ s => s
  | group _ _ s => s
  | blank s => s

end Symbol

end StackLang
