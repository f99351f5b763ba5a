import StackLang.Evaluation.Basic

namespace StackLang

/-!
# Operator tables

An operator has overloads, selected by the kinds of the values on top of the stack.

* `Operand` — what an overload asks of one operand;
* `Overload` — a signature, bottom operand first, and what the operator does;
* `OperatorTable.register` — adds an overload; longer signatures come first, then more
  specific ones, then earlier ones;
* `OperatorTable.resolve` — the first overload that accepts the visible values.
-/

/-- What an overload asks of an operand. -/
inductive Operand where
  | any
  | bool
  | int
  | float
  | str
  | list
  | tuple
  | block
  /-- An integer or float. -/
  | number
  /-- A list or tuple. -/
  | sequence
  /-- A list, tuple or string. -/
  | iterable
  /-- A block or string. -/
  | source
  /-- A demand that no value meets. -/
  | unknown
deriving DecidableEq, Repr

namespace Operand

/-- All demands that have a name. -/
def named : List Operand :=
  [any, bool, int, float, str, list, tuple, block, number, sequence, iterable, source]

/-- The name of a demand. -/
def text : Operand → Bytes
  | any => utf8 "any"
  | bool => utf8 "bool"
  | int => utf8 "int"
  | float => utf8 "float"
  | str => utf8 "string"
  | list => utf8 "list"
  | tuple => utf8 "tuple"
  | block => utf8 "block"
  | number => utf8 "number"
  | sequence => utf8 "sequence"
  | iterable => utf8 "iterable"
  | source => utf8 "source"
  | unknown => utf8 "?"

/-- The demand of a name. -/
def ofName (name : Bytes) : Operand := (named.find? (·.text == name)).getD unknown

/-- Whether values of a kind meet a demand. -/
def acceptsKind : Operand → Kind → Bool
  | any, _ => true
  | bool, k => k == .bool
  | int, k => k == .int
  | float, k => k == .float
  | str, k => k == .str
  | list, k => k == .list
  | tuple, k => k == .tuple
  | block, k => k == .block
  | number, k => k == .int || k == .float
  | sequence, k => k == .list || k == .tuple
  | iterable, k => k == .list || k == .tuple || k == .str
  | source, k => k == .block || k == .str
  | unknown, _ => false

/-- Whether a value meets a demand. -/
def accepts (o : Operand) (v : Value) : Bool := o.acceptsKind v.kind

/-- How much a demand asks: one kind more than a class of kinds, a class more than
    nothing. -/
def specificity : Operand → Nat
  | any => 1
  | number => 2
  | sequence => 2
  | iterable => 2
  | source => 2
  | unknown => 2
  | _ => 3

end Operand

/-- What an operator does with its operands, the topmost one being the last. -/
abbrev Action := Context → List Value → Eval Unit

/-- One meaning of an operator. -/
structure Overload where
  op : Bytes
  /-- The demands on the operands, bottom operand first. -/
  signature : List Operand
  action : Action
  /-- The number of overloads registered before in the same table. -/
  order : Nat

namespace Overload

/-- The number of operands. -/
def arity (ov : Overload) : Nat := ov.signature.length

/-- How much the signature asks in all. -/
def specificity (ov : Overload) : Nat := (ov.signature.map Operand.specificity).foldr (· + ·) 0

/-- Whether values, topmost first, meet demands, topmost first. -/
def meets : List Operand → List Value → Bool
  | [], _ => true
  | o :: os, v :: vs => o.accepts v && meets os vs
  | _ :: _, [] => false

/-- Whether the signature accepts the visible values, given topmost first. -/
def accepts (ov : Overload) (visible : List Value) : Bool := meets ov.signature.reverse visible

/-- Whether an overload comes before another one: it has a longer signature, or else a
    more specific one, or else it was registered earlier. -/
def precedes (a b : Overload) : Bool :=
  if a.arity != b.arity then b.arity < a.arity
  else if a.specificity != b.specificity then b.specificity < a.specificity
  else a.order < b.order

/-- An overload in text: its signature and the operator. -/
def text (ov : Overload) : Bytes := Bytes.spaced (ov.signature.map Operand.text ++ [ov.op])

end Overload

/-- The overloads of operators. -/
structure OperatorTable where
  /-- The overloads of each operator, in order of precedence. -/
  overloads : Table (List Overload)
  /-- The number of overloads registered so far. -/
  count : Nat

namespace OperatorTable

/-- The table without operators. -/
def empty : OperatorTable := ⟨.empty, 0⟩

/-- The overloads of an operator, in order of precedence. -/
def get (t : OperatorTable) (op : Bytes) : List Overload := (t.overloads.get? op).getD []

/-- The names of all operators, in bytewise order. -/
def names (t : OperatorTable) : List Bytes := t.overloads.entries.map (·.1)

/-- Puts an overload behind those that come before it. -/
def place (ov : Overload) : List Overload → List Overload
  | [] => [ov]
  | o :: rest => if ov.precedes o then ov :: o :: rest else o :: place ov rest

/-- Adds an overload for an operator. -/
def register (t : OperatorTable) (op : Bytes) (signature : List Operand) (action : Action) :
    OperatorTable :=
  let ov : Overload := ⟨op, signature, action, t.count⟩
  ⟨t.overloads.insert op (place ov (t.get op)), t.count + 1⟩

/-- The failure of an operator of which no overload accepts the visible values, topmost
    first: too few values for its longest signature, or else values of wrong kinds. -/
def mismatch (op : Bytes) (arity : Nat) (visible : List Value) : Failure :=
  let top := visible.take arity
  if top.length < arity then { cause := .tooFewOperands arity visible.length, op }
  else { cause := .unsupportedOperands (Value.kindNames top.reverse), op }

/-- The first overload of an operator that accepts the visible values, given topmost
    first. -/
def resolve (t : OperatorTable) (op : Bytes) (visible : List Value) : Except Failure Overload :=
  match t.get op with
  | [] => .error { cause := .unknownOperator, op }
  | first :: rest =>
    match (first :: rest).find? (·.accepts visible) with
    | some ov => .ok ov
    | none => .error (mismatch op first.arity visible)

end OperatorTable

end StackLang
