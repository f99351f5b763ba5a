import StackLang.Operator.Arithmetic

namespace StackLang

/-!
# Operators on sequences

* `Sequence.difference`, `union`, `intersection`, `symmetricDifference` — lists and tuples
  as sets, in order of first appearance;
* `Sequence.repeatCount` — a count of repetitions, refused if the result would be longer
  than `2 ^ 26`;
* `Sequence.actions` — the operators with their signatures.
-/

namespace Sequence

/-! ### Elements as sets -/

/-- Whether a value equals one of some values. -/
def contains (vs : List Value) (v : Value) : Bool := vs.any v.equals

/-- The elements of `a` that equal none of `b`. -/
def difference (a b : List Value) : List Value := a.filter fun v => !contains b v

/-- Adds a value at the end, unless an equal one is there. -/
def addNew (vs : List Value) (v : Value) : List Value :=
  if contains vs v then vs else vs ++ [v]

/-- The elements of `a` and then of `b`, each but once. -/
def union (a b : List Value) : List Value := (a ++ b).foldl addNew []

/-- The elements of `a` that equal one of `b`, each but once. -/
def intersection (a b : List Value) : List Value :=
  a.foldl (fun vs v => if contains b v then addNew vs v else vs) []

/-- The elements of one of `a` and `b`, but not of both, each but once. -/
def symmetricDifference (a b : List Value) : List Value :=
  union (difference a b) (difference b a)

/-! ### Repetition -/

/-- The greatest length of a repetition. -/
def maxLength : Nat := Nat.pow 2 26

/-- How often to repeat something of a length. -/
def repeatCount (length : Nat) (n : Int64) : Except Cause Nat := do
  let k ← Arithmetic.count "repeat count" n
  if 0 < length && maxLength / length < k then .error (.repeatTooLarge n.toInt length)
  else return if length == 0 then 0 else k

/-- A list put together from copies of another one. -/
def copies {α : Type} (n : Nat) (as : List α) : List α := (List.replicate n as).flatten

/-! ### Operators -/

/-- Pushes elements as a new list if one of the values they come from is a list, and as a
    tuple otherwise. -/
def pushLike (sources : List Value) (elems : List Value) : Eval Unit :=
  if sources.any (·.kind == .list) then Eval.pushList elems else Eval.push (.tuple elems)

/-- An operator on the elements of two sequences. -/
def onElements (f : List Value → List Value → List Value) : Action
  | _, [a, b] => pushLike [a, b] (f a.elements b.elements)
  | _, _ => Action.wrongOperands

/-- `a b + → ab` for strings. -/
def joinStrings : Action
  | _, [.str a, .str b] => Eval.push (.str (a ++ b))
  | _, _ => Action.wrongOperands

/-- `a b + → ab` for blocks. -/
def joinBlocks : Action
  | _, [.block a, .block b] => Eval.push (.block (a ++ b))
  | _, _ => Action.wrongOperands

/-- Pushes `n` copies of what a string, list or tuple consists of. -/
def repeatValue (n : Int64) (v : Value) : Eval Unit :=
  match v with
  | .str s =>
    match repeatCount s.length n with
    | .ok k => Eval.push (.str (copies k s))
    | .error c => Eval.fail c
  | v =>
    match repeatCount v.elements.length n with
    | .ok k => pushLike [v] (copies k v.elements)
    | .error c => Eval.fail c

/-- `n v * → v…v`, in either order of the operands. -/
def repetition : Action
  | _, [.int n, v] => repeatValue n v
  | _, [v, .int n] => repeatValue n v
  | _, _ => Action.wrongOperands

/-- The operators on sequences. -/
def actions : List (String × List Operand × Action) :=
  [("+", [.str, .str], joinStrings),
    ("+", [.sequence, .sequence], onElements (· ++ ·)),
    ("+", [.block, .block], joinBlocks),
    ("-", [.sequence, .sequence], onElements difference),
    ("*", [.int, .sequence], repetition),
    ("*", [.sequence, .int], repetition),
    ("*", [.int, .str], repetition),
    ("*", [.str, .int], repetition),
    ("|", [.sequence, .sequence], onElements union),
    ("&", [.sequence, .sequence], onElements intersection),
    ("^", [.sequence, .sequence], onElements symmetricDifference)]

end Sequence

end StackLang
