import StackLang.Failure

namespace StackLang

/-!
# The evaluation stack

One stack serves all nested evaluations.  A boundary protects the values below it: an
evaluation sees and removes only the values above.

* `Stack` — the visible values and the protected ones;
* `Stack.push`, `pop`, `take`, `peek`, `clear` — act on the visible values only;
* `Stack.protect` — moves the boundary, which is never above the topmost value.
-/

/-- The evaluation stack, topmost values first. -/
structure Stack where
  /-- The values above the boundary. -/
  visible : List Value
  /-- The values below the boundary. -/
  hidden : List Value
  /-- The number of values below the boundary. -/
  boundary : Nat
  boundary_eq : boundary = hidden.length

namespace Stack

/-- The stack without values. -/
def empty : Stack := ⟨[], [], 0, rfl⟩

/-- The number of visible values. -/
def height (s : Stack) : Nat := s.visible.length

/-- The number of all values. -/
def size (s : Stack) : Nat := s.height + s.boundary

/-- The visible values, bottom first. -/
def values (s : Stack) : List Value := s.visible.reverse

/-- Puts a value on top. -/
def push (s : Stack) (v : Value) : Stack := { s with visible := v :: s.visible }

/-- Puts values on top, the last one becoming the topmost. -/
def pushAll (s : Stack) (vs : List Value) : Stack :=
  { s with visible := vs.reverseAux s.visible }

/-- Takes the topmost visible value off. -/
def pop (s : Stack) : Except Failure (Value × Stack) :=
  match s.visible with
  | v :: rest => .ok (v, { s with visible := rest })
  | [] => .error { cause := .emptyStack }

/-- Takes the `n` topmost visible values off; the former topmost one is the last. -/
def take (s : Stack) (n : Nat) : Except Failure (List Value × Stack) :=
  let top := s.visible.take n
  if top.length < n then .error { cause := .tooFewOperands n s.height }
  else .ok (top.reverse, { s with visible := s.visible.drop n })

/-- The visible value at a distance from the top. -/
def peek (s : Stack) (i : Int) : Except Failure Value :=
  match if i < 0 then none else s.visible[i.toNat]? with
  | some v => .ok v
  | none => .error { cause := .noEntry i s.height }

/-- Takes all visible values off. -/
def clear (s : Stack) : Stack := { s with visible := [] }

/-- Protects some more of the lowest visible values, or all if there are fewer. -/
def cover (s : Stack) (n : Nat) : Stack :=
  let keep := s.height - n
  let covered := s.visible.drop keep
  { visible := s.visible.take keep
    hidden := covered ++ s.hidden
    boundary := covered.length + s.boundary
    boundary_eq := by simp [s.boundary_eq] }

/-- Makes some of the topmost protected values visible, or all if there are fewer. -/
def uncover (s : Stack) (n : Nat) : Stack :=
  { visible := s.visible ++ s.hidden.take n
    hidden := s.hidden.drop n
    boundary := s.boundary - n
    boundary_eq := by simp [s.boundary_eq] }

/-- Protects the `boundary` lowest values, or all if there are fewer. -/
def protect (s : Stack) (boundary : Nat) : Stack :=
  if s.boundary ≤ boundary then s.cover (boundary - s.boundary)
  else s.uncover (s.boundary - boundary)

end Stack

end StackLang
