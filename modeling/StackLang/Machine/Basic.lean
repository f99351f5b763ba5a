import StackLang.Machine.Stack
import StackLang.Scope.Tree

namespace StackLang

/-!
# The machine

The state of an evaluation: its scopes, its stack, and the frames of the invocations
that are going on.  A frame holds the scope that is active during an invocation and the
boundary that protects the values of its caller.

* `Frame`, `Machine` — an invocation, and the whole state;
* `Machine.enter`, `Machine.leave` — start and end an invocation;
* `Fault` — a misuse of frames, which is an error of the host and never one of a program.
-/

/-- An invocation. -/
structure Frame where
  name : Bytes
  /-- The number of the active scope. -/
  scope : Nat
  /-- The number of values that were on the stack at the start. -/
  boundary : Int
  /-- Tells apart all frames of a machine. -/
  serial : Nat
deriving DecidableEq, Repr

/-- A misuse of frames or operands by the host. -/
inductive Fault where
  /-- The current frame was wanted, but there is none. -/
  | noFrame
  /-- A frame was to be removed, but there is none. -/
  | nothingToPop
  /-- A frame would uncover values that an enclosing frame protects. -/
  | lowBoundary (name : Bytes) (boundary enclosing : Int)
  /-- A frame other than the current one was left. -/
  | outOfOrder
  /-- An operator was given operands that its signature rules out. -/
  | wrongOperands
deriving DecidableEq, Repr

/-- The text of a fault. -/
def Fault.message : Fault → Bytes
  | noFrame => utf8 "attempt to access frame from empty call stack"
  | nothingToPop => utf8 "attempt to pop frame from empty call stack"
  | lowBoundary name boundary enclosing =>
    utf8 "frame " ++ name ++ utf8 ": boundary " ++ Bytes.signed boundary
      ++ utf8 " below enclosing boundary " ++ Bytes.signed enclosing
  | outOfOrder => utf8 "runtime: frames left out of order"
  | wrongOperands => utf8 "operands do not fit the operator"

/-- The state of an evaluation. -/
structure Machine where
  scopes : Scopes Value
  stack : Stack
  /-- The invocations going on, the current one first. -/
  frames : List Frame
  /-- The serial number of the next frame. -/
  nextFrame : Nat
  /-- The identity of the next list. -/
  nextList : Nat
  /-- How many evaluations of programs are going on, each inside the one before. -/
  depth : Nat

namespace Machine

/-! ### Frames -/

/-- The number of the root scope. -/
def globals : Nat := 0

/-- The current frame. -/
def current (m : Machine) : Except Fault Frame :=
  match m.frames with
  | f :: _ => .ok f
  | [] => .error .noFrame

/-- Puts a new frame on top of the others; its boundary may not be below that of the
    enclosing frame. -/
def pushFrame (m : Machine) (name : Bytes) (scope : Nat) (boundary : Int) :
    Except Fault (Frame × Machine) :=
  let f : Frame := ⟨name, scope, boundary, m.nextFrame⟩
  let pushed := { m with frames := f :: m.frames, nextFrame := m.nextFrame + 1 }
  match m.frames with
  | e :: _ =>
    if boundary < e.boundary then .error (.lowBoundary name boundary e.boundary)
    else .ok (f, pushed)
  | [] => .ok (f, pushed)

/-- Removes the current frame. -/
def popFrame (m : Machine) : Except Fault (Frame × Machine) :=
  match m.frames with
  | f :: rest => .ok (f, { m with frames := rest })
  | [] => .error .nothingToPop

/-- A frame in text. -/
def frameText (m : Machine) (f : Frame) : Bytes :=
  utf8 "<frame " ++ f.name ++ utf8 " @" ++ Bytes.signed f.boundary ++ utf8 " -> "
    ++ ((m.scopes.get? f.scope).map Scope.text).getD [] ++ utf8 ">"

/-! ### Invocations -/

/-- The frame of the program itself. -/
def baseFrame : Frame := ⟨utf8 "program", globals, 0, 0⟩

/-- A machine at the start of a program: some globals, an empty stack, and the number of
    lists made so far. -/
def start (globals : Table Value) (lists : Nat) : Machine where
  scopes := .root globals
  stack := .empty
  frames := [baseFrame]
  nextFrame := 1
  nextList := lists
  depth := 0

/-- Starts an invocation in a scope: all values are protected. -/
def enter (m : Machine) (name : Bytes) (scope : Nat) : Except Fault (Frame × Machine) :=
  match m.pushFrame name scope m.stack.size with
  | .ok (f, m) => .ok (f, { m with stack := m.stack.protect m.stack.size })
  | .error e => .error e

/-- Ends the invocation of a frame, which must be the current one.  What the invocation
    left on the stack becomes visible to the caller. -/
def leave (m : Machine) (f : Frame) : Except Fault Machine :=
  match m.frames with
  | [] => .error .noFrame
  | c :: rest =>
    if c.serial = f.serial then
      let boundary := match rest with
        | e :: _ => e.boundary.toNat
        | [] => 0
      .ok { m with frames := rest, stack := m.stack.protect boundary }
    else .error .outOfOrder

/-! ### Names -/

/-- Looks a name up from a scope. -/
def lookup (m : Machine) (scope : Nat) (name : Bytes) : Except Failure Value :=
  match m.scopes.find? scope name with
  | some (_, v) => .ok v
  | none => .error { cause := .unbound name }

/-- Binds a name in a scope. -/
def bind (m : Machine) (scope : Nat) (name : Bytes) (v : Value) : Machine :=
  { m with scopes := m.scopes.bind scope name v }

end Machine

end StackLang
