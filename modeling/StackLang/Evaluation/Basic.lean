import StackLang.Machine.Basic
import StackLang.Value.Compare
import StackLang.Value.Elements

namespace StackLang

/-!
# Evaluations

* `Eval` — a step of an evaluation: it changes the machine and may halt;
* `Halt` — why an evaluation halts: an issue of the program, a fault of the host, or a
  loop that has used up its rounds;
* `Context` — what an operator may use: the parser for strings, the evaluation of a
  program one level deeper, and the bound on the rounds of a loop;
* `Eval.bracketed` — an invocation, whose frame is left however it ends;
* `Eval.nested` — an evaluation one level deeper, whose level is left however it ends;
* `Context.invoke`, `single`, `condition`, `collect`, `evalSource` — the ways in which
  operators evaluate code.
-/

/-- Why an evaluation halts. -/
inductive Halt where
  | issue (i : Issue)
  | fault (f : Fault)
  /-- A loop has used up the rounds it was given, or a recursion its levels. -/
  | exhausted
deriving DecidableEq, Repr

/-- A step of an evaluation. -/
abbrev Eval (α : Type) := EStateM Halt Machine α

namespace Eval

variable {α : Type}

/-! ### Failing -/

/-- Halts with a failure. -/
def fail (cause : Cause) : Eval α := throw (.issue (.failure { cause }))

/-- The result of a step that may fail. -/
def ofExcept (r : Except Failure α) : Eval α :=
  match r with
  | .ok a => pure a
  | .error f => throw (.issue (.failure f))

/-- Changes the issue, if the evaluation halts with one. -/
@[inline] def mapIssue (g : Issue → Issue) (act : Eval α) : Eval α := fun m =>
  match act m with
  | .ok a m => .ok a m
  | .error (.issue i) m => .error (.issue (g i)) m
  | .error h m => .error h m

/-- Runs a step and then another one, also if the first one halts. -/
@[inline] def ensuring (act : Eval α) (after : Eval Unit) : Eval α := fun m =>
  match act m with
  | .ok a m =>
    match after m with
    | .ok _ m => .ok a m
    | .error h m => .error h m
  | .error h m =>
    match after m with
    | .ok _ m => .error h m
    | .error g m => .error g m

/-! ### The stack -/

/-- Puts a value on top of the stack. -/
def push (v : Value) : Eval Unit := modify fun m => { m with stack := m.stack.push v }

/-- Puts values on top of the stack, the last one becoming the topmost. -/
def pushAll (vs : List Value) : Eval Unit :=
  modify fun m => { m with stack := m.stack.pushAll vs }

/-- Takes the topmost visible value off the stack. -/
def pop : Eval Value := fun m =>
  match m.stack.pop with
  | .ok (v, s) => .ok v { m with stack := s }
  | .error f => .error (.issue (.failure f)) m

/-- Takes all visible values off the stack, bottom first. -/
def takeAll : Eval (List Value) := modifyGet fun m =>
  (m.stack.values, { m with stack := m.stack.clear })

/-- Puts a new list on top of the stack. -/
def pushList (elems : List Value) : Eval Unit := modify fun m =>
  { m with stack := m.stack.push (.list m.nextList elems), nextList := m.nextList + 1 }

/-! ### Scopes -/

/-- The number of the active scope. -/
def activeScope : Eval Nat := fun m =>
  match m.current with
  | .ok f => .ok f.scope m
  | .error e => .error (.fault e) m

/-- Looks a name up from the active scope. -/
def lookup (name : Bytes) : Eval Value := do
  let scope ← activeScope
  let m ← get
  ofExcept (m.lookup scope name)

/-- Binds a name in the active scope. -/
def bind (name : Bytes) (v : Value) : Eval Unit := do
  let scope ← activeScope
  modify fun m => m.bind scope name v

/-! ### Invocations -/

/-- Starts an invocation in a scope. -/
def enter (name : Bytes) (scope : Nat) : Eval Frame := fun m =>
  match m.enter name scope with
  | .ok (f, m) => .ok f m
  | .error e => .error (.fault e) m

/-- Ends the invocation of a frame, and forgets all scopes but the first `keep`. -/
def leave (f : Frame) (keep : Nat) : Eval Unit := fun m =>
  match m.leave f with
  | .ok m => .ok () { m with scopes := m.scopes.truncate keep }
  | .error e => .error (.fault e) m

/-- Runs a step as an invocation in the active scope. -/
@[inline] def bracketed (name : Bytes) (act : Eval α) : Eval α := do
  let scope ← activeScope
  let keep := (← get).scopes.size
  let f ← enter name scope
  ensuring act (leave f keep)

/-- Runs a step as an invocation in a new child of the active scope, which no longer
    exists afterwards. -/
@[inline] def bracketedIn (name scopeName : Bytes) (act : Eval α) : Eval α := do
  let scope ← activeScope
  let keep := (← get).scopes.size
  modify fun m => { m with scopes := m.scopes.add scopeName (some scope) }
  let f ← enter name keep
  ensuring act (leave f keep)

/-- Runs a step one level deeper, unless that is deeper than a limit. -/
@[inline] def nested (limit : Nat) (act : Eval α) : Eval α := do
  if limit ≤ (← get).depth then fail (.tooDeep limit)
  else
    modify fun m => { m with depth := m.depth + 1 }
    ensuring act (modify fun m => { m with depth := m.depth - 1 })

end Eval

/-! ### What operators may use -/

/-- A function from source text to programs. -/
abbrev Parser := Bytes → Except Issue Program

/-- What an operator may use. -/
structure Context where
  /-- Turns a string into a program. -/
  parse : Parser
  /-- Evaluates a program in place, one level deeper. -/
  run : Program → Eval Unit
  /-- The number of rounds a loop may take. -/
  rounds : Nat

namespace Context

/-- Evaluates a block in a new scope on a stack that holds only the arguments; what the
    block leaves becomes visible to the caller. -/
def invoke (ctx : Context) (name : Bytes) (body : Program) (args : List Value) : Eval Unit :=
  Eval.bracketedIn name name do
    Eval.pushAll args
    ctx.run body

/-- The one visible value; any other number of values is a failure. -/
def oneValue (what : Bytes) : Eval Value := do
  let m ← get
  match m.stack.visible with
  | [_] => Eval.pop
  | vs => Eval.fail (.notOneValue what vs.length)

/-- The one value that a block leaves, evaluated in a new scope on a stack that holds
    only the arguments. -/
def single (ctx : Context) (what scopeName : Bytes) (body : Program) (args : List Value) :
    Eval Value :=
  Eval.bracketedIn what scopeName do
    Eval.pushAll args
    ctx.run body
    oneValue what

/-- The value of a condition.  A block is evaluated in the active scope on an empty stack
    and leaves one value; any other value stands for itself. -/
def condition (ctx : Context) (what : Bytes) (v : Value) : Eval Value :=
  match v with
  | .block body =>
    Eval.bracketed what do
      ctx.run body
      oneValue what
  | v => pure v

/-- The values that a program leaves, evaluated in a new scope on an empty stack. -/
def collect (ctx : Context) (name : Bytes) (body : Program) : Eval (List Value) :=
  Eval.bracketedIn name name do
    ctx.run body
    Eval.takeAll

/-- Evaluates source text in place.  Positions inside the text move into the message. -/
def evalSource (ctx : Context) (source : Bytes) : Eval Unit :=
  Eval.mapIssue (Issue.map Failure.relocated) do
    match ctx.parse source with
    | .ok program => ctx.run program
    | .error i => throw (.issue i)

end Context

end StackLang
