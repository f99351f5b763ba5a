import StackLang.Operator.Sequence

namespace StackLang

/-!
# Operators that evaluate code

* `Control.invoke` — a block on a stack of its own;
* `Control.fold`, `evalBlock`, `evalString`, `repeatBlock` — code in place;
* `Control.mapBlock` — one value for each element;
* `Control.choose`, `conjunction`, `disjunction` — conditions;
* `Control.whileLoop`, `doLoop` — loops, which alone may take any number of rounds and
  halt as exhausted after those they are given;
* `Control.actions` — the operators with their signatures.
-/

namespace Control

/-- `a {…} ! → …`: a tuple gives several arguments, any other value is the one argument. -/
def invoke : Action
  | ctx, [.tuple args, .block body] => ctx.invoke (utf8 "invoke") body args
  | ctx, [arg, .block body] => ctx.invoke (utf8 "invoke") body [arg]
  | _, _ => Action.wrongOperands

/-- Pushes elements one by one, each followed by a step. -/
def foldEach (act : Eval Unit) : List Value → Eval Unit
  | [] => pure ()
  | e :: es => do
    Eval.push e
    act
    foldEach act es

/-- `v {…} % → …`: evaluates the block in place behind each element. -/
def fold : Action
  | ctx, [v, .block body] => foldEach (ctx.run body) v.elements
  | _, _ => Action.wrongOperands

/-- `{…} % → …`: evaluates the block in place. -/
def evalBlock : Action
  | ctx, [.block body] => ctx.run body
  | _, _ => Action.wrongOperands

/-- `"…" % → …`: evaluates the source text in place. -/
def evalString : Action
  | ctx, [.str source] => ctx.evalSource source
  | _, _ => Action.wrongOperands

/-- The results of a step for some elements, behind those already there (latest first). -/
def mapEach (act : Value → Eval Value) (results : List Value) : List Value → Eval (List Value)
  | [] => pure results.reverse
  | e :: es => do
    let r ← act e
    mapEach act (r :: results) es

/-- `v {…} / →` a new list of what the block makes of each element. -/
def mapBlock : Action
  | ctx, [v, .block body] => do
    let results ← mapEach (fun e => ctx.single (utf8 "map") (utf8 "map") body [e]) [] v.elements
    Eval.pushList results
  | _, _ => Action.wrongOperands

/-- Repeats a step. -/
def times (act : Eval Unit) : Nat → Eval Unit
  | 0 => pure ()
  | n + 1 => do
    act
    times act n

/-- Evaluates a block in place a number of times. -/
def repeatCode (ctx : Context) (n : Int64) (body : Program) : Eval Unit :=
  match Arithmetic.count "repeat count" n with
  | .ok k => times (ctx.run body) k
  | .error c => Eval.fail c

/-- `n {…} * → …`, in either order of the operands. -/
def repeatBlock : Action
  | ctx, [.int n, .block body] => repeatCode ctx n body
  | ctx, [.block body, .int n] => repeatCode ctx n body
  | _, _ => Action.wrongOperands

/-- Evaluates a block in place; pushes any other value. -/
def perform (ctx : Context) : Value → Eval Unit
  | .block body => ctx.run body
  | v => Eval.push v

/-- `c a b if → a or b`, by whether `c` counts as true. -/
def choose : Action
  | ctx, [c, a, b] => do
    let c ← ctx.condition (utf8 "if condition") c
    perform ctx (if c.truthy then a else b)
  | _, _ => Action.wrongOperands

/-- `a b and →` the first value if it counts as false, else the second. -/
def conjunction : Action
  | ctx, [a, b] => do
    let a ← ctx.condition (utf8 "left operand of 'and'") a
    if a.truthy then Eval.push (← ctx.condition (utf8 "right operand of 'and'") b)
    else Eval.push a
  | _, _ => Action.wrongOperands

/-- `a b or →` the first value if it counts as true, else the second. -/
def disjunction : Action
  | ctx, [a, b] => do
    let a ← ctx.condition (utf8 "left operand of 'or'") a
    if a.truthy then Eval.push a
    else Eval.push (← ctx.condition (utf8 "right operand of 'or'") b)
  | _, _ => Action.wrongOperands

/-- Repeats a step as long as a condition holds, at most a number of rounds. -/
def loopWhile (cond : Eval Value) (body : Eval Unit) : (rounds : Nat) → Eval Unit
  | 0 => throw .exhausted
  | n + 1 => do
    let c ← cond
    if c.truthy then
      body
      loopWhile cond body n
    else pure ()

/-- `{c} {…} while → …`: evaluates the second block in place as long as the first one,
    evaluated on a stack of its own, leaves a value that counts as true. -/
def whileLoop : Action
  | ctx, [.block cond, .block body] =>
    loopWhile (ctx.single (utf8 "while condition") (utf8 "while") cond []) (ctx.run body)
      ctx.rounds
  | _, _ => Action.wrongOperands

/-- Repeats a step as long as it leaves a value that counts as true, at most a number of
    rounds. -/
def loopDo (body : Eval Unit) : (rounds : Nat) → Eval Unit
  | 0 => throw .exhausted
  | n + 1 => do
    body
    let c ← Eval.pop
    if c.truthy then loopDo body n else pure ()

/-- `{…} do → …`: evaluates the block in place as long as it leaves a value that counts as
    true. -/
def doLoop : Action
  | ctx, [.block body] => loopDo (ctx.run body) ctx.rounds
  | _, _ => Action.wrongOperands

/-- The operators that evaluate code. -/
def actions : List (String × List Operand × Action) :=
  [("!", [.any, .block], invoke),
    ("%", [.iterable, .block], fold),
    ("%", [.block], evalBlock),
    ("%", [.str], evalString),
    ("/", [.iterable, .block], mapBlock),
    ("*", [.int, .block], repeatBlock),
    ("*", [.block, .int], repeatBlock),
    ("if", [.any, .any, .any], choose),
    ("and", [.any, .any], conjunction),
    ("or", [.any, .any], disjunction),
    ("while", [.block, .block], whileLoop),
    ("do", [.block], doLoop)]

end Control

namespace OperatorTable

/-- Adds several overloads, one after the other. -/
def registerAll (t : OperatorTable) (actions : List (String × List Operand × Action)) :
    OperatorTable :=
  actions.foldl (fun t a => t.register (utf8 a.1) a.2.1 a.2.2) t

/-- The operators of the language. -/
def builtin : OperatorTable :=
  (((empty.registerAll General.actions).registerAll Arithmetic.actions).registerAll
    Sequence.actions).registerAll Control.actions

end OperatorTable

end StackLang
