import StackLang.Operator.Control
import StackLang.Program.Parse

namespace StackLang

/-!
# Running programs

* `Evaluator` — an operator table, a parser for strings, and limits;
* `Evaluator.steps` — the symbols of a program, from left to right;
* `Evaluator.run` — a program, one level deeper than what evaluates it;
* `Evaluator.evaluate` — a whole evaluation on a fresh stack;
* `Memory` — what outlives an evaluation.
-/

/-- How programs are evaluated. -/
structure Evaluator where
  table : OperatorTable
  parse : Parser
  /-- How deeply evaluations may be nested. -/
  maxDepth : Nat
  /-- How many rounds a loop may take. -/
  rounds : Nat

/-- What outlives an evaluation: the global bindings, and the number of lists made. -/
structure Memory where
  globals : Table Value
  lists : Nat

/-- The memory before the first evaluation. -/
def Memory.empty : Memory := ⟨.empty, 0⟩

namespace Evaluator

/-! ### Assignment -/

/-- The sign of assignment. -/
def assignSign : Bytes := utf8 ":"

/-- The names of targets, or the first target that is not a name. -/
def targetNames : List Symbol → Except Symbol (List Bytes)
  | [] => .ok []
  | .name s _ :: rest =>
    match targetNames rest with
    | .ok names => .ok (s :: names)
    | .error t => .error t
  | t :: _ => .error t

/-- Binds names to values, from left to right. -/
def bindAll : List (Bytes × Value) → Eval Unit
  | [] => pure ()
  | (name, v) :: rest => do
    Eval.bind name v
    bindAll rest

/-- Binds the elements of a sequence to as many names. -/
def assignEach (targets : List Symbol) (v : Value) : Eval Unit :=
  match targetNames targets with
  | .error t => Eval.fail (.badTarget t.text)
  | .ok names =>
    if !Operand.sequence.accepts v then Eval.fail (.notASequence (Value.kindNames [v]))
    else if v.elements.length != names.length then
      Eval.fail (.assignmentCount v.elements.length names.length)
    else bindAll (names.zip v.elements)

/-- Binds the topmost value, which stays on the stack, to a name, or its elements to the
    names of a block. -/
def assign (target : Symbol) : Eval Unit := do
  let v ← Eval.ofExcept ((← get).stack.peek 0)
  match target with
  | .name s _ => Eval.bind s v
  | .literal (.block targets) _ => assignEach targets v
  | t => Eval.fail (.badTarget t.text)

/-! ### Symbols -/

/-- Reports a failure for a symbol, unless it has a position already. -/
def annotate (sym : Symbol) (f : Failure) : Failure :=
  if f.span.isNone then
    match sym with
    | .operator op _ => (f.withOp op).located sym.span
    | _ => f.located sym.span
  else f

/-- Applies an operator to the topmost values. -/
def operate (table : OperatorTable) (ctx : Context) (op : Bytes) : Eval Unit := fun m =>
  match table.resolve op m.stack.visible with
  | .error f => .error (.issue (.failure f)) m
  | .ok ov =>
    match m.stack.take ov.arity with
    | .error f => .error (.issue (.failure f)) m
    | .ok (args, s) => ov.action ctx args { m with stack := s }

/-- Collects the values of a group. -/
def group (ctx : Context) (kind : Group) (body : Program) : Eval Unit :=
  match kind with
  | .tuple => do Eval.push (.tuple (← ctx.collect (utf8 "tuple") body))
  | _ => do Eval.pushList (← ctx.collect (utf8 "list") body)

/-- Evaluates a symbol other than the sign of assignment. -/
def step (table : OperatorTable) (ctx : Context) : Symbol → Eval Unit
  | .literal v _ => Eval.push v
  | .name s _ => do Eval.push (← Eval.lookup s)
  | .operator s _ => operate table ctx s
  | .group kind body _ => group ctx kind body
  | .blank span => Eval.fail (.unexpectedSymbol (Symbol.blank span).text)

/-- Whether a symbol is the sign of assignment. -/
def isAssign : Symbol → Bool
  | .operator s _ => s == assignSign
  | _ => false

/-- Evaluates symbols from left to right.  The sign of assignment takes the symbol behind
    it as its target. -/
def steps (table : OperatorTable) (ctx : Context) : Program → Eval Unit
  | [] => pure ()
  | sym :: rest =>
    if isAssign sym then
      match rest with
      | [] => Eval.mapIssue (Issue.map (annotate sym)) (Eval.fail .missingTarget)
      | target :: rest => do
        Eval.mapIssue (Issue.map (annotate sym)) (assign target)
        steps table ctx rest
    else do
      Eval.mapIssue (Issue.map (annotate sym)) (step table ctx sym)
      steps table ctx rest

/-- Evaluates a program one level deeper, unless it is nested too deeply.  At most `levels`
    programs are evaluated one inside the other; with more levels than may be nested, the
    limit is always met first. -/
def run (ev : Evaluator) : (levels : Nat) → Program → Eval Unit
  | 0, _ => throw .exhausted
  | levels + 1, program =>
    Eval.nested ev.maxDepth (steps ev.table ⟨ev.parse, run ev levels, ev.rounds⟩ program)

/-! ### Whole evaluations -/

/-- The machine at the start of an evaluation. -/
def start (memory : Memory) (initial : List Value) : Machine :=
  let m := Machine.start memory.globals memory.lists
  { m with stack := m.stack.pushAll initial }

/-- What remains of a machine. -/
def memoryOf (m : Machine) : Memory := ⟨m.scopes.tableOf Machine.globals, m.nextList⟩

/-- Evaluates a program on a stack that holds the initial values: the values left, bottom
    first, or why it halted, and in both cases what remains. -/
def evaluate (ev : Evaluator) (program : Program) (memory : Memory) (initial : List Value) :
    Except Halt (List Value) × Memory :=
  match ev.run (ev.maxDepth + 1) program (start memory initial) with
  | .ok _ m => (.ok m.stack.values, memoryOf m)
  | .error h m => (.error h, memoryOf m)

/-- Parses and evaluates source text. -/
def evaluateText (ev : Evaluator) (source : Bytes) (memory : Memory) (initial : List Value) :
    Except Halt (List Value) × Memory :=
  match ev.parse source with
  | .ok program => ev.evaluate program memory initial
  | .error i => (.error (.issue i), memory)

/-! ### Evaluators -/

/-- The parser of the language. -/
def parser : Parser := fun source =>
  match Program.parse source with
  | .ok p => .ok p
  | .error f => .error (.failure f)

/-- The default limit of nesting. -/
def defaultDepth : Nat := 10000

/-- A bound on loops that no loop reaches in practice. -/
def manyRounds : Nat := Nat.pow 2 62

/-- The evaluator of the language. -/
def standard : Evaluator := ⟨.builtin, parser, defaultDepth, manyRounds⟩

/-- The evaluator with another limit of nesting, unless the limit is not positive. -/
def withDepth (ev : Evaluator) (depth : Int) : Evaluator :=
  { ev with maxDepth := if depth ≤ 0 then defaultDepth else depth.toNat }

end Evaluator

end StackLang
