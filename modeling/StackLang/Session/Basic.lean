import StackLang.Evaluation.Run
import StackLang.Session.Screen
import StackLang.Text.Blank

namespace StackLang

/-!
# Sessions

A session evaluates one source text after the other against the same global bindings.
Every operation yields the session afterwards and what it printed.

* `Session` — the state between inputs;
* `Session.eval` — evaluates a source text;
* `Session.execute` — carries out a command;
* `Session.runFile`, `runFiles`, `load` — evaluate files, in any monad that can read them.
-/

/-- The state of a session between inputs. -/
structure Session where
  memory : Memory
  /-- What the last successful input left, bottom first. -/
  stack : List Value
  /-- Whether every input starts with an empty stack. -/
  autoclear : Bool
  /-- Whether the session is to end. -/
  quit : Bool

namespace Session

/-- A session before its first input. -/
def new (autoclear : Bool) : Session := ⟨.empty, [], autoclear, false⟩

/-- The text of what an evaluation halted with. -/
def haltMessage : Halt → Bytes
  | .issue i => i.message
  | .fault f => f.message
  | .exhausted => utf8 "loop exhausted"

/-! ### Evaluating -/

/-- Evaluates a source text.  If it fails, the stack stays as it is, but bindings made
    before remain. -/
def eval (s : Session) (source : Bytes) : Option Halt × Session × Bytes :=
  let initial := if s.autoclear then [] else s.stack
  match Evaluator.standard.evaluateText source s.memory initial with
  | (.ok stack, memory) => (none, { s with memory, stack }, [])
  | (.error h, memory) => (some h, { s with memory }, Screen.error (haltMessage h))

/-- The numbered values of the stack. -/
def printStack (s : Session) : Bytes := ((Screen.stackLines s.stack).map Screen.info).flatten

/-! ### Commands -/

/-- A command of a session. -/
inductive Command where
  | help
  | quit
  | clear
  | autoclear
  | stack
  | globals
  | ops
deriving DecidableEq, Repr

namespace Command

/-- All commands, in the order of their names. -/
def all : List Command := [autoclear, clear, globals, help, ops, quit, stack]

/-- The name of a command. -/
def name : Command → Bytes
  | help => utf8 "help"
  | quit => utf8 "quit"
  | clear => utf8 "clear"
  | autoclear => utf8 "autoclear"
  | stack => utf8 "stack"
  | globals => utf8 "globals"
  | ops => utf8 "ops"

/-- What a command is for. -/
def summary : Command → Bytes
  | help => utf8 "list metacommands"
  | quit => utf8 "quit the interpreter"
  | clear => utf8 "clear the stack"
  | autoclear => utf8 "clear the stack after each input: /autoclear [on|off]"
  | stack => utf8 "display the stack as a tree"
  | globals => utf8 "list global bindings"
  | ops => utf8 "list operators: /ops [operator]"

/-- The command of a name; a question mark asks for help. -/
def ofName? (n : Bytes) : Option Command :=
  if n == utf8 "?" then some help else all.find? (·.name == n)

end Command

/-- The list of commands. -/
def helpText : Bytes :=
  (Command.all.map fun c =>
    Screen.line (utf8 "/" ++ Screen.padRight 10 c.name ++ utf8 " " ++ c.summary)).flatten

/-- The list of global bindings. -/
def globalsText (s : Session) : Bytes :=
  (s.memory.globals.entries.map fun b =>
    Screen.line (Screen.padRight 12 b.1 ++ utf8 " " ++ b.2.text)).flatten

/-- The list of operators, or of the overloads of one. -/
def opsText : List Bytes → Bytes
  | [] => Screen.line (Bytes.spaced Evaluator.standard.table.names)
  | op :: _ =>
    match Evaluator.standard.table.get op with
    | [] => Screen.error (utf8 "no operator '" ++ op ++ utf8 "'")
    | overloads => (overloads.map fun ov => Screen.line ov.text).flatten

/-- Shows or sets whether every input starts with an empty stack. -/
def setAutoclear (s : Session) : List Bytes → Session × Bytes
  | [] => (s, Screen.info (utf8 (if s.autoclear then "on" else "off")))
  | arg :: _ =>
    if arg == utf8 "on" then ({ s with autoclear := true }, [])
    else if arg == utf8 "off" then ({ s with autoclear := false }, [])
    else (s, Screen.error (utf8 "invalid argument '" ++ arg ++ utf8 "'"))

/-- Carries out a command. -/
def perform (s : Session) (args : List Bytes) : Command → Session × Bytes
  | .help => (s, helpText)
  | .quit => ({ s with quit := true }, [])
  | .clear => ({ s with stack := [] }, [])
  | .autoclear => s.setAutoclear args
  | .stack => (s, Screen.stackOutline s.stack)
  | .globals => (s, s.globalsText)
  | .ops => (s, opsText args)

/-- Whether a line is a command. -/
def isCommand : Bytes → Bool
  | b :: _ => b == Bytes.ascii '/'
  | [] => false

/-- The name and the arguments of a command line. -/
def words (line : Bytes) : Bytes × List Bytes :=
  match Blank.fields (if isCommand line then line.drop 1 else line) with
  | [] => (Command.help.name, [])
  | name :: args => (name, args)

/-- Carries out a command line. -/
def execute (s : Session) (line : Bytes) : Session × Bytes :=
  let (name, args) := words line
  match Command.ofName? name with
  | some c => s.perform args c
  | none => (s, Screen.error (utf8 "unrecognized command '" ++ name ++ utf8 "', try /help"))

/-! ### Files -/

/-- A way to read files: the content, or what the system says is wrong. -/
abbrev Reader (m : Type → Type) := Bytes → m (Except Bytes Bytes)

variable {m : Type → Type} [Monad m]

/-- Evaluates a file; the flag tells success. -/
def runFile (read : Reader m) (s : Session) (path : Bytes) : m (Bool × Session × Bytes) := do
  match ← read path with
  | .error text => return (false, s, Screen.error text)
  | .ok source =>
    let (h, s, out) := s.eval source
    return (h.isNone, s, out)

/-- Evaluates files one after the other, up to the first that fails. -/
def runFiles (read : Reader m) (s : Session) : List Bytes → m (Bool × Session × Bytes)
  | [] => return (true, s, [])
  | path :: paths => do
    let (ok, s, out) ← runFile read s path
    if ok then
      let (ok, s, more) ← runFiles read s paths
      return (ok, s, out ++ more)
    else return (false, s, out)

/-- Evaluates a file for its bindings only, silently; the empty path stands for no file. -/
def load (read : Reader m) (s : Session) (path : Bytes) : m Session := do
  if path.isEmpty then return s
  match ← read path with
  | .error _ => return s
  | .ok source =>
    return { s with memory := (Evaluator.standard.evaluateText source s.memory []).2 }

end Session

end StackLang
