import StackLang.Config.Basic
import StackLang.Session.Repl

namespace StackLang

/-!
# The command line

* `Options` — what the arguments ask for;
* `CommandLine.parse` — reads the arguments: flags with one or two dashes, then the
  scripts;
* `CommandLine.prepare` — the session after the configuration, the prelude and the initial
  file;
* `CommandLine.runBatch` — evaluates the scripts or the standard input and prints the stack.
-/

/-- What the arguments ask for. -/
structure Options where
  trace : Bytes := []
  init : Bytes := []
  config : Bytes := []
  interactive : Bool := false
  scripts : List Bytes := []
deriving DecidableEq, Repr

/-- Why a program ends, as an exit code. -/
structure Exit where
  code : Nat
deriving DecidableEq, Repr

namespace CommandLine

open Bytes (ascii)

/-! ### Arguments -/

/-- What an argument is. -/
inductive Argument where
  /-- The end of the flags. -/
  | separator
  /-- The first argument that is not a flag. -/
  | operand
  /-- A dash with something that cannot be a flag. -/
  | malformed
  | flag (name : Bytes) (value? : Option Bytes)
deriving DecidableEq, Repr

/-- The name of a flag and the value behind an equals sign, if there is one. -/
def splitFlag (text : Bytes) : Bytes × Option Bytes :=
  match text.dropWhile (· != ascii '=') with
  | _ :: value => (text.takeWhile (· != ascii '='), some value)
  | [] => (text, none)

/-- A flag of which the dashes are taken off. -/
def flagOf (text : Bytes) : Argument :=
  match text with
  | [] => .malformed
  | b :: _ =>
    if b == ascii '-' || b == ascii '=' then .malformed
    else
      let (name, value?) := splitFlag text
      .flag name value?

/-- What an argument is. -/
def argumentOf (arg : Bytes) : Argument :=
  match arg with
  | a :: b :: rest =>
    if a != ascii '-' then .operand
    else if b != ascii '-' then flagOf (b :: rest)
    else if rest.isEmpty then .separator
    else flagOf rest
  | _ => .operand

/-- The truth value of a flag. -/
def boolOf? (text : Bytes) : Option Bool :=
  if [utf8 "1", utf8 "t", utf8 "T", utf8 "true", utf8 "TRUE", utf8 "True"].contains text then
    some true
  else if [utf8 "0", utf8 "f", utf8 "F", utf8 "false", utf8 "FALSE", utf8 "False"].contains text
  then some false
  else none

/-- Sets the flag that takes a text, if there is one of that name. -/
def textFlag? (o : Options) (name : Bytes) : Option (Bytes → Options) :=
  if name == utf8 "trace" then some ({ o with trace := · })
  else if name == utf8 "init" then some ({ o with init := · })
  else if name == utf8 "config" then some ({ o with config := · })
  else none

/-- The exit after wrong usage. -/
def usage : Exit := ⟨2⟩

/-- Reads arguments on top of the options so far. -/
def parseFrom (o : Options) : List Bytes → Except Exit Options
  | [] => .ok o
  | arg :: args =>
    match argumentOf arg with
    | .operand => .ok { o with scripts := arg :: args }
    | .separator => .ok { o with scripts := args }
    | .malformed => .error usage
    | .flag name value? =>
      match textFlag? o name, value? with
      | some set, some value => parseFrom (set value) args
      | some set, none =>
        match args with
        | value :: args => parseFrom (set value) args
        | [] => .error usage
      | none, _ =>
        if name == utf8 "i" then
          match value? with
          | none => parseFrom { o with interactive := true } args
          | some value =>
            match boolOf? value with
            | some b => parseFrom { o with interactive := b } args
            | none => .error usage
        else if name == utf8 "h" || name == utf8 "help" then .error ⟨0⟩
        else .error usage

/-- Reads the arguments. -/
def parse (args : List Bytes) : Except Exit Options := parseFrom {} args

/-! ### Running -/

variable {m : Type → Type} [Monad m]

/-- The settings of the configuration file, or what to print instead. -/
def loadConfig (read : Session.Reader m) (o : Options) : m (Except Bytes Config) := do
  if o.config.isEmpty then return .ok .default
  match ← read o.config with
  | .error text => return .error (utf8 "reading " ++ o.config ++ utf8 ": " ++ text)
  | .ok text =>
    match Config.parse text o.config with
    | .ok c => return .ok c
    | .error e => return .error (e.message o.config)

/-- Loads files one after the other. -/
def loadAll (read : Session.Reader m) (s : Session) : List Bytes → m Session
  | [] => return s
  | path :: paths => do
    let s ← s.load read path
    loadAll read s paths

/-- The settings and the session before the first input, or what to print before the
    program ends. -/
def prepare (read : Session.Reader m) (o : Options) : m (Except Bytes (Config × Session)) := do
  match ← loadConfig read o with
  | .error text => return .error (Screen.error text)
  | .ok c =>
    let s ← loadAll read (.new c.autoclear) (c.preludes ++ [o.init])
    return .ok (c, s)

/-- The exit after a configuration that cannot be read. -/
def badConfig : Exit := ⟨3⟩

/-- Evaluates the scripts, or the standard input if there are none, keeping the stack, and
    prints the final stack. -/
def runBatch (read : Session.Reader m) (o : Options) (s : Session) (stdin : m Bytes) :
    m (Exit × Session × Bytes) := do
  let s := { s with autoclear := false }
  let (ok, s, out) ←
    if o.scripts.isEmpty then do
      let (h, s, out) := s.eval (← stdin)
      pure (h.isNone, s, out)
    else s.runFiles read o.scripts
  return (⟨if ok then 0 else 1⟩, s, out ++ s.printStack)

/-- Runs the program on an input that is not a terminal: its exit code and what it prints. -/
def run (read : Session.Reader m) (stdin : m Bytes) (args : List Bytes) : m (Exit × Bytes) := do
  match parse args with
  | .error e => return (e, [])
  | .ok o =>
    match ← prepare read o with
    | .error out => return (badConfig, out)
    | .ok (_, s) =>
      let (e, _, out) ← runBatch read o s stdin
      return (e, out)

end CommandLine

end StackLang
