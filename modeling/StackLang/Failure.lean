import StackLang.Value.Basic

namespace StackLang

/-!
# Failures

* `Cause` — what went wrong, with the data its message needs;
* `Failure` — a cause together with the operator and the position it is reported
  for; `trail` holds the positions inside evaluated strings that the report has
  left behind, innermost first;
* `Failure.message` — the full text;
* `Issue` — what an evaluation may end with instead of a stack: a failure, a failure
  reported under a fixed text, or a text alone.
-/

/-- The class of a failure. -/
inductive ErrorKind where
  | stackUnderflow
  | typeError
  | nameError
  | indexError
  | arityError
  | divisionError
  | syntaxError
  | recursionError
  /-- A class outside the eight above, told apart by its number. -/
  | other (code : Int)
deriving DecidableEq, Repr

namespace ErrorKind

/-- The name of a class in messages. -/
def text : ErrorKind → Bytes
  | stackUnderflow => utf8 "StackUnderflow"
  | typeError => utf8 "TypeError"
  | nameError => utf8 "NameError"
  | indexError => utf8 "IndexError"
  | arityError => utf8 "ArityError"
  | divisionError => utf8 "DivisionError"
  | syntaxError => utf8 "SyntaxError"
  | recursionError => utf8 "RecursionError"
  | other _ => utf8 "NoError"

end ErrorKind

/-- A region of source text that no token begins with: the line and column where it
    starts, those where the search for a token gave up, and its bytes. -/
structure Unscannable where
  line : Nat
  column : Nat
  endLine : Nat
  endColumn : Nat
  quoted : Bytes
deriving DecidableEq, Repr

/-- The report on a region that no token begins with. -/
def Unscannable.text (u : Unscannable) : Bytes :=
  utf8 "Lexer error: could not match text starting at " ++ Bytes.decimal u.line ++ utf8 ":"
    ++ Bytes.decimal u.column ++ utf8 " failing at " ++ Bytes.decimal u.endLine ++ utf8 ":"
    ++ Bytes.decimal u.endColumn ++ utf8 ".\n\tunmatched text: " ++ u.quoted

/-- What went wrong. -/
inductive Cause where
  /-- A value was wanted from an empty stack. -/
  | emptyStack
  /-- More values were wanted than are visible. -/
  | tooFewOperands (need got : Nat)
  /-- A stack entry that is not there was looked at. -/
  | noEntry (index : Int) (height : Nat)
  /-- No operator of this name exists. -/
  | unknownOperator
  /-- No overload accepts the operands. -/
  | unsupportedOperands (kinds : List Bytes)
  /-- Values other than numbers were ordered. -/
  | notNumbers (kinds : List Bytes)
  /-- A value other than a list or tuple was assigned to several names. -/
  | notASequence (kinds : List Bytes)
  /-- A count is negative. -/
  | negativeCount (what : Bytes) (n : Int)
  /-- A repetition would grow beyond the limit. -/
  | repeatTooLarge (n : Int) (length : Nat)
  /-- A name is bound in no scope of the chain. -/
  | unbound (name : Bytes)
  /-- An index is outside the positions of a sequence. -/
  | outOfRange (index : Int) (length : Nat)
  /-- A block left another number of values than one. -/
  | notOneValue (what : Bytes) (n : Nat)
  /-- The numbers of values and of names to be assigned differ. -/
  | assignmentCount (values names : Nat)
  /-- A number was divided by zero. -/
  | divisionByZero
  /-- A sign of assignment stands at the end of a program. -/
  | missingTarget
  /-- A value was assigned to something other than names. -/
  | badTarget (target : Bytes)
  /-- A symbol that cannot be evaluated. -/
  | unexpectedSymbol (symbol : Bytes)
  /-- Source text that is not made of tokens. -/
  | illegalInput (region : Unscannable)
  /-- The text ends inside a group. -/
  | unclosed (bracket : Bytes)
  /-- A closing bracket without an open group. -/
  | unexpectedBracket (bracket : Bytes)
  /-- A closing bracket of another kind than the innermost open group. -/
  | mismatchedBracket (bracket expected : Bytes)
  /-- A literal that denotes no value. -/
  | invalidLiteral (what lexeme reason : Bytes)
  /-- Evaluations are nested too deeply. -/
  | tooDeep (limit : Nat)
  /-- A failure raised by a client of the library. -/
  | custom (kind : ErrorKind) (text : Bytes) (operands : List Bytes)
deriving DecidableEq, Repr

namespace Cause

/-- The class of a cause. -/
def kind : Cause → ErrorKind
  | emptyStack => .stackUnderflow
  | tooFewOperands _ _ => .stackUnderflow
  | noEntry _ _ => .stackUnderflow
  | unknownOperator => .typeError
  | unsupportedOperands _ => .typeError
  | notNumbers _ => .typeError
  | notASequence _ => .typeError
  | negativeCount _ _ => .typeError
  | repeatTooLarge _ _ => .typeError
  | unbound _ => .nameError
  | outOfRange _ _ => .indexError
  | notOneValue _ _ => .arityError
  | assignmentCount _ _ => .arityError
  | divisionByZero => .divisionError
  | missingTarget => .syntaxError
  | badTarget _ => .syntaxError
  | unexpectedSymbol _ => .syntaxError
  | illegalInput _ => .syntaxError
  | unclosed _ => .syntaxError
  | unexpectedBracket _ => .syntaxError
  | mismatchedBracket _ _ => .syntaxError
  | invalidLiteral _ _ _ => .syntaxError
  | tooDeep _ => .recursionError
  | custom k _ _ => k

/-- The wording of a cause. -/
def text : Cause → Bytes
  | emptyStack => utf8 "stack is empty"
  | tooFewOperands need got =>
    utf8 "need " ++ Bytes.decimal need ++ utf8 " operands, have " ++ Bytes.decimal got
  | noEntry index height =>
    utf8 "cannot access stack entry " ++ Bytes.signed index ++ utf8 ", stack height is "
      ++ Bytes.decimal height
  | unknownOperator => utf8 "unknown operator"
  | unsupportedOperands _ => utf8 "unsupported operand kinds"
  | notNumbers _ => utf8 "cannot compare non-numeric values"
  | notASequence _ => utf8 "multiple assignment needs a sequence"
  | negativeCount what n => utf8 "negative " ++ what ++ utf8 ": " ++ Bytes.signed n
  | repeatTooLarge n length =>
    utf8 "repeat count " ++ Bytes.signed n ++ utf8 " too large for operand of length "
      ++ Bytes.decimal length
  | unbound name => utf8 "could not resolve name '" ++ name ++ utf8 "'"
  | outOfRange index length =>
    utf8 "index " ++ Bytes.signed index ++ utf8 " out of range 1…" ++ Bytes.decimal length
  | notOneValue what n =>
    what ++ utf8 " produced " ++ Bytes.decimal n ++ utf8 " values, expected 1"
  | assignmentCount values names =>
    utf8 "cannot assign " ++ Bytes.decimal values ++ utf8 " values to " ++ Bytes.decimal names
      ++ utf8 " names"
  | divisionByZero => utf8 "division by zero"
  | missingTarget => utf8 "missing target of assignment"
  | badTarget target => utf8 "cannot assign to " ++ target
  | unexpectedSymbol symbol => utf8 "unexpected symbol " ++ symbol
  | illegalInput region => utf8 "illegal input: " ++ region.text
  | unclosed bracket => utf8 "unclosed '" ++ bracket ++ utf8 "'"
  | unexpectedBracket bracket => utf8 "unexpected '" ++ bracket ++ utf8 "'"
  | mismatchedBracket bracket expected =>
    utf8 "mismatched '" ++ bracket ++ utf8 "', expected '" ++ expected ++ utf8 "'"
  | invalidLiteral what lexeme reason =>
    utf8 "invalid " ++ what ++ utf8 " literal " ++ lexeme ++ utf8 ": " ++ reason
  | tooDeep limit =>
    utf8 "evaluation nested deeper than " ++ Bytes.decimal limit ++ utf8 " levels"
  | custom _ text _ => text

/-- The kinds of the operands a cause complains about. -/
def operands : Cause → List Bytes
  | unsupportedOperands kinds => kinds
  | notNumbers kinds => kinds
  | notASequence kinds => kinds
  | custom _ _ operands => operands
  | _ => []

/-- The name a cause is about. -/
def name : Cause → Bytes
  | unbound name => name
  | _ => []

/-- The index a cause is about. -/
def index : Cause → Int
  | outOfRange index _ => index
  | _ => 0

end Cause

/-- A cause, and where it is reported. -/
structure Failure where
  cause : Cause
  /-- The operator that failed; empty if there is none. -/
  op : Bytes := []
  /-- The position of the symbol that failed. -/
  span : Span := .none
  /-- Positions inside evaluated strings, innermost first. -/
  trail : List Span := []
deriving DecidableEq, Repr

namespace Failure

/-- The class of a failure. -/
def kind (f : Failure) : ErrorKind := f.cause.kind

/-- Names the operator of a failure, unless one is named. -/
def withOp (f : Failure) (op : Bytes) : Failure :=
  if f.op.isEmpty then { f with op := op } else f

/-- Places a failure, unless it has a position. -/
def located (f : Failure) (span : Span) : Failure := { f with span := f.span.orElse span }

/-- Moves the position of a failure, which is one inside an evaluated string, to the
    trail. -/
def relocated (f : Failure) : Failure :=
  if f.span.isNone then f else { f with span := .none, trail := f.trail ++ [f.span] }

/-- The wording of a failure with its trail. -/
def wording (f : Failure) : Bytes :=
  f.cause.text ++ f.trail.flatMap fun s =>
    utf8 " (at " ++ s.text ++ utf8 " of evaluated string)"

/-- The full text of a failure. -/
def message (f : Failure) : Bytes :=
  f.kind.text ++ utf8 ": "
    ++ (if f.op.isEmpty then [] else utf8 "operator '" ++ f.op ++ utf8 "': ")
    ++ f.wording
    ++ (if f.cause.operands.isEmpty then []
        else utf8 " [" ++ Bytes.joined (utf8 ", ") f.cause.operands ++ utf8 "]")
    ++ (if f.span.isNone then [] else utf8 " at " ++ f.span.text)

/-- The innermost unclosed bracket, if the text ended inside a group. -/
def openBracket? (f : Failure) : Option Bytes :=
  match f.cause with
  | .unclosed bracket => some bracket
  | _ => none

/-- Whether two failures are of one class, which is all that matters to a client that
    waits for a certain kind of failure. -/
def sameKind (f g : Failure) : Bool := f.kind == g.kind

end Failure

/-- What an evaluation may end with instead of a stack. -/
inductive Issue where
  | failure (f : Failure)
  /-- A failure under a text that was fixed when it was first reported. -/
  | wrapped (message : Bytes) (f : Failure)
  /-- A text alone. -/
  | plain (message : Bytes)
deriving DecidableEq, Repr

namespace Issue

/-- The failure in an issue. -/
def failure? : Issue → Option Failure
  | failure f => some f
  | wrapped _ f => some f
  | plain _ => none

/-- Changes the failure in an issue; a fixed text stays. -/
def map (g : Failure → Failure) : Issue → Issue
  | failure f => failure (g f)
  | wrapped message f => wrapped message (g f)
  | plain message => plain message

/-- The text of an issue. -/
def message : Issue → Bytes
  | failure f => f.message
  | wrapped message _ => message
  | plain message => message

end Issue

end StackLang
