import StackLang.Span
import StackLang.Text.Quoted

namespace StackLang

/-!
# Tokens

* `Bracket` — the six brackets; each opening one has a closing partner;
* `Lexicon.keywords`, `Lexicon.operators` — the other fixed texts of the language;
* `Token` — a lexeme with its kind and span;
* `Token.code` — the number of a token's type.
-/

/-- A bracket. -/
inductive Bracket where
  | openList
  | closeList
  | openTuple
  | closeTuple
  | openBlock
  | closeBlock
deriving DecidableEq, Repr

namespace Bracket

/-- All brackets, in the order of their codes. -/
def all : List Bracket := [openList, closeList, openTuple, closeTuple, openBlock, closeBlock]

/-- A bracket in source text. -/
def text : Bracket → Bytes
  | openList => utf8 "["
  | closeList => utf8 "]"
  | openTuple => utf8 "("
  | closeTuple => utf8 ")"
  | openBlock => utf8 "\x7b"
  | closeBlock => utf8 "\x7d"

/-- The closing partner of an opening bracket. -/
def closer? : Bracket → Option Bracket
  | openList => some closeList
  | openTuple => some closeTuple
  | openBlock => some closeBlock
  | _ => none

end Bracket

namespace Lexicon

/-- The keywords, in the order of their codes. -/
def keywords : List Bytes :=
  [utf8 "true", utf8 "false", utf8 "not", utf8 "and", utf8 "or", utf8 "if", utf8 "while",
    utf8 "do"]

/-- The operator signs, in the order of their codes. -/
def operators : List Bytes :=
  [utf8 ".", utf8 ",", utf8 ";", utf8 "`", utf8 ":", utf8 "!", utf8 "%", utf8 "/", utf8 "+",
    utf8 "-", utf8 "*", utf8 "**", utf8 "|", utf8 "&", utf8 "^", utf8 "<<", utf8 ">>", utf8 "<",
    utf8 "<=", utf8 ">", utf8 ">=", utf8 "=", utf8 "~=", utf8 "~", utf8 "#", utf8 "$"]

/-- The code of the first keyword; the brackets and the operators follow the keywords. -/
def firstCode : Nat := 10

end Lexicon

namespace Token

/-- The kind of a token. -/
inductive Kind where
  | identifier
  | integer
  | float
  | string
  | rawString
  | keyword
  | bracket (b : Bracket)
  | operator
deriving DecidableEq, Repr

end Token

/-- A lexeme with its kind and its place in the source text. -/
structure Token where
  kind : Token.Kind
  lexeme : Bytes
  span : Span
deriving DecidableEq, Repr

namespace Token

/-- The number of a token's type. -/
def code (t : Token) : Int :=
  match t.kind with
  | .identifier => -2
  | .integer => -3
  | .float => -4
  | .string => -6
  | .rawString => -7
  | .keyword => Lexicon.firstCode + Lexicon.keywords.idxOf t.lexeme
  | .bracket b => Lexicon.firstCode + Lexicon.keywords.length + Bracket.all.idxOf b
  | .operator =>
    Lexicon.firstCode + Lexicon.keywords.length + Bracket.all.length
      + Lexicon.operators.idxOf t.lexeme

/-- A token of any type number in text. -/
def display (code : Int) (lexeme : Bytes) (span : Span) : Bytes :=
  utf8 "<" ++ Bytes.signed code ++ utf8 "|" ++ Quoted.encode lexeme ++ utf8 " " ++ span.text
    ++ utf8 ">"

end Token

end StackLang
