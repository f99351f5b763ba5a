import StackLang.Token.Scan
import StackLang.Decimal.Basic

namespace StackLang

/-!
# Parsing

A program is a sequence of atoms and groups.  The pieces of the text are taken one by
one; `Open` groups wait on a stack for their closing brackets.

* `Symbol.ofToken` — the symbol of a token other than a bracket;
* `Program.parse` — the program of a text, or the leftmost failure;
* `Program.balance` — opening minus closing brackets of a text.
-/

/-! ### Atoms -/

namespace Symbol

/-- The failure of a token that denotes no value. -/
def invalidLiteral (what reason : String) (t : Token) : Failure :=
  { cause := .invalidLiteral (utf8 what) t.lexeme (utf8 reason), span := t.span }

/-- The bytes between the first and the last one. -/
def inner (lexeme : Bytes) : Bytes := (lexeme.drop 1).dropLast

/-- The integer of a numeral, if it fits into 64 bits. -/
def word? (lexeme : Bytes) : Option Int64 :=
  match Decimal.integer? lexeme with
  | some n =>
    if Int64.minValue.toInt ≤ n ∧ n ≤ Int64.maxValue.toInt then some (Int64.ofInt n) else none
  | none => none

/-- The symbol of a token other than a bracket. -/
def ofToken (t : Token) : Except Failure Symbol :=
  match t.kind with
  | .identifier => .ok (.name t.lexeme t.span)
  | .integer =>
    match word? t.lexeme with
    | some n => .ok (.literal (.int n) t.span)
    | none => .error (invalidLiteral "integer" "value out of range" t)
  | .float =>
    match Decimal.read? t.lexeme with
    | some d => .ok (.literal (.float d.toFloat) t.span)
    | none => .error (invalidLiteral "float" "invalid syntax" t)
  | .string =>
    match Quoted.decode? (inner t.lexeme) with
    | some s => .ok (.literal (.str s) t.span)
    | none => .error (invalidLiteral "string" "invalid syntax" t)
  | .rawString => .ok (.literal (.str (inner t.lexeme)) t.span)
  | .keyword =>
    if t.lexeme == utf8 "true" then .ok (.literal (.bool true) t.span)
    else if t.lexeme == utf8 "false" then .ok (.literal (.bool false) t.span)
    else .ok (.operator t.lexeme t.span)
  | _ => .ok (.operator t.lexeme t.span)

/-- The symbol of a closed group. -/
def ofGroup (opening : Bracket) (body : Program) (span : Span) : Symbol :=
  match opening with
  | .openList => .group .list body span
  | .openTuple => .group .tuple body span
  | _ => .literal (.block body) span

end Symbol

/-! ### Groups -/

/-- A group that waits for its closing bracket: where it was opened, and the symbols in
    front of it (latest first). -/
structure Open where
  bracket : Bracket
  span : Span
  before : List Symbol

namespace Program

/-- The failure of a closing bracket that closes nothing, or the wrong group. -/
def strayBracket (b : Bracket) (span : Span) (expected : Option Bracket) : Failure :=
  match expected with
  | none => { cause := .unexpectedBracket b.text, span := span }
  | some e => { cause := .mismatchedBracket b.text e.text, span := span }

/-- Parses the pieces of `text` that are left, inside some open groups (innermost
    first) and behind the symbols of the innermost one (latest first). -/
def parseFrom (text : Bytes) : List Open → List Symbol → List Piece → Except Failure Program
  | [], done, [] => .ok done.reverse
  | o :: _, _, [] => .error { cause := .unclosed o.bracket.text, span := o.span }
  | opens, done, p :: rest =>
    match p.role with
    | .gap => parseFrom text opens done rest
    | .aside => .error { cause := .illegalInput (.ofPiece text p) }
    | .token (.bracket b) =>
      match b.closer? with
      | some _ => parseFrom text (⟨b, p.span, done⟩ :: opens) [] rest
      | none =>
        match opens with
        | [] => .error (strayBracket b p.span none)
        | o :: outer =>
          if o.bracket.closer? == some b then
            let sym := Symbol.ofGroup o.bracket done.reverse (o.span.cover p.span)
            parseFrom text outer (sym :: o.before) rest
          else .error (strayBracket b p.span o.bracket.closer?)
    | .token k =>
      match Symbol.ofToken ⟨k, p.text, p.span⟩ with
      | .ok sym => parseFrom text opens (sym :: done) rest
      | .error f => .error f

/-- The program of a text. -/
def parse (text : Bytes) : Except Failure Program := parseFrom text [] [] (Piece.scan text)

/-! ### Brackets alone -/

/-- What a token adds to the nesting depth. -/
def depthOf (t : Token) : Int :=
  match t.kind with
  | .bracket b => if b.closer?.isSome then 1 else -1
  | _ => 0

/-- The number of opening brackets of a text minus that of closing ones: positive if
    groups are open at its end. -/
def balance (text : Bytes) : Int := ((Token.scan text).map depthOf).foldr (· + ·) 0

end Program

end StackLang
