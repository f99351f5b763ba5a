import StackLang.Text.Bytes

namespace StackLang

/-!
# Lexical patterns

* `Pattern` — the shapes of lexemes: fixed texts, comments, the two kinds of strings,
  identifiers, the three kinds of numerals, and white space;
* `Pattern.length?` — the length of the longest start of a text that has the shape.

Every shape is matched by bytes, and any byte may stand inside strings and comments.
-/

/-- The shape of a lexeme. -/
inductive Pattern where
  /-- A fixed text. -/
  | exact (text : Bytes)
  /-- Two slashes and the rest of the line. -/
  | comment
  /-- Double quotes around bytes; a backslash keeps the next byte from closing. -/
  | string
  /-- Single quotes around bytes other than single quotes. -/
  | rawString
  /-- A letter or underscore, followed by letters, digits and underscores. -/
  | identifier
  /-- Digits, a point and digits, with an optional sign and power of ten. -/
  | decimal
  /-- Digits and a power of ten, with an optional sign. -/
  | scientific
  /-- Digits with an optional sign. -/
  | integer
  /-- Blanks, tabs, newlines and carriage returns. -/
  | space
deriving DecidableEq, Repr

namespace Pattern

open Bytes (ascii isDigit isLetter isSpace)

/-! ### Parts of lexemes -/

/-- The length of a positive number of bytes, if it is positive. -/
def positive? (n : Nat) : Option Nat := if n == 0 then none else some n

/-- How many bytes at the start of a text have a property. -/
def run (p : UInt8 → Bool) (text : Bytes) : Nat := (text.takeWhile p).length

/-- The length of an optional sign. -/
def sign : Bytes → Nat
  | b :: _ => if b == ascii '+' || b == ascii '-' then 1 else 0
  | [] => 0

/-- The length of an optional sign and digits. -/
def signedDigits? (text : Bytes) : Option Nat :=
  (positive? (run isDigit (text.drop (sign text)))).map (sign text + ·)

/-- The length of a power of ten. -/
def power? : Bytes → Option Nat
  | b :: rest =>
    if b == ascii 'e' || b == ascii 'E' then (signedDigits? rest).map (1 + ·) else none
  | [] => none

/-- The length of a point and digits. -/
def fraction? : Bytes → Option Nat
  | b :: rest => if b == ascii '.' then (positive? (run isDigit rest)).map (1 + ·) else none
  | [] => none

/-- The length of a text up to and including the quote that closes a string, behind
    `n` bytes already read. -/
def closing? (n : Nat) : Bytes → Option Nat
  | [] => none
  | b :: rest =>
    if b == ascii '"' then some (n + 1)
    else if b == ascii '\\' then
      match rest with
      | [] => none
      | _ :: rest => closing? (n + 2) rest
    else closing? (n + 1) rest

/-- A byte that may start an identifier. -/
def isIdentStart (b : UInt8) : Bool := isLetter b || b == ascii '_'

/-- A byte that may stand inside an identifier. -/
def isIdentPart (b : UInt8) : Bool := isIdentStart b || isDigit b

/-! ### Whole lexemes -/

/-- The length of the longest start of a text that has a shape. -/
def length? : Pattern → Bytes → Option Nat
  | exact t, text => if t.isPrefixOf text then some t.length else none
  | comment, text =>
    match text with
    | a :: b :: rest =>
      if a == ascii '/' && b == ascii '/' then some (2 + run (· != ascii '\n') rest) else none
    | _ => none
  | string, text =>
    match text with
    | b :: rest => if b == ascii '"' then closing? 1 rest else none
    | [] => none
  | rawString, text =>
    match text with
    | b :: rest =>
      let n := run (· != ascii '\'') rest
      if b == ascii '\'' && n < rest.length then some (n + 2) else none
    | [] => none
  | identifier, text =>
    match text with
    | b :: rest => if isIdentStart b then some (1 + run isIdentPart rest) else none
    | [] => none
  | decimal, text => do
    let n ← signedDigits? text
    let k ← fraction? (text.drop n)
    return n + k + (power? (text.drop (n + k))).getD 0
  | scientific, text => do
    let n ← signedDigits? text
    let k ← power? (text.drop n)
    return n + k
  | integer, text => signedDigits? text
  | space, text => positive? (run isSpace text)

end Pattern

end StackLang
