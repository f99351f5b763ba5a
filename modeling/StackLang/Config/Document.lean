import StackLang.Text.Blank
import StackLang.Text.Quoted

namespace StackLang

/-!
# Documents

Configuration files are simple YAML documents: block mappings and block sequences, nested
by indentation, flow sequences, and plain or quoted scalars.

* `Node` — scalars, sequences and mappings;
* `Node.parse?` — the node of a document; none if its form is not that of a document.
-/

/-- A node of a document. -/
inductive Node where
  /-- A scalar; the flag tells whether it was quoted. -/
  | scalar (text : Bytes) (quoted : Bool)
  | sequence (items : List Node)
  | mapping (entries : List (Bytes × Node))

namespace Node

open Bytes (ascii isSpace)

/-- The node of nothing. -/
def null : Node := .scalar [] false

/-! ### Lines -/

/-- A line that is neither empty nor a comment: its indentation and its text. -/
structure Line where
  indent : Nat
  text : Bytes
deriving DecidableEq, Repr

/-- A blank or tab. -/
def isGap (b : UInt8) : Bool := b == ascii ' ' || b == ascii '\t'

/-- A text without blanks and carriage returns at its end. -/
def trimEnd (text : Bytes) : Bytes := (text.reverse.dropWhile isSpace).reverse

/-- A text without blanks at its start. -/
def trimStart (text : Bytes) : Bytes := text.dropWhile isGap

/-- The line of a text, if there is something on it. -/
def lineOf? (text : Bytes) : Option Line :=
  let rest := text.dropWhile (· == ascii ' ')
  let content := trimEnd rest
  match trimStart content with
  | [] => none
  | b :: _ => if b == ascii '#' then none else some ⟨text.length - rest.length, content⟩

/-- Whether a line marks the start or the end of a document. -/
def isMarker (l : Line) : Bool :=
  l.indent == 0 && (l.text == utf8 "---" || l.text == utf8 "...")

/-- The lines of a document. -/
def linesOf (text : Bytes) : List Line :=
  ((Bytes.lines text).filterMap lineOf?).filter (!isMarker ·)

/-! ### Scalars -/

/-- What an escape of a single letter denotes. -/
def letterEscape? (l : UInt8) : Option Bytes :=
  if l == ascii '0' then some [0]
  else if l == ascii 'a' then some [7]
  else if l == ascii 'b' then some [8]
  else if l == ascii 't' || l == 9 then some [9]
  else if l == ascii 'n' then some [10]
  else if l == ascii 'v' then some [11]
  else if l == ascii 'f' then some [12]
  else if l == ascii 'r' then some [13]
  else if l == ascii 'e' then some [27]
  else if l == ascii ' ' || l == ascii '"' || l == ascii '/' || l == ascii '\\' then some [l]
  else if l == ascii 'N' then some (Utf8.encode (Char.ofNat 0x85))
  else if l == ascii '_' then some (Utf8.encode (Char.ofNat 0xA0))
  else if l == ascii 'L' then some (Utf8.encode (Char.ofNat 0x2028))
  else if l == ascii 'P' then some (Utf8.encode (Char.ofNat 0x2029))
  else none

/-- What the text behind a backslash denotes, and how many of its bytes it uses. -/
def escape? : Bytes → Option (Bytes × Nat)
  | [] => none
  | l :: rest =>
    match letterEscape? l with
    | some bs => some (bs, 1)
    | none =>
      let digits :=
        if l == ascii 'x' then 2
        else if l == ascii 'u' then 4
        else if l == ascii 'U' then 8
        else 0
      if digits == 0 || rest.length < digits then none
      else (Quoted.codePoint? (rest.take digits)).map (·, digits + 1)

/-- The text up to a closing double quote, and what follows; the first `skip` bytes are
    already read. -/
def doubleQuoted? (acc : Bytes) : (skip : Nat) → Bytes → Option (Bytes × Bytes)
  | _, [] => none
  | skip + 1, _ :: rest => doubleQuoted? acc skip rest
  | 0, b :: rest =>
    if b == ascii '"' then some (acc.reverse, rest)
    else if b == ascii '\\' then
      match escape? rest with
      | some (bs, used) => doubleQuoted? (bs.reverse ++ acc) used rest
      | none => none
    else doubleQuoted? (b :: acc) 0 rest

/-- The text up to a closing single quote, and what follows; a doubled quote stands for
    one. -/
def singleQuoted? (acc : Bytes) : (skip : Nat) → Bytes → Option (Bytes × Bytes)
  | _, [] => none
  | skip + 1, _ :: rest => singleQuoted? acc skip rest
  | 0, b :: rest =>
    if b == ascii '\'' then
      match rest with
      | c :: _ => if c == ascii '\'' then singleQuoted? (b :: acc) 1 rest
          else some (acc.reverse, rest)
      | [] => some (acc.reverse, [])
    else singleQuoted? (b :: acc) 0 rest

/-- A quoted text and what follows it, if a text starts with a quote; none inside if the
    quote is not closed. -/
def quoted? : Bytes → Option (Option (Bytes × Bytes))
  | b :: rest =>
    if b == ascii '"' then some (doubleQuoted? [] 0 rest)
    else if b == ascii '\'' then some (singleQuoted? [] 0 rest)
    else none
  | [] => none

/-- Whether there is nothing but a comment in a text. -/
def isRemark (text : Bytes) : Bool :=
  match trimStart text with
  | [] => true
  | b :: _ => b == ascii '#'

/-- A text up to a comment, which has a blank in front of it. -/
def withoutRemark : (gap : Bool) → Bytes → Bytes
  | _, [] => []
  | gap, b :: rest =>
    if gap && b == ascii '#' then [] else b :: withoutRemark (isGap b) rest

/-- A byte that a plain scalar cannot start with. -/
def isIndicator (b : UInt8) : Bool := (utf8 "[]\x7b\x7d,#&*!|>'\"%@`").contains b

/-- Whether a colon with a blank or nothing behind it stands in a text. -/
def hasColon : Bytes → Bool
  | [] => false
  | [b] => b == ascii ':'
  | b :: c :: rest => (b == ascii ':' && isGap c) || hasColon (c :: rest)

/-- A plain scalar. -/
def plain? (text : Bytes) : Option Node :=
  let text := trimEnd (withoutRemark true text)
  match text with
  | [] => some null
  | b :: _ => if isIndicator b || hasColon text then none else some (.scalar text false)

/-! ### Flow sequences -/

/-- The plain text up to a comma or bracket, and the rest. -/
def flowPlain (text : Bytes) : Bytes × Bytes :=
  let stops := fun b => b == ascii ',' || b == ascii ']' || b == ascii '['
  (trimEnd (text.takeWhile (!stops ·)), text.dropWhile (!stops ·))

/-- The items up to the bracket that closes a flow sequence, behind those already there
    (latest first), and what follows.  Each item takes one of the `fuel`. -/
def flowItems? : (fuel : Nat) → List Node → Bytes → Option (List Node × Bytes)
  | 0, _, _ => none
  | fuel + 1, acc, text =>
    match trimStart text with
    | [] => none
    | b :: rest =>
      if b == ascii ']' then some (acc.reverse, rest)
      else
        let item : Option (Node × Bytes) :=
          if b == ascii '[' then
            (flowItems? fuel [] rest).map fun (items, after) => (.sequence items, after)
          else
            match quoted? (b :: rest) with
            | some (some (t, after)) => some (.scalar t true, after)
            | some none => none
            | none =>
              if b == ascii ',' then none
              else
                let (t, after) := flowPlain (b :: rest)
                (plain? t).map (·, after)
        match item with
        | none => none
        | some (node, after) =>
          match trimStart after with
          | c :: more =>
            if c == ascii ',' then flowItems? fuel (node :: acc) more
            else if c == ascii ']' then some ((node :: acc).reverse, more)
            else none
          | [] => none

/-- The node written on the rest of a line. -/
def inline? (text : Bytes) : Option Node :=
  let text := trimStart text
  match text with
  | [] => some null
  | b :: rest =>
    if b == ascii '[' then
      match flowItems? (text.length + 1) [] rest with
      | some (items, after) => if isRemark after then some (.sequence items) else none
      | none => none
    else if text == utf8 "\x7b\x7d" then some (.mapping [])
    else
      match quoted? text with
      | some (some (t, after)) => if isRemark after then some (.scalar t true) else none
      | some none => none
      | none => plain? text

/-! ### Blocks -/

/-- Cuts a text at the first colon that has a blank or nothing behind it, behind the
    bytes already passed (latest first). -/
def cutColon? (acc : Bytes) : Bytes → Option (Bytes × Bytes)
  | [] => none
  | [b] => if b == ascii ':' then some (acc.reverse, []) else none
  | b :: c :: rest =>
    if b == ascii ':' && isGap c then some (acc.reverse, c :: rest)
    else cutColon? (b :: acc) (c :: rest)

/-- Splits a line of a mapping into its key and the rest. -/
def keyed? (text : Bytes) : Option (Bytes × Bytes) :=
  match quoted? text with
  | some (some (key, after)) =>
    match trimStart after with
    | b :: rest => if b == ascii ':' then some (key, rest) else none
    | [] => none
  | some none => none
  | none =>
    match text with
    | [] => none
    | b :: _ => if isIndicator b then none else (cutColon? [] text).map fun (k, r) => (trimEnd k, r)

/-- The rest of a line of a sequence behind its dash. -/
def item? : Bytes → Option Bytes
  | b :: rest =>
    if b != ascii '-' then none
    else match rest with
      | [] => some []
      | c :: _ => if isGap c then some rest else none
  | [] => none

/-- Joins the lines of a scalar or flow sequence that goes on below its first line. -/
def folded (first : Bytes) (lines : List Line) : Bytes :=
  Bytes.spaced (first :: lines.map (·.text))

/-- Whether a line is an item of a sequence at some indentation. -/
def isItemAt (indent : Nat) (l : Line) : Bool := l.indent == indent && (item? l.text).isSome

mutual

/-- The node of some lines.  Every nesting and every line takes one of the `fuel`. -/
def block? : (fuel : Nat) → List Line → Option Node
  | 0, _ => none
  | _ + 1, [] => some null
  | fuel + 1, l :: rest =>
    if l.text.head? == some 9 then none
    else if (item? l.text).isSome then (items? fuel l.indent (l :: rest)).map .sequence
    else if (keyed? l.text).isSome then (entries? fuel l.indent (l :: rest)).map .mapping
    else inline? (folded l.text rest)

/-- The items of a sequence at some indentation. -/
def items? : (fuel : Nat) → (indent : Nat) → List Line → Option (List Node)
  | 0, _, _ => none
  | _ + 1, _, [] => some []
  | fuel + 1, indent, l :: rest => do
    let text ← if l.indent == indent then item? l.text else none
    let below := rest.takeWhile (indent < ·.indent)
    let content := trimStart text
    let node ←
      if isRemark content then block? fuel below
      else block? fuel (⟨l.indent + (l.text.length - content.length), content⟩ :: below)
    let nodes ← items? fuel indent (rest.dropWhile (indent < ·.indent))
    return node :: nodes

/-- The entries of a mapping at some indentation.  A sequence may stand below its key at
    the same indentation. -/
def entries? : (fuel : Nat) → (indent : Nat) → List Line → Option (List (Bytes × Node))
  | 0, _, _ => none
  | _ + 1, _, [] => some []
  | fuel + 1, indent, l :: rest => do
    let (key, value) ← if l.indent == indent then keyed? l.text else none
    let belongs := fun (k : Line) =>
      indent < k.indent || (isRemark value && isItemAt indent k)
    let below := rest.takeWhile belongs
    let node ←
      if isRemark value then block? fuel below else inline? (folded (trimStart value) below)
    let nodes ← entries? fuel indent (rest.dropWhile belongs)
    return (key, node) :: nodes

end

/-- The node of a document. -/
def parse? (text : Bytes) : Option Node :=
  let lines := linesOf text
  block? (3 * lines.length + 2) lines

end Node

end StackLang
