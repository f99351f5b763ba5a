import StackLang.Value.Basic
import StackLang.Decimal.Layout
import StackLang.Text.Quoted

namespace StackLang

/-!
# Inspection text

The text of a value is source text for it: evaluating the text gives an equal value
(a list comes back as a new list).  The one exception is the float that is not a
number.

* `Value.text`, `Symbol.text` — the text of a value and of a symbol;
* `Program.text` — a program, its symbols separated by single blanks.
-/

open Bytes (between spaced)

mutual

/-- A value as source text. -/
def Value.text : Value → Bytes
  | .bool b => if b then utf8 "true" else utf8 "false"
  | .int n => Bytes.signed n.toInt
  | .float x => Layout.inspection.text x
  | .str s => Quoted.encode s
  | .list _ elems => between (utf8 "[") (utf8 "]") (spaced (Value.texts elems))
  | .tuple elems => between (utf8 "(") (utf8 ")") (spaced (Value.texts elems))
  | .block [] => utf8 "\x7b\x7d"
  | .block body => between (utf8 "\x7b ") (utf8 " \x7d") (spaced (Symbol.texts body))

/-- The texts of some values. -/
def Value.texts : List Value → List Bytes
  | [] => []
  | v :: vs => v.text :: Value.texts vs

/-- A symbol as source text. -/
def Symbol.text : Symbol → Bytes
  | .literal v _ => v.text
  | .name s _ => s
  | .operator s _ => s
  | .group .tuple body _ => between (utf8 "(") (utf8 ")") (spaced (Symbol.texts body))
  | .group _ body _ => between (utf8 "[") (utf8 "]") (spaced (Symbol.texts body))
  | .blank _ => utf8 "<?>"

/-- The texts of some symbols. -/
def Symbol.texts : List Symbol → List Bytes
  | [] => []
  | s :: ss => s.text :: Symbol.texts ss

end

/-- A program as source text. -/
def Program.text (p : Program) : Bytes := spaced (Symbol.texts p)

end StackLang
