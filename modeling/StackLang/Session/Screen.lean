import StackLang.Value.Inspection
import StackLang.Value.Elements

namespace StackLang

/-!
# What a session prints

* `Screen.line`, `info`, `error` — a text on lines of its own, as it is or marked;
* `Screen.stackLines` — the values of a stack, numbered from the bottom;
* `Outline` — a tree of texts, drawn with lines;
* `Screen.stackOutline` — a stack as a tree.
-/

namespace Screen

open Bytes (ascii)

/-- A text on a line of its own. -/
def line (text : Bytes) : Bytes := text ++ [ascii '\n']

/-- A text behind a mark; further lines of the text are indented by the width of the
    mark. -/
def marked (mark : String) (text : Bytes) : Bytes :=
  let indent := ascii '\n' :: List.replicate (utf8 mark).length (ascii ' ')
  line (utf8 mark ++ Bytes.joined indent (Bytes.lines text))

/-- A text that informs. -/
def info (text : Bytes) : Bytes := marked "   >>  " text

/-- A text that reports an error. -/
def error (text : Bytes) : Bytes := marked "   Error  " text

/-- A text padded with blanks on the right to a number of characters. -/
def padRight (width : Nat) (text : Bytes) : Bytes :=
  text ++ List.replicate (width - (Utf8.chars text).length) (ascii ' ')

/-- The values of a stack, bottom first, each with its number. -/
def stackLines (stack : List Value) : List Bytes :=
  let width := (Bytes.decimal stack.length).length
  stack.mapIdx fun i v =>
    utf8 "[" ++ Layout.padded width i ++ utf8 "] " ++ v.text

end Screen

/-! ### Trees -/

/-- A tree of texts. -/
inductive Outline where
  | node (text : Bytes) (children : List Outline)

mutual

/-- The tree of a value: a list or tuple has its elements as branches. -/
def Outline.ofValue : Value → Outline
  | .list _ elems =>
    .node (utf8 "list (" ++ Bytes.decimal elems.length ++ utf8 ")") (Outline.ofValues elems)
  | .tuple elems =>
    .node (utf8 "tuple (" ++ Bytes.decimal elems.length ++ utf8 ")") (Outline.ofValues elems)
  | v => .node v.text []

/-- The trees of some values. -/
def Outline.ofValues : List Value → List Outline
  | [] => []
  | v :: vs => Outline.ofValue v :: Outline.ofValues vs

end

mutual

/-- Draws a tree behind some lines already drawn; the flag tells the last of its
    siblings. -/
def Outline.draw (before : Bytes) (last : Bool) : Outline → Bytes
  | .node text children =>
    before ++ utf8 (if last then "└" else "├")
      ++ utf8 (if children.isEmpty then "──" else "─┬") ++ text ++ utf8 "\n"
      ++ Outline.drawAll (before ++ utf8 (if last then "  " else "│ ")) children

/-- Draws siblings. -/
def Outline.drawAll (before : Bytes) : List Outline → Bytes
  | [] => []
  | t :: ts => t.draw before ts.isEmpty ++ Outline.drawAll before ts

end

/-- A stack, bottom first, drawn as a tree. -/
def Screen.stackOutline (stack : List Value) : Bytes :=
  if stack.isEmpty then Screen.info (utf8 "stack is empty")
  else
    Screen.line ((Outline.node (utf8 "stack") (Outline.ofValues stack)).draw [] true)

end StackLang
