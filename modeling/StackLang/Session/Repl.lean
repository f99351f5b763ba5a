import StackLang.Session.Basic

namespace StackLang

/-!
# Reading inputs line by line

Lines are collected until all brackets are closed.

* `Reading` — what a line turns out to be, given the lines that wait for more;
* `Repl.read` — classifies a line;
* `Repl.feed`, `Repl.run` — one line, and all lines up to the end or to `/quit`.
-/

/-- What a line turns out to be. -/
inductive Reading where
  /-- Nothing between two inputs. -/
  | skipped
  | command (line : Bytes)
  /-- Part of an input whose groups are not all closed. -/
  | waiting
  /-- The last line of a source text, which is now complete. -/
  | source (text : Bytes)
deriving DecidableEq, Repr

/-- A session and the lines that wait for more, in order. -/
structure Repl where
  session : Session
  pending : List Bytes

namespace Repl

/-- The source text of some lines. -/
def sourceOf (lines : List Bytes) : Bytes := Bytes.joined (utf8 "\n") lines

/-- Adds a line to those that wait for more. -/
def extend (pending : List Bytes) (line : Bytes) : Reading × List Bytes :=
  let lines := pending ++ [line]
  if 0 < Program.balance (sourceOf lines) then (.waiting, lines)
  else (.source (sourceOf lines), [])

/-- What a line turns out to be, and the lines that wait afterwards.  Between two inputs,
    blanks around the line do not count. -/
def read (pending : List Bytes) (line : Bytes) : Reading × List Bytes :=
  match pending with
  | [] =>
    let line := Blank.trim line
    if line.isEmpty then (.skipped, [])
    else if Session.isCommand line then (.command line, [])
    else extend [] line
  | pending => extend pending line

/-- Acts on what a line turned out to be. -/
def act (s : Session) : Reading → Session × Bytes
  | .skipped => (s, [])
  | .waiting => (s, [])
  | .command line => s.execute line
  | .source text =>
    match s.eval text with
    | (none, s, out) => (s, out ++ s.printStack)
    | (some _, s, out) => (s, out)

/-- Takes in a line. -/
def feed (r : Repl) (line : Bytes) : Repl × Bytes :=
  let (reading, pending) := read r.pending line
  let (session, out) := act r.session reading
  (⟨session, pending⟩, out)

/-- Takes in lines up to the end or to `/quit`, behind what is printed already. -/
def run (r : Repl) (out : Bytes) : List Bytes → Repl × Bytes
  | [] => (r, out)
  | line :: lines =>
    if r.session.quit then (r, out)
    else
      let (r, more) := r.feed line
      run r (out ++ more) lines

end Repl

end StackLang
