import StackLang.Text.Bytes

namespace StackLang

/-!
# File paths

Paths are byte strings with slashes.

* `Path.clean` — the shortest path that names the same file: no empty, `.` or avoidable
  `..` parts;
* `Path.directory` — the directory of a file;
* `Path.join` — a path relative to a directory.
-/

namespace Path

open Bytes (ascii)

/-- The slash. -/
def slash : UInt8 := ascii '/'

/-- Whether a path starts at the root. -/
def isAbsolute : Bytes → Bool
  | b :: _ => b == slash
  | [] => false

/-- Adds a part to the parts so far (latest first).  A `..` takes a part back; at the
    start of a relative path it stays, at the root it does nothing. -/
def addPart (rooted : Bool) (parts : List Bytes) (part : Bytes) : List Bytes :=
  if part.isEmpty || part == utf8 "." then parts
  else if part == utf8 ".." then
    match parts with
    | [] => if rooted then [] else [part]
    | p :: rest => if p == utf8 ".." then part :: p :: rest else rest
  else part :: parts

/-- The shortest path that names the same file. -/
def clean (path : Bytes) : Bytes :=
  let rooted := isAbsolute path
  let parts := (path.splitOn slash).foldl (addPart rooted) []
  let text := Bytes.joined [slash] parts.reverse
  if rooted then slash :: text
  else if text.isEmpty then utf8 "." else text

/-- The directory of a file. -/
def directory (path : Bytes) : Bytes :=
  clean ((path.reverse.dropWhile (· != slash)).reverse)

/-- A path relative to a directory. -/
def join (dir path : Bytes) : Bytes :=
  if dir.isEmpty then clean path else clean (dir ++ slash :: path)

end Path

end StackLang
