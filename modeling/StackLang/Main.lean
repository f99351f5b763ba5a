import StackLang.CommandLine

namespace StackLang

/-!
# The program

Reads arguments, files and lines, and prints.
-/

/-- The text of a byte string for file names and the terminal. -/
def textOf (bs : Bytes) : String := String.ofList (Utf8.chars bs)

/-- Reads a file. -/
def readFile (path : Bytes) : IO (Except Bytes Bytes) := do
  try
    let content ← IO.FS.readBinFile (textOf path)
    return .ok content.toList
  catch e =>
    match e with
    | .noFileOrDirectory .. =>
      return .error (utf8 "open " ++ path ++ utf8 ": no such file or directory")
    | e => return .error (utf8 "open " ++ path ++ utf8 ": " ++ utf8 (toString e))

/-- Prints bytes. -/
def printBytes (out : Bytes) : IO Unit := do
  let stdout ← IO.getStdout
  stdout.write ⟨out.toArray⟩
  stdout.flush

/-- Reads the whole standard input. -/
partial def readInput (acc : ByteArray) : IO Bytes := do
  let chunk ← (← IO.getStdin).read 65536
  if chunk.isEmpty then return acc.toList else readInput (acc ++ chunk)

/-- Takes in lines from the terminal up to its end or to `/quit`. -/
partial def interact (prompt : Bytes) (r : Repl) : IO Unit := do
  if r.session.quit then return
  printBytes (if r.pending.isEmpty then prompt else utf8 "... ")
  let line ← (← IO.getStdin).getLine
  if line.isEmpty then return
  let (r, out) := r.feed (utf8 (line.dropEndWhile (· == '\n')).toString)
  printBytes out
  interact prompt r

end StackLang

open StackLang in
/-- Runs the program. -/
def main (args : List String) : IO UInt32 := do
  let args := args.map utf8
  if !(← (← IO.getStdin).isTty) then
    let (e, out) ← CommandLine.run readFile (readInput .empty) args
    printBytes out
    return e.code.toUInt32
  match CommandLine.parse args with
  | .error e => return e.code.toUInt32
  | .ok o =>
    match ← CommandLine.prepare readFile o with
    | .error out =>
      printBytes out
      return CommandLine.badConfig.code.toUInt32
    | .ok (c, s) =>
      let mut session := s
      if !o.scripts.isEmpty then
        let (e, s, out) ← CommandLine.runBatch readFile o s (pure [])
        printBytes out
        if !o.interactive then return e.code.toUInt32
        session := s
      printBytes (Screen.info (utf8 "Welcome to stackscript"))
      interact c.prompt ⟨session, []⟩
      return 0
