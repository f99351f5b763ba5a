import StackLang.Config.Document
import StackLang.Config.Path

namespace StackLang

/-!
# Configuration

* `Config` — the settings of a session;
* `Config.parse` — the settings of a configuration file; paths in it are relative to its
  directory;
* `TraceLevel` — how much is reported about a session.
-/

/-- The settings of a session. -/
structure Config where
  prompt : Bytes
  trace : Bytes
  autoclear : Bool
  preludes : List Bytes
deriving DecidableEq, Repr

/-- What is wrong with a configuration file. -/
inductive ConfigError where
  /-- It is not a document. -/
  | form
  /-- A setting is of the wrong type, or given twice, or the document is no mapping. -/
  | type
  /-- A path is empty. -/
  | emptyPath (file : Bytes) (index : Nat)
deriving DecidableEq, Repr

/-- How much is reported about a session. -/
inductive TraceLevel where
  | debug
  | info
  | error
deriving DecidableEq, Repr

namespace TraceLevel

/-- The name of a level. -/
def text : TraceLevel → Bytes
  | debug => utf8 "Debug"
  | info => utf8 "Info"
  | error => utf8 "Error"

/-- An ASCII letter in lower case. -/
def lower (b : UInt8) : UInt8 := if 65 ≤ b && b ≤ 90 then b + 32 else b

/-- The level of a name in any case; other names stand for the middle level. -/
def ofName (name : Bytes) : TraceLevel :=
  let n := name.map lower
  if n == utf8 "debug" then debug
  else if n == utf8 "error" then error
  else info

end TraceLevel

/-- The text of a configuration error in a file. -/
def ConfigError.message (file : Bytes) : ConfigError → Bytes
  | form => utf8 "parsing " ++ file ++ utf8 ": malformed document"
  | type => utf8 "parsing " ++ file ++ utf8 ": setting of wrong type"
  | emptyPath path index =>
    path ++ utf8 ": prelude[" ++ Bytes.decimal index ++ utf8 "]: empty path"

namespace Config

/-- The prompt unless another one is set. -/
def defaultPrompt : Bytes := utf8 "ss> "

/-- The settings without a configuration file. -/
def default : Config := ⟨defaultPrompt, utf8 "Info", true, []⟩

/-! ### Settings of nodes -/

/-- Whether a plain scalar stands for nothing. -/
def isNull (text : Bytes) : Bool :=
  [utf8 "", utf8 "~", utf8 "null", utf8 "Null", utf8 "NULL"].contains text

/-- Whether a node stands for nothing. -/
def isNullNode : Node → Bool
  | .scalar text quoted => !quoted && isNull text
  | _ => false

/-- A node as text. -/
def textOf : Node → Except ConfigError Bytes
  | .scalar text _ => .ok text
  | _ => .error .type

/-- A node as a truth value: the words `true` and `false`, if they are not quoted, and some
    words that mean the same in either form. -/
def boolOf : Node → Except ConfigError Bool
  | .scalar text quoted =>
    if !quoted && [utf8 "true", utf8 "True", utf8 "TRUE"].contains text then .ok true
    else if !quoted && [utf8 "false", utf8 "False", utf8 "FALSE"].contains text then .ok false
    else if [utf8 "y", utf8 "Y", utf8 "yes", utf8 "on"].contains text then .ok true
    else if [utf8 "n", utf8 "N", utf8 "no", utf8 "off"].contains text then .ok false
    else .error .type
  | _ => .error .type

/-- A node as a list of texts; items that stand for nothing do not count. -/
def textsOf : Node → Except ConfigError (List Bytes)
  | .sequence items => (items.filter (!isNullNode ·)).mapM textOf
  | _ => .error .type

/-- Takes over a setting.  A value that stands for nothing keeps the default, and unknown
    settings are ignored. -/
def set (c : Config) (key : Bytes) (value : Node) : Except ConfigError Config :=
  if isNullNode value then .ok c
  else if key == utf8 "prompt" then (textOf value).map ({ c with prompt := · })
  else if key == utf8 "trace" then (textOf value).map ({ c with trace := · })
  else if key == utf8 "autoclear" then (boolOf value).map ({ c with autoclear := · })
  else if key == utf8 "prelude" then (textsOf value).map ({ c with preludes := · })
  else .ok c

/-- Whether some keys differ from each other. -/
def distinct : List Bytes → Bool
  | [] => true
  | k :: ks => !ks.contains k && distinct ks

/-- The settings of a document. -/
def ofNode (n : Node) : Except ConfigError Config :=
  if isNullNode n then .ok default
  else match n with
    | .mapping entries =>
      if distinct (entries.map (·.1)) then entries.foldlM (fun c e => c.set e.1 e.2) default
      else .error .type
    | _ => .error .type

/-! ### Configuration files -/

/-- Paths relative to the directory of a file, the first of them having an index. -/
def resolvePaths (file : Bytes) : (index : Nat) → List Bytes → Except ConfigError (List Bytes)
  | _, [] => .ok []
  | i, p :: ps => do
    if p.isEmpty then throw (.emptyPath file i)
    let rest ← resolvePaths file (i + 1) ps
    return (if Path.isAbsolute p then p else Path.join (Path.directory file) p) :: rest

/-- The settings in the text of a configuration file. -/
def parse (text file : Bytes) : Except ConfigError Config := do
  let some node := Node.parse? text | throw .form
  let c ← ofNode node
  let preludes ← resolvePaths file 0 c.preludes
  return { c with preludes, prompt := if c.prompt.isEmpty then defaultPrompt else c.prompt }

end Config

end StackLang
