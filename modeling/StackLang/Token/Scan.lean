import StackLang.Token.Basic
import StackLang.Token.Pattern
import StackLang.Failure

namespace StackLang

/-!
# Scanning

A text is cut into pieces from left to right.  Each piece is the longest match of any
pattern at its place, of the first pattern of `Lexicon.rules` among equally long ones.
Where nothing matches, one byte is set aside, or all the rest of the text if it starts
with a quote that nothing closes.

* `Piece` — a token, a gap (white space or a comment), or text set aside;
* `Piece.scan` — the pieces of a text; put together they are the text again;
* `Token.scan` — the tokens among them;
* `Unscannable.ofPiece` — the report on a piece set aside.
-/

namespace Lexicon

/-- A pattern and the kind of token it makes; none for what is skipped. -/
structure Rule where
  pattern : Pattern
  kind? : Option Token.Kind
deriving DecidableEq, Repr

/-- The rules of the shapes other than fixed texts. -/
def shapes : List Rule :=
  [⟨.comment, none⟩, ⟨.string, some .string⟩, ⟨.rawString, some .rawString⟩,
    ⟨.identifier, some .identifier⟩, ⟨.decimal, some .float⟩, ⟨.scientific, some .float⟩,
    ⟨.integer, some .integer⟩, ⟨.space, none⟩]

/-- The rules, earlier ones taking precedence over later ones. -/
def rules : List Rule :=
  keywords.map (fun k => ⟨.exact k, some .keyword⟩)
    ++ shapes
    ++ Bracket.all.map (fun b => ⟨.exact b.text, some (.bracket b)⟩)
    ++ operators.map (fun o => ⟨.exact o, some .operator⟩)

/-- The better of the best match so far and a rule's match: a longer one, or else the
    earlier one. -/
def better (text : Bytes) (best : Option (Nat × Rule)) (r : Rule) : Option (Nat × Rule) :=
  match r.pattern.length? text, best with
  | none, _ => best
  | some n, none => some (n, r)
  | some n, some (m, q) => if m < n then some (n, r) else some (m, q)

/-- The longest match of any rule at the start of a text, of the earliest such rule. -/
def longest? (text : Bytes) : Option (Nat × Rule) := rules.foldl (better text) none

end Lexicon

/-! ### Pieces -/

namespace Piece

/-- What a piece of text is. -/
inductive Role where
  | token (kind : Token.Kind)
  /-- White space or a comment. -/
  | gap
  /-- Text at which no token begins. -/
  | aside
deriving DecidableEq, Repr

end Piece

/-- A piece of source text and where it starts. -/
structure Piece where
  role : Piece.Role
  start : Nat
  text : Bytes
deriving DecidableEq, Repr

namespace Piece

/-- The place of a piece. -/
def span (p : Piece) : Span := ⟨p.start, p.start + p.text.length⟩

/-- The token of a piece. -/
def token? (p : Piece) : Option Token :=
  match p.role with
  | .token k => some ⟨k, p.text, p.span⟩
  | _ => none

/-- Whether a byte is a quote of either kind. -/
def isQuote (b : UInt8) : Bool := b == Bytes.ascii '"' || b == Bytes.ascii '\''

/-- The piece at a position, of a text that goes on with a byte and some more. -/
def first (start : Nat) (b : UInt8) (rest : Bytes) : Piece :=
  match Lexicon.longest? (b :: rest) with
  | some (n, r) =>
    match r.kind? with
    | some k => ⟨.token k, start, (b :: rest).take n⟩
    | none => ⟨.gap, start, (b :: rest).take n⟩
  | none => ⟨.aside, start, if isQuote b then b :: rest else [b]⟩

/-- The pieces of a text that starts at a position and whose first `skip` bytes belong
    to an earlier piece. -/
def scanFrom (pos : Nat) : (skip : Nat) → Bytes → List Piece
  | _, [] => []
  | skip + 1, _ :: rest => scanFrom (pos + 1) skip rest
  | 0, b :: rest =>
    let p := first pos b rest
    p :: scanFrom (pos + 1) (p.text.length - 1) rest

/-- The pieces of a text. -/
def scan (text : Bytes) : List Piece := scanFrom 0 0 text

end Piece

/-- The tokens of a text; text at which no token begins is passed over. -/
def Token.scan (text : Bytes) : List Token := (Piece.scan text).filterMap Piece.token?

/-! ### Reports -/

namespace Unscannable

/-- Line and column behind one more byte: a newline starts a new line at column 0. -/
def advance (lc : Nat × Nat) (b : UInt8) : Nat × Nat :=
  if b == Bytes.ascii '\n' then (lc.1 + 1, 0) else (lc.1, lc.2 + 1)

/-- Line and column of the byte at an index. -/
def position (text : Bytes) (i : Nat) : Nat × Nat := (text.take (i + 1)).foldl advance (1, 0)

/-- The report on a piece of a text that was set aside. -/
def ofPiece (text : Bytes) (p : Piece) : Unscannable :=
  let stop := p.start + p.text.length
  let fail := if stop == text.length then stop - 1 else stop
  let a := position text p.start
  let z := position text fail
  ⟨a.1, a.2, z.1, z.2, Quoted.encode p.text⟩

end Unscannable

end StackLang
