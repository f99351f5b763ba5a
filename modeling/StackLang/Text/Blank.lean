import StackLang.Text.Utf8

namespace StackLang

/-!
# White space in text

* `Blank.isBlank` — the characters with the Unicode property White_Space;
* `Blank.trim` — a text without the blanks at its ends;
* `Blank.fields` — the parts of a text between blanks.
-/

/-- The bytes of a glyph. -/
def Glyph.bytes : Glyph → Bytes
  | .char c => Utf8.encode c
  | .stray b => [b]

namespace Blank

/-- The inclusive ranges of blank code points. -/
def ranges : List (Nat × Nat) :=
  [(0x9, 0xD), (0x20, 0x20), (0x85, 0x85), (0xA0, 0xA0), (0x1680, 0x1680), (0x2000, 0x200A),
    (0x2028, 0x2029), (0x202F, 0x202F), (0x205F, 0x205F), (0x3000, 0x3000)]

/-- Whether a character is white space. -/
def isBlank (c : Char) : Bool := ranges.any fun r => r.1 ≤ c.toNat && c.toNat ≤ r.2

/-- Whether a glyph is white space; a stray byte never is. -/
def isBlankGlyph : Glyph → Bool
  | .char c => isBlank c
  | .stray _ => false

/-- A text without the blanks at its ends. -/
def trim (text : Bytes) : Bytes :=
  let start := (Utf8.glyphs text).dropWhile isBlankGlyph
  ((start.reverse.dropWhile isBlankGlyph).reverse).flatMap Glyph.bytes

/-- The parts of a text between blanks, none of them empty. -/
def fields (text : Bytes) : List Bytes :=
  (((Utf8.glyphs text).splitOnP isBlankGlyph).filter (!·.isEmpty)).map (·.flatMap Glyph.bytes)

end Blank

end StackLang
