import StackLang.Text.Bytes

namespace StackLang

/-!
# Characters of byte strings

A byte string is read as UTF-8 from left to right.  A byte that does not begin a
well-formed sequence stands alone and counts as the replacement character.

* `Glyph` — what one reading step yields: a character or a stray byte;
* `Utf8.glyphs` — all glyphs of a byte string;
* `Utf8.chars` — the same with stray bytes replaced by U+FFFD;
* `Utf8.encode` — the bytes of a character;
* `Utf8.repair` — the byte string with stray bytes replaced.
-/

/-- One step of reading UTF-8. -/
inductive Glyph where
  | char (c : Char)
  | stray (b : UInt8)
deriving DecidableEq, Repr

namespace Utf8

/-- The character that stands for a stray byte. -/
def replacement : Char := Char.ofNat 0xFFFD

/-! ### Encoding -/

/-- The UTF-8 bytes of a character. -/
def encode (c : Char) : Bytes :=
  let n := c.toNat
  if n < 0x80 then [n.toUInt8]
  else if n < 0x800 then [(0xC0 + n / 64).toUInt8, (0x80 + n % 64).toUInt8]
  else if n < 0x10000 then
    [(0xE0 + n / 4096).toUInt8, (0x80 + n / 64 % 64).toUInt8, (0x80 + n % 64).toUInt8]
  else
    [(0xF0 + n / 262144).toUInt8, (0x80 + n / 4096 % 64).toUInt8,
      (0x80 + n / 64 % 64).toUInt8, (0x80 + n % 64).toUInt8]

/-! ### Decoding -/

/-- A continuation byte. -/
def isTail (b : UInt8) : Bool := 0x80 ≤ b && b ≤ 0xBF

/-- The six low bits of a continuation byte. -/
def tailBits (b : UInt8) : Nat := b.toNat % 64

/-- The character of a two-byte sequence, if it is one. -/
def pair? (b₀ b₁ : UInt8) : Option Char :=
  if 0xC2 ≤ b₀ && b₀ ≤ 0xDF && isTail b₁ then
    some (Char.ofNat ((b₀.toNat - 0xC0) * 64 + tailBits b₁))
  else none

/-- The character of a three-byte sequence, if it is one: no overlong forms and
    no surrogates. -/
def triple? (b₀ b₁ b₂ : UInt8) : Option Char :=
  if 0xE0 ≤ b₀ && b₀ ≤ 0xEF && isTail b₁ && isTail b₂
      && (b₀ != 0xE0 || 0xA0 ≤ b₁) && (b₀ != 0xED || b₁ ≤ 0x9F) then
    some (Char.ofNat ((b₀.toNat - 0xE0) * 4096 + tailBits b₁ * 64 + tailBits b₂))
  else none

/-- The character of a four-byte sequence, if it is one: no overlong forms and
    nothing above U+10FFFF. -/
def quad? (b₀ b₁ b₂ b₃ : UInt8) : Option Char :=
  if 0xF0 ≤ b₀ && b₀ ≤ 0xF4 && isTail b₁ && isTail b₂ && isTail b₃
      && (b₀ != 0xF0 || 0x90 ≤ b₁) && (b₀ != 0xF4 || b₁ ≤ 0x8F) then
    some (Char.ofNat ((b₀.toNat - 0xF0) * 262144 + tailBits b₁ * 4096
      + tailBits b₂ * 64 + tailBits b₃))
  else none

/-- The glyph that begins with a byte, and how many of the bytes behind it belong
    to it. -/
def leading (b₀ : UInt8) (rest : Bytes) : Glyph × Nat :=
  if b₀ < 0x80 then (.char (Char.ofNat b₀.toNat), 0)
  else
    let two := match rest with
      | b₁ :: _ => (pair? b₀ b₁).map fun c => (Glyph.char c, 1)
      | _ => none
    let three := match rest with
      | b₁ :: b₂ :: _ => (triple? b₀ b₁ b₂).map fun c => (Glyph.char c, 2)
      | _ => none
    let four := match rest with
      | b₁ :: b₂ :: b₃ :: _ => (quad? b₀ b₁ b₂ b₃).map fun c => (Glyph.char c, 3)
      | _ => none
    (two <|> three <|> four).getD (.stray b₀, 0)

/-- The glyphs of a byte string whose first `skip` bytes are already read, behind
    the glyphs found so far (latest first). -/
def glyphsInto (acc : List Glyph) : (skip : Nat) → Bytes → List Glyph
  | _, [] => acc
  | skip + 1, _ :: rest => glyphsInto acc skip rest
  | 0, b :: rest =>
    let (g, tail) := leading b rest
    glyphsInto (g :: acc) tail rest

/-- The glyphs of a byte string, from left to right. -/
def glyphs (bs : Bytes) : List Glyph := (glyphsInto [] 0 bs).reverse

/-- The character a glyph counts as. -/
def toChar : Glyph → Char
  | .char c => c
  | .stray _ => replacement

/-- The characters of a byte string. -/
def chars (bs : Bytes) : List Char := (glyphs bs).map toChar

/-- Whether a byte string is well-formed UTF-8. -/
def isValid (bs : Bytes) : Bool :=
  (glyphs bs).all fun
    | .char _ => true
    | .stray _ => false

/-- The byte string with every stray byte replaced by U+FFFD. -/
def repair (bs : Bytes) : Bytes := (chars bs).flatMap encode

end Utf8

end StackLang
