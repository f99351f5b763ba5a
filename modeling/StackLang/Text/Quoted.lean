import StackLang.Text.Utf8
import StackLang.Text.Printable

namespace StackLang

/-!
# Quoted text

Strings between double quotes, with backslash escapes.

* `Quoted.encode` — a byte string as quoted text: printable characters stand for
  themselves, everything else is escaped, stray bytes as `\\xhh`;
* `Quoted.decode?` — the byte string that the text between two quotes denotes; a
  raw newline is first spelled as the escape `\\n`, raw stray bytes become U+FFFD,
  and an unknown escape is refused.
-/

namespace Quoted

open Bytes (ascii)

/-- The double quote. -/
def mark : UInt8 := ascii '"'

/-- The character that starts an escape. -/
def backslash : UInt8 := ascii '\\'

/-! ### Writing -/

/-- The letter of a two-character escape that stands for a byte. -/
def letter? (b : UInt8) : Option UInt8 :=
  if b == 7 then some (ascii 'a')
  else if b == 8 then some (ascii 'b')
  else if b == 12 then some (ascii 'f')
  else if b == 10 then some (ascii 'n')
  else if b == 13 then some (ascii 'r')
  else if b == 9 then some (ascii 't')
  else if b == 11 then some (ascii 'v')
  else if b == backslash then some backslash
  else if b == mark then some mark
  else none

/-- A byte as `\\xhh`. -/
def byteEscape (b : UInt8) : Bytes := backslash :: ascii 'x' :: Bytes.hex 2 b.toNat

/-- A character inside quotes. -/
def encodeChar (c : Char) : Bytes :=
  let n := c.toNat
  match if n < 0x80 then letter? n.toUInt8 else none with
  | some l => [backslash, l]
  | none =>
    if Printable.isPrintable c then Utf8.encode c
    else if n < 0x20 || n == 0x7F then byteEscape n.toUInt8
    else if n < 0x10000 then backslash :: ascii 'u' :: Bytes.hex 4 n
    else backslash :: ascii 'U' :: Bytes.hex 8 n

/-- A glyph inside quotes. -/
def encodeGlyph : Glyph → Bytes
  | .char c => encodeChar c
  | .stray b => byteEscape b

/-- A byte string as quoted text. -/
def encode (bs : Bytes) : Bytes :=
  mark :: (Utf8.glyphs bs).flatMap encodeGlyph ++ [mark]

/-! ### Reading -/

/-- The byte that a two-character escape stands for. -/
def unletter? (l : UInt8) : Option UInt8 :=
  if l == ascii 'a' then some 7
  else if l == ascii 'b' then some 8
  else if l == ascii 'f' then some 12
  else if l == ascii 'n' then some 10
  else if l == ascii 'r' then some 13
  else if l == ascii 't' then some 9
  else if l == ascii 'v' then some 11
  else if l == backslash then some backslash
  else if l == mark then some mark
  else none

/-- The number written by hexadecimal digits. -/
def hexNumber? (ds : Bytes) : Option Nat := Bytes.number? 16 Bytes.hexDigit? ds

/-- The byte written by three octal digits, at most 255. -/
def octalByte? (ds : Bytes) : Option UInt8 :=
  match Bytes.number? 8 Bytes.octalDigit? ds with
  | some n => if n ≤ 255 then some n.toUInt8 else none
  | none => none

/-- The UTF-8 bytes of the code point written by hexadecimal digits: neither a
    surrogate nor above U+10FFFF. -/
def codePoint? (ds : Bytes) : Option Bytes :=
  match hexNumber? ds with
  | some n => if n.isValidChar then some (Utf8.encode (Char.ofNat n)) else none
  | none => none

/-- What the text behind a backslash denotes, and how many of its bytes belong to
    the escape. -/
def escape? : Bytes → Option (Bytes × Nat)
  | [] => none
  | l :: rest =>
    match unletter? l with
    | some v => some ([v], 1)
    | none =>
      if l == ascii 'x' then
        match rest with
        | h₁ :: h₂ :: _ => (hexNumber? [h₁, h₂]).map fun n => ([n.toUInt8], 3)
        | _ => none
      else if l == ascii 'u' then
        match rest with
        | h₁ :: h₂ :: h₃ :: h₄ :: _ => (codePoint? [h₁, h₂, h₃, h₄]).map (·, 5)
        | _ => none
      else if l == ascii 'U' then
        match rest with
        | h₁ :: h₂ :: h₃ :: h₄ :: h₅ :: h₆ :: h₇ :: h₈ :: _ =>
          (codePoint? [h₁, h₂, h₃, h₄, h₅, h₆, h₇, h₈]).map (·, 9)
        | _ => none
      else
        match rest with
        | o₂ :: o₃ :: _ => (octalByte? [l, o₂, o₃]).map fun v => ([v], 3)
        | _ => none

/-- Resolves the escapes of a text whose first `skip` bytes are already read, behind
    the bytes denoted so far (latest first). -/
def unescapeInto (acc : Bytes) : (skip : Nat) → Bytes → Option Bytes
  | _, [] => some acc.reverse
  | skip + 1, _ :: rest => unescapeInto acc skip rest
  | 0, b :: rest =>
    if b == mark then none
    else if b != backslash then unescapeInto (b :: acc) 0 rest
    else match escape? rest with
      | some (bs, used) => unescapeInto (bs.reverse ++ acc) used rest
      | none => none

/-- Spells every raw newline as an escape. -/
def spellNewlines (bs : Bytes) : Bytes :=
  bs.flatMap fun b => if b == ascii '\n' then [backslash, ascii 'n'] else [b]

/-- The byte string denoted by the text between two double quotes. -/
def decode? (body : Bytes) : Option Bytes :=
  unescapeInto [] 0 (Utf8.repair (spellNewlines body))

end Quoted

end StackLang
