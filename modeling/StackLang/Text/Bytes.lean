namespace StackLang

/-!
# Byte strings

Source text, names, strings of the language and messages are all byte strings:
they usually hold UTF-8, but nothing depends on it.

* `Bytes` — a list of bytes, so that `++`, `take`, `drop` and `<` are the list
  operations; `<` is the bytewise order used wherever names are sorted;
* `utf8` — the bytes of a fixed text;
* `decimal`, `signed` — numbers in decimal notation;
* `joined` — byte strings put together with a separator.
-/

/-- A byte string. -/
abbrev Bytes := List UInt8

/-- The UTF-8 bytes of a fixed text. -/
def utf8 (s : String) : Bytes := s.toByteArray.data.toList

namespace Bytes

/-! ### Classes of bytes -/

/-- The byte of an ASCII character. -/
def ascii (c : Char) : UInt8 := c.toNat.toUInt8

/-- A decimal digit. -/
def isDigit (b : UInt8) : Bool := 48 ≤ b && b ≤ 57

/-- An ASCII letter. -/
def isLetter (b : UInt8) : Bool := (97 ≤ b && b ≤ 122) || (65 ≤ b && b ≤ 90)

/-- A blank, tab, newline or carriage return. -/
def isSpace (b : UInt8) : Bool := b == 32 || b == 9 || b == 10 || b == 13

/-- The value of a hexadecimal digit, in either case. -/
def hexDigit? (b : UInt8) : Option Nat :=
  if isDigit b then some (b.toNat - 48)
  else if 97 ≤ b && b ≤ 102 then some (b.toNat - 87)
  else if 65 ≤ b && b ≤ 70 then some (b.toNat - 55)
  else none

/-- The value of an octal digit. -/
def octalDigit? (b : UInt8) : Option Nat :=
  if 48 ≤ b && b ≤ 55 then some (b.toNat - 48) else none

/-- The number written by digits of a base, most significant first. -/
def number? (base : Nat) (digit? : UInt8 → Option Nat) (bs : Bytes) : Option Nat :=
  bs.foldlM (fun n b => (digit? b).map (n * base + ·)) 0

/-! ### Numbers as text -/

/-- A natural number in decimal notation. -/
def decimal (n : Nat) : Bytes := (Nat.toDigits 10 n).map ascii

/-- An integer in decimal notation, with a minus sign if negative. -/
def signed (n : Int) : Bytes :=
  if n < 0 then ascii '-' :: decimal n.natAbs else decimal n.natAbs

/-- The lowercase hexadecimal digit of a number below sixteen. -/
def hexDigit (n : Nat) : UInt8 :=
  if n < 10 then (48 + n).toUInt8 else (87 + n).toUInt8

/-- A number as exactly `width` lowercase hexadecimal digits. -/
def hex : (width : Nat) → Nat → Bytes
  | 0, _ => []
  | w + 1, n => hex w (n / 16) ++ [hexDigit (n % 16)]

/-! ### Layout -/

/-- Byte strings put together with a separator between neighbours. -/
def joined (sep : Bytes) (parts : List Bytes) : Bytes := List.intercalate sep parts

/-- Parts put together with single blanks. -/
def spaced (parts : List Bytes) : Bytes := joined [ascii ' '] parts

/-- A text between two others. -/
def between (before after text : Bytes) : Bytes := before ++ text ++ after

/-- The lines of a text: it is cut at every newline. -/
def lines (text : Bytes) : List Bytes := text.splitOn (ascii '\n')

end Bytes

end StackLang
