import StackLang.Decimal.Basic
import Mathlib.Data.List.TakeWhile
import Mathlib.Tactic.Common
import Mathlib.Tactic.Ring

namespace StackLang

/-!
# Numerals

* `Bytes.digitsValue` — the number that digits write;
* `Digits` — digits, at least one of them;
* `Numeral` — the parts of a numeral: a sign, digits, a fraction and a power of ten;
* `Numeral.integer?_text` — a sign and digits are read as the integer that they write;
* `Numeral.read?_text` — a numeral is read as the decimal that its parts make up.
-/

namespace Bytes

/-! ### Digits -/

/-- The number that digits write. -/
def digitsValue (ds : Bytes) : Nat := ds.foldl (fun n b => n * 10 + (b.toNat - 48)) 0

/-- Digits read behind a number move it to the left and are added. -/
theorem foldl_digits (ds : Bytes) (n : Nat) :
    ds.foldl (fun n b => n * 10 + (b.toNat - 48)) n = n * 10 ^ ds.length + digitsValue ds := by
  unfold digitsValue
  -- The digits already read are shifted by as many places as there are digits left.
  induction ds generalizing n with
  | nil => simp
  | cons d ds ih =>
    rw [List.foldl_cons, List.foldl_cons, ih, ih (0 * 10 + (d.toNat - 48)), List.length_cons,
      Nat.pow_succ]
    ring

/-- The value of digits put together. -/
theorem digitsValue_append (ds es : Bytes) :
    digitsValue (ds ++ es) = digitsValue ds * 10 ^ es.length + digitsValue es := by
  show List.foldl _ 0 (ds ++ es) = _
  rw [List.foldl_append, foldl_digits]
  rfl

/-- Zeros write the number zero. -/
theorem digitsValue_zeros (k : Nat) : digitsValue (List.replicate k (ascii '0')) = 0 := by
  induction k with
  | zero => rfl
  | succ k ih =>
    rw [List.replicate_succ, ← List.singleton_append, digitsValue_append, ih]
    simp [digitsValue, ascii]

/-- The digit for a number below ten is a digit of this value. -/
theorem ascii_digitChar {k : Nat} (h : k < 10) :
    isDigit (ascii k.digitChar) = true ∧ digitsValue [ascii k.digitChar] = k := by
  have hall : ∀ k : Fin 10,
      isDigit (ascii k.val.digitChar) = true ∧ digitsValue [ascii k.val.digitChar] = k.val := by
    decide
  exact hall ⟨k, h⟩

/-- A number below ten is written as one digit. -/
theorem decimal_of_lt {n : Nat} (h : n < 10) : decimal n = [ascii n.digitChar] := by
  unfold decimal
  rw [Nat.toDigits_of_lt_base h]
  rfl

/-- A number of several digits ends with the digit of its units. -/
theorem decimal_of_le {n : Nat} (h : 10 ≤ n) :
    decimal n = decimal (n / 10) ++ [ascii (n % 10).digitChar] := by
  unfold decimal
  rw [Nat.toDigits_of_base_le (by decide) h, List.map_append]
  rfl

/-- The decimal of a number is not empty. -/
theorem decimal_ne_nil (n : Nat) : decimal n ≠ [] := by
  unfold decimal
  simp

/-- The decimal of a number consists of digits. -/
theorem decimal_all_isDigit (n : Nat) : (decimal n).all isDigit = true := by
  induction n using Nat.strongRecOn with
  | ind n ih =>
    by_cases h : n < 10
    · rw [decimal_of_lt h]
      simpa using (ascii_digitChar h).1
    · have hlast := (ascii_digitChar (Nat.mod_lt n (by decide : 0 < 10))).1
      rw [decimal_of_le (by omega), List.all_append, ih _ (by omega)]
      simpa using hlast

/-- The decimal of a number is read as this number. -/
theorem digitsValue_decimal (n : Nat) : digitsValue (decimal n) = n := by
  induction n using Nat.strongRecOn with
  | ind n ih =>
    by_cases h : n < 10
    · rw [decimal_of_lt h, (ascii_digitChar h).2]
    · have hlast := (ascii_digitChar (Nat.mod_lt n (by decide : 0 < 10))).2
      rw [decimal_of_le (by omega), digitsValue_append, ih _ (by omega), hlast,
        List.length_singleton]
      omega

end Bytes

open Bytes (ascii isDigit digitsValue)

/-- Digits are read as the natural number they write. -/
theorem Decimal.natural?_eq {ds : Bytes} (hne : ds ≠ []) (hd : ds.all isDigit = true) :
    Decimal.natural? ds = some (digitsValue ds) := by
  unfold Decimal.natural?
  rw [if_neg (by simp [hd, hne])]
  rfl

/-! ### The parts of a numeral -/

/-- Digits, at least one. -/
structure Digits where
  bytes : Bytes
  ne_nil : bytes ≠ []
  all_isDigit : bytes.all isDigit = true

/-- The digits of a number. -/
def Digits.ofNat (n : Nat) : Digits :=
  ⟨Bytes.decimal n, Bytes.decimal_ne_nil n, Bytes.decimal_all_isDigit n⟩

namespace Digits

/-- Digits, at least one, are read as the natural number they write. -/
theorem natural? (ds : Digits) : Decimal.natural? ds.bytes = some (digitsValue ds.bytes) :=
  Decimal.natural?_eq ds.ne_nil ds.all_isDigit

theorem isDigit_of_mem (ds : Digits) {b : UInt8} (h : b ∈ ds.bytes) : isDigit b = true :=
  List.all_eq_true.mp ds.all_isDigit b h

/-- A byte that is no digit is not among digits. -/
theorem ne_of_mem (ds : Digits) {b c : UInt8} (hb : b ∈ ds.bytes) (hc : isDigit c = false) :
    b ≠ c := by
  rintro rfl
  rw [ds.isDigit_of_mem hb] at hc
  exact Bool.noConfusion hc

/-- Digits begin with a digit. -/
theorem exists_cons (ds : Digits) : ∃ b rest, ds.bytes = b :: rest ∧ isDigit b = true := by
  obtain ⟨b, rest, h⟩ := List.exists_cons_of_ne_nil ds.ne_nil
  exact ⟨b, rest, h, ds.isDigit_of_mem (by rw [h]; exact List.mem_cons_self)⟩

end Digits

namespace Numeral

/-- The sign in front of digits. -/
inductive Sign where
  | implicit
  | plus
  | minus
deriving DecidableEq, Repr

namespace Sign

/-- A sign in text. -/
def text : Sign → Bytes
  | implicit => []
  | plus => [ascii '+']
  | minus => [ascii '-']

/-- The integer of a sign and a magnitude. -/
def apply : Sign → Nat → Int
  | minus, n => -n
  | _, n => n

end Sign

end Numeral

/-- The parts of a numeral. -/
structure Numeral where
  sign : Numeral.Sign
  whole : Digits
  fraction? : Option Digits
  /-- The power of ten. -/
  power? : Option (Numeral.Sign × Digits)

namespace Numeral

/-- A point and a fraction, or nothing. -/
def fractionText : Option Digits → Bytes
  | some f => ascii '.' :: f.bytes
  | none => []

/-- A power of ten, or nothing. -/
def powerText : Option (Sign × Digits) → Bytes
  | some (s, ds) => ascii 'e' :: (s.text ++ ds.bytes)
  | none => []

/-- A numeral in text. -/
def text (n : Numeral) : Bytes :=
  n.sign.text ++ n.whole.bytes ++ fractionText n.fraction? ++ powerText n.power?

/-- The digits behind the point. -/
def fractionDigits (n : Numeral) : Bytes := (n.fraction?.map Digits.bytes).getD []

/-- The power of ten. -/
def power (n : Numeral) : Int :=
  match n.power? with
  | some (s, ds) => s.apply (digitsValue ds.bytes)
  | none => 0

/-- The decimal that the parts of a numeral make up. -/
def toDecimal (n : Numeral) : Decimal :=
  ⟨n.sign == .minus, digitsValue (n.whole.bytes ++ n.fractionDigits),
    n.power - n.fractionDigits.length⟩

/-! ### Reading a numeral -/

/-- No sign is split off digits. -/
theorem splitSign_digits (ds : Digits) (rest : Bytes) :
    Decimal.splitSign (ds.bytes ++ rest) = (false, ds.bytes ++ rest) := by
  obtain ⟨b, bs, hds, hb⟩ := ds.exists_cons
  have hmem : b ∈ ds.bytes := by
    rw [hds]
    exact List.mem_cons_self
  have hminus : b ≠ ascii '-' := ds.ne_of_mem hmem (by decide)
  have hplus : b ≠ ascii '+' := ds.ne_of_mem hmem (by decide)
  rw [hds]
  simp [Decimal.splitSign, hminus, hplus]

/-- The sign in front of digits is split off. -/
theorem splitSign_text (s : Sign) (ds : Digits) (rest : Bytes) :
    Decimal.splitSign (s.text ++ (ds.bytes ++ rest)) = (s == .minus, ds.bytes ++ rest) := by
  cases s with
  | implicit => exact splitSign_digits ds rest
  | plus => rfl
  | minus => rfl

/-- A sign and digits are read as the integer that they write. -/
theorem integer?_text (s : Sign) (ds : Digits) :
    Decimal.integer? (s.text ++ ds.bytes) = some (s.apply (digitsValue ds.bytes)) := by
  have hsplit := splitSign_text s ds []
  rw [List.append_nil] at hsplit
  unfold Decimal.integer?
  rw [hsplit]
  simp only [ds.natural?]
  cases s <;> rfl

/-- A text is cut at the first byte with the property. -/
theorem cutAt?_append {p : UInt8 → Bool} {before : Bytes} {b : UInt8} (after : Bytes)
    (hbefore : ∀ c ∈ before, p c = false) (hb : p b = true) :
    Decimal.cutAt? p (before ++ b :: after) = some (before, after) := by
  have hall : ∀ c ∈ before, (!p c) = true := by
    intro c hc
    rw [hbefore c hc]
    rfl
  unfold Decimal.cutAt?
  rw [List.dropWhile_append_of_pos hall, List.takeWhile_append_of_pos hall]
  simp [hb]

/-- A text without such a byte is not cut. -/
theorem cutAt?_none {p : UInt8 → Bool} {text : Bytes} (h : ∀ c ∈ text, p c = false) :
    Decimal.cutAt? p text = none := by
  have hall : text.dropWhile (!p ·) = [] := by
    rw [List.dropWhile_eq_nil_iff]
    intro c hc
    rw [h c hc]
    rfl
  unfold Decimal.cutAt?
  rw [hall]

/-- The power of ten is split off a numeral. -/
theorem splitPower?_text (n : Numeral) :
    Decimal.splitPower? (n.whole.bytes ++ fractionText n.fraction? ++ powerText n.power?)
      = some (n.whole.bytes ++ fractionText n.fraction?, n.power) := by
  have hnumber : ∀ c ∈ n.whole.bytes ++ fractionText n.fraction?,
      (c == ascii 'e' || c == ascii 'E') = false := by
    have hdigits : ∀ (ds : Digits), ∀ c ∈ ds.bytes, (c == ascii 'e' || c == ascii 'E') = false := by
      intro ds c hc
      have h1 : c ≠ ascii 'e' := ds.ne_of_mem hc (by decide)
      have h2 : c ≠ ascii 'E' := ds.ne_of_mem hc (by decide)
      simp [h1, h2]
    intro c hc
    rcases List.mem_append.mp hc with hw | hf
    · exact hdigits _ c hw
    · cases hfrac : n.fraction? with
      | none =>
        rw [hfrac] at hf
        exact absurd hf List.not_mem_nil
      | some f =>
        rw [hfrac] at hf
        rcases List.mem_cons.mp hf with rfl | hf
        · decide
        · exact hdigits f c hf
  -- The first `e` is the one in front of the power.
  unfold Decimal.splitPower? power
  cases hpow : n.power? with
  | none =>
    rw [show powerText none = [] from rfl, List.append_nil, cutAt?_none hnumber]
  | some p =>
    obtain ⟨sign, ds⟩ := p
    rw [show powerText (some (sign, ds)) = ascii 'e' :: (sign.text ++ ds.bytes) from rfl,
      cutAt?_append _ hnumber (by decide)]
    simp only [integer?_text]
    rfl

/-- The point is taken out of a numeral, and the digits behind it are counted. -/
theorem pointed?_text (n : Numeral) :
    Decimal.pointed? (n.whole.bytes ++ fractionText n.fraction?)
      = some (digitsValue (n.whole.bytes ++ n.fractionDigits), n.fractionDigits.length) := by
  have hwhole : ∀ c ∈ n.whole.bytes, (c == ascii '.') = false := by
    intro c hc
    have h1 : c ≠ ascii '.' := n.whole.ne_of_mem hc (by decide)
    simp [h1]
  unfold Decimal.pointed? fractionDigits
  cases hfrac : n.fraction? with
  | none =>
    rw [show fractionText none = [] from rfl, List.append_nil, cutAt?_none hwhole]
    simp only [n.whole.natural?]
    simp
  | some f =>
    rw [show fractionText (some f) = ascii '.' :: f.bytes from rfl,
      cutAt?_append _ hwhole (by decide)]
    simp only [n.whole.natural?, f.natural?, Option.map_some, Option.getD_some]
    rw [Bytes.digitsValue_append]
    rfl

/-- A numeral is read as the decimal that its parts make up. -/
theorem read?_text (n : Numeral) : Decimal.read? n.text = some n.toDecimal := by
  have hsplit := splitSign_text n.sign n.whole (fractionText n.fraction? ++ powerText n.power?)
  rw [← List.append_assoc, ← List.append_assoc, ← List.append_assoc] at hsplit
  unfold Decimal.read? text
  rw [hsplit]
  simp only [splitPower?_text, pointed?_text, Option.bind_eq_bind, Option.bind_some]
  rfl

end Numeral

end StackLang
