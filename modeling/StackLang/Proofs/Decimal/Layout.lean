import StackLang.Decimal.Layout
import StackLang.Proofs.Decimal.Numeral
import StackLang.Proofs.Decimal.Rounding

namespace StackLang

/-!
# The text of a float reads back

* `Layout.isNumeral_digits` — digits in any layout are a numeral of the same value, with a point
  or a power of ten;
* `Layout.exists_numeral` — the text of a float other than NaN is a numeral that is read as
  that float.
-/

open Bytes (ascii isDigit digitsValue)

namespace Numeral

/-- A numeral that is read as a float: it has a fraction or a power of ten. -/
def IsFloat (n : Numeral) : Prop := n.fraction? ≠ none ∨ n.power? ≠ none

/-- The value of a numeral without its sign. -/
def magnitude (n : Numeral) : ℚ := Decimal.scaled n.toDecimal.digits n.toDecimal.exponent

end Numeral

namespace Layout

/-! ### Parts of a layout -/

/-- Zeros are digits. -/
theorem all_isDigit_zeros (k : Nat) : (List.replicate k (ascii '0')).all isDigit = true := by
  rw [List.all_replicate]
  split_ifs
  · rfl
  · decide

/-- A numeral with zeros in front consists of digits. -/
theorem padded_all_isDigit (w n : Nat) : (padded w n).all isDigit = true := by
  unfold padded
  rw [List.all_append, all_isDigit_zeros, Bytes.decimal_all_isDigit]
  rfl

/-- Zeros in front of a numeral do not change its value. -/
theorem digitsValue_padded (w n : Nat) : digitsValue (padded w n) = n := by
  unfold padded
  rw [Bytes.digitsValue_append, Bytes.digitsValue_zeros, Bytes.digitsValue_decimal]
  omega

/-- The digits of an exponent. -/
def exponentDigits (l : Layout) (e : Int) : Digits where
  bytes := padded l.exponentWidth e.natAbs
  ne_nil := by simp [padded, Bytes.decimal_ne_nil]
  all_isDigit := padded_all_isDigit _ _

/-- The sign of an exponent, which is always written. -/
def exponentSign (e : Int) : Numeral.Sign := if e < 0 then .minus else .plus

/-- A written exponent is the power of ten of a numeral. -/
theorem exponent_eq (l : Layout) (e : Int) :
    l.exponent e = Numeral.powerText (some (exponentSign e, l.exponentDigits e)) := by
  unfold exponent exponentSign
  split_ifs <;> rfl

/-- A written exponent is read as the exponent it was. -/
theorem apply_exponentDigits (l : Layout) (e : Int) :
    (exponentSign e).apply (digitsValue (l.exponentDigits e).bytes) = e := by
  rw [show digitsValue (l.exponentDigits e).bytes = e.natAbs from digitsValue_padded _ _]
  unfold exponentSign Numeral.Sign.apply
  split_ifs with h
  · show -(e.natAbs : Int) = e
    omega
  · show (e.natAbs : Int) = e
    omega

/-! ### Digits as numerals -/

/-- A text is a numeral of a sign and a value, with a point or a power of ten. -/
def IsNumeral (text : Bytes) (sign : Numeral.Sign) (value : ℚ) : Prop :=
  ∃ n : Numeral, n.text = text ∧ n.sign = sign ∧ n.IsFloat ∧ n.magnitude = value

/-- Digits written with an exponent are a numeral of the value they stand for. -/
theorem isNumeral_scientific (l : Layout) (sign : Numeral.Sign) (ds : Digits) (e : Int) :
    IsNumeral (sign.text ++ l.scientific ds.bytes e) sign
      (Decimal.scaled (digitsValue ds.bytes) (e + 1 - ds.bytes.length)) := by
  -- A single digit is written without a point.
  obtain ⟨d, rest, hds, hd⟩ := ds.exists_cons
  have hpower := apply_exponentDigits l e
  have hone : [d].all isDigit = true := by simpa using hd
  rw [hds]
  cases rest with
  | nil =>
    refine ⟨⟨sign, ⟨[d], by simp, hone⟩, none, some (exponentSign e, l.exponentDigits e)⟩, ?_, rfl,
      Or.inr (by simp), ?_⟩
    · show sign.text ++ [d] ++ [] ++ Numeral.powerText _ = _
      rw [← exponent_eq]
      simp [scientific]
    · show Decimal.scaled (digitsValue ([d] ++ [])) ((exponentSign e).apply _ - (0 : Nat)) = _
      rw [hpower]
      simp
  | cons r rest =>
    have hrest : (r :: rest).all isDigit = true := by
      have hall := ds.all_isDigit
      rw [hds, List.all_cons, Bool.and_eq_true] at hall
      exact hall.2
    refine ⟨⟨sign, ⟨[d], by simp, hone⟩, some ⟨r :: rest, by simp, hrest⟩,
      some (exponentSign e, l.exponentDigits e)⟩, ?_, rfl, Or.inr (by simp), ?_⟩
    · show sign.text ++ [d] ++ (ascii '.' :: r :: rest) ++ Numeral.powerText _ = _
      rw [← exponent_eq]
      simp [scientific]
    · show Decimal.scaled (digitsValue ([d] ++ (r :: rest)))
        ((exponentSign e).apply _ - ((r :: rest).length : Nat)) = _
      rw [hpower]
      congr 1
      simp only [List.length_cons]
      omega

/-- Digits behind a point and zeros. -/
theorem isNumeral_behind (sign : Numeral.Sign) (ds : Digits) (k : Nat) :
    IsNumeral (sign.text ++ (utf8 "0." ++ List.replicate k (ascii '0') ++ ds.bytes)) sign
      (Decimal.scaled (digitsValue ds.bytes) (-(k + ds.bytes.length))) := by
  have hall : (List.replicate k (ascii '0') ++ ds.bytes).all isDigit = true := by
    rw [List.all_append, all_isDigit_zeros, ds.all_isDigit]
    rfl
  refine ⟨⟨sign, ⟨[ascii '0'], by simp, by decide⟩,
    some ⟨List.replicate k (ascii '0') ++ ds.bytes, by simp [ds.ne_nil], hall⟩, none⟩, ?_, rfl,
    Or.inl (by simp), ?_⟩
  · show sign.text ++ [ascii '0'] ++ (ascii '.' :: (List.replicate k (ascii '0') ++ ds.bytes)) ++ []
      = _
    have hpoint : utf8 "0." = [ascii '0', ascii '.'] := by decide
    rw [hpoint]
    simp
  · show Decimal.scaled (digitsValue ([ascii '0'] ++ (List.replicate k (ascii '0') ++ ds.bytes)))
      (0 - ((List.replicate k (ascii '0') ++ ds.bytes).length : Nat)) = _
    rw [Bytes.digitsValue_append, Bytes.digitsValue_append, Bytes.digitsValue_zeros,
      List.length_append, List.length_replicate]
    simp [digitsValue, ascii]

/-- Digits and zeros in front of a point, with one zero behind it. -/
theorem isNumeral_before (sign : Numeral.Sign) (ds : Digits) (k : Nat) :
    IsNumeral (sign.text ++ (ds.bytes ++ List.replicate k (ascii '0') ++ utf8 ".0")) sign
      (Decimal.scaled (digitsValue ds.bytes) k) := by
  have hall : (ds.bytes ++ List.replicate k (ascii '0')).all isDigit = true := by
    rw [List.all_append, all_isDigit_zeros, ds.all_isDigit]
    rfl
  refine ⟨⟨sign, ⟨ds.bytes ++ List.replicate k (ascii '0'), by simp [ds.ne_nil], hall⟩,
    some ⟨[ascii '0'], by simp, by decide⟩, none⟩, ?_, rfl, Or.inl (by simp), ?_⟩
  · show sign.text ++ (ds.bytes ++ List.replicate k (ascii '0')) ++ [ascii '.', ascii '0'] ++ [] = _
    have hpoint : utf8 ".0" = [ascii '.', ascii '0'] := by decide
    rw [hpoint]
    simp
  · show Decimal.scaled (digitsValue (ds.bytes ++ List.replicate k (ascii '0') ++ [ascii '0']))
      (0 - (1 : Nat)) = _
    -- The zero behind the point is one more zero, for which the power of ten makes up.
    rw [List.append_assoc, ← List.replicate_succ', Bytes.digitsValue_append,
      Bytes.digitsValue_zeros, List.length_replicate, Nat.add_zero, Decimal.scaled_mul_pow]
    congr 1
    push_cast
    omega

/-- A point among digits. -/
theorem isNumeral_among (sign : Numeral.Sign) (ds : Digits) {k : Nat} (hpos : 0 < k)
    (hlt : k < ds.bytes.length) :
    IsNumeral (sign.text ++ (ds.bytes.take k ++ ascii '.' :: ds.bytes.drop k)) sign
      (Decimal.scaled (digitsValue ds.bytes) (k - ds.bytes.length)) := by
  have hall := ds.all_isDigit
  rw [← List.take_append_drop k ds.bytes, List.all_append, Bool.and_eq_true] at hall
  refine ⟨⟨sign, ⟨ds.bytes.take k, ?_, hall.1⟩, some ⟨ds.bytes.drop k, ?_, hall.2⟩, none⟩, ?_, rfl,
    Or.inl (by simp), ?_⟩
  · simp only [ne_eq, List.take_eq_nil_iff, not_or]
    exact ⟨by omega, ds.ne_nil⟩
  · simp only [ne_eq, List.drop_eq_nil_iff]
    omega
  · show sign.text ++ ds.bytes.take k ++ (ascii '.' :: ds.bytes.drop k) ++ [] = _
    simp
  · show Decimal.scaled (digitsValue (ds.bytes.take k ++ ds.bytes.drop k))
      (0 - ((ds.bytes.drop k).length : Nat)) = _
    rw [List.take_append_drop, List.length_drop]
    congr 1
    omega

/-- Digits written positionally are a numeral of the value they stand for. -/
theorem isNumeral_plain (sign : Numeral.Sign) (ds : Digits) (e : Int) :
    IsNumeral (sign.text ++ plain ds.bytes e) sign
      (Decimal.scaled (digitsValue ds.bytes) (e + 1 - ds.bytes.length)) := by
  unfold plain
  by_cases hneg : e < 0
  · rw [if_pos hneg]
    have hvalue := isNumeral_behind sign ds (-e - 1).toNat
    rwa [show -(((-e - 1).toNat : Int) + ds.bytes.length) = e + 1 - ds.bytes.length by omega]
      at hvalue
  · rw [if_neg hneg]
    by_cases hshort : ds.bytes.length ≤ e.toNat + 1
    · simp only [if_pos hshort]
      have hvalue := isNumeral_before sign ds (e.toNat + 1 - ds.bytes.length)
      rwa [show ((e.toNat + 1 - ds.bytes.length : Nat) : Int) = e + 1 - ds.bytes.length by omega]
        at hvalue
    · simp only [if_neg hshort]
      have hvalue := isNumeral_among sign ds (k := e.toNat + 1) (by omega) (by omega)
      rwa [show ((e.toNat + 1 : Nat) : Int) = e + 1 by omega] at hvalue

/-- Digits in a layout are a numeral of the value that they were laid out for. -/
theorem isNumeral_digits (l : Layout) (sign : Numeral.Sign) (n : Nat) (p : Int) :
    IsNumeral (sign.text ++ l.digits n p) sign (Decimal.scaled n p) := by
  have hvalue : digitsValue (Digits.ofNat n).bytes = n := Bytes.digitsValue_decimal n
  have hexp : p + (Bytes.decimal n).length - 1 + 1 - ((Digits.ofNat n).bytes.length : Nat) = p := by
    show p + (Bytes.decimal n).length - 1 + 1 - ((Bytes.decimal n).length : Nat) = p
    omega
  have hs := isNumeral_scientific l sign (Digits.ofNat n) (p + (Bytes.decimal n).length - 1)
  have hp := isNumeral_plain sign (Digits.ofNat n) (p + (Bytes.decimal n).length - 1)
  rw [hvalue, hexp] at hs hp
  unfold digits
  simp only
  split_ifs
  · exact hs
  · exact hp

/-- An infinity is written as a numeral out of range. -/
theorem isNumeral_infinite (sign : Numeral.Sign) :
    IsNumeral (sign.text ++ inspection.infinite) sign (Decimal.scaled 1 999) := by
  have hinfinite : inspection.infinite = [ascii '1', ascii 'e', ascii '9', ascii '9', ascii '9'] := by
    decide
  refine ⟨⟨sign, ⟨[ascii '1'], by simp, by decide⟩, none,
    some (.implicit, ⟨[ascii '9', ascii '9', ascii '9'], by simp, by decide⟩)⟩, ?_, rfl,
    Or.inr (by simp), rfl⟩
  rw [hinfinite]
  simp [Numeral.text, Numeral.fractionText, Numeral.powerText, Numeral.Sign.text]

/-! ### Floats as numerals -/

/-- The sign that a float is written with. -/
def signOf (x : Float) : Numeral.Sign := if Binary.signOf x then .minus else .implicit

/-- A float other than NaN is written as its sign and its magnitude. -/
theorem text_eq (l : Layout) {x : Float} (h : x.isNaN = false) :
    l.text x = (signOf x).text ++ l.magnitude x := by
  unfold text signOf
  rw [if_neg (by rw [h]; decide)]
  split_ifs <;> rfl

/-- A numeral with the sign and the magnitude of a float is read as this float. -/
theorem toFloat_of_magnitude {x : Float} (h : x.isNaN = false) {n : Numeral}
    (hsign : n.sign = signOf x) (hmag : n.toDecimal.magnitude = x.abs) :
    n.toDecimal.toFloat = x := by
  have hnegative : n.toDecimal.negative = (n.sign == .minus) := rfl
  unfold Decimal.toFloat
  rw [hnegative, hsign, hmag]
  unfold signOf
  cases hs : Binary.signOf x with
  | true => exact Parts.neg_abs_of_signOf h hs
  | false => exact Parts.abs_of_signOf hs

/-- Zero is read as zero, whatever its power of ten. -/
theorem magnitude_zero (p : Int) :
    (Decimal.mk false 0 p).magnitude = .ofModel (.pack (.zero .positive)) := by
  unfold Decimal.magnitude
  rw [Decimal.trimmed_zero]
  rfl

/-- The numeral for an infinity is read as infinity. -/
theorem magnitude_beyond :
    (Decimal.mk false 1 999).magnitude = .ofModel (.pack (.infinity .positive)) := by
  have hwidth : Decimal.width 1 = 1 := by decide
  have htrimmed : Decimal.trimmed 1 999 = (1, 999) := by
    unfold Decimal.trimmed
    rw [hwidth]
    rfl
  unfold Decimal.magnitude
  rw [htrimmed]
  simp only [hwidth]
  rfl

/-- A magnitude is a numeral of a decimal that is read as the magnitude of the float. -/
theorem exists_decimal {x : Float} (h : x.isNaN = false) (sign : Numeral.Sign) :
    ∃ m p, IsNumeral (sign.text ++ inspection.magnitude x) sign (Decimal.scaled m p) ∧
      (Decimal.mk false m p).magnitude = x.abs := by
  cases hb : Binary.ofFloat? x with
  | none =>
    -- An infinity is written as a numeral that is out of range.
    refine ⟨1, 999, ?_, magnitude_beyond.trans (Binary.abs_of_infinite h hb).symm⟩
    unfold magnitude
    simp only [hb]
    exact isNumeral_infinite sign
  | some b =>
    unfold magnitude
    simp only [hb]
    by_cases hz : b.mantissa = 0
    · rw [if_pos (by simpa using hz)]
      exact ⟨0, 0, isNumeral_digits _ _ _ _, (magnitude_zero 0).trans (Binary.abs_of_zero hb hz).symm⟩
    · rw [if_neg (by simpa using hz)]
      exact ⟨_, _, isNumeral_digits _ _ _ _, Binary.magnitude_shortest hb hz false⟩

/-- The text of a float is a numeral that is read as that float. -/
theorem exists_numeral {x : Float} (h : x.isNaN = false) :
    ∃ n : Numeral, n.text = inspection.text x ∧ n.IsFloat ∧ n.toDecimal.toFloat = x := by
  obtain ⟨m, p, ⟨n, htext, hsign, hfloat, hvalue⟩, hmag⟩ := exists_decimal h (signOf x)
  refine ⟨n, htext.trans (text_eq _ h).symm, hfloat, toFloat_of_magnitude h hsign ?_⟩
  exact (Decimal.magnitude_congr hvalue).trans hmag

end Layout

end StackLang
