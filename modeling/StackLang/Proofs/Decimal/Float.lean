import StackLang.Decimal.Basic
import Mathlib

namespace StackLang

/-!
# Floats and their parts

A float is a word of 64 bits: a sign, an exponent and a mantissa.  Taking it apart and
putting the parts together again are inverse to each other, apart from the payloads of NaN.

* `Parts.pack_unpack` — the word of a float is the word of its parts;
* `Parts.eq_pack` — a float is made of its parts;
* `Parts.neg_abs_of_signOf`, `Parts.abs_of_signOf` — a float is its magnitude, negated if it has
  a minus sign;
* `Parts.isNaN_pack` — what is made of the parts of a number is no NaN;
* `Parts.beq_self` — a float other than NaN is equal to itself.
-/

namespace Parts

open Float.Model Float.Model.UnpackedFloat

/-! ### The three fields of a word -/

/-- A sign bit is that of the sign it stands for. -/
theorem toBitVec_ofBitVec (v : BitVec 1) : (Sign.ofBitVec v).toBitVec = v := by
  revert v
  decide

/-- A sign is that of the bit it stands for. -/
theorem ofBitVec_toBitVec (s : Sign) : Sign.ofBitVec s.toBitVec = s := by
  cases s <;> rfl

variable {F : Format}

/-- The sign of packed components is the one that was packed. -/
theorem unpackSign_packComponents (s : Sign) (e : BitVec F.exponentBits)
    (m : BitVec F.mantissaBitsWithoutImplicit) :
    unpackSign (packComponents F s e m) = s.toBitVec := by
  ext i hi
  -- the sign is one bit wide
  obtain rfl : i = 0 := by omega
  simp [unpackSign, packComponents, BitVec.getLsbD_append, BitVec.getElem_append]

/-- A word is put together from its fields. -/
theorem packComponents_fields (b : BitVec F.numBits) :
    packComponents F (Sign.ofBitVec (unpackSign b)) (unpackExponent b) (unpackMantissa b) = b := by
  unfold packComponents
  rw [toBitVec_ofBitVec]
  -- bit by bit: each bit of the word is in one of the three fields
  ext i hi
  simp only [unpackSign, unpackExponent, unpackMantissa, BitVec.extractLsb]
  grind

/-! ### Words and parts -/

/-- The implicit bit in front of a mantissa counts `2 ^ 52`. -/
theorem toNat_append_mantissa (m : BitVec 52) : (1#1 ++ m).toNat = 2 ^ 52 + m.toNat := by
  rw [BitVec.toNat_append, ← Nat.shiftLeft_add_eq_or_of_lt m.isLt]
  rfl

/-- The parts of a word depend on its sign in the sign alone. -/
theorem unpack_packComponents (s : Sign) (e : BitVec 11) (m : BitVec 52) :
    UnpackedFloat.unpack .binary64 (packComponents .binary64 s e m) =
      if e = -1#11 then if m = 0#52 then .infinity s else .notANumber
      else if e = 0#11 then
        if h : m = 0#52 then .zero s
        else .finite s m.toNat (-1074) (by simpa [BitVec.toNat_pos, BitVec.pos_iff_ne_zero] using h)
      else .finite s (2 ^ 52 + m.toNat) (e.toNat - 1075) (by omega) := by
  unfold UnpackedFloat.unpack
  simp only [unpackSign_packComponents, ofBitVec_toBitVec, unpackMantissa_packComponents,
    unpackExponent_packComponents, toNat_append_mantissa]
  by_cases he : e = -1#11
  · rw [if_pos he, if_pos he]
  · rw [if_neg he, if_neg he]
    by_cases hz : e = 0#11
    · rw [if_pos hz, if_pos hz]
      subst hz
      rfl
    · rw [if_neg hz, if_neg hz]
      rfl

/-- A word that is no NaN is the word of its parts. -/
theorem pack_unpack_packComponents (s : Sign) {e : BitVec 11} {m : BitVec 52}
    (h : e = -1#11 → m = 0#52) :
    UnpackedFloat.pack .binary64 (UnpackedFloat.unpack .binary64 (packComponents .binary64 s e m))
      = packComponents .binary64 s e m := by
  have hm := m.isLt
  rw [unpack_packComponents]
  -- infinities first, then zeros and subnormal numbers, then normal ones
  by_cases he : e = -1#11
  · rw [if_pos he, if_pos (h he), he, h he]
    rfl
  · rw [if_neg he]
    by_cases hz : e = 0#11
    · rw [if_pos hz, hz]
      by_cases hm0 : m = 0#52
      · rw [dif_pos hm0, hm0]
        rfl
      · -- The mantissa has no leading bit, so the exponent field stays 0.
        have hpos : m.toNat ≠ 0 := by
          intro h0
          exact hm0 (BitVec.eq_of_toNat_eq h0)
        have hlog : ¬m.toNat.log2 + 1 = Format.mantissaBits .binary64 := by
          have := (Nat.log2_lt hpos).mpr hm
          show ¬m.toNat.log2 + 1 = 53
          omega
        rw [dif_neg hm0, UnpackedFloat.pack, if_neg (by decide), if_neg hlog, BitVec.ofNat_toNat,
          BitVec.setWidth_eq]
    · -- The leading bit of the mantissa is not in the word.
      have hlog : (2 ^ 52 + m.toNat).log2 + 1 = Format.mantissaBits .binary64 := by
        have h52 : (2 ^ 52 + m.toNat).log2 = 52 := (Nat.log2_eq_iff (by omega)).mpr (by omega)
        rw [h52]
        rfl
      have hlast : e.toNat + 1 ≠ 2 ^ 11 := by
        intro h1
        apply he
        apply BitVec.eq_of_toNat_eq
        show e.toNat = 2047
        omega
      have hbiased : (((e.toNat : Int) - 1075) + (Format.exponentBias .binary64 : Nat)
          + (52 : Nat)).toNat = e.toNat := by
        show (((e.toNat : Int) - 1075) + (1023 : Nat) + (52 : Nat)).toNat = e.toNat
        omega
      have hexp := e.isLt
      rw [if_neg hz, UnpackedFloat.pack]
      simp only [hbiased]
      rw [if_neg (by show ¬2 ^ 11 ≤ e.toNat + 1; omega), if_pos hlog]
      congr 1
      · exact BitVec.eq_of_toNat_eq (by simp)
      · exact BitVec.eq_of_toNat_eq (by simp [Nat.mod_eq_of_lt hm])

/-- The word of a float is the word of its parts. -/
theorem pack_unpack {b : BitVec Format.binary64.numBits} (hv : Format.binary64.Valid b) :
    UnpackedFloat.pack .binary64 (UnpackedFloat.unpack .binary64 b) = b := by
  by_cases hnan : unpackExponent b = -1#11 ∧ unpackMantissa b ≠ 0#52
  · -- The only NaN among the words of floats is the one that NaN is packed into.
    rw [hv.eq_packedNaN hnan.1 hnan.2]
    decide
  · rw [← packComponents_fields b, pack_unpack_packComponents]
    intro he
    by_contra hm
    exact hnan ⟨he, hm⟩

/-! ### Floats and parts -/

/-- A float is made of its parts. -/
theorem eq_pack (x : Float.Model) : Float.Model.pack x.unpack = x := by
  obtain ⟨w, hv⟩ := x
  show Float.Model.mk _ _ = _
  congr 1
  exact congrArg UInt64.ofBitVec (pack_unpack hv)

/-- Floats of the same bits are the same. -/
theorem eq_of_toBits {x y : Float} (h : x.toBits = y.toBits) : x = y := by
  obtain ⟨⟨a, ha⟩⟩ := x
  obtain ⟨⟨b, hb⟩⟩ := y
  obtain rfl : a = b := h
  rfl

/-- The magnitude of packed components has the same exponent and mantissa, and no minus sign. -/
theorem abs_unpack_packComponents (s : Sign) (e : BitVec 11) (m : BitVec 52) :
    (UnpackedFloat.unpack .binary64 (packComponents .binary64 s e m)).abs
      = UnpackedFloat.unpack .binary64 (packComponents .binary64 .positive e m) := by
  rw [unpack_packComponents, unpack_packComponents]
  split_ifs <;> rfl

/-- A magnitude other than NaN is unpacked as it was packed. -/
theorem unpack_pack_abs {b : BitVec Format.binary64.numBits}
    (h : (UnpackedFloat.unpack .binary64 b).isNaN = false) :
    UnpackedFloat.unpack .binary64 (UnpackedFloat.pack .binary64
      (UnpackedFloat.unpack .binary64 b).abs) = (UnpackedFloat.unpack .binary64 b).abs := by
  -- The magnitude of the parts is the parts of a word, the one with a plus sign.
  rw [← packComponents_fields b] at h ⊢
  rw [abs_unpack_packComponents, pack_unpack_packComponents]
  -- That word is no NaN, because the given one is none.
  intro he
  by_contra hm
  rw [unpack_packComponents, if_pos he, if_neg hm] at h
  exact absurd h (by decide)

/-- The magnitude of a float that is no NaN has the parts of the float, with a plus sign. -/
theorem unpack_abs {x : Float.Model} (h : x.isNaN = false) : x.abs.unpack = x.unpack.abs :=
  unpack_pack_abs h

/-- A float with a minus sign is the negation of its magnitude. -/
theorem neg_abs_of_signOf {x : Float} (h : x.isNaN = false) (hs : Binary.signOf x = true) :
    -x.abs = x := by
  obtain ⟨x⟩ := x
  show Float.ofModel (Float.Model.pack x.abs.unpack.neg) = Float.ofModel x
  have hparts : x.unpack.abs.neg = x.unpack := by
    unfold Binary.signOf at hs
    generalize x.unpack = u at hs ⊢
    split at hs <;> first | rfl | exact absurd hs (by decide)
  rw [unpack_abs h, hparts, eq_pack]

/-- A float without a minus sign is its magnitude. -/
theorem abs_of_signOf {x : Float} (hs : Binary.signOf x = false) : x.abs = x := by
  obtain ⟨x⟩ := x
  show Float.ofModel (Float.Model.pack x.unpack.abs) = Float.ofModel x
  have hparts : x.unpack.abs = x.unpack := by
    unfold Binary.signOf at hs
    generalize x.unpack = u at hs ⊢
    cases u with
    | notANumber => rfl
    | infinity s => cases s <;> first | rfl | exact absurd hs (by decide)
    | zero s => cases s <;> first | rfl | exact absurd hs (by decide)
    | finite s m e hm => cases s <;> first | rfl | exact absurd hs (by simp)
  rw [hparts, eq_pack]

/-- What is made of the parts of a number is no NaN. -/
theorem isNaN_pack {u : UnpackedFloat} (h : u.isNaN = false) :
    (Float.Model.pack u).isNaN = false := by
  show (UnpackedFloat.unpack .binary64 (UnpackedFloat.pack .binary64 u)).isNaN = false
  cases u with
  | notANumber => exact absurd h (by decide)
  | infinity s => cases s <;> decide
  | zero s => cases s <;> decide
  | finite s m e hm =>
    rw [UnpackedFloat.pack]
    generalize (e + (Format.exponentBias .binary64 : Nat) + (52 : Nat)).toNat = biased
    split_ifs with hover hnormal
    · cases s <;> decide
    · -- An exponent that is not too large is not the one of infinities and NaN.
      have hne : BitVec.ofNat 11 biased ≠ -1#11 := by
        intro heq
        have h2047 : biased % 2 ^ 11 = 2047 := congrArg BitVec.toNat heq
        have hle : ¬2 ^ 11 ≤ biased + 1 := hover
        omega
      rw [unpack_packComponents, if_neg hne]
      split_ifs <;> rfl
    · rw [unpack_packComponents, if_neg (by decide), if_pos rfl]
      split_ifs <;> rfl

/-- Changing the sign makes no NaN. -/
theorem isNaN_neg {x : Float} (h : x.isNaN = false) : (-x).isNaN = false := by
  obtain ⟨x⟩ := x
  have hn : x.unpack.isNaN = false := h
  refine isNaN_pack (u := x.unpack.neg) ?_
  generalize x.unpack = u at hn ⊢
  cases u with
  | notANumber => exact hn
  | infinity s => rfl
  | zero s => rfl
  | finite s m e hm => rfl

/-- A float other than NaN is equal to itself. -/
theorem beq_self {x : Float} (h : x.isNaN = false) : (x == x) = true := by
  show UnpackedFloat.compare x.toModel.unpack x.toModel.unpack == some .eq
  have hn : x.toModel.unpack.isNaN = false := h
  generalize x.toModel.unpack = u at hn ⊢
  cases u with
  | notANumber => exact absurd hn (by decide)
  | infinity s => cases s <;> rfl
  | zero s => cases s <;> rfl
  | finite s m e hm => cases s <;> simp [UnpackedFloat.compare]

end Parts

end StackLang
