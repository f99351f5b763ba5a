import StackLang.Text.Blank
import Mathlib.Tactic.Common

namespace StackLang

/-!
# Reading and writing UTF-8

* `Utf8.leading_encode` — the bytes of a character are read as this character;
* `Utf8.leading_bytes` — what is read as a glyph are the bytes of this glyph, so that
  overlong forms and surrogates are never read as characters;
* `Utf8.glyphs_cons` — glyphs are read one by one;
* `Utf8.flatMap_bytes_glyphs` — the glyphs of any byte string make up the byte string;
* `Utf8.repair_flatMap_encode` — well-formed text needs no repair.
-/

namespace Utf8

/-! ### Numbers, bytes and characters -/

/-- A number below 256 is the number of its byte. -/
theorem toNat_toUInt8 {n : Nat} (h : n < 256) : n.toUInt8.toNat = n := by
  show n % 256 = n
  omega

theorem toUInt8_toNat (b : UInt8) : b.toNat.toUInt8 = b := by simp

/-- The numbers of characters: no surrogates, and nothing above U+10FFFF. -/
theorem toNat_valid (c : Char) : c.toNat < 0xD800 ∨ 0xDFFF < c.toNat ∧ c.toNat < 0x110000 :=
  c.valid

/-- A code point other than a surrogate is the code point of its character. -/
theorem toNat_ofNat {n : Nat} (h : n < 0xD800 ∨ 0xDFFF < n ∧ n < 0x110000) :
    (Char.ofNat n).toNat = n := by
  have hvalid : n.isValidChar := h
  rw [Char.ofNat, dif_pos hvalid]
  exact UInt32.toNat_ofNatLT

/-- Continuation bytes are those from `0x80` up to `0xBF`. -/
theorem isTail_iff (b : UInt8) : isTail b = true ↔ 0x80 ≤ b.toNat ∧ b.toNat ≤ 0xBF := by
  simp [isTail, UInt8.le_iff_toNat_le]

/-! ### Characters of several bytes -/

/-- A byte is told by its number. -/
theorem toUInt8_eq {n : Nat} {b : UInt8} (h : n = b.toNat) : n.toUInt8 = b := by
  rw [h, toUInt8_toNat]

/-- A continuation byte is told by its six low bits. -/
theorem tailBits_eq {b : UInt8} (h : isTail b = true) : b.toNat = 0x80 + tailBits b := by
  rw [isTail_iff] at h
  unfold tailBits
  omega

/-- Six bits write numbers below 64. -/
theorem tailBits_lt (b : UInt8) : tailBits b < 64 := Nat.mod_lt _ (by decide)

/-- The character of a two-byte sequence is encoded as this sequence. -/
theorem encode_of_pair? {b₀ b₁ : UInt8} {c : Char} (h : pair? b₀ b₁ = some c) :
    encode c = [b₀, b₁] := by
  unfold pair? at h
  split at h
  case isFalse => cases h
  case isTrue hb =>
    simp only [Bool.and_eq_true, decide_eq_true_eq, UInt8.le_iff_toNat_le] at hb
    obtain ⟨⟨hlow, hhigh⟩, htail⟩ := hb
    obtain rfl := Option.some.inj h
    have h₁ := tailBits_eq htail
    have hlt := tailBits_lt b₁
    simp only [UInt8.reduceToNat] at hlow hhigh
    have hn := toNat_ofNat (n := (b₀.toNat - 0xC0) * 64 + tailBits b₁) (by omega)
    unfold encode
    rw [hn, if_neg (by omega), if_pos (by omega), toUInt8_eq (b := b₀) (by omega),
      toUInt8_eq (b := b₁) (by omega)]

theorem encode_of_triple? {b₀ b₁ b₂ : UInt8} {c : Char} (h : triple? b₀ b₁ b₂ = some c) :
    encode c = [b₀, b₁, b₂] := by
  unfold triple? at h
  split at h
  case isFalse => cases h
  case isTrue hb =>
    simp only [Bool.and_eq_true, Bool.or_eq_true, bne_iff_ne, ne_eq, decide_eq_true_eq,
      UInt8.le_iff_toNat_le, ← UInt8.toNat_inj, UInt8.reduceToNat] at hb
    obtain ⟨⟨⟨⟨⟨hlow, hhigh⟩, htail₁⟩, htail₂⟩, hover⟩, hsur⟩ := hb
    obtain rfl := Option.some.inj h
    have h₁ := tailBits_eq htail₁
    have h₂ := tailBits_eq htail₂
    have hlt₁ := tailBits_lt b₁
    have hlt₂ := tailBits_lt b₂
    have hn := toNat_ofNat (n := (b₀.toNat - 0xE0) * 4096 + tailBits b₁ * 64 + tailBits b₂)
      (by omega)
    unfold encode
    rw [hn, if_neg (by omega), if_neg (by omega), if_pos (by omega),
      toUInt8_eq (b := b₀) (by omega), toUInt8_eq (b := b₁) (by omega),
      toUInt8_eq (b := b₂) (by omega)]

theorem encode_of_quad? {b₀ b₁ b₂ b₃ : UInt8} {c : Char} (h : quad? b₀ b₁ b₂ b₃ = some c) :
    encode c = [b₀, b₁, b₂, b₃] := by
  unfold quad? at h
  split at h
  case isFalse => cases h
  case isTrue hb =>
    simp only [Bool.and_eq_true, Bool.or_eq_true, bne_iff_ne, ne_eq, decide_eq_true_eq,
      UInt8.le_iff_toNat_le, ← UInt8.toNat_inj, UInt8.reduceToNat] at hb
    obtain ⟨⟨⟨⟨⟨⟨hlow, hhigh⟩, htail₁⟩, htail₂⟩, htail₃⟩, hover⟩, hmax⟩ := hb
    obtain rfl := Option.some.inj h
    have h₁ := tailBits_eq htail₁
    have h₂ := tailBits_eq htail₂
    have h₃ := tailBits_eq htail₃
    have hlt₁ := tailBits_lt b₁
    have hlt₂ := tailBits_lt b₂
    have hlt₃ := tailBits_lt b₃
    have hn := toNat_ofNat (n := (b₀.toNat - 0xF0) * 262144 + tailBits b₁ * 4096
      + tailBits b₂ * 64 + tailBits b₃) (by omega)
    unfold encode
    rw [hn, if_neg (by omega), if_neg (by omega), if_neg (by omega),
      toUInt8_eq (b := b₀) (by omega), toUInt8_eq (b := b₁) (by omega),
      toUInt8_eq (b := b₂) (by omega), toUInt8_eq (b := b₃) (by omega)]

/-- A character encoded in two bytes is read from them. -/
theorem pair?_encode {c : Char} (hlow : 0x80 ≤ c.toNat) (hhigh : c.toNat < 0x800) :
    pair? (0xC0 + c.toNat / 64).toUInt8 (0x80 + c.toNat % 64).toUInt8 = some c := by
  have h₀ : (0xC0 + c.toNat / 64).toUInt8.toNat = 0xC0 + c.toNat / 64 := toNat_toUInt8 (by omega)
  have h₁ : (0x80 + c.toNat % 64).toUInt8.toNat = 0x80 + c.toNat % 64 := toNat_toUInt8 (by omega)
  unfold pair?
  rw [if_pos]
  · rw [tailBits, h₀, h₁, show (0xC0 + c.toNat / 64 - 0xC0) * 64 + (0x80 + c.toNat % 64) % 64 =
      c.toNat by omega, Char.ofNat_toNat]
  · simp only [Bool.and_eq_true, decide_eq_true_eq, UInt8.le_iff_toNat_le, isTail_iff, h₀, h₁,
      UInt8.reduceToNat]
    omega

theorem triple?_encode {c : Char} (hlow : 0x800 ≤ c.toNat) (hhigh : c.toNat < 0x10000) :
    triple? (0xE0 + c.toNat / 4096).toUInt8 (0x80 + c.toNat / 64 % 64).toUInt8
      (0x80 + c.toNat % 64).toUInt8 = some c := by
  have h₀ : (0xE0 + c.toNat / 4096).toUInt8.toNat = 0xE0 + c.toNat / 4096 :=
    toNat_toUInt8 (by omega)
  have h₁ : (0x80 + c.toNat / 64 % 64).toUInt8.toNat = 0x80 + c.toNat / 64 % 64 :=
    toNat_toUInt8 (by omega)
  have h₂ : (0x80 + c.toNat % 64).toUInt8.toNat = 0x80 + c.toNat % 64 := toNat_toUInt8 (by omega)
  have hvalid := toNat_valid c
  unfold triple?
  rw [if_pos]
  · rw [tailBits, tailBits, h₀, h₁, h₂, show (0xE0 + c.toNat / 4096 - 0xE0) * 4096 +
      (0x80 + c.toNat / 64 % 64) % 64 * 64 + (0x80 + c.toNat % 64) % 64 = c.toNat by omega,
      Char.ofNat_toNat]
  · simp only [Bool.and_eq_true, Bool.or_eq_true, bne_iff_ne, ne_eq, decide_eq_true_eq,
      UInt8.le_iff_toNat_le, ← UInt8.toNat_inj, isTail_iff, h₀, h₁, h₂, UInt8.reduceToNat]
    omega

theorem quad?_encode {c : Char} (hlow : 0x10000 ≤ c.toNat) :
    quad? (0xF0 + c.toNat / 262144).toUInt8 (0x80 + c.toNat / 4096 % 64).toUInt8
      (0x80 + c.toNat / 64 % 64).toUInt8 (0x80 + c.toNat % 64).toUInt8 = some c := by
  have hvalid := toNat_valid c
  have h₀ : (0xF0 + c.toNat / 262144).toUInt8.toNat = 0xF0 + c.toNat / 262144 :=
    toNat_toUInt8 (by omega)
  have h₁ : (0x80 + c.toNat / 4096 % 64).toUInt8.toNat = 0x80 + c.toNat / 4096 % 64 :=
    toNat_toUInt8 (by omega)
  have h₂ : (0x80 + c.toNat / 64 % 64).toUInt8.toNat = 0x80 + c.toNat / 64 % 64 :=
    toNat_toUInt8 (by omega)
  have h₃ : (0x80 + c.toNat % 64).toUInt8.toNat = 0x80 + c.toNat % 64 := toNat_toUInt8 (by omega)
  unfold quad?
  rw [if_pos]
  · rw [tailBits, tailBits, tailBits, h₀, h₁, h₂, h₃,
      show (0xF0 + c.toNat / 262144 - 0xF0) * 262144 + (0x80 + c.toNat / 4096 % 64) % 64 * 4096 +
        (0x80 + c.toNat / 64 % 64) % 64 * 64 + (0x80 + c.toNat % 64) % 64 = c.toNat by omega,
      Char.ofNat_toNat]
  · simp only [Bool.and_eq_true, Bool.or_eq_true, bne_iff_ne, ne_eq, decide_eq_true_eq,
      UInt8.le_iff_toNat_le, ← UInt8.toNat_inj, isTail_iff, h₀, h₁, h₂, h₃, UInt8.reduceToNat]
    omega

/-! ### One glyph -/

/-- A first byte is of at most one of the forms. -/
theorem pair?_eq_none {b₀ : UInt8} (h : 0xDF < b₀.toNat) (b₁ : UInt8) : pair? b₀ b₁ = none := by
  have hle : ¬ b₀ ≤ 0xDF := by
    simp only [UInt8.le_iff_toNat_le, UInt8.reduceToNat]
    omega
  simp [pair?, hle]

/-- No three-byte sequence begins with a byte above `0xEF`. -/
theorem triple?_eq_none {b₀ : UInt8} (h : 0xEF < b₀.toNat) (b₁ b₂ : UInt8) :
    triple? b₀ b₁ b₂ = none := by
  have hle : ¬ b₀ ≤ 0xEF := by
    simp only [UInt8.le_iff_toNat_le, UInt8.reduceToNat]
    omega
  simp [triple?, hle]

/-- A two-byte sequence at the front is read as its character. -/
theorem leading_of_pair? {b₀ b₁ : UInt8} {c : Char} (h : 0x80 ≤ b₀.toNat)
    (hc : pair? b₀ b₁ = some c) (rest : Bytes) : leading b₀ (b₁ :: rest) = (.char c, 1) := by
  have hlow : ¬ b₀ < 0x80 := by
    simp only [UInt8.lt_iff_toNat_lt, UInt8.reduceToNat]
    omega
  simp [leading, hlow, hc]

theorem leading_of_triple? {b₀ b₁ b₂ : UInt8} {c : Char} (h : 0xDF < b₀.toNat)
    (hc : triple? b₀ b₁ b₂ = some c) (rest : Bytes) :
    leading b₀ (b₁ :: b₂ :: rest) = (.char c, 2) := by
  have hlow : ¬ b₀ < 0x80 := by
    simp only [UInt8.lt_iff_toNat_lt, UInt8.reduceToNat]
    omega
  simp [leading, hlow, hc, pair?_eq_none h]

theorem leading_of_quad? {b₀ b₁ b₂ b₃ : UInt8} {c : Char} (h : 0xEF < b₀.toNat)
    (hc : quad? b₀ b₁ b₂ b₃ = some c) (rest : Bytes) :
    leading b₀ (b₁ :: b₂ :: b₃ :: rest) = (.char c, 3) := by
  have hlow : ¬ b₀ < 0x80 := by
    simp only [UInt8.lt_iff_toNat_lt, UInt8.reduceToNat]
    omega
  have hpair : 0xDF < b₀.toNat := by omega
  simp [leading, hlow, hc, pair?_eq_none hpair, triple?_eq_none h]

/-- The bytes of a character are read as this character. -/
theorem leading_encode (c : Char) (rest : Bytes) :
    ∃ b t, encode c = b :: t ∧ leading b (t ++ rest) = (.char c, t.length) := by
  have hvalid := toNat_valid c
  unfold encode
  -- One byte.
  by_cases h₁ : c.toNat < 0x80
  · refine ⟨c.toNat.toUInt8, [], if_pos h₁, ?_⟩
    have hn : c.toNat.toUInt8.toNat = c.toNat := toNat_toUInt8 (by omega)
    unfold leading
    rw [if_pos (by simp only [UInt8.lt_iff_toNat_lt, hn, UInt8.reduceToNat]; omega), hn,
      Char.ofNat_toNat]
    rfl
  rw [if_neg h₁]
  -- Two bytes.
  by_cases h₂ : c.toNat < 0x800
  · refine ⟨_, _, if_pos h₂, leading_of_pair? ?_ (pair?_encode (by omega) h₂) rest⟩
    rw [toNat_toUInt8 (by omega)]
    omega
  rw [if_neg h₂]
  -- Three bytes, or else four.
  by_cases h₃ : c.toNat < 0x10000
  · refine ⟨_, _, if_pos h₃, leading_of_triple? ?_ (triple?_encode (by omega) h₃) rest⟩
    rw [toNat_toUInt8 (by omega)]
    omega
  · refine ⟨_, _, if_neg h₃, leading_of_quad? ?_ (quad?_encode (by omega)) rest⟩
    rw [toNat_toUInt8 (by omega)]
    omega

/-- What is read as a glyph are the bytes of this glyph. -/
theorem leading_bytes (b : UInt8) (rest : Bytes) :
    (leading b rest).1.bytes = b :: rest.take (leading b rest).2 ∧
      (leading b rest).2 ≤ rest.length := by
  by_cases hlow : b < 0x80
  · have hn : b.toNat < 0x80 := by simpa [UInt8.lt_iff_toNat_lt] using hlow
    have hchar := toNat_ofNat (n := b.toNat) (by omega)
    unfold leading
    rw [if_pos hlow]
    refine ⟨?_, Nat.zero_le _⟩
    show encode _ = _
    unfold encode
    rw [hchar, if_pos hn, toUInt8_toNat]
    rfl
  · -- The forms are tried from the shortest to the longest one.
    unfold leading
    rw [if_neg hlow]
    rcases rest with _ | ⟨b₁, rest⟩
    · simp [Glyph.bytes]
    cases hpair : pair? b b₁ with
    | some c => simp [hpair, Glyph.bytes, encode_of_pair? hpair]
    | none =>
      rcases rest with _ | ⟨b₂, rest⟩
      · simp [hpair, Glyph.bytes]
      cases htriple : triple? b b₁ b₂ with
      | some c => simp [hpair, htriple, Glyph.bytes, encode_of_triple? htriple]
      | none =>
        rcases rest with _ | ⟨b₃, rest⟩
        · simp [hpair, htriple, Glyph.bytes]
        cases hquad : quad? b b₁ b₂ b₃ with
        | some c => simp [hpair, htriple, hquad, Glyph.bytes, encode_of_quad? hquad]
        | none => simp [hpair, htriple, hquad, Glyph.bytes]

/-! ### All glyphs -/

/-- Glyphs found before stay behind those to come. -/
theorem glyphsInto_eq (acc : List Glyph) (skip : Nat) (bs : Bytes) :
    glyphsInto acc skip bs = glyphsInto [] skip bs ++ acc := by
  induction bs generalizing acc skip with
  | nil => cases skip <;> simp [glyphsInto]
  | cons b rest ih =>
    cases skip with
    | zero =>
      simp only [glyphsInto]
      rw [ih, ih [_]]
      simp
    | succ skip =>
      simp only [glyphsInto]
      exact ih acc skip

/-- Bytes already read are left out. -/
theorem glyphsInto_skip (skip : Nat) (bs : Bytes) :
    glyphsInto [] skip bs = glyphsInto [] 0 (bs.drop skip) := by
  induction skip generalizing bs with
  | zero => rfl
  | succ skip ih =>
    cases bs with
    | nil => rfl
    | cons b rest => exact ih rest

@[simp]
theorem glyphs_nil : glyphs [] = [] := rfl

/-- Glyphs are read one by one. -/
theorem glyphs_cons (b : UInt8) (rest : Bytes) :
    glyphs (b :: rest) = (leading b rest).1 :: glyphs (rest.drop (leading b rest).2) := by
  unfold glyphs
  rw [show glyphsInto [] 0 (b :: rest) =
    glyphsInto [(leading b rest).1] (leading b rest).2 rest from rfl, glyphsInto_eq,
    glyphsInto_skip, List.reverse_append]
  rfl

/-- A character at the front is the first glyph. -/
theorem glyphs_encode (c : Char) (rest : Bytes) :
    glyphs (encode c ++ rest) = .char c :: glyphs rest := by
  obtain ⟨b, t, hbt, hlead⟩ := leading_encode c rest
  rw [hbt, List.cons_append, glyphs_cons, hlead]
  simp

/-- The glyphs of a byte string make up the byte string. -/
theorem flatMap_bytes_glyphs (bs : Bytes) : (glyphs bs).flatMap Glyph.bytes = bs := by
  -- Each glyph takes at least one byte off.
  induction hlen : bs.length using Nat.strongRecOn generalizing bs with
  | ind n ih =>
    cases bs with
    | nil => rfl
    | cons b rest =>
      obtain ⟨hbytes, _⟩ := leading_bytes b rest
      have hshort : (rest.drop (leading b rest).2).length < n := by
        rw [← hlen, List.length_drop, List.length_cons]
        omega
      rw [glyphs_cons, List.flatMap_cons, hbytes, ih _ hshort _ rfl, List.cons_append,
        List.take_append_drop]

/-- The glyphs of encoded characters are these characters. -/
theorem glyphs_flatMap_encode (cs : List Char) : glyphs (cs.flatMap encode) = cs.map .char := by
  induction cs with
  | nil => rfl
  | cons c cs ih => rw [List.flatMap_cons, glyphs_encode, ih, List.map_cons]

/-- Well-formed text needs no repair. -/
theorem repair_flatMap_encode (cs : List Char) :
    repair (cs.flatMap encode) = cs.flatMap encode := by
  unfold repair chars
  rw [glyphs_flatMap_encode, List.map_map]
  simp [Function.comp_def, toChar]

end Utf8

end StackLang
