import StackLang.Proofs.Text.Utf8

namespace StackLang

/-!
# Stray bytes

A byte string is read from left to right, but which of its bytes are stray does not depend on where
the reading begins: characters never overlap, as their first bytes differ from all others.

* `Utf8.encode_eq_utf8EncodeChar` — characters are encoded as in Lean's own strings;
* `Utf8.character?_eq_some_iff` — a character is read exactly where its bytes stand;
* `Utf8.InCharacter` — the byte at a place belongs to a character that stands somewhere;
* `Utf8.mended` — all other bytes are replaced by U+FFFD;
* `Utf8.repair_eq_mended` — this is what reading and writing makes of a byte string;
* `Utf8.mended_eq_self_iff` — which changes nothing exactly if the byte string is a text.
-/

namespace Utf8

/-! ### Texts -/

/-- Characters are encoded as the library encodes them. -/
theorem encode_eq_utf8EncodeChar (c : Char) : encode c = String.utf8EncodeChar c := by
  have hvalid := toNat_valid c
  have hval : c.val.toNat = c.toNat := rfl
  unfold encode String.utf8EncodeChar
  simp only [hval]
  by_cases h₁ : c.toNat < 0x80
  · rw [if_pos h₁, if_pos (show c.toNat ≤ 127 by omega)]
  rw [if_neg h₁, if_neg (show ¬ c.toNat ≤ 127 by omega)]
  by_cases h₂ : c.toNat < 0x800
  · rw [if_pos h₂, if_pos (show c.toNat ≤ 2047 by omega),
      show c.toNat / 64 % 32 + 192 = 0xC0 + c.toNat / 64 by omega, Nat.add_comm (_ % 64) 128]
  rw [if_neg h₂, if_neg (show ¬ c.toNat ≤ 2047 by omega)]
  by_cases h₃ : c.toNat < 0x10000
  · rw [if_pos h₃, if_pos (show c.toNat ≤ 65535 by omega),
      show c.toNat / 4096 % 16 + 224 = 0xE0 + c.toNat / 4096 by omega,
      Nat.add_comm (_ / 64 % 64) 128, Nat.add_comm (_ % 64) 128]
  · rw [if_neg h₃, if_neg (show ¬ c.toNat ≤ 65535 by omega),
      show c.toNat / 262144 % 8 + 240 = 0xF0 + c.toNat / 262144 by omega,
      Nat.add_comm (_ / 4096 % 64) 128, Nat.add_comm (_ / 64 % 64) 128, Nat.add_comm (_ % 64) 128]

/-- The bytes of a fixed text are those of its characters. -/
theorem utf8_ofList (cs : List Char) : utf8 (String.ofList cs) = cs.flatMap encode := by
  have hencode : cs.flatMap encode = cs.flatMap String.utf8EncodeChar :=
    congrArg (cs.flatMap ·) (funext encode_eq_utf8EncodeChar)
  rw [hencode, utf8, String.toByteArray_ofList, List.utf8Encode]
  simp

/-- The bytes of a text are the encoding of some characters. -/
theorem exists_text_iff {bs : Bytes} :
    (∃ t : String, bs = utf8 t) ↔ ∃ cs : List Char, bs = cs.flatMap encode := by
  constructor
  · rintro ⟨t, rfl⟩
    exact ⟨t.toList, by rw [← utf8_ofList, String.ofList_toList]⟩
  · rintro ⟨cs, rfl⟩
    exact ⟨String.ofList cs, (utf8_ofList cs).symm⟩

/-! ### Where characters stand -/

/-- The character that a byte string begins with. -/
def character? : Bytes → Option Char
  | [] => none
  | b :: rest =>
    match (leading b rest).1 with
    | .char c => some c
    | .stray _ => none

/-- No encoding is empty. -/
theorem encode_ne_nil (c : Char) : encode c ≠ [] := by
  obtain ⟨b, t, hbt, -⟩ := leading_encode c []
  rw [hbt]
  exact List.cons_ne_nil b t

/-- A character is read exactly where its bytes stand. -/
theorem character?_eq_some_iff {bs : Bytes} {c : Char} :
    character? bs = some c ↔ encode c <+: bs := by
  constructor
  · intro h
    cases bs with
    | nil => cases h
    | cons b rest =>
      obtain ⟨hbytes, -⟩ := leading_bytes b rest
      rw [character?] at h
      split at h
      case h_1 d hglyph =>
        cases h
        rw [hglyph] at hbytes
        rw [show encode c = b :: rest.take (leading b rest).2 from hbytes]
        exact List.cons_prefix_cons.mpr ⟨rfl, List.take_prefix ..⟩
      case h_2 => cases h
  · rintro ⟨rest, rfl⟩
    obtain ⟨b, t, hbt, hlead⟩ := leading_encode c rest
    rw [hbt, List.cons_append, character?, hlead]

/-- Where no character is read, none stands. -/
theorem not_prefix_of_character? {bs : Bytes} (h : character? bs = none) (c : Char) :
    ¬ encode c <+: bs := by
  rw [← character?_eq_some_iff, h]
  exact nofun

/-- A byte that no character begins with is read alone. -/
theorem glyphs_stray {b : UInt8} {rest : Bytes} (h : character? (b :: rest) = none) :
    glyphs (b :: rest) = .stray b :: glyphs rest := by
  obtain ⟨hbytes, hle⟩ := leading_bytes b rest
  rw [character?] at h
  split at h
  case h_1 => cases h
  case h_2 x hglyph =>
    rw [hglyph] at hbytes
    obtain ⟨rfl, hnone⟩ := List.cons.inj (show [x] = b :: rest.take _ from hbytes)
    have hzero : (leading x rest).2 = 0 := by
      have hlen := congrArg List.length hnone
      rw [List.length_nil, List.length_take] at hlen
      omega
    rw [glyphs_cons, hglyph, hzero, List.drop_zero]

/-- A byte string begins with a character, with a stray byte or not at all. -/
@[elab_as_elim]
theorem glyph_induction {motive : Bytes → Prop} (nil : motive [])
    (char : ∀ c rest, motive rest → motive (encode c ++ rest))
    (stray : ∀ b rest, character? (b :: rest) = none → motive rest → motive (b :: rest))
    (bs : Bytes) : motive bs := by
  -- Both a character and a stray byte take at least one byte off.
  induction hlen : bs.length using Nat.strongRecOn generalizing bs with
  | ind n ih =>
    cases bs with
    | nil => exact nil
    | cons b rest =>
      cases hchar : character? (b :: rest) with
      | none => exact stray b rest hchar (ih _ (by rw [← hlen]; exact Nat.lt_succ_self _) _ rfl)
      | some c =>
        obtain ⟨more, hmore⟩ := character?_eq_some_iff.mp hchar
        have hshort : more.length < n := by
          have hpos := List.length_pos_iff.mpr (encode_ne_nil c)
          rw [← hlen, ← hmore, List.length_append]
          omega
        rw [← hmore]
        exact char c more (ih _ hshort _ rfl)

/-! ### Characters do not overlap -/

/-- The first byte of a character is never a later byte of a character. -/
theorem start_eq_zero {c d : Char} {rest : Bytes} {start : Nat} (hstart : start < (encode c).length)
    (h : encode d <+: (encode c ++ rest).drop start) : start = 0 := by
  have hpos : 0 < (encode d).length := List.length_pos_iff.mpr (encode_ne_nil d)
  have hsame : (encode d)[0] = (encode c)[start] := by
    obtain ⟨more, hmore⟩ := h
    have hget := congrArg (·[0]?) hmore
    simp only [List.getElem?_append_left hpos, List.getElem?_drop, Nat.add_zero,
      List.getElem?_append_left hstart, List.getElem?_eq_getElem hpos,
      List.getElem?_eq_getElem hstart] at hget
    exact Option.some.inj hget
  simp only [encode_eq_utf8EncodeChar] at hsame hpos hstart
  refine (@UInt8.isUTF8FirstByte_getElem_utf8EncodeChar c start hstart).mp ?_
  rw [← hsame]
  exact (@UInt8.isUTF8FirstByte_getElem_utf8EncodeChar d 0 hpos).mpr rfl

/-- The byte at a place belongs to the UTF-8 of a character that stands in the byte string. -/
def InCharacter (bs : Bytes) (place : Nat) : Prop :=
  ∃ start c, start ≤ place ∧ String.utf8EncodeChar c <+: bs.drop start ∧
    place < start + (String.utf8EncodeChar c).length

/-- A byte lies in a character if and only if an encoding begins before or at it and reaches over
    it. -/
theorem inCharacter_iff {bs : Bytes} {place : Nat} :
    InCharacter bs place ↔ ∃ start c,
      start ≤ place ∧ encode c <+: bs.drop start ∧ place < start + (encode c).length := by
  simp only [InCharacter, encode_eq_utf8EncodeChar]

instance (bs : Bytes) (place : Nat) : Decidable (InCharacter bs place) :=
  decidable_of_iff
    (∃ start, start < place + 1 ∧
      (character? (bs.drop start)).any (fun c => place < start + (encode c).length) = true) <| by
    simp only [inCharacter_iff, Option.any_eq_true, character?_eq_some_iff, decide_eq_true_eq,
      Nat.lt_succ_iff, exists_and_left]

/-- No character reaches over the border between two byte strings. -/
def Parted (front back : Bytes) : Prop :=
  ∀ start c, encode c <+: (front ++ back).drop start → start < front.length →
    start + (encode c).length ≤ front.length

/-- No character reaches over the end of another one. -/
theorem parted_encode (c : Char) (rest : Bytes) : Parted (encode c) rest := by
  intro start d h hstart
  obtain rfl := start_eq_zero hstart h
  -- Two characters that begin at one place are the same.
  have hd : character? (encode c ++ rest) = some d := character?_eq_some_iff.mpr h
  have hc : character? (encode c ++ rest) = some c :=
    character?_eq_some_iff.mpr (List.prefix_append ..)
  obtain rfl := Option.some.inj (hc.symm.trans hd)
  exact Nat.le_of_eq (Nat.zero_add _)

/-- No character reaches over the end of a stray byte. -/
theorem parted_stray {b : UInt8} {rest : Bytes} (h : character? (b :: rest) = none) :
    Parted [b] rest := by
  intro start d hd hstart
  obtain rfl : start = 0 := Nat.lt_one_iff.mp hstart
  exact absurd hd (not_prefix_of_character? h d)

/-- Behind a border, whether a byte lies in a character depends on what is behind the border
    only. -/
theorem inCharacter_append_iff {front back : Bytes} (hpart : Parted front back) (place : Nat) :
    InCharacter (front ++ back) (front.length + place) ↔ InCharacter back place := by
  simp only [inCharacter_iff]
  constructor
  · rintro ⟨start, c, hle, hc, hlt⟩
    by_cases hstart : start < front.length
    · -- A character of the front ends there, before the place.
      have := hpart start c hc hstart
      omega
    · rw [List.drop_append, List.drop_eq_nil_of_le (Nat.le_of_not_lt hstart),
        List.nil_append] at hc
      exact ⟨start - front.length, c, by omega, hc, by omega⟩
  · rintro ⟨start, c, hle, hc, hlt⟩
    refine ⟨front.length + start, c, by omega, ?_, by omega⟩
    rwa [List.drop_length_add_append]

/-! ### Replacing what is stray -/

/-- The bytes that stand for the byte at a place: itself, or else U+FFFD. -/
def mendedAt (bs : Bytes) (b : UInt8) (place : Nat) : Bytes :=
  if InCharacter bs place then [b] else [0xEF, 0xBF, 0xBD]

/-- The byte string with each byte outside of characters replaced by U+FFFD. -/
def mended (bs : Bytes) : Bytes := bs.zipIdx.flatMap fun x => mendedAt bs x.1 x.2

/-- What is in front of a border and what is behind it are mended each by itself. -/
theorem mended_append {front back : Bytes} (hpart : Parted front back) :
    mended (front ++ back) =
      (front.zipIdx.flatMap fun x => mendedAt (front ++ back) x.1 x.2) ++ mended back := by
  have hback : ∀ b place, mendedAt (front ++ back) b (front.length + place) =
      mendedAt back b place := fun b place => by
    simp only [mendedAt, inCharacter_append_iff hpart]
  rw [mended, List.zipIdx_append, List.flatMap_append, Nat.zero_add,
    List.zipIdx_eq_map_add (l := back), List.flatMap_map]
  simp only [hback]
  rfl

/-- A character is left as it is by mending. -/
theorem mended_encode (c : Char) (rest : Bytes) :
    mended (encode c ++ rest) = encode c ++ mended rest := by
  have hkept : ∀ x ∈ (encode c).zipIdx, mendedAt (encode c ++ rest) x.1 x.2 = [x.1] := by
    intro x hx
    refine if_pos (inCharacter_iff.mpr ⟨0, c, Nat.zero_le _, List.prefix_append .., ?_⟩)
    have hlt := List.snd_lt_of_mem_zipIdx hx
    omega
  rw [mended_append (parted_encode c rest), List.flatMap_def, List.map_congr_left hkept,
    ← List.flatMap_def, ← List.map_eq_flatMap, List.zipIdx_map_fst]

/-- A stray byte is mended as U+FFFD. -/
theorem mended_stray {b : UInt8} {rest : Bytes} (h : character? (b :: rest) = none) :
    mended (b :: rest) = [0xEF, 0xBF, 0xBD] ++ mended rest := by
  have hout : ¬ InCharacter (b :: rest) 0 := by
    rw [inCharacter_iff]
    rintro ⟨start, c, hle, hc, -⟩
    obtain rfl := Nat.le_zero.mp hle
    exact not_prefix_of_character? h c hc
  rw [← List.singleton_append, mended_append (parted_stray h)]
  simp [mendedAt, hout]

/-- A character is left as it is by repairing. -/
theorem repair_encode (c : Char) (rest : Bytes) :
    repair (encode c ++ rest) = encode c ++ repair rest := by
  simp only [repair, chars, glyphs_encode, List.map_cons, List.flatMap_cons, toChar]

theorem repair_stray {b : UInt8} {rest : Bytes} (h : character? (b :: rest) = none) :
    repair (b :: rest) = [0xEF, 0xBF, 0xBD] ++ repair rest := by
  simp only [repair, chars, glyphs_stray h, List.map_cons, List.flatMap_cons, toChar]
  rfl

/-- Reading and writing replaces what stands outside of characters. -/
theorem repair_eq_mended (bs : Bytes) : repair bs = mended bs := by
  induction bs using glyph_induction with
  | nil => rfl
  | char c rest ih => rw [repair_encode, mended_encode, ih]
  | stray b rest h ih => rw [repair_stray h, mended_stray h, ih]

/-- Repairing does not shorten a byte string. -/
theorem length_le_repair (bs : Bytes) : bs.length ≤ (repair bs).length := by
  induction bs using glyph_induction with
  | nil => exact Nat.le_refl _
  | char c rest ih =>
    rw [repair_encode, List.length_append, List.length_append]
    omega
  | stray b rest h ih =>
    rw [repair_stray h, List.length_append, List.length_cons, List.length_cons]
    omega

/-- What repairing leaves as it is consists of characters. -/
theorem exists_chars_of_repair {bs : Bytes} (h : repair bs = bs) :
    ∃ cs : List Char, bs = cs.flatMap encode := by
  induction bs using glyph_induction with
  | nil => exact ⟨[], rfl⟩
  | char c rest ih =>
    rw [repair_encode] at h
    obtain ⟨cs, hcs⟩ := ih (List.append_cancel_left h)
    exact ⟨c :: cs, by rw [List.flatMap_cons, ← hcs]⟩
  | stray b rest hstray ih =>
    -- A stray byte leaves more bytes than there were.
    have hlen := congrArg List.length h
    have hle := length_le_repair rest
    simp only [repair_stray hstray, List.length_append, List.length_cons] at hlen
    omega

/-- Nothing is replaced exactly in texts. -/
theorem mended_eq_self_iff {bs : Bytes} : mended bs = bs ↔ ∃ t : String, bs = utf8 t := by
  rw [← repair_eq_mended, exists_text_iff]
  constructor
  · exact exists_chars_of_repair
  · rintro ⟨cs, rfl⟩
    exact repair_flatMap_encode cs

end Utf8

end StackLang
