import StackLang.Token.Pattern
import StackLang.Text.Quoted
import StackLang.Proofs.Text.Utf8
import Mathlib.Tactic.Ring

namespace StackLang

/-!
# Reading back quoted text

* `Quoted.hexNumber?_hex` — hexadecimal digits are read back;
* `Quoted.encodeGlyph_cases` — a glyph inside quotes stands for itself or is an escape;
* `Quoted.decode?_flatMap` — what stands between the quotes denotes the byte string, whether
  or not it is well-formed UTF-8;
* `Quoted.length?_encode` — the closing quote is the first one that is not escaped.
-/

namespace Quoted

open Bytes (ascii)

/-! ### Hexadecimal digits -/

/-- A hexadecimal digit is read as the number it was. -/
theorem hexDigit?_hexDigit {k : Nat} (h : k < 16) :
    Bytes.hexDigit? (Bytes.hexDigit k) = some k := by
  have hall : ∀ k : Fin 16, Bytes.hexDigit? (Bytes.hexDigit k) = some k.val := by decide
  exact hall ⟨k, h⟩

/-- A byte that stands for itself inside quotes. -/
def Plain (b : UInt8) : Prop := b.toNat < 0x80 ∧ b ≠ 10 ∧ b ≠ mark ∧ b ≠ backslash

/-- Hexadecimal digits are plain. -/
theorem plain_hexDigit {k : Nat} (h : k < 16) : Plain (Bytes.hexDigit k) := by
  have hall : ∀ k : Fin 16, (Bytes.hexDigit k).toNat < 0x80 ∧ Bytes.hexDigit k ≠ 10 ∧
      Bytes.hexDigit k ≠ mark ∧ Bytes.hexDigit k ≠ backslash := by decide
  exact hall ⟨k, h⟩

/-- Hexadecimal numbers consist of plain bytes. -/
theorem plain_of_mem_hex {w n : Nat} {b : UInt8} (h : b ∈ Bytes.hex w n) : Plain b := by
  induction w generalizing n with
  | zero => cases h
  | succ w ih =>
    rw [Bytes.hex, List.mem_append, List.mem_singleton] at h
    rcases h with h | rfl
    · exact ih h
    · exact plain_hexDigit (Nat.mod_lt _ (by decide))

/-- A hexadecimal number is read as the number it was. -/
theorem hexNumber?_hex {w n : Nat} (h : n < 16 ^ w) : hexNumber? (Bytes.hex w n) = some n := by
  induction w generalizing n with
  | zero =>
    obtain rfl : n = 0 := by simpa using h
    rfl
  | succ w ih =>
    have hdiv : n / 16 < 16 ^ w := by
      rw [Nat.pow_succ] at h
      omega
    have hstep : hexNumber? (Bytes.hex (w + 1) n) =
        (hexNumber? (Bytes.hex w (n / 16))).bind fun m =>
          (Bytes.hexDigit? (Bytes.hexDigit (n % 16))).map (m * 16 + ·) := by
      unfold hexNumber? Bytes.number?
      rw [Bytes.hex, List.foldlM_append]
      cases List.foldlM (fun n b => Option.map (fun x => n * 16 + x) (Bytes.hexDigit? b)) 0
          (Bytes.hex w (n / 16)) <;> simp
    rw [hstep, ih hdiv, hexDigit?_hexDigit (Nat.mod_lt _ (by decide))]
    simp only [Option.bind_some, Option.map_some, Option.some.injEq]
    omega

/-! ### Escapes -/

/-- The letter written for a byte stands for this byte, and is plain ASCII. -/
theorem unletter?_of_letter? {b l : UInt8} (h : letter? b = some l) :
    unletter? l = some b ∧ l.toNat < 0x80 ∧ l ≠ 10 := by
  -- One case for each letter; in the last one there is none.
  unfold letter? at h
  repeat' split at h
  case isFalse => cases h
  all_goals
    rename_i hb
    obtain rfl := eq_of_beq hb
    obtain rfl := Option.some.inj h
    decide

/-- A byte without a letter is neither a newline nor a quote nor a backslash. -/
theorem ne_of_letter?_eq_none {b : UInt8} (h : letter? b = none) :
    b ≠ 10 ∧ b ≠ mark ∧ b ≠ backslash := by
  refine ⟨?_, ?_, ?_⟩ <;> rintro rfl <;> exact absurd h (by decide)

/-- The letter of an escape is read as its byte. -/
theorem escape?_letter {b l : UInt8} (h : letter? b = some l) (rest : Bytes) :
    escape? (l :: rest) = some ([b], 1) := by
  simp only [escape?, (unletter?_of_letter? h).1]

/-- An escape of two hexadecimal digits is read as its byte. -/
theorem escape?_byte (b : UInt8) (rest : Bytes) :
    escape? (ascii 'x' :: (Bytes.hex 2 b.toNat ++ rest)) = some ([b], 3) := by
  have hnumber : hexNumber? (Bytes.hex 2 b.toNat) = some b.toNat :=
    hexNumber?_hex (by have := b.toNat_lt; omega)
  show (hexNumber? (Bytes.hex 2 b.toNat)).map (fun n => ([n.toUInt8], 3)) = _
  rw [hnumber, Option.map_some, Utf8.toUInt8_toNat]

/-- The hexadecimal code point of a character is read as this character. -/
theorem codePoint?_hex {w : Nat} {c : Char} (h : c.toNat < 16 ^ w) :
    codePoint? (Bytes.hex w c.toNat) = some (Utf8.encode c) := by
  have hvalid : c.toNat.isValidChar := c.valid
  unfold codePoint?
  rw [hexNumber?_hex h]
  simp only [if_pos hvalid, Char.ofNat_toNat]

/-- An escape of four hexadecimal digits is read as its character. -/
theorem escape?_short {c : Char} (h : c.toNat < 0x10000) (rest : Bytes) :
    escape? (ascii 'u' :: (Bytes.hex 4 c.toNat ++ rest)) = some (Utf8.encode c, 5) := by
  show (codePoint? (Bytes.hex 4 c.toNat)).map (·, 5) = _
  rw [codePoint?_hex (by omega), Option.map_some]

theorem escape?_long (c : Char) (rest : Bytes) :
    escape? (ascii 'U' :: (Bytes.hex 8 c.toNat ++ rest)) = some (Utf8.encode c, 9) := by
  have hvalid := Utf8.toNat_valid c
  show (codePoint? (Bytes.hex 8 c.toNat)).map (·, 9) = _
  rw [codePoint?_hex (by omega), Option.map_some]

/-! ### Glyphs inside quotes -/

/-- A character below 128 is its own encoding. -/
theorem encode_of_lt {c : Char} (h : c.toNat < 0x80) : Utf8.encode c = [c.toNat.toUInt8] :=
  if_pos h

/-- The bytes of a character that is not in ASCII are not either. -/
theorem le_of_mem_encode {c : Char} (h : ¬ c.toNat < 0x80) {b : UInt8} (hb : b ∈ Utf8.encode c) :
    0x80 ≤ b.toNat := by
  have hvalid := Utf8.toNat_valid c
  unfold Utf8.encode at hb
  rw [if_neg h] at hb
  have hbyte : ∀ n, 0x80 ≤ n → n < 0x100 → b = n.toUInt8 → 0x80 ≤ b.toNat := by
    rintro n hlow hhigh rfl
    rwa [Utf8.toNat_toUInt8 hhigh]
  split at hb
  · simp only [List.mem_cons, List.not_mem_nil, or_false] at hb
    rcases hb with hb | hb <;> exact hbyte _ (by omega) (by omega) hb
  · split at hb
    · simp only [List.mem_cons, List.not_mem_nil, or_false] at hb
      rcases hb with hb | hb | hb <;> exact hbyte _ (by omega) (by omega) hb
    · simp only [List.mem_cons, List.not_mem_nil, or_false] at hb
      rcases hb with hb | hb | hb | hb <;> exact hbyte _ (by omega) (by omega) hb

/-- A glyph that stands for itself inside quotes. -/
def StandsForItself (g : Glyph) : Prop :=
  ∃ c, g = .char c ∧ encodeGlyph g = Utf8.encode c ∧
    ∀ b ∈ Utf8.encode c, b ≠ 10 ∧ b ≠ mark ∧ b ≠ backslash

/-- A glyph that is written as an escape. -/
def IsEscaped (g : Glyph) : Prop :=
  ∃ l tail, encodeGlyph g = backslash :: l :: tail ∧ (l.toNat < 0x80 ∧ l ≠ 10) ∧
    (∀ b ∈ tail, Plain b) ∧ ∀ rest, escape? (l :: (tail ++ rest)) = some (g.bytes, 1 + tail.length)

/-- A glyph written as the escape of its byte is written as an escape. -/
theorem isEscaped_byteEscape {g : Glyph} {b : UInt8} (h : encodeGlyph g = byteEscape b)
    (hb : g.bytes = [b]) : IsEscaped g := by
  refine ⟨ascii 'x', Bytes.hex 2 b.toNat, h, by decide, fun _ => plain_of_mem_hex, fun rest => ?_⟩
  rw [escape?_byte, hb]
  rfl

/-- A character stands for itself inside quotes or is written as an escape. -/
theorem char_cases (c : Char) : StandsForItself (.char c) ∨ IsEscaped (.char c) := by
  have hdef : encodeGlyph (.char c) = encodeChar c := rfl
  unfold encodeChar at hdef
  cases hletter : if c.toNat < 0x80 then letter? c.toNat.toUInt8 else none with
  | some l =>
    -- A letter after the backslash.
    simp only [hletter] at hdef
    have hlow : c.toNat < 0x80 := by
      by_contra hnot
      rw [if_neg hnot] at hletter
      cases hletter
    rw [if_pos hlow] at hletter
    obtain ⟨_, hplain⟩ := unletter?_of_letter? hletter
    refine Or.inr ⟨l, [], hdef, hplain, by simp, fun rest => ?_⟩
    show escape? (l :: rest) = some (Utf8.encode c, 1)
    rw [escape?_letter hletter, encode_of_lt hlow]
  | none =>
    simp only [hletter] at hdef
    split at hdef
    · -- The character itself.
      refine Or.inl ⟨c, rfl, hdef, fun b hb => ?_⟩
      by_cases hlow : c.toNat < 0x80
      · rw [if_pos hlow] at hletter
        rw [encode_of_lt hlow, List.mem_singleton] at hb
        rw [hb]
        exact ne_of_letter?_eq_none hletter
      · have hhigh := le_of_mem_encode hlow hb
        refine ⟨?_, ?_, ?_⟩ <;> rintro rfl <;> exact absurd hhigh (by decide)
    · split at hdef
      · rename_i hcontrol
        simp only [Bool.or_eq_true, decide_eq_true_eq, beq_iff_eq] at hcontrol
        exact Or.inr (isEscaped_byteEscape hdef (encode_of_lt (by omega)))
      · split at hdef
        · rename_i hshort
          refine Or.inr ⟨ascii 'u', Bytes.hex 4 c.toNat, hdef, by decide,
            fun _ => plain_of_mem_hex, fun rest => ?_⟩
          rw [escape?_short hshort]
          rfl
        · refine Or.inr ⟨ascii 'U', Bytes.hex 8 c.toNat, hdef, by decide,
            fun _ => plain_of_mem_hex, fun rest => ?_⟩
          rw [escape?_long]
          rfl

/-- **Glyphs inside quotes.** -/
theorem encodeGlyph_cases (g : Glyph) : StandsForItself g ∨ IsEscaped g := by
  cases g with
  | char c => exact char_cases c
  | stray b => exact Or.inr (isEscaped_byteEscape rfl rfl)

/-! ### Reading -/

/-- Bytes already read are passed over. -/
theorem unescapeInto_skip (acc l rest : Bytes) :
    unescapeInto acc l.length (l ++ rest) = unescapeInto acc 0 rest := by
  induction l with
  | nil => rfl
  | cons b l ih => exact ih

/-- Bytes that are neither quotes nor backslashes stand for themselves. -/
theorem unescapeInto_raw (acc rest : Bytes) {l : Bytes}
    (h : ∀ b ∈ l, b ≠ mark ∧ b ≠ backslash) :
    unescapeInto acc 0 (l ++ rest) = unescapeInto (l.reverse ++ acc) 0 rest := by
  induction l generalizing acc with
  | nil => rfl
  | cons b l ih =>
    obtain ⟨hmark, hslash⟩ := h b (List.mem_cons_self ..)
    have hstep : unescapeInto acc 0 (b :: (l ++ rest)) = unescapeInto (b :: acc) 0 (l ++ rest) := by
      simp [unescapeInto, hmark, hslash]
    rw [List.cons_append, hstep, ih _ fun b hb => h b (List.mem_cons_of_mem _ hb)]
    simp

/-- A glyph that was written is read as its bytes. -/
theorem unescapeInto_encodeGlyph (acc : Bytes) (g : Glyph) (rest : Bytes) :
    unescapeInto acc 0 (encodeGlyph g ++ rest) = unescapeInto (g.bytes.reverse ++ acc) 0 rest := by
  rcases encodeGlyph_cases g with ⟨c, rfl, henc, hraw⟩ | ⟨l, tail, henc, _, _, hescape⟩
  · rw [henc]
    exact unescapeInto_raw acc rest fun b hb => (hraw b hb).2
  · have hlen : 1 + tail.length = (l :: tail).length := by
      rw [List.length_cons]
      omega
    have hstep : unescapeInto acc 0 (backslash :: (l :: tail ++ rest)) =
        unescapeInto (g.bytes.reverse ++ acc) (l :: tail).length (l :: tail ++ rest) := by
      rw [← hlen]
      simp [unescapeInto, hescape, mark, backslash, ascii]
    rw [henc, List.cons_append, hstep, unescapeInto_skip]

/-- Glyphs that were written are read as their bytes. -/
theorem unescapeInto_flatMap (acc : Bytes) (gs : List Glyph) :
    unescapeInto acc 0 (gs.flatMap encodeGlyph) =
      some (acc.reverse ++ gs.flatMap Glyph.bytes) := by
  induction gs generalizing acc with
  | nil => simp [unescapeInto]
  | cons g gs ih =>
    rw [List.flatMap_cons, unescapeInto_encodeGlyph, ih]
    simp

/-- Text in ASCII is well-formed. -/
theorem exists_flatMap_encode {l : Bytes} (h : ∀ b ∈ l, b.toNat < 0x80) :
    ∃ cs : List Char, l = cs.flatMap Utf8.encode := by
  induction l with
  | nil => exact ⟨[], rfl⟩
  | cons b l ih =>
    obtain ⟨cs, rfl⟩ := ih fun b hb => h b (List.mem_cons_of_mem _ hb)
    have hb := h b (List.mem_cons_self ..)
    have hn := Utf8.toNat_ofNat (n := b.toNat) (by omega)
    refine ⟨Char.ofNat b.toNat :: cs, ?_⟩
    rw [List.flatMap_cons, encode_of_lt (by rwa [hn]), hn, Utf8.toUInt8_toNat]
    rfl

/-- Quoted text is well-formed, whatever is quoted. -/
theorem exists_chars_encodeGlyph (g : Glyph) :
    ∃ cs : List Char, encodeGlyph g = cs.flatMap Utf8.encode := by
  rcases encodeGlyph_cases g with ⟨c, _, henc, _⟩ | ⟨l, tail, henc, hl, htail, _⟩
  · exact ⟨[c], by rw [henc, List.flatMap_singleton]⟩
  · rw [henc]
    apply exists_flatMap_encode
    intro b hb
    rcases List.mem_cons.mp hb with rfl | hb
    · decide
    · rcases List.mem_cons.mp hb with rfl | hb
      · exact hl.1
      · exact (htail b hb).1

/-- What is written of glyphs is valid UTF-8. -/
theorem repair_flatMap_encodeGlyph (gs : List Glyph) :
    Utf8.repair (gs.flatMap encodeGlyph) = gs.flatMap encodeGlyph := by
  have hchars : ∃ cs : List Char, gs.flatMap encodeGlyph = cs.flatMap Utf8.encode := by
    induction gs with
    | nil => exact ⟨[], rfl⟩
    | cons g gs ih =>
      obtain ⟨cs, hcs⟩ := ih
      obtain ⟨ds, hds⟩ := exists_chars_encodeGlyph g
      exact ⟨ds ++ cs, by rw [List.flatMap_cons, hcs, hds, List.flatMap_append]⟩
  obtain ⟨cs, hcs⟩ := hchars
  rw [hcs, Utf8.repair_flatMap_encode]

/-- No newline is written for a glyph. -/
theorem ne_newline_of_mem_encodeGlyph {g : Glyph} {b : UInt8} (h : b ∈ encodeGlyph g) :
    b ≠ 10 := by
  rcases encodeGlyph_cases g with ⟨c, _, henc, hraw⟩ | ⟨l, tail, henc, hl, htail, _⟩
  · rw [henc] at h
    exact (hraw b h).1
  · rw [henc] at h
    rcases List.mem_cons.mp h with rfl | h
    · decide
    · rcases List.mem_cons.mp h with rfl | h
      · exact hl.2
      · exact (htail b h).2.1

/-- Without newlines nothing has to be spelled. -/
theorem spellNewlines_eq {l : Bytes} (h : ∀ b ∈ l, b ≠ 10) : spellNewlines l = l := by
  induction l with
  | nil => rfl
  | cons b l ih =>
    have hb : (b == ascii '\n') = false := by
      have hne := h b (List.mem_cons_self ..)
      simpa [ascii] using hne
    have hl : spellNewlines l = l := ih fun b hb => h b (List.mem_cons_of_mem _ hb)
    show (if b == ascii '\n' then [backslash, ascii 'n'] else [b]) ++ spellNewlines l = b :: l
    rw [hb, hl]
    rfl

/-- **Quoted text is read back**, for every byte string. -/
theorem decode?_flatMap (bs : Bytes) :
    decode? ((Utf8.glyphs bs).flatMap encodeGlyph) = some bs := by
  have hnewline : ∀ b ∈ (Utf8.glyphs bs).flatMap encodeGlyph, b ≠ 10 := by
    intro b hb
    obtain ⟨g, _, hb⟩ := List.mem_flatMap.mp hb
    exact ne_newline_of_mem_encodeGlyph hb
  unfold decode?
  rw [spellNewlines_eq hnewline, repair_flatMap_encodeGlyph, unescapeInto_flatMap,
    Utf8.flatMap_bytes_glyphs]
  rfl

/-! ### The closing quote -/

/-- Bytes that are neither quotes nor backslashes stand before the closing quote. -/
theorem closing?_raw (n : Nat) (rest : Bytes) {l : Bytes}
    (h : ∀ b ∈ l, b ≠ mark ∧ b ≠ backslash) :
    Pattern.closing? n (l ++ rest) = Pattern.closing? (n + l.length) rest := by
  induction l generalizing n with
  | nil => rfl
  | cons b l ih =>
    obtain ⟨hmark, hslash⟩ := h b (List.mem_cons_self ..)
    have hstep : Pattern.closing? n (b :: (l ++ rest)) = Pattern.closing? (n + 1) (l ++ rest) := by
      have hq : (b == ascii '"') = false := by simpa [mark] using hmark
      have hs : (b == ascii '\\') = false := by simpa [backslash] using hslash
      rw [Pattern.closing?.eq_def]
      simp only [hq, hs, Bool.false_eq_true, if_false]
    rw [List.cons_append, hstep, ih _ fun b hb => h b (List.mem_cons_of_mem _ hb),
      List.length_cons]
    congr 1
    omega

/-- A glyph that was written stands before the closing quote. -/
theorem closing?_encodeGlyph (n : Nat) (g : Glyph) (rest : Bytes) :
    Pattern.closing? n (encodeGlyph g ++ rest) =
      Pattern.closing? (n + (encodeGlyph g).length) rest := by
  rcases encodeGlyph_cases g with ⟨c, _, henc, hraw⟩ | ⟨l, tail, henc, _, htail, _⟩
  · rw [henc]
    exact closing?_raw n rest fun b hb => (hraw b hb).2
  · have hstep : Pattern.closing? n (backslash :: l :: (tail ++ rest)) =
        Pattern.closing? (n + 2) (tail ++ rest) := rfl
    rw [henc, List.cons_append, List.cons_append, hstep,
      closing?_raw (n + 2) rest fun b hb => (htail b hb).2.2]
    congr 1
    rw [List.length_cons, List.length_cons]
    omega

/-- Behind the glyphs that were written stands the closing quote. -/
theorem closing?_flatMap (n : Nat) (gs : List Glyph) (rest : Bytes) :
    Pattern.closing? n (gs.flatMap encodeGlyph ++ mark :: rest) =
      some (n + (gs.flatMap encodeGlyph).length + 1) := by
  induction gs generalizing n with
  | nil =>
    show Pattern.closing? n (mark :: rest) = some (n + 1)
    rw [Pattern.closing?.eq_def]
    rfl
  | cons g gs ih =>
    rw [List.flatMap_cons, List.append_assoc, closing?_encodeGlyph, ih, List.length_append]
    congr 1
    omega

/-- The quote that ends a quoted text is the first one that closes it. -/
theorem length?_encode (bs rest : Bytes) :
    Pattern.length? .string (encode bs ++ rest) = some (encode bs).length := by
  have hlen : (encode bs).length = 1 + ((Utf8.glyphs bs).flatMap encodeGlyph).length + 1 := by
    unfold encode
    rw [List.length_append, List.length_cons, List.length_singleton]
    omega
  rw [hlen, ← closing?_flatMap 1 _ rest]
  unfold encode
  rw [List.append_assoc]
  rfl

end Quoted

end StackLang
