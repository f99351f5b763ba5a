import StackLang.Text.Blank
import StackLang.Proofs.Token.Slicing

namespace StackLang

/-!
# Texts without the blanks at their ends

Blanks at the start of a text that is scanned to its end are white space, and blanks at its end
are white space or belong to a comment.  So a text has the same tokens without them, unless they
stand inside a string that goes on.

* `Blank.isBlankByte` — the bytes of blanks; `Blank.exists_trim` — what trimming takes off;
* `Lexicon.last_not_blank` — no token ends with such a byte;
* `Scanner.Run.solid_trimmed` — steps over a text are those over the text without blanks at its end;
* `Piece.isSpace_of_clean` — blanks at the start of a text are white space;
* `Piece.solid_scan_blanks`, `Piece.solid_scan_trim` — the pieces of a text without blanks at its
  start, and at both ends.
-/

open Bytes (ascii isSpace)
open scoped Computability

/-! ### Blanks -/

namespace Blank

/-- Whether a byte may be one of a blank: white space of one byte, or a byte of a longer
    character. -/
def isBlankByte (b : UInt8) : Bool := isSpace b || b == 11 || b == 12 || 0x80 ≤ b

/-- The bytes of a blank are blank bytes. -/
theorem isBlankByte_of_blank {g : Glyph} (h : isBlankGlyph g = true) :
    ∀ b ∈ g.bytes, isBlankByte b = true := by
  cases g with
  | stray b => exact absurd h (by simp [isBlankGlyph])
  | char c =>
    intro b hb
    change b ∈ Utf8.encode c at hb
    by_cases hascii : c.toNat < 0x80
    · -- Of the characters of one byte, six are blank.
      have hmem : (9 ≤ c.toNat ∧ c.toNat ≤ 13) ∨ c.toNat = 32 := by
        simp only [isBlankGlyph, isBlank, ranges, List.any_cons, List.any_nil, Bool.or_false,
          Bool.or_eq_true, Bool.and_eq_true, decide_eq_true_eq] at h
        omega
      rw [Quoted.encode_of_lt hascii, List.mem_singleton] at hb
      subst hb
      generalize c.toNat = n at hmem
      obtain rfl | rfl | rfl | rfl | rfl | rfl :
          n = 9 ∨ n = 10 ∨ n = 11 ∨ n = 12 ∨ n = 13 ∨ n = 32 := by omega
      all_goals decide
    · have hle : 0x80 ≤ b := UInt8.le_iff_toNat_le.mpr (Quoted.le_of_mem_encode hascii hb)
      simp [isBlankByte, hle]

/-- The bytes of blanks are blank bytes. -/
theorem isBlankByte_of_blanks {gs : List Glyph} (h : ∀ g ∈ gs, isBlankGlyph g = true) :
    ∀ b ∈ gs.flatMap Glyph.bytes, isBlankByte b = true := by
  intro b hb
  obtain ⟨g, hg, hb⟩ := List.mem_flatMap.mp hb
  exact isBlankByte_of_blank (h g hg) b hb

/-- **What trimming takes off** are blanks at both ends, and none at the end if there is none. -/
theorem exists_trim (text : Bytes) :
    ∃ lead trail, text = lead ++ (trim text ++ trail) ∧ (∀ b ∈ lead, isBlankByte b = true) ∧
      (∀ b ∈ trail, isBlankByte b = true) ∧
      ((∀ g ∈ (Utf8.glyphs text).getLast?, isBlankGlyph g = false) → trail = []) := by
  have htext := Utf8.flatMap_bytes_glyphs text
  generalize hglyphs : Utf8.glyphs text = gs at htext
  have hstart := List.takeWhile_append_dropWhile (p := isBlankGlyph) (l := gs)
  generalize hs : gs.dropWhile isBlankGlyph = start at hstart
  have hend := congrArg List.reverse
    (List.takeWhile_append_dropWhile (p := isBlankGlyph) (l := start.reverse))
  rw [List.reverse_append, List.reverse_reverse] at hend
  refine ⟨(gs.takeWhile isBlankGlyph).flatMap Glyph.bytes,
    (start.reverse.takeWhile isBlankGlyph).reverse.flatMap Glyph.bytes, ?_, ?_, ?_, ?_⟩
  · rw [trim, hglyphs, hs, ← List.flatMap_append, hend, ← List.flatMap_append, hstart, htext]
  · exact isBlankByte_of_blanks fun g hg => List.mem_takeWhile_imp hg
  · exact isBlankByte_of_blanks fun g hg => List.mem_takeWhile_imp (List.mem_reverse.mp hg)
  · intro hlast
    -- The last glyph is that of what is left behind the blanks at the start.
    cases hrev : start.reverse with
    | nil => rfl
    | cons g rest =>
      have hg : isBlankGlyph g = false := by
        apply hlast
        rw [← hstart, List.reverse_eq_cons_iff.mp hrev, ← List.append_assoc, List.getLast?_concat]
        rfl
      rw [List.takeWhile_cons_of_neg (by simp [hg])]
      rfl

end Blank

/-! ### Tokens at the end of a text -/

namespace Lexicon

open Blank (isBlankByte)

variable {r : Rule} {w : Bytes}

/-- No fixed text has a byte of a blank. -/
theorem exact_not_blank (hr : r ∈ rules) (t : Bytes) (ht : r.pattern = .exact t) :
    ∀ b ∈ t, (!isBlankByte b) = true := by
  have hall : ∀ r ∈ rules,
      (match r.pattern with | .exact t => t.all (!isBlankByte ·) | _ => true) = true := by
    decide
  have h := hall r hr
  rw [ht] at h
  exact List.all_eq_true.mp h

/-- The rules for gaps. -/
theorem gap_cases : ∀ r ∈ rules, r.kind? = none → r.pattern = .comment ∨ r.pattern = .space := by
  decide

/-- The rules of tokens are neither that of comments nor that of white space. -/
theorem token_shape : ∀ r ∈ rules, r.kind? ≠ none → r.pattern ≠ .comment ∧ r.pattern ≠ .space := by
  decide

/-- No byte of names and numerals is a blank byte. -/
theorem isBlankByte_of_word {b : UInt8} (h : Pattern.isWordByte b = true) :
    (!isBlankByte b) = true := by
  have hrange : 43 ≤ b.toNat ∧ b.toNat < 0x80 := by
    simp only [Pattern.isWordByte, Pattern.isIdentPart, Pattern.isIdentStart, Pattern.isSign,
      Bytes.isLetter, Bytes.isDigit, Bool.or_eq_true, Bool.and_eq_true, decide_eq_true_eq,
      beq_iff_eq, UInt8.le_iff_toNat_le, UInt8.reduceToNat] at h
    rcases h with ((((h | h) | rfl) | h) | rfl | rfl) | rfl
    any_goals omega
    all_goals decide
  simp only [isBlankByte, isSpace, Bool.not_eq_true', Bool.or_eq_false_iff, beq_eq_false_iff_ne,
    decide_eq_false_iff_not, UInt8.le_iff_toNat_le, UInt8.reduceToNat, ne_eq, UInt8.ext_iff]
  omega

/-- **No token ends with a byte of a blank.** -/
theorem last_not_blank (hr : r ∈ rules) (hk : r.kind? ≠ none) (hw : w ∈ r.pattern.language) :
    ∀ b ∈ w.getLast?, isBlankByte b = false := by
  obtain ⟨hcomment, hspace⟩ := token_shape r hr hk
  by_cases hclosed : r.pattern = .string ∨ r.pattern = .rawString
  · obtain ⟨u, q, rfl, hq⟩ := quote_of_closed hclosed hw
    rw [List.getLast?_concat]
    rintro b ⟨⟩
    simp only [Piece.isQuote, Bool.or_eq_true, beq_iff_eq] at hq
    rcases hq with rfl | rfl <;> decide
  · obtain ⟨hstring, hraw⟩ := not_or.mp hclosed
    intro b hb
    have hmany := Pattern.language_le_many (q := (!isBlankByte ·)) (fun _ => isBlankByte_of_word)
      (exact_not_blank hr) hcomment hstring hraw hspace hw
    have hnot := mem_many.mp hmany b (List.mem_of_getLast? hb)
    simpa using hnot

/-- A comment is taken to the end of its line. -/
theorem selects_comment {rest : Bytes} (h : ∀ b ∈ rest, (b != ascii '\n') = true) :
    Selects (ascii '/' :: ascii '/' :: rest) (rest.length + 2) ⟨.comment, none⟩ where
  le := Nat.le_refl _
  mem := by
    show (ascii '/' :: ascii '/' :: rest).take (ascii '/' :: ascii '/' :: rest).length ∈ _
    rw [List.take_length]
    exact mem_one_mul.mpr ⟨_, _, rfl, rfl, mem_one_mul.mpr ⟨_, rest, rfl, rfl, mem_many.mpr h⟩⟩
  longest _ _ _ _ hpre := hpre.length_le
  first := by
    refine ⟨keywords.map fun k => ⟨.exact k, some .keyword⟩, _, List.append_assoc .., ?_⟩
    intro q hq hmem
    obtain ⟨k, hk, rfl⟩ := List.mem_map.mp hq
    have hslash : ∀ k ∈ keywords, k.head? ≠ some (ascii '/') := by decide
    obtain rfl : (ascii '/' :: ascii '/' :: rest).take (rest.length + 2) = k := hmem
    exact hslash _ hk rfl

/-- A byte of a blank that is not white space begins no lexeme. -/
theorem not_prefix_of_blank {b : UInt8} (hb : isBlankByte b = true) (hspace : isSpace b = false)
    (rest : Bytes) : ∀ r ∈ rules, ∀ w ∈ r.pattern.language, ¬ w <+: b :: rest := by
  have hword : Pattern.isWordByte b = false := by
    rw [Bool.eq_false_iff]
    intro hword
    have hnot := isBlankByte_of_word hword
    simp [hb] at hnot
  have hne : ∀ {c : UInt8}, isBlankByte c = false → b ≠ c := by
    rintro c hc rfl
    simp [hc] at hb
  -- The byte begins no name, numeral, string or comment, so that only fixed texts are left.
  have hother : lead b = .other := by
    simp only [Pattern.isWordByte, Pattern.isIdentPart, Pattern.isSign,
      Bool.or_eq_false_iff] at hword
    simp [lead, hword, hspace, hne (c := ascii '/') (by decide), hne (c := ascii '"') (by decide),
      hne (c := ascii '\'') (by decide)]
  rintro r hr w hw ⟨v, hv⟩
  cases w with
  | nil => exact Pattern.nil_notMem (pattern_ne_empty r hr) hw
  | cons c u =>
    obtain ⟨rfl, -⟩ := List.cons.inj hv
    -- No bracket and no operator contains such a byte.
    have hexact : ((Bracket.all.map Bracket.text ++ operators).all fun t =>
        t.all (!isBlankByte ·)) = true := by
      decide
    have hmem := List.mem_append.mpr (exact_of_lead_other hother hr hw)
    have hnot := List.all_eq_true.mp (List.all_eq_true.mp hexact _ hmem) c List.mem_cons_self
    simp [hb] at hnot

end Lexicon

namespace Scanner

open Blank (isBlankByte)
open Piece (solid scanFrom)

variable {text middle trail : Bytes} {pos next : Nat} {p : Piece} {ps : List Piece}

/-- A piece ends where the next one begins. -/
theorem Step.getLast?_text (h : Step text pos p next) : p.text.getLast? = text[next - 1]? := by
  obtain ⟨n, hpos, hle, htext, rfl⟩ := h.extent
  rw [List.length_drop] at hle
  rw [htext, List.getLast?_eq_getElem?, List.length_take_of_le (by rw [List.length_drop]; omega),
    List.getElem?_take_of_lt (by omega), List.getElem?_drop]
  congr 1
  omega

/-- A piece that ends among blanks behind a text is a gap. -/
theorem Step.gap_of_trail (h : Step (middle ++ trail) pos p next) (hp : p.role ≠ .aside)
    (htrail : ∀ b ∈ trail, isBlankByte b = true) (hnext : middle.length < next) :
    p.role = .gap := by
  have hlast : ∀ b ∈ p.text.getLast?, isBlankByte b = true := by
    intro b hb
    rw [h.getLast?_text, List.getElem?_append_right (by omega)] at hb
    exact htrail b (List.mem_of_getElem? hb)
  obtain ⟨b, hb⟩ : ∃ b, p.text.getLast? = some b :=
    ⟨_, List.getLast?_eq_some_getLast h.text_ne_nil⟩
  have hblank := hlast b hb
  cases h with
  | failed _ _ _ => exact absurd rfl hp
  | @matched n r h =>
    cases hk : r.kind? with
    | none => simp [Lexicon.Rule.role, hk]
    | some k =>
      have hnot := Lexicon.last_not_blank h.mem_rules (by simp [hk]) h.mem b hb
      exact absurd hblank (by simp [hnot])

/-- Among blanks behind a text there are only gaps. -/
theorem Run.solid_trail (h : Run (middle ++ trail) pos ps) (hclean : ∀ p ∈ ps, p.role ≠ .aside)
    (htrail : ∀ b ∈ trail, isBlankByte b = true) (hpos : middle.length ≤ pos) : solid ps = [] := by
  induction h with
  | done _ => rfl
  | @step pos next p ps h _ ih =>
    have hlt : pos < next := by
      obtain ⟨n, hn, -, -, rfl⟩ := h.extent
      omega
    have hgap := h.gap_of_trail (hclean p List.mem_cons_self) htrail (by omega)
    rw [Piece.solid_cons_gap hgap]
    exact ih (fun q hq => hclean q (List.mem_cons_of_mem _ hq)) (by omega)

/-- What a gap that goes on among blanks behind a text leaves of the text is a gap. -/
theorem Step.solid_gap (h : Step (middle ++ trail) pos p next) (hp : p.role = .gap)
    (htrail : ∀ b ∈ trail, isBlankByte b = true) (hpos : pos ≤ middle.length)
    (hnext : middle.length < next) : solid (scanFrom pos 0 (middle.drop pos)) = [] := by
  cases h with
  | failed _ _ _ => exact absurd hp (by simp)
  | @matched n r h =>
    have hk : r.kind? = none := by
      cases hk : r.kind? with
      | none => rfl
      | some k => simp [Lexicon.Rule.role, hk] at hp
    -- The lexeme goes over all that is left of the text.
    obtain ⟨blanks, hblanks, hword⟩ : ∃ blanks, (∀ b ∈ blanks, isBlankByte b = true) ∧
        middle.drop pos ++ blanks ∈ r.pattern.language := by
      have hmem := h.mem
      rw [List.drop_append_of_le_length hpos, List.take_append, List.take_of_length_le
        (by rw [List.length_drop]; omega)] at hmem
      exact ⟨_, fun b hb => htrail b (List.mem_of_mem_take hb), hmem⟩
    rcases Lexicon.gap_cases r h.mem_rules hk with hpattern | hpattern
    · rw [hpattern] at hword
      obtain ⟨a, u, hu, ha, htail⟩ := mem_one_mul.mp hword
      obtain ⟨b, v, rfl, hb, hv⟩ := mem_one_mul.mp htail
      rw [beq_iff_eq] at ha hb
      subst ha hb
      rcases hdrop : middle.drop pos with _ | ⟨c, _ | ⟨d, rest⟩⟩
      · rfl
      · -- The second slash of a comment is no blank.
        rw [hdrop] at hu
        obtain ⟨-, rfl⟩ := List.cons.inj hu
        exact absurd (hblanks (ascii '/') List.mem_cons_self) (by decide)
      · rw [hdrop] at hu
        obtain ⟨rfl, htail⟩ := List.cons.inj hu
        obtain ⟨rfl, rfl⟩ := List.cons.inj htail
        have hrest : ∀ b ∈ rest, (b != ascii '\n') = true := fun b hb =>
          mem_many.mp hv b (List.mem_append_left _ hb)
        have hsel := Lexicon.selects_comment hrest
        rw [← hdrop] at hsel
        have hlen : pos + (rest.length + 2) = middle.length := by
          have := congrArg List.length hdrop
          simp only [List.length_drop, List.length_cons] at this
          omega
        rw [← hdrop, scanFrom_step (.matched hsel), Piece.solid_cons_gap rfl, hlen,
          List.drop_length]
        rfl
    · rw [hpattern] at hword
      obtain ⟨b, u, hu, hb, hmany⟩ := mem_one_mul.mp hword
      have hspace : ∀ c ∈ middle.drop pos, isSpace c = true := by
        intro c hc
        have hmem : c ∈ b :: u := hu ▸ List.mem_append_left blanks hc
        rcases List.mem_cons.mp hmem with rfl | hmem
        · exact hb
        · exact mem_many.mp hmany c hmem
      have hsolid := Piece.solid_scanFrom_spaces hspace pos []
      rwa [List.append_nil] at hsolid

/-- **Steps over a text with blanks behind it** are those over the text alone, gaps apart. -/
theorem Run.solid_trimmed (h : Run (middle ++ trail) pos ps) (hclean : ∀ p ∈ ps, p.role ≠ .aside)
    (htrail : ∀ b ∈ trail, isBlankByte b = true) (hpos : pos ≤ middle.length) :
    solid (scanFrom pos 0 (middle.drop pos)) = solid ps := by
  induction h with
  | @done pos h =>
    rw [List.length_append] at h
    rw [List.drop_of_length_le (by omega)]
    rfl
  | @step pos next p ps h hrun ih =>
    have hp := hclean p List.mem_cons_self
    have hps : ∀ q ∈ ps, q.role ≠ .aside := fun q hq => hclean q (List.mem_cons_of_mem _ hq)
    -- The piece ends inside the text, and the same step is made without the blanks.
    by_cases hnext : next ≤ middle.length
    · have hstep := h.take hp hnext
      rw [List.take_left] at hstep
      have hsolid := ih hps hnext
      rw [scanFrom_step hstep]
      unfold solid at hsolid ⊢
      rw [List.filter_cons, List.filter_cons, hsolid]
    · -- The piece reaches into the blanks.  Then it is a gap, and nothing but gaps follows.
      have hgap := h.gap_of_trail hp htrail (by omega)
      rw [Piece.solid_cons_gap hgap, hrun.solid_trail hps htrail (by omega)]
      exact h.solid_gap hgap htrail hpos (by omega)

end Scanner

/-! ### Trimmed texts -/

namespace Piece

open Blank (isBlankByte)

/-- Blanks at the start of a text in which nothing is set aside are white space. -/
theorem isSpace_of_clean {blanks rest : Bytes} {pos : Nat}
    (hblanks : ∀ b ∈ blanks, isBlankByte b = true)
    (hclean : ∀ p ∈ scanFrom pos 0 (blanks ++ rest), p.role ≠ .aside) :
    ∀ b ∈ blanks, isSpace b = true := by
  induction blanks generalizing pos with
  | nil => simp
  | cons b blanks ih =>
    have hb : isSpace b = true := by
      by_contra hspace
      have hnone := Lexicon.not_prefix_of_blank (hblanks b List.mem_cons_self)
        (Bool.eq_false_iff.mpr hspace) (blanks ++ rest)
      apply hclean (first pos b (blanks ++ rest))
      · rw [List.cons_append, scanFrom]
        exact List.mem_cons_self
      · unfold first
        rw [Lexicon.longest?_eq_none_iff.mpr hnone]
    rw [← clean_solid, List.cons_append, solid_scanFrom_space hb, clean_solid] at hclean
    exact List.forall_mem_cons.mpr
      ⟨hb, ih (fun c hc => hblanks c (List.mem_cons_of_mem _ hc)) hclean⟩

/-- Moving pieces keeps which of them are gaps. -/
theorem solid_map_shift (k : Nat) (ps : List Piece) :
    solid (ps.map (shift k)) = (solid ps).map (shift k) :=
  List.filter_map ..

/-- **Blanks at the start of a text** change no piece behind them. -/
theorem solid_scan_blanks {blanks rest : Bytes} (hblanks : ∀ b ∈ blanks, isBlankByte b = true)
    (hclean : ∀ p ∈ scan (blanks ++ rest), p.role ≠ .aside) :
    solid (scan (blanks ++ rest)) = (solid (scan rest)).map (shift blanks.length) := by
  have hshift := scanFrom_shift 0 blanks.length 0 rest
  rw [scan, solid_scanFrom_spaces (isSpace_of_clean hblanks hclean), hshift, solid_map_shift]
  rfl

/-- **A text without the blanks at its ends** has the same pieces, gaps apart. -/
theorem solid_scan_trim {text : Bytes} (hclean : ∀ p ∈ scan text, p.role ≠ .aside) :
    ∃ k, solid (scan text) = (solid (scan (Blank.trim text))).map (shift k) := by
  obtain ⟨blanks, trail, htext, hblanks, htrail, -⟩ := Blank.exists_trim text
  rw [htext] at hclean
  have hsolid := solid_scan_blanks hblanks hclean
  have hrest : ∀ p ∈ scan (Blank.trim text ++ trail), p.role ≠ .aside := by
    rw [← clean_solid] at hclean ⊢
    intro p hp
    exact hclean (p.shift blanks.length) (hsolid ▸ List.mem_map_of_mem hp)
  have hrun : Scanner.Run (Blank.trim text ++ trail) 0 (scan (Blank.trim text ++ trail)) :=
    Scanner.run_iff.mpr rfl
  refine ⟨blanks.length, ?_⟩
  rw [← htext] at hsolid
  rw [hsolid, ← hrun.solid_trimmed hrest htrail (Nat.zero_le _)]
  rfl

end Piece

end StackLang
