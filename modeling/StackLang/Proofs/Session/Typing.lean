import StackLang.Proofs.Session.Lines
import StackLang.Proofs.Program.Spacing

namespace StackLang

/-!
# Inputs as they are typed

An input is evaluated without the blanks around its first line.  This leaves the program as it was
typed, unless the line ends with blanks that belong to a string.

* `Piece.unplaced_of_solid`, `Piece.clean_of_solid` — texts with the same pieces, gaps apart, have
  the same tokens, and both are scanned to the end or neither is;
* `Repl.typed_program` — the program of an input is that of its lines as they were typed;
* `Repl.trimmed_string` — an input that loses a blank of a string.
-/

open Bytes (ascii)

/-! ### Texts with the same tokens -/

namespace Piece

variable {text text' rest : Bytes} {k : Nat}

/-- Texts with the same pieces, gaps apart, have the same tokens. -/
theorem unplaced_of_solid (h : solid (scan text) = (solid (scan text')).map (shift k)) :
    (Token.scan text).map Token.unplaced = (Token.scan text').map Token.unplaced := by
  have htokens := congrArg (List.filterMap token?) h
  rw [filterMap_shift, filterMap_solid, filterMap_solid] at htokens
  rw [Token.scan, htokens, Token.map_unplaced_shift]
  rfl

/-- Of texts with the same pieces, gaps apart, nothing is set aside if nothing is of one. -/
theorem clean_of_solid (h : solid (scan text) = (solid (scan text')).map (shift k))
    (hclean : ∀ p ∈ scan text, p.role ≠ .aside) : ∀ p ∈ scan text', p.role ≠ .aside := by
  rw [← clean_solid, h] at hclean
  rw [← clean_solid]
  exact fun p hp => hclean (p.shift k) (List.mem_map_of_mem hp)

/-- Of what follows a newline nothing is set aside if nothing is in all. -/
theorem clean_behind_newline (htext : ∀ p ∈ scan text, p.role ≠ .aside)
    (hclean : ∀ p ∈ scan (text ++ ascii '\n' :: rest), p.role ≠ .aside) :
    ∀ p ∈ scan rest, p.role ≠ .aside := by
  rw [← clean_solid, solid_scan_newline htext rest, solid_map_shift] at hclean
  rw [← clean_solid]
  exact fun p hp => hclean (p.shift _) (List.mem_append_right _ (List.mem_map_of_mem hp))

end Piece

/-! ### Trimmed inputs -/

namespace Repl

open Program (parse)

variable {first : Bytes} {rest : List Bytes} {p : Program}

/-- A source of several lines is the first one, a newline and the source of the others. -/
theorem sourceOf_cons (first line : Bytes) (lines : List Bytes) :
    sourceOf (first :: line :: lines) = first ++ ascii '\n' :: sourceOf (line :: lines) := by
  rw [sourceOf, Bytes.joined, List.intercalate_cons_cons, List.append_assoc]
  rfl

/-- **A first line that is scanned to its end** can be trimmed. -/
theorem parse_trimmed_of_clean (h : parse (sourceOf (first :: rest)) = .ok p)
    (hfirst : ∀ q ∈ Piece.scan first, q.role ≠ .aside) :
    ∃ q, parse (sourceOf (Blank.trim first :: rest)) = .ok q ∧
      Symbol.unspannedAll q = Symbol.unspannedAll p := by
  obtain ⟨k, hsolid⟩ := Piece.solid_scan_trim hfirst
  have htrim := Piece.clean_of_solid hsolid hfirst
  have htokens := Piece.unplaced_of_solid hsolid
  cases rest with
  | nil =>
    simp only [sourceOf, Bytes.joined, List.intercalate_singleton] at h ⊢
    exact Program.parse_congr h htrim htokens.symm
  | cons line lines =>
    rw [sourceOf_cons] at h ⊢
    have hrest := Piece.clean_behind_newline hfirst (Program.sequence_of_parse h).1
    apply Program.parse_congr h (Piece.clean_newline htrim hrest)
    rw [Token.scan_newline hfirst, Token.scan_newline htrim, List.map_append, List.map_append,
      htokens, Token.map_unplaced_shift, Token.map_unplaced_shift]

/-- **A first line that does not end with a blank** can be trimmed. -/
theorem parse_trimmed_of_last (h : parse (sourceOf (first :: rest)) = .ok p)
    (hlast : ∀ g ∈ (Utf8.glyphs first).getLast?, Blank.isBlankGlyph g = false) :
    ∃ q, parse (sourceOf (Blank.trim first :: rest)) = .ok q ∧
      Symbol.unspannedAll q = Symbol.unspannedAll p := by
  obtain ⟨blanks, trail, hfirst, hblanks, -, htrail⟩ := Blank.exists_trim first
  rw [htrail hlast, List.append_nil] at hfirst
  have hsource : sourceOf (first :: rest) = blanks ++ sourceOf (Blank.trim first :: rest) := by
    cases rest with
    | nil =>
      simp only [sourceOf, Bytes.joined, List.intercalate_singleton]
      exact hfirst
    | cons line lines =>
      rw [sourceOf_cons, sourceOf_cons, ← List.append_assoc, ← hfirst]
  rw [hsource] at h
  have hclean := (Program.sequence_of_parse h).1
  have hsolid := Piece.solid_scan_blanks hblanks hclean
  exact Program.parse_congr h (Piece.clean_of_solid hsolid hclean)
    (Piece.unplaced_of_solid hsolid).symm

/-- **An input means what was typed**, if no string runs over the end of its first line, or that
    line does not end with a blank: the text that is evaluated has the program of the lines as they
    were typed, but for its positions. -/
theorem typed_program (first : Bytes) (rest : List Bytes)
    (h : parse (sourceOf (first :: rest)) = .ok p)
    (hline : (∀ q ∈ Piece.scan first, q.role ≠ .aside) ∨
      ∀ g ∈ (Utf8.glyphs first).getLast?, Blank.isBlankGlyph g = false) :
    ∃ source q, (Chunk.input first rest).reading = .source source ∧ parse source = .ok q ∧
      Symbol.unspannedAll q = Symbol.unspannedAll p := by
  rcases hline with hfirst | hlast
  · obtain ⟨q, hparse, hq⟩ := parse_trimmed_of_clean h hfirst
    exact ⟨_, q, rfl, hparse, hq⟩
  · obtain ⟨q, hparse, hq⟩ := parse_trimmed_of_last h hlast
    exact ⟨_, q, rfl, hparse, hq⟩

/-- Blanks around a line with an open bracket and a comment do not count. -/
theorem typed_program_comment :
    let first := utf8 " [ 1 // one "
    let rest := [utf8 " 'a' ]"]
    (Chunk.input first rest).reading = .source (utf8 "[ 1 // one\n 'a' ]") ∧
    ∃ p source q, parse (sourceOf (first :: rest)) = .ok p ∧
      (Chunk.input first rest).reading = .source source ∧ parse source = .ok q ∧
      Symbol.unspannedAll q = Symbol.unspannedAll p := by
  intro first rest
  obtain ⟨p, hp⟩ : ∃ p, parse (sourceOf (first :: rest)) = .ok p := ⟨_, rfl⟩
  obtain ⟨source, q, hreading, hq⟩ := typed_program first rest hp (Or.inl (by decide))
  exact ⟨rfl, p, source, q, hp, hreading, hq⟩

/-- **A string that runs over the end of the first line** loses the blanks in front of that end:
    of the lines `[ 'a ` and `' ]`, which are an input, another program is evaluated than was
    typed. -/
theorem trimmed_string :
    let first := utf8 "[ 'a "
    let rest := [utf8 "' ]"]
    (Chunk.input first rest).Legal ∧
    ∃ p source q, parse (sourceOf (first :: rest)) = .ok p ∧
      (Chunk.input first rest).reading = .source source ∧ parse source = .ok q ∧
      Symbol.unspannedAll q ≠ Symbol.unspannedAll p := by
  intro first rest
  refine ⟨.input ⟨by decide, by decide⟩ ?_ (by decide), _, _, _, rfl, rfl, rfl, ?_⟩
  · -- One line is fewer than all.
    intro front hne hfront hshort
    obtain ⟨t, rfl, ht⟩ := (List.prefix_cons_iff.mp hfront).resolve_left hne
    rcases List.prefix_cons_iff.mp ht with rfl | ⟨u, rfl, hu⟩
    · decide
    · exact absurd (by rw [List.prefix_nil.mp hu]) hshort
  · intro h
    injection h with hgroup
    injection hgroup with _ hbody
    injection hbody with hstring
    injection hstring with hvalue
    injection hvalue with hbytes
    exact absurd hbytes (by decide)

end Repl

end StackLang
