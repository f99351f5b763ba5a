import StackLang.Proofs.Token.Trimming
import StackLang.Proofs.Program.Positions

namespace StackLang

/-!
# Texts with other white space

The lexeme of a token is the longest match also where the text ends behind it, and where white
space follows.  So a text is scanned as the same tokens if they are put apart by white space in any
other way.

* `Lexicon.Scans` — a text is one token by itself;
* `Lexicon.Scans.of_mem`, `Lexicon.Scans.unique` — the lexemes of a text are, and there is no choice
  of their kinds;
* `Lexicon.Scans.spaced` — the same token is found in front of white space;
* `Token.joined`, `Token.Respacing` — tokens with white space put behind each of them;
* `Token.scan_respaced` — they are scanned as these tokens;
* `Token.label` — the type and the lexeme of a token; `Token.map_unplaced_of_lexemes` — the lexemes
  alone tell the tokens of a text, but for their positions.
-/

open Bytes (isSpace)

namespace Lexicon

variable {w : Bytes} {k k' : Token.Kind} {q r : Rule}

/-! ### Lexemes by themselves -/

/-- A token and white space behind it begin no lexeme that is longer than the token. -/
theorem Selects.not_over_space (h : Selects w w.length r) (hk : r.kind? ≠ none) (hq : q ∈ rules)
    {b : UInt8} (hb : isSpace b = true) (v : Bytes) : w ++ b :: v ∉ q.pattern.language := by
  obtain ⟨hcomment, hspace⟩ := token_shape r h.mem_rules hk
  by_cases hstring : q.pattern = .string ∨ q.pattern = .rawString
  · exact h.not_over_string hstring (List.cons_ne_nil _ _)
  obtain ⟨hstring, hraw⟩ := not_or.mp hstring
  intro hword
  obtain ⟨a, u, rfl⟩ := List.exists_cons_of_length_pos h.pos
  obtain ⟨n, hn, -⟩ := length?_of_mem hword (List.prefix_refl _)
  have hlead := Pattern.leads_of_length? hn
  by_cases hqspace : q.pattern = .space
  · -- The token would begin with white space, which only a gap does.
    rw [hqspace] at hlead
    have hr := h.mem_candidates (beq_iff_eq.mp hlead)
    rw [candidates_space, List.mem_singleton] at hr
    exact hspace (by rw [hr])
  by_cases hqcomment : q.pattern = .comment
  · -- The token is a slash, and no slash follows.
    rw [hqcomment] at hlead hword
    have hr := h.mem_candidates (beq_iff_eq.mp hlead)
    rw [candidates_slash] at hr
    obtain rfl : r = ⟨.exact (utf8 "/"), some .operator⟩ := by
      rcases List.mem_cons.mp hr with rfl | hr
      · exact absurd rfl hcomment
      · exact List.mem_singleton.mp hr
    have hslash : (a :: u).take (a :: u).length = utf8 "/" := h.mem
    obtain ⟨rfl, rfl⟩ := List.cons.inj ((List.take_length ..).symm.trans hslash)
    obtain ⟨_, rest, hrest, -, hsecond⟩ := mem_one_mul.mp hword
    obtain ⟨-, rfl⟩ := List.cons.inj hrest
    obtain ⟨c, _, hcons, hc, -⟩ := mem_one_mul.mp hsecond
    obtain ⟨rfl, -⟩ := List.cons.inj hcons
    rw [beq_iff_eq.mp hc] at hb
    exact absurd hb (by decide)
  · -- No other shape has a byte of white space.
    have hmany := Pattern.language_le_many (q := (!Blank.isBlankByte ·))
      (fun _ => isBlankByte_of_word) (exact_not_blank hq) hqcomment hstring hraw hqspace hword
    have hnot := mem_many.mp hmany b (by simp)
    simp [Blank.isBlankByte, hb] at hnot

/-- A text that is one token by itself, of a kind. -/
def Scans (k : Token.Kind) (w : Bytes) : Prop := ∃ r, Selects w w.length r ∧ r.kind? = some k

/-- The lexemes of a text are tokens by themselves. -/
theorem Scans.of_mem {text : Bytes} {t : Token} (ht : t ∈ Token.scan text) :
    Scans t.kind t.lexeme := by
  obtain ⟨p, hp, htoken⟩ := List.mem_filterMap.mp ht
  obtain ⟨hrole, hlexeme, -⟩ := Piece.token?_eq_some htoken
  have hlawful := (Piece.tiling_scan text).lawful p hp
  unfold Piece.Lawful at hlawful
  rw [hrole] at hlawful
  obtain ⟨r, hr, hkind⟩ := hlawful
  -- The rule that takes the lexeme of the text also takes it where the text ends behind it.
  have htake : (text.drop p.start).take p.text.length = p.text := by
    have hcut := (Piece.tiling_scan text).text_eq hp
    rw [List.drop_take, Piece.span, Nat.add_sub_cancel_left] at hcut
    exact hcut.symm
  have hpart := hr.take (Nat.le_refl _)
  rw [htake, ← hlexeme] at hpart
  exact ⟨r, hpart, hkind⟩

/-- A text is one token in one way. -/
theorem Scans.unique (h : Scans k w) (h' : Scans k' w) : k = k' := by
  obtain ⟨r, hr, hk⟩ := h
  obtain ⟨q, hq, hk'⟩ := h'
  obtain ⟨-, rfl⟩ := hr.unique hq
  exact Option.some.inj (hk.symm.trans hk')

/-- **In front of white space** a text is the same token as by itself. -/
theorem Scans.spaced (h : Scans k w) {rest : Bytes} (hrest : ∀ b ∈ rest.head?, isSpace b = true) :
    ∃ r, Selects (w ++ rest) w.length r ∧ r.kind? = some k := by
  obtain ⟨r, hr, hk⟩ := h
  refine ⟨r, hr.append fun q hq b v hpre => ?_, hk⟩
  obtain ⟨u, rfl⟩ := hpre
  exact hr.not_over_space (by simp [hk]) hq (hrest b rfl) v

/-- A token is not empty. -/
theorem Scans.ne_nil (h : Scans k w) : w ≠ [] := by
  obtain ⟨r, hr, -⟩ := h
  exact List.ne_nil_of_length_pos hr.pos

/-- The piece of a token in front of white space. -/
theorem Scans.scanFrom_append (h : Scans k w) {rest : Bytes}
    (hrest : ∀ b ∈ rest.head?, isSpace b = true) (pos : Nat) :
    Piece.scanFrom pos 0 (w ++ rest) =
      ⟨.token k, pos, w⟩ :: Piece.scanFrom (pos + w.length) 0 rest := by
  obtain ⟨r, hr, hk⟩ := h.spaced hrest
  exact Piece.scanFrom_longest h.ne_nil (longest?_eq_some_iff.mpr hr) hk pos

end Lexicon

namespace Token

open Lexicon (Scans)

/-! ### Tokens put apart -/

/-- The lexemes of some tokens, each with a text put behind it. -/
def joined (parts : List (Token × Bytes)) : Bytes := parts.flatMap fun p => p.1.lexeme ++ p.2

/-- Some tokens are put apart by white space: any of it stands in front of the first one, some of
    it behind each of the others, and any of it behind the last one. -/
structure Respacing (ts : List Token) (lead : Bytes) (parts : List (Token × Bytes)) : Prop where
  tokens : parts.map Prod.fst = ts
  lead : ∀ b ∈ lead, isSpace b = true
  white : ∀ p ∈ parts, ∀ b ∈ p.2, isSpace b = true
  apart : ∀ p ∈ parts.dropLast, p.2 ≠ []

variable {ts : List Token} {lead : Bytes} {part : Token × Bytes} {parts : List (Token × Bytes)}

/-- The first lexeme with its text, and the others behind it. -/
theorem joined_cons (part : Token × Bytes) (parts : List (Token × Bytes)) :
    joined (part :: parts) = part.1.lexeme ++ (part.2 ++ joined parts) := by
  rw [joined, List.flatMap_cons, List.append_assoc]
  rfl

/-- The same white space may stand behind all tokens. -/
theorem respacing_uniform (hlead : ∀ b ∈ lead, isSpace b = true) {blank : Bytes} (hne : blank ≠ [])
    (hblank : ∀ b ∈ blank, isSpace b = true) : Respacing ts lead (ts.map (·, blank)) where
  tokens := by
    rw [List.map_map]
    exact List.map_id ts
  lead := hlead
  white p hp := by
    obtain ⟨t, -, rfl⟩ := List.mem_map.mp hp
    exact hblank
  apart p hp := by
    obtain ⟨t, -, rfl⟩ := List.mem_map.mp (List.dropLast_subset _ hp)
    exact hne

/-- Behind the first token the others are put apart. -/
theorem Respacing.tail (h : Respacing ts lead (part :: parts)) :
    Respacing (parts.map Prod.fst) [] parts where
  tokens := rfl
  lead := nofun
  white p hp := h.white p (List.mem_cons_of_mem _ hp)
  apart p hp := by
    cases parts with
    | nil => cases hp
    | cons q parts => exact h.apart p (List.mem_cons_of_mem _ hp)

/-- What follows the first token is white space, or nothing. -/
theorem Respacing.head_white (h : Respacing ts lead (part :: parts)) :
    ∀ b ∈ (part.2 ++ joined parts).head?, isSpace b = true := by
  intro b hb
  cases hblank : part.2 with
  | cons c blank =>
    rw [hblank] at hb
    obtain rfl : c = b := Option.some.inj hb
    exact h.white part List.mem_cons_self c (by simp [hblank])
  | nil =>
    -- Without white space behind it the token is the last one.
    cases parts with
    | nil => simp [hblank, joined] at hb
    | cons q parts => exact absurd hblank (h.apart part (by simp))

/-- **Tokens put apart by white space** are scanned as these tokens, wherever they stand. -/
theorem Respacing.scanFrom_joined (h : Respacing ts lead parts)
    (hscans : ∀ t ∈ ts, Scans t.kind t.lexeme) (pos : Nat) :
    (∀ p ∈ Piece.solid (Piece.scanFrom pos 0 (joined parts)), p.role ≠ .aside) ∧
      ((Piece.solid (Piece.scanFrom pos 0 (joined parts))).filterMap Piece.token?).map unplaced =
        ts.map unplaced := by
  induction parts generalizing ts lead pos with
  | nil =>
    obtain rfl := h.tokens
    exact ⟨nofun, rfl⟩
  | cons part parts ih =>
    obtain ⟨t, blank⟩ := part
    obtain rfl := h.tokens
    obtain ⟨hclean, htokens⟩ := ih h.tail (fun u hu => hscans u (List.mem_cons_of_mem _ hu))
      (pos + t.lexeme.length + blank.length)
    have hscan : Scans t.kind t.lexeme := hscans t List.mem_cons_self
    -- The first token is a piece, and the white space behind it is none that counts.
    have hpieces : Piece.solid (Piece.scanFrom pos 0 (joined ((t, blank) :: parts))) =
        ⟨.token t.kind, pos, t.lexeme⟩ ::
          Piece.solid (Piece.scanFrom (pos + t.lexeme.length + blank.length) 0 (joined parts)) := by
      rw [joined_cons, hscan.scanFrom_append h.head_white pos,
        ← Piece.solid_scanFrom_spaces (h.white (t, blank) List.mem_cons_self)]
      rfl
    rw [hpieces]
    refine ⟨List.forall_mem_cons.mpr ⟨nofun, hclean⟩, ?_⟩
    rw [List.map_cons, List.map_cons, ← htokens]
    rfl

/-- **Tokens of a text that are put apart in another way** are scanned as the same tokens. -/
theorem scan_respaced {text : Bytes} (h : Respacing (scan text) lead parts) :
    (∀ p ∈ Piece.scan (lead ++ joined parts), p.role ≠ .aside) ∧
      (scan (lead ++ joined parts)).map unplaced = (scan text).map unplaced := by
  have hsolid := Piece.solid_scanFrom_spaces h.lead 0 (joined parts)
  obtain ⟨hclean, htokens⟩ := h.scanFrom_joined (fun t => Scans.of_mem) (0 + lead.length)
  rw [← hsolid] at hclean htokens
  rw [Piece.filterMap_solid] at htokens
  exact ⟨Piece.clean_solid.mp hclean, htokens⟩

/-- The type and the lexeme of a token. -/
def label (t : Token) : Int × Bytes := (t.code, t.lexeme)

/-- Tokens that are the same without positions have the same types and lexemes. -/
theorem map_label_of_unplaced {us : List Token} (h : ts.map unplaced = us.map unplaced) :
    ts.map label = us.map label := by
  have hlabel := congrArg (List.map label) h
  rwa [List.map_map, List.map_map] at hlabel

/-- Tokens that are scanned have their kinds from their lexemes. -/
theorem map_unplaced_of_lexemes {us : List Token} (hts : ∀ t ∈ ts, Scans t.kind t.lexeme)
    (hus : ∀ u ∈ us, Scans u.kind u.lexeme) (h : ts.map lexeme = us.map lexeme) :
    ts.map unplaced = us.map unplaced := by
  induction ts generalizing us with
  | nil => rw [List.map_eq_nil_iff.mp h.symm]
  | cons t ts ih =>
    obtain ⟨u, us, rfl, hu, hrest⟩ := List.map_eq_cons_iff.mp h.symm
    obtain ⟨ht, hts⟩ := List.forall_mem_cons.mp hts
    obtain ⟨hscan, hus⟩ := List.forall_mem_cons.mp hus
    rw [hu] at hscan
    -- One lexeme is one token in one way.
    have hunplaced : t.unplaced = u.unplaced :=
      congrArg₂ (Token.mk · · .none) (ht.unique hscan) hu.symm
    rw [List.map_cons, List.map_cons, hunplaced, ih hts hus hrest.symm]

end Token

end StackLang
