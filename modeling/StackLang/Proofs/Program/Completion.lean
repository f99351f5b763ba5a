import StackLang.Proofs.Program.Joining

namespace StackLang

/-!
# Incomplete texts

A text that ends inside groups becomes a program with the closing brackets of these groups on a
line behind it, and only such a text becomes one with closing brackets behind it.

* `Program.depth` — opening minus closing brackets of some tokens; `Grammar.Sequence.depth_eq`,
  `Program.Opened.depth_eq` — what it is behind a sequence, and inside open groups;
* `Token.scan_brackets` — the tokens of a text of brackets;
* `Program.missing` — the brackets that close the open groups of a text;
  `Program.Opened.sequence_closed` — with them the tokens of the text are derived;
* `Program.incomplete_texts` — which texts are incomplete, what is counted and reported of them,
  and what completes them.
-/

open Bytes (ascii)

/-! ### Brackets alone -/

/-- The closing partner of a token that is an opening bracket. -/
def Token.closer? (t : Token) : Option Bracket :=
  match t.kind with
  | .bracket b => b.closer?
  | _ => none

/-- Brackets written one after another are scanned as these brackets and nothing else. -/
theorem Piece.scanFrom_brackets (pos : Nat) (bs : List Bracket) :
    (∀ p ∈ scanFrom pos 0 (bs.flatMap Bracket.text), p.role ≠ .aside) ∧
      ((scanFrom pos 0 (bs.flatMap Bracket.text)).filterMap token?).map Token.kind
        = bs.map .bracket := by
  induction bs generalizing pos with
  | nil => exact ⟨by simp [scanFrom], by simp [scanFrom]⟩
  | cons b bs ih =>
    obtain ⟨r, hlong, hk⟩ := Lexicon.longest?_bracket b (bs.flatMap Bracket.text)
    obtain ⟨hclean, hkinds⟩ := ih (pos + b.text.length)
    rw [List.flatMap_cons, scanFrom_longest (Program.bracket_text_ne_nil b) hlong hk]
    refine ⟨?_, ?_⟩
    · intro p hp
      rcases List.mem_cons.mp hp with rfl | hp
      · simp
      · exact hclean p hp
    · simp [token?, hkinds]

/-- A text of brackets has these brackets as its tokens. -/
theorem Token.scan_brackets (bs : List Bracket) :
    (∀ p ∈ Piece.scan (bs.flatMap Bracket.text), p.role ≠ .aside) ∧
      (Token.scan (bs.flatMap Bracket.text)).map Token.kind = bs.map .bracket :=
  Piece.scanFrom_brackets 0 bs

/-- Brackets are no quotes. -/
theorem Bracket.not_quote (bs : List Bracket) :
    ∀ c ∈ bs.flatMap Bracket.text, Piece.isQuote c = false := by
  intro c hc
  obtain ⟨b, -, hc⟩ := List.mem_flatMap.mp hc
  obtain ⟨d, hd, hlead⟩ := Lexicon.bracket_text b
  rw [hd, List.mem_singleton] at hc
  subst hc
  rw [Piece.isQuote, Bool.or_eq_false_iff, beq_eq_false_iff_ne, beq_eq_false_iff_ne]
  refine ⟨?_, ?_⟩
  · rintro rfl
    exact absurd hlead (by decide)
  · rintro rfl
    exact absurd hlead (by decide)

/-! ### Counting brackets -/

namespace Program

/-- The number of opening brackets among some tokens minus that of closing ones. -/
def depth (ts : List Token) : Int := (ts.map depthOf).sum

/-- The balance of a text is the depth behind its tokens. -/
theorem balance_eq_depth (text : Bytes) : balance text = depth (Token.scan text) := rfl

/-- The depth behind tokens put together adds up. -/
theorem depth_append (ts us : List Token) : depth (ts ++ us) = depth ts + depth us := by
  simp [depth]

theorem depth_cons (t : Token) (ts : List Token) : depth (t :: ts) = depthOf t + depth ts := by
  simp [depth]

/-- An opening bracket adds one to the depth. -/
theorem depthOf_opening {t : Token} {b c : Bracket} (ht : t.kind = .bracket b)
    (hb : b.closer? = some c) : depthOf t = 1 := by
  simp [depthOf, ht, hb]

/-- A closing bracket takes one from the depth. -/
theorem depthOf_closing {t : Token} {b : Bracket} (ht : t.kind = .bracket b)
    (hb : b.closer? = none) : depthOf t = -1 := by
  simp [depthOf, ht, hb]

/-- A token that denotes a symbol by itself does not change the depth. -/
theorem depthOf_denotes {t : Token} {s : Symbol} (h : t.Denotes s) : depthOf t = 0 := by
  unfold depthOf
  cases hk : t.kind with
  | bracket b => exact absurd hk (h.not_bracket b)
  | _ => rfl

/-- The brackets around some tokens cancel out. -/
theorem depth_group {o c : Token} {b b' : Bracket} (ho : o.kind = .bracket b)
    (hb : b.closer? = some b') (hc : c.kind = .bracket b') (ts : List Token) :
    depth (o :: ts ++ [c]) = depth ts := by
  rw [depth_append, depth_cons, depth_cons, depthOf_opening ho hb,
    depthOf_closing hc (closer?_closer hb)]
  simp [depth]

end Program

namespace Grammar

open Program (depth depth_append depth_cons depth_group depthOf_denotes)

mutual

/-- **In a sequence** each bracket has its partner. -/
theorem Sequence.depth_eq {ts : List Token} {p : Program} : Sequence ts p → depth ts = 0
  | .nil => rfl
  | .cons ha hs => by rw [depth_append, ha.depth_eq, hs.depth_eq, add_zero]

/-- What is derived as one symbol closes all that it opens. -/
theorem Atom.depth_eq {ts : List Token} {s : Symbol} : Atom ts s → depth ts = 0
  | .leaf h => by rw [depth_cons, depthOf_denotes h]; rfl
  | .list ho hc h => by rw [depth_group ho rfl hc, h.depth_eq]
  | .tuple ho hc h => by rw [depth_group ho rfl hc, h.depth_eq]
  | .block ho hc h => by rw [depth_group ho rfl hc, h.depth_eq]

end

end Grammar

namespace Program

variable {text : Bytes} {ts us : List Token} {opens : List Open} {done : List Symbol} {f : Failure}
  {bs : List Bracket}

/-- **Inside open groups** the brackets that are left over are theirs. -/
theorem Opened.depth_eq (h : Opened ts opens done) : depth ts = opens.length := by
  induction h with
  | outside h => rw [h.depth_eq, List.length_nil, Nat.cast_zero]
  | inside _ ho hb h ih =>
    rw [depth_append, depth_cons, ih, depthOf_opening ho hb, h.depth_eq, List.length_cons]
    omega

/-- The brackets of a text that is parsed are balanced. -/
theorem balance_of_parse {program : Program} (h : parse text = .ok program) : balance text = 0 :=
  (sequence_of_parse h).2.depth_eq

/-! ### Closing brackets behind a text -/

/-- The tokens of a text with brackets on a line behind it. -/
theorem scan_brackets_newline (hclean : ∀ p ∈ Piece.scan text, p.role ≠ .aside)
    (bs : List Bracket) :
    ∃ us, Token.scan (text ++ ascii '\n' :: bs.flatMap Bracket.text) = Token.scan text ++ us ∧
      us.map Token.kind = bs.map .bracket := by
  refine ⟨_, Token.scan_newline hclean _, ?_⟩
  rw [List.map_map]
  exact (Token.scan_brackets bs).2

/-- **Brackets that close the open groups**, innermost first, make a sequence of the tokens. -/
theorem Opened.sequence_closed (hbs : List.Forall₂ (fun o b => o.bracket.closer? = some b) opens bs)
    (h : Opened ts opens done) (hus : us.map Token.kind = bs.map .bracket) :
    ∃ program, Grammar.Sequence (ts ++ us) program := by
  -- Each bracket takes one group off, and the group becomes a symbol of what is around it.
  induction hbs generalizing ts us done with
  | nil =>
    obtain rfl := List.map_eq_nil_iff.mp hus
    rw [List.append_nil]
    exact ⟨_, h.sequence⟩
  | cons ho _ ih =>
    obtain ⟨u, us, rfl, hu, hus⟩ := List.map_eq_cons_iff.mp hus
    obtain ⟨program, hseq⟩ := ih ((Takes.closing hu ho).opened h) hus
    rw [List.append_assoc] at hseq
    exact ⟨program, hseq⟩

/-- Closing brackets count down. -/
theorem depth_closers (hbs : ∀ b ∈ bs, b.closer? = none) (hus : us.map Token.kind = bs.map .bracket) :
    depth us = -bs.length := by
  induction bs generalizing us with
  | nil =>
    obtain rfl := List.map_eq_nil_iff.mp hus
    rfl
  | cons b bs ih =>
    obtain ⟨u, us, rfl, hu, hus⟩ := List.map_eq_cons_iff.mp hus
    rw [depth_cons, depthOf_closing hu (hbs b List.mem_cons_self),
      ih (fun b hb => hbs b (List.mem_cons_of_mem _ hb)) hus, List.length_cons]
    omega

/-! ### The brackets that are missing -/

/-- The brackets that close what is open at the end of a text, innermost first. -/
def missing (text : Bytes) : List Bracket :=
  (Token.pending (Token.scan text)).filterMap Token.closer?

/-- Each open group waits for the partner of its bracket. -/
theorem closers_of_waits {ts : List Token} (h : List.Forall₂ Waits opens ts) :
    List.Forall₂ (fun o b => o.bracket.closer? = some b) opens (ts.filterMap Token.closer?) := by
  induction h with
  | nil => exact .nil
  | @cons o t _ _ hwait _ ih =>
    obtain ⟨hkind, -, c, hc⟩ := hwait
    have hcloser : t.closer? = some c := by simp only [Token.closer?, hkind, hc]
    rw [List.filterMap_cons_some hcloser]
    exact .cons hc ih

/-- What is wrong with a piece is not that the text ends. -/
theorem openBracket?_of_fault {p : Piece} {before : List Piece} (h : p.Fault text before f) :
    f.openBracket? = none := by
  cases h with
  | unscannable _ => rfl
  | token _ h =>
    cases h with
    | literal h => cases h <;> rfl
    | unexpected _ _ _ => rfl
    | mismatched _ _ _ _ _ _ => rfl

/-- A text is incomplete only where the parser has come to its end inside a group. -/
theorem reached_of_incomplete {bracket : Bytes} (h : parse text = .error f)
    (hf : f.openBracket? = some bracket) :
    ∃ o outer done, Reached text (Piece.scan text) (o :: outer) done ∧
      f = { cause := .unclosed o.bracket.text, span := o.span } := by
  rcases (reached_start text).run (List.nil_append _).symm with
    ⟨opens, done, hreached, hparse⟩ | ⟨_, p, _, g, -, hfault, hparse, -⟩
  · cases opens with
    | nil => exact absurd (h.symm.trans hparse) (by simp [parseFrom])
    | cons o outer => exact ⟨o, outer, done, hreached, Except.error.inj (h.symm.trans hparse)⟩
  · -- A piece at fault would be reported as something else.
    obtain rfl := Except.error.inj (h.symm.trans hparse)
    rw [openBracket?_of_fault hfault] at hf
    exact absurd hf (by simp)

/-- **The missing brackets complete a text** that the parser has come to the end of. -/
theorem Reached.parse_missing (h : Reached text (Piece.scan text) opens done) :
    ∃ program, parse (text ++ ascii '\n' :: (missing text).flatMap Bracket.text) = .ok program := by
  -- The newline ends a comment at the end of the text, so that the brackets are tokens.
  obtain ⟨us, hscan, hus⟩ := scan_brackets_newline h.clean (missing text)
  obtain ⟨program, hseq⟩ := h.opened.sequence_closed (closers_of_waits h.pending) hus
  refine ⟨program, parseFrom_of_sequence (Piece.clean_newline h.clean (Token.scan_brackets _).1) ?_⟩
  show Grammar.Sequence (Token.scan _) program
  rw [hscan]
  exact hseq

/-! ### Texts that brackets complete -/

/-- A token at fault is a violation. -/
theorem violation_of_fault {before after : List Token} {t : Token}
    (hscan : Token.scan text = before ++ t :: after) (h : Token.Fault before t f) :
    ∃ pos, Violation text pos f := by
  obtain ⟨front, p, back, hpieces, rfl, hp, -⟩ := Piece.exists_split hscan
  exact ⟨p.start, .piece hpieces (.token hp h)⟩

/-- A token at fault is at fault also in front of a newline, so that the joined text has no
    program. -/
theorem no_fault_of_newline {before after : List Token} {t : Token} {rest : Bytes} {program : Program}
    (hclean : ∀ p ∈ Piece.scan text, p.role ≠ .aside)
    (h : parse (text ++ ascii '\n' :: rest) = .ok program)
    (hscan : Token.scan text = before ++ t :: after) : ¬ Token.Fault before t f := by
  intro hfault
  have hjoined := Token.scan_newline hclean rest
  rw [hscan, List.append_assoc, List.cons_append] at hjoined
  obtain ⟨pos, hviolation⟩ := violation_of_fault hjoined hfault
  rcases parse_outcome (text ++ ascii '\n' :: rest) with ⟨_, -, -, -, hnone⟩ | ⟨_, g, hg, -⟩
  · exact hnone pos f hviolation
  · exact absurd (h.symm.trans hg) (by simp)

/-- **Only an incomplete text** becomes a program with closing brackets behind it. -/
theorem incomplete_of_closers {program : Program} (hne : bs ≠ []) (hbs : ∀ b ∈ bs, b.closer? = none)
    (h : parse (text ++ ascii '\n' :: bs.flatMap Bracket.text) = .ok program) :
    ∃ f bracket, parse text = .error f ∧ f.openBracket? = some bracket := by
  -- Brackets close no quote of the text, so that nothing of it is set aside.
  have hclean := Piece.clean_of_newline (Bracket.not_quote bs) (sequence_of_parse h).1
  rcases (reached_start text).run (List.nil_append _).symm with
    ⟨opens, done, hreached, hparse⟩ | ⟨before, p, after, f, hscan, hfault, -, -⟩
  · cases opens with
    | nil =>
      -- Outside of all groups, the brackets would count below zero.
      obtain ⟨us, htokens, hus⟩ := scan_brackets_newline hclean bs
      have hdepth : depth (Token.scan text) = 0 := hreached.opened.depth_eq
      have hbalance := balance_of_parse h
      rw [balance_eq_depth, htokens, depth_append, hdepth, depth_closers hbs hus] at hbalance
      have hlen := List.length_pos_of_ne_nil hne
      omega
    | cons o outer => exact ⟨_, o.bracket.text, hparse, rfl⟩
  · cases hfault with
    | unscannable hrole => exact absurd hrole (hclean p (by rw [hscan]; simp))
    | token hp hfault =>
      -- What is wrong in front of the newline is wrong with the joined text too.
      have htokens := congrArg (List.filterMap Piece.token?) hscan
      rw [List.filterMap_append, List.filterMap_cons_some hp] at htokens
      exact absurd hfault (no_fault_of_newline hclean h htokens)

/-- **Incomplete texts.**  The brackets of a program are balanced.  Where a text is reported to end
    inside a group, its balance is the number of groups that are open, one at least, the innermost
    one is reported, and the missing brackets on a line behind the text make it a program.
    Conversely, a text that closing brackets on a line behind it make a program is reported to end
    inside a group. -/
theorem incomplete_texts (text : Bytes) :
    (∀ program, parse text = .ok program → balance text = 0) ∧
    (∀ f bracket, parse text = .error f → f.openBracket? = some bracket →
      balance text = (Token.pending (Token.scan text)).length ∧ 1 ≤ balance text ∧
      (∃ o outer b, Token.pending (Token.scan text) = o :: outer ∧ o.kind = .bracket b ∧
        bracket = b.text ∧ f.span = o.span) ∧
      ∃ program, parse (text ++ ascii '\n' :: (missing text).flatMap Bracket.text) = .ok program) ∧
    ∀ closers : List Bracket, closers ≠ [] → (∀ b ∈ closers, b.closer? = none) → ∀ program,
      parse (text ++ ascii '\n' :: closers.flatMap Bracket.text) = .ok program →
      ∃ f bracket, parse text = .error f ∧ f.openBracket? = some bracket := by
  refine ⟨fun _ h => balance_of_parse h, ?_, fun _ hne hbs _ h => incomplete_of_closers hne hbs h⟩
  intro f bracket h hf
  -- The parser stops with nothing but the group being open, so that the brackets told by the
  -- grammar are those pending.
  obtain ⟨o, outer, done, hreached, rfl⟩ := reached_of_incomplete h hf
  have hbalance : balance text = (o :: outer).length := hreached.opened.depth_eq
  have hpending : List.Forall₂ Waits (o :: outer) (Token.pending (Token.scan text)) :=
    hreached.pending
  refine ⟨by rw [hbalance, hpending.length_eq], ?_, ?_, hreached.parse_missing⟩
  · rw [hbalance, List.length_cons]
    omega
  · cases hopen : Token.pending (Token.scan text) with
    | nil =>
      rw [hopen] at hpending
      cases hpending
    | cons t ts =>
      rw [hopen] at hpending
      cases hpending with
      | cons hwait _ =>
        exact ⟨t, ts, o.bracket, rfl, hwait.1, (Option.some.inj hf).symm, hwait.2.1.symm⟩

/-- Brackets in a string and in a comment count for nothing: two groups are open, and two brackets
    behind the comment close them. -/
theorem incomplete_texts_comment :
    let text := utf8 "[ ')' (1 // ]"
    parse text = .error { cause := .unclosed (utf8 "("), span := ⟨6, 7⟩ } ∧
    (balance text = 2 ∧ missing text = [.closeTuple, .closeList]) ∧
    (∃ program, parse (text ++ ascii '\n' :: utf8 ")]") = .ok program ∧
      balance (text ++ ascii '\n' :: utf8 ")]") = 0) ∧
    ∃ f bracket, parse text = .error f ∧ f.openBracket? = some bracket := by
  intro text
  have hparse : parse text = .error { cause := .unclosed (utf8 "("), span := ⟨6, 7⟩ } := rfl
  obtain ⟨-, hopen, hclosers⟩ := incomplete_texts text
  obtain ⟨hbalance, -, -, program, hprogram⟩ := hopen _ _ hparse rfl
  refine ⟨hparse, ⟨hbalance, rfl⟩, ⟨program, hprogram, ?_⟩, ?_⟩
  · exact (incomplete_texts _).1 program hprogram
  · exact hclosers [.closeTuple, .closeList] (by simp) (by simp [Bracket.closer?]) program hprogram

end Program

end StackLang
