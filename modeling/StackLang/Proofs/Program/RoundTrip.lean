import StackLang.Value.Inspection
import StackLang.Proofs.Token.Tiling
import StackLang.Proofs.Program.WellFormed

namespace StackLang

/-!
# The text of a program is parsed as the program

* `Program.Reads` — in front of any delimited text, a text is read as some symbols;
* `Program.reads_lexeme`, `reads_cons`, `reads_group`, `reads_block` — one rule for each way
  in which the text of a program is put together;
* `Symbol.reads_text` — the text of a well-formed symbol is read as that symbol;
* `Program.parse_text` — parsing undoes formatting, for every program that text can denote.
-/

open Bytes (ascii)

namespace Piece

/-! ### Scanning over a lexeme -/

/-- The longest lexeme at the start of a text is scanned as a token in front of the rest. -/
theorem scanFrom_longest {w rest : Bytes} {r : Lexicon.Rule} {k : Token.Kind} (hw : w ≠ [])
    (h : Lexicon.longest? (w ++ rest) = some (w.length, r)) (hk : r.kind? = some k) (pos : Nat) :
    scanFrom pos 0 (w ++ rest) = ⟨.token k, pos, w⟩ :: scanFrom (pos + w.length) 0 rest := by
  obtain ⟨b, t, rfl⟩ := List.exists_cons_of_ne_nil hw
  have hfirst : first pos b (t ++ rest) = ⟨.token k, pos, b :: t⟩ := by
    unfold first
    rw [List.cons_append] at h
    simp only [h, hk]
    rw [← List.cons_append, List.take_left]
  rw [List.cons_append, scanFrom, hfirst]
  simp only [List.length_cons, Nat.add_sub_cancel]
  rw [scanFrom_drop, List.drop_left]
  congr 2
  omega

/-- White space at the start of a text is scanned as a gap. -/
theorem scanFrom_space {b : UInt8} (hb : Bytes.isSpace b = true) (pos : Nat) (rest : Bytes) :
    scanFrom pos 0 (b :: rest) = ⟨.gap, pos, b :: rest.takeWhile Bytes.isSpace⟩
      :: scanFrom (pos + 1) (Pattern.run Bytes.isSpace rest) rest := by
  obtain ⟨r, hlong, hk⟩ := Lexicon.longest?_space hb rest
  have hfirst : first pos b rest = ⟨.gap, pos, b :: rest.takeWhile Bytes.isSpace⟩ := by
    unfold first
    simp only [hlong, hk]
    rw [Nat.add_comm, List.take_succ_cons]
    congr 2
    exact (List.prefix_iff_eq_take.mp (List.takeWhile_prefix _)).symm
  rw [scanFrom, hfirst]
  rfl

end Piece

namespace Program

/-! ### Parsing over a lexeme -/

/-- White space changes nothing, whether it is skipped with that in front of it or by itself. -/
theorem parseFrom_run (text : Bytes) (opens : List Open) (done : List Symbol) (pos : Nat)
    (rest : Bytes) :
    parseFrom text opens done (Piece.scanFrom pos (Pattern.run Bytes.isSpace rest) rest)
      = parseFrom text opens done (Piece.scanFrom pos 0 rest) := by
  cases rest with
  | nil => rfl
  | cons b rest =>
    -- If more white space follows, it is a gap of its own, which is skipped too.
    by_cases hb : Bytes.isSpace b = true
    · have hrun : Pattern.run Bytes.isSpace (b :: rest) = Pattern.run Bytes.isSpace rest + 1 := by
        unfold Pattern.run
        rw [List.takeWhile_cons_of_pos hb, List.length_cons]
      rw [Piece.scanFrom_space hb, hrun, Piece.scanFrom, parseFrom]
    · have hrun : Pattern.run Bytes.isSpace (b :: rest) = 0 := by
        simp [Pattern.run, hb]
      rw [hrun]

/-- The parser passes over a blank. -/
theorem parseFrom_blank (text : Bytes) (opens : List Open) (done : List Symbol) (pos : Nat)
    (rest : Bytes) :
    parseFrom text opens done (Piece.scanFrom pos 0 (ascii ' ' :: rest))
      = parseFrom text opens done (Piece.scanFrom (pos + 1) 0 rest) := by
  rw [Piece.scanFrom_space (by decide), parseFrom]
  exact parseFrom_run text opens done (pos + 1) rest

/-- The parser adds the symbol of a token other than a bracket. -/
theorem parseFrom_token {text : Bytes} {opens : List Open} {done : List Symbol} {k : Token.Kind}
    (hk : ∀ b, k ≠ .bracket b) {pos : Nat} {w : Bytes} {s : Symbol}
    (hs : Symbol.ofToken ⟨k, w, ⟨pos, pos + w.length⟩⟩ = .ok s) (rest : List Piece) :
    parseFrom text opens done (⟨.token k, pos, w⟩ :: rest)
      = parseFrom text opens (s :: done) rest := by
  rw [parseFrom]
  have hspan : (Piece.mk (.token k) pos w).span = ⟨pos, pos + w.length⟩ := rfl
  cases k with
  | bracket b => exact absurd rfl (hk b)
  | _ => simp only [hspan, hs]

theorem bracket_text_ne_nil (b : Bracket) : b.text ≠ [] := by
  cases b <;> decide

/-- A closing bracket opens nothing. -/
theorem closer?_closer {b c : Bracket} (h : b.closer? = some c) : c.closer? = none := by
  cases b <;> cases c <;> first | rfl | exact absurd h (by decide)

/-- The parser opens a group at an opening bracket. -/
theorem parseFrom_open {text : Bytes} {opens : List Open} {done : List Symbol} {b c : Bracket}
    (hbc : b.closer? = some c) {pos : Nat} {w : Bytes} {rest : List Piece} :
    parseFrom text opens done (⟨.token (.bracket b), pos, w⟩ :: rest)
      = parseFrom text (⟨b, ⟨pos, pos + w.length⟩, done⟩ :: opens) [] rest := by
  rw [parseFrom]
  simp only [hbc]
  rfl

/-- The parser closes the innermost group at its closing bracket. -/
theorem parseFrom_close {text : Bytes} {o : Open} {outer : List Open} {done : List Symbol}
    {c : Bracket} (hc : o.bracket.closer? = some c) {p : Piece} (hp : p.role = .token (.bracket c))
    {rest : List Piece} :
    parseFrom text (o :: outer) done (p :: rest) = parseFrom text outer
      (Symbol.ofGroup o.bracket done.reverse (o.span.cover p.span) :: o.before) rest := by
  rw [parseFrom]
  simp only [hp, closer?_closer hc, hc, beq_self_eq_true, if_true]

/-! ### Reading texts that are put together -/

/-- In front of a given text, a text is read as some symbols, up to their positions. -/
def ReadsBefore (rest w : Bytes) (ss : List Symbol) : Prop :=
  ∀ text opens done pos, ∃ ss', Symbol.unspannedAll ss' = Symbol.unspannedAll ss ∧
    parseFrom text opens done (Piece.scanFrom pos 0 (w ++ rest))
      = parseFrom text opens (ss'.reverse ++ done) (Piece.scanFrom (pos + w.length) 0 rest)

/-- In front of any delimited text, a text is read as some symbols. -/
def Reads (w : Bytes) (ss : List Symbol) : Prop := ∀ rest, Delimited rest → ReadsBefore rest w ss

variable {rest : Bytes}

theorem readsBefore_nil (rest : Bytes) : ReadsBefore rest [] [] := by
  intro text opens done pos
  exact ⟨[], rfl, rfl⟩

/-- Texts one behind the other are read as the symbols of both. -/
theorem readsBefore_append {w u : Bytes} {ss ts : List Symbol} (hw : ReadsBefore (u ++ rest) w ss)
    (hu : ReadsBefore rest u ts) : ReadsBefore rest (w ++ u) (ss ++ ts) := by
  intro text opens done pos
  obtain ⟨ss', hss, hfirst⟩ := hw text opens done pos
  obtain ⟨ts', hts, hsecond⟩ := hu text opens (ss'.reverse ++ done) (pos + w.length)
  refine ⟨ss' ++ ts', ?_, ?_⟩
  · simp only [Symbol.unspannedAll_eq, List.map_append] at hss hts ⊢
    rw [hss, hts]
  · rw [List.append_assoc, hfirst, hsecond, List.reverse_append, List.append_assoc,
      List.length_append, Nat.add_assoc]

/-- A blank in front changes nothing. -/
theorem readsBefore_blank {w : Bytes} {ss : List Symbol} (h : ReadsBefore rest w ss) :
    ReadsBefore rest (ascii ' ' :: w) ss := by
  intro text opens done pos
  obtain ⟨ss', hss, hparse⟩ := h text opens done (pos + 1)
  refine ⟨ss', hss, ?_⟩
  rw [List.cons_append, parseFrom_blank, hparse, List.length_cons]
  congr 2
  omega

/-- A group without positions does not depend on where its brackets stand. -/
theorem unspanned_ofGroup (b : Bracket) {body body' : Program} (span : Span)
    (h : Symbol.unspannedAll body' = Symbol.unspannedAll body) :
    (Symbol.ofGroup b body' span).unspanned = (Symbol.ofGroup b body .none).unspanned := by
  cases b <;> simp [Symbol.ofGroup, Symbol.unspanned, Value.unspanned, h]

/-- Symbols between brackets are read as a group. -/
theorem readsBefore_group {b c : Bracket} (hbc : b.closer? = some c) {w : Bytes} {body : Program}
    (h : ReadsBefore (c.text ++ rest) w body) :
    ReadsBefore rest (b.text ++ w ++ c.text) [Symbol.ofGroup b body .none] := by
  intro text opens done pos
  obtain ⟨rb, hlongb, hkb⟩ := Lexicon.longest?_bracket b (w ++ (c.text ++ rest))
  obtain ⟨rc, hlongc, hkc⟩ := Lexicon.longest?_bracket c rest
  obtain ⟨body', hbody, hinner⟩ := h text (⟨b, ⟨pos, pos + b.text.length⟩, done⟩ :: opens) []
    (pos + b.text.length)
  -- The opening bracket, then the body, then the closing bracket.
  refine ⟨[Symbol.ofGroup b body' (Span.cover ⟨pos, pos + b.text.length⟩
    (Piece.mk (.token (.bracket c)) (pos + b.text.length + w.length) c.text).span)], ?_, ?_⟩
  · simp only [Symbol.unspannedAll, unspanned_ofGroup b _ hbody]
  · rw [List.append_assoc, List.append_assoc, Piece.scanFrom_longest (bracket_text_ne_nil b) hlongb hkb,
      parseFrom_open hbc, hinner, Piece.scanFrom_longest (bracket_text_ne_nil c) hlongc hkc,
      parseFrom_close hbc rfl]
    simp only [List.append_nil, List.reverse_reverse, List.length_append]
    rw [← Nat.add_assoc, ← Nat.add_assoc]
    rfl

/-- A lexeme in front of a delimited text is read as its symbol. -/
theorem reads_lexeme {k : Token.Kind} {w : Bytes} {s : Symbol} (h : Lexicon.IsLexeme k w)
    (hk : ∀ b, k ≠ .bracket b)
    (hs : ∀ span, ∃ s', Symbol.ofToken ⟨k, w, span⟩ = .ok s' ∧ s'.unspanned = s.unspanned) :
    Reads w [s] := by
  intro rest hrest text opens done pos
  obtain ⟨r, hlong, hkind⟩ := h.2 rest hrest
  -- The token is made where the text stands; the symbol differs in its position.
  obtain ⟨s', hok, hspan⟩ := hs ⟨pos, pos + w.length⟩
  refine ⟨[s'], by simp [Symbol.unspannedAll, hspan], ?_⟩
  rw [Piece.scanFrom_longest h.1 hlong hkind, parseFrom_token hk hok]
  rfl

/-! ### Literals, names and operators -/

/-- A signed integer is written as a sign and digits of its value. -/
theorem exists_signed (n : Int) : ∃ (s : Numeral.Sign) (ds : Digits),
    Bytes.signed n = s.text ++ ds.bytes ∧ s.apply (Bytes.digitsValue ds.bytes) = n := by
  by_cases h : n < 0
  · refine ⟨.minus, Digits.ofNat n.natAbs, ?_, ?_⟩
    · rw [Bytes.signed, if_pos h]
      rfl
    · show -(Bytes.digitsValue (Bytes.decimal n.natAbs) : Int) = n
      rw [Bytes.digitsValue_decimal]
      omega
  · refine ⟨.implicit, Digits.ofNat n.natAbs, ?_, ?_⟩
    · rw [Bytes.signed, if_neg h]
      rfl
    · show (Bytes.digitsValue (Bytes.decimal n.natAbs) : Int) = n
      rw [Bytes.digitsValue_decimal]
      omega

/-- A 64-bit word is read from its digits. -/
theorem word?_signed (n : Int64) : Symbol.word? (Bytes.signed n.toInt) = some n := by
  obtain ⟨s, ds, htext, hvalue⟩ := exists_signed n.toInt
  have hinteger : Decimal.integer? (Bytes.signed n.toInt) = some n.toInt := by
    rw [htext, Numeral.integer?_text, hvalue]
  unfold Symbol.word?
  simp only [hinteger]
  rw [if_pos ⟨n.minValue_le_toInt, n.toInt_le⟩, Int64.ofInt_toInt]

/-- A truth value is read from its word. -/
theorem reads_bool (b : Bool) (span : Span) :
    Reads (if b then utf8 "true" else utf8 "false") [.literal (.bool b) span] := by
  cases b with
  | true =>
    refine reads_lexeme (k := .keyword) (Lexicon.isLexeme_keyword (by decide)) (by simp) ?_
    intro place
    exact ⟨.literal (.bool true) place, rfl, rfl⟩
  | false =>
    refine reads_lexeme (k := .keyword) (Lexicon.isLexeme_keyword (by decide)) (by simp) ?_
    intro place
    exact ⟨.literal (.bool false) place, rfl, rfl⟩

/-- An integer is read from its decimal. -/
theorem reads_int (n : Int64) (span : Span) :
    Reads (Bytes.signed n.toInt) [.literal (.int n) span] := by
  obtain ⟨s, ds, htext, -⟩ := exists_signed n.toInt
  have hlexeme : Lexicon.IsLexeme .integer (Bytes.signed n.toInt) := by
    rw [htext]
    exact Lexicon.isLexeme_integer s ds
  refine reads_lexeme hlexeme (by simp) ?_
  intro place
  refine ⟨.literal (.int n) place, ?_, rfl⟩
  simp only [Symbol.ofToken, word?_signed]

/-- A float other than NaN is read from its numeral. -/
theorem reads_float {x : Float} (hx : x.isNaN = false) (span : Span) :
    Reads (Layout.inspection.text x) [.literal (.float x) span] := by
  obtain ⟨n, htext, hfloat, hvalue⟩ := Layout.exists_numeral hx
  have hlexeme : Lexicon.IsLexeme .float (Layout.inspection.text x) := by
    rw [← htext]
    exact Lexicon.isLexeme_float hfloat
  refine reads_lexeme hlexeme (by simp) ?_
  intro place
  refine ⟨.literal (.float x) place, ?_, rfl⟩
  simp only [Symbol.ofToken, ← htext, Numeral.read?_text, hvalue]

/-- A string is read from its quoted form. -/
theorem reads_str (s : Bytes) (span : Span) :
    Reads (Quoted.encode s) [.literal (.str s) span] := by
  refine reads_lexeme (Lexicon.isLexeme_string s) (by simp) ?_
  intro place
  refine ⟨.literal (.str s) place, ?_, rfl⟩
  have hinner : Symbol.inner (Quoted.encode s) = (Utf8.glyphs s).flatMap Quoted.encodeGlyph := by
    simp [Symbol.inner, Quoted.encode]
  simp only [Symbol.ofToken, hinner, Quoted.decode?_flatMap]

/-- A name is read from itself. -/
theorem reads_name {s : Bytes} (hs : Lexicon.isName s = true) (span : Span) :
    Reads s [.name s span] := by
  simp only [Lexicon.isName, Bool.and_eq_true, Bool.not_eq_true', List.contains_eq_mem,
    decide_eq_false_iff_not] at hs
  refine reads_lexeme (Lexicon.isLexeme_name hs.1 hs.2) (by simp) ?_
  intro place
  exact ⟨.name s place, rfl, rfl⟩

/-- An operator is read from itself. -/
theorem reads_operator {s : Bytes} (hs : Lexicon.isOperator s = true) (span : Span) :
    Reads s [.operator s span] := by
  simp only [Lexicon.isOperator, Bool.or_eq_true, List.contains_eq_mem, decide_eq_true_eq] at hs
  rcases hs with hs | hs
  · refine reads_lexeme (Lexicon.isLexeme_operator hs) (by simp) ?_
    intro place
    exact ⟨.operator s place, rfl, rfl⟩
  · -- A keyword makes an operator unless it is a truth value.
    have hkey : s ∈ Lexicon.keywords ∧ s ≠ utf8 "true" ∧ s ≠ utf8 "false" := by
      revert s
      decide
    refine reads_lexeme (Lexicon.isLexeme_keyword hkey.1) (by simp) ?_
    intro place
    refine ⟨.operator s place, ?_, rfl⟩
    simp [Symbol.ofToken, hkey.2.1, hkey.2.2]

/-! ### Whole programs -/

/-- Positions do not matter to what a text is read as. -/
theorem Reads.congr {w : Bytes} {ss ts : List Symbol} (h : Reads w ss)
    (hst : Symbol.unspannedAll ss = Symbol.unspannedAll ts) : Reads w ts := by
  intro rest hrest text opens done pos
  obtain ⟨ss', hss, hparse⟩ := h rest hrest text opens done pos
  exact ⟨ss', hss.trans hst, hparse⟩

/-- Lexemes are delimited by a blank. -/
theorem delimited_blank (rest : Bytes) : Delimited (ascii ' ' :: rest) := by
  intro b hb
  obtain rfl : ascii ' ' = b := Option.some.inj hb
  decide

/-- Two texts with a blank between them, and the rest behind. -/
theorem spaced_cons (t u : Bytes) (us : List Bytes) :
    Bytes.spaced (t :: u :: us) = t ++ ascii ' ' :: Bytes.spaced (u :: us) := by
  simp [Bytes.spaced, Bytes.joined, List.intercalate, List.intersperse]

/-- Symbols with a blank between them are read one by one. -/
theorem reads_cons {t u : Bytes} {s : Symbol} {ss : List Symbol} (ht : Reads t [s])
    (hu : Reads u ss) : Reads (t ++ ascii ' ' :: u) (s :: ss) := by
  intro rest hrest
  exact readsBefore_append (ht _ (delimited_blank _)) (readsBefore_blank (hu rest hrest))

/-- Symbols between the brackets of a list or a tuple are read as that. -/
theorem reads_group {b c : Bracket} (hbc : b.closer? = some c)
    (hc : ∀ rest, Delimited (c.text ++ rest)) {w : Bytes} {body : Program} (h : Reads w body) :
    Reads (b.text ++ w ++ c.text) [Symbol.ofGroup b body .none] := by
  intro rest _
  exact readsBefore_group hbc (h _ (hc rest))

/-- A list is read from its symbols between brackets. -/
theorem reads_list {w : Bytes} {body : Program} (h : Reads w body) (span : Span) :
    Reads (Bytes.between (utf8 "[") (utf8 "]") w) [.group .list body span] := by
  have hdelimited : ∀ rest, Delimited (Bracket.closeList.text ++ rest) := by
    intro rest b hb
    obtain rfl : ascii ']' = b := Option.some.inj hb
    decide
  exact (reads_group (b := .openList) rfl hdelimited h).congr rfl

theorem reads_tuple {w : Bytes} {body : Program} (h : Reads w body) (span : Span) :
    Reads (Bytes.between (utf8 "(") (utf8 ")") w) [.group .tuple body span] := by
  have hdelimited : ∀ rest, Delimited (Bracket.closeTuple.text ++ rest) := by
    intro rest b hb
    obtain rfl : ascii ')' = b := Option.some.inj hb
    decide
  exact (reads_group (b := .openTuple) rfl hdelimited h).congr rfl

/-- The empty block is read from its braces. -/
theorem reads_emptyBlock (span : Span) : Reads (utf8 "\x7b\x7d") [.literal (.block []) span] := by
  have hgroup : Reads (Bracket.openBlock.text ++ [] ++ Bracket.closeBlock.text)
      [Symbol.ofGroup .openBlock [] .none] := by
    intro rest _
    exact readsBefore_group rfl (readsBefore_nil _)
  have htext : utf8 "\x7b\x7d" = Bracket.openBlock.text ++ [] ++ Bracket.closeBlock.text := by
    decide
  rw [htext]
  exact hgroup.congr rfl

/-- Symbols between braces are read as a block: blanks keep the braces away from them. -/
theorem reads_block {w : Bytes} {body : Program} (h : Reads w body) (span : Span) :
    Reads (Bytes.between (utf8 "\x7b ") (utf8 " \x7d") w) [.literal (.block body) span] := by
  -- A brace is no delimiter, so the last symbol ends at the blank in front of it.
  have hinner : ∀ rest, ReadsBefore (Bracket.closeBlock.text ++ rest)
      (ascii ' ' :: (w ++ [ascii ' '])) (body ++ []) := by
    intro rest
    exact readsBefore_blank (readsBefore_append (h _ (delimited_blank _))
      (readsBefore_blank (readsBefore_nil _)))
  have hgroup : Reads (Bracket.openBlock.text ++ ascii ' ' :: (w ++ [ascii ' '])
      ++ Bracket.closeBlock.text) [Symbol.ofGroup .openBlock (body ++ []) .none] := by
    intro rest _
    exact readsBefore_group rfl (hinner rest)
  have htext : Bytes.between (utf8 "\x7b ") (utf8 " \x7d") w
      = Bracket.openBlock.text ++ ascii ' ' :: (w ++ [ascii ' ']) ++ Bracket.closeBlock.text := by
    have hopen : utf8 "\x7b " = Bracket.openBlock.text ++ [ascii ' '] := by decide
    have hclose : utf8 " \x7d" = ascii ' ' :: Bracket.closeBlock.text := by decide
    rw [Bytes.between, hopen, hclose]
    simp
  rw [htext]
  rw [List.append_nil] at hgroup
  exact hgroup.congr rfl

end Program

mutual

/-- The text of a well-formed value is read as a literal of that value. -/
theorem Value.reads_text : ∀ (v : Value) (span : Span), v.isWellFormed = true →
    Program.Reads v.text [.literal v span]
  | .bool b, span, _ => by
    rw [Value.text]
    exact Program.reads_bool b span
  | .int n, span, _ => by
    rw [Value.text]
    exact Program.reads_int n span
  | .float x, span, h => by
    rw [Value.text]
    exact Program.reads_float ((Bool.not_eq_true' _).mp h) span
  | .str s, span, _ => by
    rw [Value.text]
    exact Program.reads_str s span
  | .list _ _, _, h => by simp [Value.isWellFormed] at h
  | .tuple _, _, h => by simp [Value.isWellFormed] at h
  | .block [], span, _ => by
    rw [Value.text]
    exact Program.reads_emptyBlock span
  | .block (s :: ss), span, h => by
    rw [Value.text]
    · exact Program.reads_block (Symbol.reads_texts (s :: ss) h) span
    · simp

/-- The text of a well-formed symbol is read as that symbol. -/
theorem Symbol.reads_text : ∀ s : Symbol, s.isWellFormed = true → Program.Reads s.text [s]
  | .literal v span, h => by
    rw [Symbol.text]
    exact Value.reads_text v span h
  | .name s span, h => by
    rw [Symbol.text]
    exact Program.reads_name h span
  | .operator s span, h => by
    rw [Symbol.text]
    exact Program.reads_operator h span
  | .group .list body span, h => by
    rw [Symbol.text]
    · exact Program.reads_list (Symbol.reads_texts body h) span
    · simp
  | .group .tuple body span, h => by
    rw [Symbol.text]
    exact Program.reads_tuple (Symbol.reads_texts body h) span
  | .group .unspecified _ _, h => by simp [Symbol.isWellFormed] at h
  | .blank _, h => by simp [Symbol.isWellFormed] at h

/-- The texts of well-formed symbols, with blanks between them, are read as these symbols. -/
theorem Symbol.reads_texts : ∀ ss : List Symbol, Symbol.areWellFormed ss = true →
    Program.Reads (Bytes.spaced (Symbol.texts ss)) ss
  | [], _ => by
    intro rest _
    exact Program.readsBefore_nil rest
  | [s], h => by
    rw [Symbol.areWellFormed, Bool.and_eq_true] at h
    have hone : Bytes.spaced (Symbol.texts [s]) = s.text := by
      simp [Symbol.texts, Bytes.spaced, Bytes.joined]
    rw [hone]
    exact Symbol.reads_text s h.1
  | s :: t :: ss, h => by
    rw [Symbol.areWellFormed, Bool.and_eq_true] at h
    rw [Symbol.texts, Symbol.texts, Program.spaced_cons, ← Symbol.texts]
    exact Program.reads_cons (Symbol.reads_text s h.1) (Symbol.reads_texts (t :: ss) h.2)

end

namespace Program

/-- The text of a well-formed program is parsed as that program, up to positions. -/
theorem parse_unspanned {program : Program} (h : Symbol.areWellFormed program = true) :
    ∃ again, parse program.text = .ok again ∧
      Symbol.unspannedAll again = Symbol.unspannedAll program := by
  have hempty : Delimited [] := by
    intro b hb
    exact absurd hb (by simp)
  obtain ⟨again, hsame, hparse⟩ := Symbol.reads_texts program h [] hempty program.text [] [] 0
  refine ⟨again, ?_, hsame⟩
  rw [List.append_nil] at hparse
  unfold parse Piece.scan
  rw [show Program.text program = Bytes.spaced (Symbol.texts program) from rfl] at hparse ⊢
  rw [hparse]
  simp [Piece.scanFrom, parseFrom]

/-- Parsing undoes formatting.  The text of any well-formed program is parsed as an equal one;
    and as every program that is parsed from a text is well-formed, parsing, formatting and
    parsing again changes nothing but positions. -/
theorem parse_text :
    (∀ program : Program, Symbol.areWellFormed program = true →
      ∃ again, parse program.text = .ok again ∧ Symbol.equalsAll program again = true) ∧
    ∀ (input : Bytes) (program : Program), parse input = .ok program →
      Symbol.areWellFormed program = true ∧
        ∃ again, parse program.text = .ok again ∧
          Symbol.unspannedAll again = Symbol.unspannedAll program := by
  constructor
  · intro program h
    obtain ⟨again, hparse, hsame⟩ := parse_unspanned h
    exact ⟨again, hparse, Symbol.equalsAll_of_unspanned program again h hsame.symm⟩
  · intro input program h
    have hwell := parse_wellFormed h
    exact ⟨hwell, parse_unspanned hwell⟩

/-- A list with a negative number in it, a comparison and a block. -/
def sample : Program :=
  [.group .list [.literal (.int (-1)) ⟨1, 3⟩, .literal (.float 2.5) ⟨4, 7⟩] ⟨0, 8⟩,
    .operator (utf8 "~=") ⟨8, 10⟩, .literal (.block [.name (utf8 "x") ⟨12, 13⟩]) ⟨11, 14⟩]

/-- The sample is well-formed and is parsed from a text, so both parts apply to it. -/
theorem parse_text_sample :
    (∃ again, parse sample.text = .ok again ∧ Symbol.equalsAll sample again = true) ∧
    Symbol.areWellFormed sample = true ∧
      ∃ again, parse sample.text = .ok again ∧
        Symbol.unspannedAll again = Symbol.unspannedAll sample :=
  ⟨parse_text.1 sample (by decide), parse_text.2 (utf8 "[-1 2.5]~= \x7bx\x7d") sample rfl⟩

end Program

end StackLang
