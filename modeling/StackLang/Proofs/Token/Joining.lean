import StackLang.Proofs.Program.RoundTrip

namespace StackLang

/-!
# Texts joined by a newline

No lexeme but a string goes over the end of a line, and a string that is closed is not continued.
So a newline behind a text leaves the pieces of the text as they are, but for white space at its
end.

* `Pattern.language_le_many` — the bytes of the shapes other than gaps and strings;
* `Pattern.language_le_line`, `Pattern.extendsBy_string`, `Pattern.extendsBy_rawString` — the
  shapes that stay on their line, and those that end with their closing quote;
* `Lexicon.Selects.append` — the rule that takes the start of a text also takes it in front of what
  does not continue the text; `Lexicon.Selects.newline` — in front of a newline;
* `Piece.solid` — the pieces that are no gaps;
* `Scanner.Run.solid_newline` — steps over a text and over what follows the newline behind it;
* `Piece.solid_scan_newline`, `Token.scan_newline` — the pieces and the tokens of two texts that a
  newline joins;
* `Piece.clean_of_newline` — what follows the newline closes no quote of the text, if it has none.
-/

open Bytes (ascii isDigit isSpace)
open scoped Computability

/-! ### Shapes at the end of a line -/

namespace Pattern

/-- The texts without a newline. -/
def line : Language UInt8 := (one (· != ascii '\n'))∗

variable {A B : Language UInt8} {p q : UInt8 → Bool}

/-- Texts of a class of bytes put together are of this class. -/
theorem mul_le_many (hA : A ≤ (one q)∗) (hB : B ≤ (one q)∗) : A * B ≤ (one q)∗ :=
  (mul_le_mul' hA hB).trans (kstar_mul_kstar _).le

/-- No text, or one of a class of bytes, is of this class. -/
theorem optional_le_many (hA : A ≤ (one q)∗) : 1 + A ≤ (one q)∗ :=
  sup_le one_le_kstar hA

/-- Texts of a smaller class of bytes are of a greater one. -/
theorem many_le_many (h : ∀ b, p b = true → q b = true) : (one p)∗ ≤ (one q)∗ := by
  apply kstar_mono
  rintro w ⟨b, hb, rfl⟩
  exact ⟨b, h b hb, rfl⟩

/-- A byte of a smaller class is a text of a greater one. -/
theorem one_le_many (h : ∀ b, p b = true → q b = true) : one p ≤ (one q)∗ :=
  le_kstar.trans (many_le_many h)

/-- Bytes, at least one, of a smaller class are a text of a greater one. -/
theorem some_le_many (h : ∀ b, p b = true → q b = true) : one p * (one p)∗ ≤ (one q)∗ :=
  mul_le_many (one_le_many h) (many_le_many h)

/-- A byte of names and numerals. -/
def isWordByte (b : UInt8) : Bool := isIdentPart b || isSign b || b == ascii '.'

/-- Digits are bytes of names and numerals. -/
theorem isWordByte_of_digit {b : UInt8} (h : isDigit b = true) : isWordByte b = true := by
  simp [isWordByte, isIdentPart, h]

/-- The letters in front of a power of ten are bytes of names and numerals. -/
theorem isWordByte_of_powerMark {b : UInt8} (h : isPowerMark b = true) : isWordByte b = true := by
  simp only [isPowerMark, Bool.or_eq_true, beq_iff_eq] at h
  rcases h with rfl | rfl <;> decide

/-- Signed digits consist of bytes of names and numerals. -/
theorem signedDigits_le_many (hq : ∀ b, isWordByte b = true → q b = true) :
    signedDigits ≤ (one q)∗ := by
  refine mul_le_many (optional_le_many (one_le_many fun b hb => hq b ?_))
    (some_le_many fun b hb => hq b (isWordByte_of_digit hb))
  simp [isWordByte, hb]

theorem power_le_many (hq : ∀ b, isWordByte b = true → q b = true) : power ≤ (one q)∗ :=
  mul_le_many (one_le_many fun b hb => hq b (isWordByte_of_powerMark hb)) (signedDigits_le_many hq)

theorem fraction_le_many (hq : ∀ b, isWordByte b = true → q b = true) : fraction ≤ (one q)∗ := by
  refine mul_le_many (one_le_many fun b hb => hq b ?_)
    (some_le_many fun b hb => hq b (isWordByte_of_digit hb))
  simp [isWordByte, hb]

/-- All shapes but those of gaps and strings have the bytes of names and numerals, or are fixed
    texts. -/
theorem language_le_many {s : Pattern} (hq : ∀ b, isWordByte b = true → q b = true)
    (hexact : ∀ t, s = .exact t → ∀ b ∈ t, q b = true) (hcomment : s ≠ .comment)
    (hstring : s ≠ .string) (hraw : s ≠ .rawString) (hspace : s ≠ .space) :
    s.language ≤ (one q)∗ := by
  cases s with
  | exact t =>
    intro w hw
    obtain rfl : w = t := hw
    exact mem_many.mpr (hexact w rfl)
  | comment => exact absurd rfl hcomment
  | string => exact absurd rfl hstring
  | rawString => exact absurd rfl hraw
  | identifier =>
    exact mul_le_many (one_le_many fun b hb => hq b (by simp [isWordByte, isIdentPart, hb]))
      (many_le_many fun b hb => hq b (by simp [isWordByte, hb]))
  | decimal =>
    exact mul_le_many (mul_le_many (signedDigits_le_many hq) (fraction_le_many hq))
      (optional_le_many (power_le_many hq))
  | scientific => exact mul_le_many (signedDigits_le_many hq) (power_le_many hq)
  | integer => exact signedDigits_le_many hq
  | space => exact absurd rfl hspace

/-- Only strings and white space go over the end of a line. -/
theorem language_le_line {s : Pattern} (hexact : ∀ t, s = .exact t → t ∈ line)
    (hstring : s ≠ .string) (hraw : s ≠ .rawString) (hspace : s ≠ .space) : s.language ≤ line := by
  have hnewline : ∀ {p : UInt8 → Bool}, p (ascii '\n') = false →
      ∀ b, p b = true → (b != ascii '\n') = true := by
    intro p hp b hb
    rw [bne_iff_ne]
    rintro rfl
    exact absurd hb (by simp [hp])
  by_cases hcomment : s = .comment
  · rw [hcomment]
    exact mul_le_many (one_le_many (hnewline (by decide)))
      (mul_le_many (one_le_many (hnewline (by decide))) (many_le_many fun b hb => hb))
  · exact language_le_many (hnewline (by decide)) (fun t ht => mem_many.mp (hexact t ht)) hcomment
      hstring hraw hspace

/-- Nothing follows the quote that closes a string. -/
theorem extendsBy_stringRest : ExtendsBy (fun _ => false) stringRest := by
  intro w
  -- A backslash takes a byte with it, so that the induction is on the length.
  induction hlen : w.length using Nat.strong_induction_on generalizing w with
  | _ n ih =>
    intro hw b v hlong
    cases w with
    | nil => exact absurd hw nil_notMem_stringRest
    | cons c w =>
      rw [List.cons_append, cons_mem_stringRest] at hlong
      rw [cons_mem_stringRest] at hw
      split_ifs at hw hlong with hquote hescape
      · obtain rfl := (Language.mem_one _).mp hw
        simp at hlong
      · obtain ⟨d, w, rfl, -, hw⟩ := mem_one_mul.mp hw
        obtain ⟨e, u, hword, -, hu⟩ := mem_one_mul.mp hlong
        obtain ⟨rfl, rfl⟩ := List.cons.inj hword
        exact ih w.length (by simp only [List.length_cons] at hlen; omega) w rfl hw b v hu
      · exact ih w.length (by simp only [List.length_cons] at hlen; omega) w rfl hw b v hlong

/-- No string is continued behind its closing quote. -/
theorem extendsBy_string : ExtendsBy (fun _ => false) string.language :=
  extendsBy_one.mul extendsBy_stringRest nil_notMem_stringRest (fun _ _ _ => rfl)

/-- No raw string is continued behind its closing quote. -/
theorem extendsBy_rawString : ExtendsBy (fun _ => false) rawString.language := by
  have hnil : [] ∉ one (· == ascii '\'') := by
    rintro ⟨b, -, h⟩
    simp at h
  have hstart : StartsOutside (· != ascii '\'') (one (· == ascii '\'')) := by
    rintro b v ⟨c, hc, hword⟩
    obtain ⟨rfl, -⟩ := List.cons.inj hword
    simpa using hc
  exact extendsBy_one.mul (extendsBy_many.mul extendsBy_one hnil hstart) (nil_notMem_mul hnil)
    (fun _ _ _ => rfl)

end Pattern

/-! ### Selection in front of a newline -/

namespace Lexicon

variable {text rest : Bytes} {n : Nat} {q r : Rule}

/-- A single quote begins raw strings only. -/
theorem candidates_rawQuote : candidates .rawQuote = [⟨.rawString, some .rawString⟩] := by
  decide

/-- No fixed text has a newline. -/
theorem exact_mem_line (hr : r ∈ rules) (t : Bytes) (ht : r.pattern = .exact t) :
    t ∈ Pattern.line := by
  have hall : ∀ r ∈ rules,
      (match r.pattern with | .exact t => t.all (· != ascii '\n') | _ => true) = true := by
    decide
  have h := hall r hr
  rw [ht] at h
  exact mem_many.mpr (List.all_eq_true.mp h)

/-- What a rule takes begins like the lexemes of the rule. -/
theorem Selects.mem_candidates {b : UInt8} {l : Lead} (h : Selects (b :: text) n r)
    (hl : lead b = l) : r ∈ candidates l := by
  obtain ⟨k, hk, -⟩ := length?_of_mem h.mem (List.take_prefix n _)
  exact Lexicon.mem_candidates h.mem_rules hl hk

/-- A text that a rule takes a start of is not itself the start of a longer string: the string is
    closed in the text, and is not continued behind it. -/
theorem Selects.not_over_string (h : Selects text n r)
    (hq : q.pattern = .string ∨ q.pattern = .rawString) {v : Bytes} (hv : v ≠ []) :
    text ++ v ∉ q.pattern.language := by
  intro hword
  obtain ⟨b, text, rfl⟩ : ∃ b t, text = b :: t := by
    apply List.exists_cons_of_length_pos
    exact Nat.lt_of_lt_of_le h.pos h.le
  obtain ⟨k, hk, -⟩ := length?_of_mem hword (List.prefix_refl _)
  have hlead := Pattern.leads_of_length? hk
  -- What the rule takes is a string of the same kind, so that the longer one goes on behind its end.
  have hclosed : ∀ p : Pattern, ExtendsBy (fun _ => false) p.language → r.pattern = p →
      b :: text ++ v ∉ p.language := by
    rintro p hp rfl hlong
    have htake : (b :: text) = (b :: text).take n ++ (b :: text).drop n :=
      (List.take_append_drop n _).symm
    rw [htake, List.append_assoc] at hlong
    obtain ⟨c, u, hrest⟩ := List.exists_cons_of_ne_nil (List.append_ne_nil_of_right_ne_nil _ hv)
    rw [hrest] at hlong
    exact Bool.false_ne_true (hp _ h.mem _ _ hlong)
  rcases hq with hq | hq
  · rw [hq] at hlead hword
    have hr := h.mem_candidates (beq_iff_eq.mp hlead)
    rw [candidates_quote, List.mem_singleton] at hr
    exact hclosed .string Pattern.extendsBy_string (by rw [hr]) hword
  · rw [hq] at hlead hword
    have hr := h.mem_candidates (beq_iff_eq.mp hlead)
    rw [candidates_rawQuote, List.mem_singleton] at hr
    exact hclosed .rawString Pattern.extendsBy_rawString (by rw [hr]) hword

/-- A text that a rule takes a start of is not itself the start of a longer lexeme with a newline
    behind the text, unless all of it is white space. -/
theorem Selects.not_over (h : Selects text n r) (hgap : r.pattern = .space → n < text.length)
    (hq : q ∈ rules) {v : Bytes} : text ++ ascii '\n' :: v ∉ q.pattern.language := by
  by_cases hstring : q.pattern = .string ∨ q.pattern = .rawString
  · exact h.not_over_string hstring (List.cons_ne_nil _ _)
  obtain ⟨hstring, hraw⟩ := not_or.mp hstring
  intro hword
  by_cases hspace : q.pattern = .space
  · -- All of the text is white space, which the rule takes.
    obtain ⟨b, text, rfl⟩ : ∃ b t, text = b :: t := by
      apply List.exists_cons_of_length_pos
      exact Nat.lt_of_lt_of_le h.pos h.le
    obtain ⟨k, hk, -⟩ := length?_of_mem hword (List.prefix_refl _)
    have hlead := Pattern.leads_of_length? hk
    rw [hspace] at hlead hword
    have hr := h.mem_candidates (beq_iff_eq.mp hlead)
    rw [candidates_space, List.mem_singleton] at hr
    obtain ⟨c, u, hcons, hc, hu⟩ := mem_one_mul.mp hword
    obtain ⟨rfl, rfl⟩ := List.cons.inj hcons
    have hall : b :: text ∈ Pattern.space.language := by
      refine mem_one_mul.mpr ⟨b, text, rfl, hc, mem_many.mpr fun d hd => ?_⟩
      exact mem_many.mp hu d (by simp [hd])
    have hlen := h.longest ⟨.space, none⟩ (by decide) _ hall (List.prefix_refl _)
    have hlt := hgap (by rw [hr])
    omega
  · have hline := Pattern.language_le_line (exact_mem_line hq) hstring hraw hspace hword
    exact absurd (mem_many.mp hline (ascii '\n') (by simp)) (by decide)

/-- The start of a text is taken by the same rule in front of what does not continue the text as a
    lexeme. -/
theorem Selects.append (h : Selects text n r)
    (hover : ∀ q ∈ rules, ∀ b v, b :: v <+: rest → text ++ b :: v ∉ q.pattern.language) :
    Selects (text ++ rest) n r := by
  have htake : (text ++ rest).take n = text.take n := List.take_append_of_le_length h.le
  refine ⟨?_, ?_, ?_, ?_⟩
  · have hle := h.le
    rw [List.length_append]
    omega
  · rw [htake]
    exact h.mem
  · intro q hq w hw hpre
    obtain ⟨u, hu⟩ := hpre
    rcases List.append_eq_append_iff.mp hu with ⟨c, hc, -⟩ | ⟨c, rfl, hc⟩
    · exact h.longest q hq w hw ⟨c, hc.symm⟩
    · cases c with
      | nil =>
        rw [List.append_nil] at hw ⊢
        exact h.longest q hq text hw (List.prefix_refl _)
      | cons b c =>
        -- The lexeme would continue all of the text.
        exact absurd hw (hover q hq b c ⟨u, hc.symm⟩)
  · rw [htake]
    exact h.first

/-- **In front of a newline** the start of a text is taken by the same rule, unless all of it is
    white space. -/
theorem Selects.newline (h : Selects text n r) (hgap : r.pattern = .space → n < text.length)
    (rest : Bytes) : Selects (text ++ ascii '\n' :: rest) n r := by
  refine h.append fun q hq b v hpre => ?_
  obtain ⟨rfl, -⟩ := List.cons_prefix_cons.mp hpre
  exact h.not_over hgap hq

end Lexicon

/-! ### Pieces that are no gaps -/

namespace Piece

/-- The pieces that are no gaps. -/
def solid (ps : List Piece) : List Piece := ps.filter (·.role ≠ .gap)

/-- A gap in front is left out. -/
theorem solid_cons_gap {p : Piece} (hp : p.role = .gap) (ps : List Piece) :
    solid (p :: ps) = solid ps := by
  simp [solid, hp]

theorem solid_cons_of_ne {p : Piece} (hp : p.role ≠ .gap) (ps : List Piece) :
    solid (p :: ps) = p :: solid ps := by
  simp [solid, hp]

/-- The same piece may be put in front of pieces that differ in gaps. -/
theorem solid_cons {p : Piece} {ps qs qs' : List Piece} (h : solid qs = solid ps ++ qs') :
    solid (p :: qs) = solid (p :: ps) ++ qs' := by
  unfold solid at h ⊢
  rw [List.filter_cons, List.filter_cons, h]
  split <;> rfl

/-- Gaps have no tokens. -/
theorem filterMap_solid (ps : List Piece) :
    (solid ps).filterMap token? = ps.filterMap token? := by
  unfold solid
  rw [List.filterMap_filter]
  apply List.filterMap_congr
  intro p _
  cases hrole : p.role <;> simp [token?, hrole]

/-- Nothing is set aside among the pieces if nothing is among those that are no gaps. -/
theorem clean_solid {ps : List Piece} :
    (∀ p ∈ solid ps, p.role ≠ .aside) ↔ ∀ p ∈ ps, p.role ≠ .aside := by
  constructor
  · intro h p hp haside
    exact h p (List.mem_filter.mpr ⟨hp, by simp [haside]⟩) haside
  · intro h p hp
    exact h p (List.mem_filter.mp hp).1

/-- White space at the start of a text changes no piece behind it. -/
theorem solid_scanFrom_space {b : UInt8} (hb : isSpace b = true) (pos : Nat) (rest : Bytes) :
    solid (scanFrom pos 0 (b :: rest)) = solid (scanFrom (pos + 1) 0 rest) := by
  rw [scanFrom_space hb, solid_cons_gap rfl]
  cases rest with
  | nil => rfl
  | cons c rest =>
    -- More white space belongs to the same gap, or is one of its own.
    by_cases hc : isSpace c = true
    · have hrun : Pattern.run isSpace (c :: rest) = Pattern.run isSpace rest + 1 := by
        unfold Pattern.run
        rw [List.takeWhile_cons_of_pos hc, List.length_cons]
      rw [scanFrom_space hc, hrun, scanFrom, solid_cons_gap rfl]
    · have hrun : Pattern.run isSpace (c :: rest) = 0 := by
        simp [Pattern.run, hc]
      rw [hrun]

/-- White space in front leaves no pieces but gaps. -/
theorem solid_scanFrom_spaces {blank : Bytes} (h : ∀ b ∈ blank, isSpace b = true) (pos : Nat)
    (rest : Bytes) :
    solid (scanFrom pos 0 (blank ++ rest)) = solid (scanFrom (pos + blank.length) 0 rest) := by
  induction blank generalizing pos with
  | nil => rfl
  | cons b blank ih =>
    rw [List.cons_append, solid_scanFrom_space (h b List.mem_cons_self),
      ih fun c hc => h c (List.mem_cons_of_mem _ hc), List.length_cons, Nat.add_right_comm,
      Nat.add_assoc]

end Piece

/-! ### Steps over joined texts -/

namespace Scanner

open Piece (solid scanFrom)

variable {text : Bytes} {pos next : Nat} {p : Piece} {ps : List Piece}

/-- A step over a text is one also in front of a newline, or has come over white space to the end
    of the text. -/
theorem Step.newline (h : Step text pos p next) (hp : p.role ≠ .aside) (rest : Bytes) :
    Step (text ++ ascii '\n' :: rest) pos p next ∨
      p.role = .gap ∧ next = text.length ∧ ∀ b ∈ text.drop pos, isSpace b = true := by
  have hpos := h.pos_lt
  cases h with
  | failed _ _ _ => exact absurd rfl hp
  | @matched n r h =>
    have hdrop : (text ++ ascii '\n' :: rest).drop pos = text.drop pos ++ ascii '\n' :: rest :=
      List.drop_append_of_le_length (Nat.le_of_lt hpos)
    by_cases hgap : r.pattern = .space → n < (text.drop pos).length
    · left
      have hsel := h.newline hgap rest
      have htake : (text.drop pos).take n = ((text ++ ascii '\n' :: rest).drop pos).take n := by
        rw [hdrop, List.take_append_of_le_length h.le]
      rw [htake]
      apply Step.matched
      rwa [hdrop]
    · right
      obtain ⟨hspace, hlen⟩ := Classical.not_imp.mp hgap
      have hn : n = (text.drop pos).length := Nat.le_antisymm h.le (Nat.not_lt.mp hlen)
      have hmem := h.mem
      rw [hspace, hn, List.take_length] at hmem
      obtain ⟨b, u, hword, hb, hu⟩ := mem_one_mul.mp hmem
      refine ⟨?_, ?_, ?_⟩
      · -- Of the rules, only one has this shape.
        have hr : ∀ r ∈ Lexicon.rules, r.pattern = .space → r.kind? = none := by decide
        simp [Lexicon.Rule.role, hr r h.mem_rules hspace]
      · rw [hn, List.length_drop]
        omega
      · rw [hword]
        intro c hc
        rcases List.mem_cons.mp hc with rfl | hc
        · exact hb
        · exact mem_many.mp hu c hc

/-- **Steps over a text and over what follows the newline behind it.** -/
theorem Run.solid_newline (h : Run text pos ps) (hpos : pos ≤ text.length)
    (hclean : ∀ p ∈ ps, p.role ≠ .aside) (rest : Bytes) :
    solid (scanFrom pos 0 ((text ++ ascii '\n' :: rest).drop pos))
      = solid ps ++ solid (scanFrom (text.length + 1) 0 rest) := by
  have hend : solid (scanFrom text.length 0 ((text ++ ascii '\n' :: rest).drop text.length))
      = solid (scanFrom (text.length + 1) 0 rest) := by
    rw [List.drop_left]
    exact Piece.solid_scanFrom_space (by decide) _ _
  induction h with
  | @done pos h =>
    obtain rfl : pos = text.length := Nat.le_antisymm hpos h
    exact hend
  | @step pos next p ps h hrun ih =>
    have hnext : next ≤ text.length := by
      obtain ⟨n, -, hle, -, rfl⟩ := h.extent
      rw [List.length_drop] at hle
      omega
    have ih := ih hnext fun q hq => hclean q (List.mem_cons_of_mem _ hq)
    rcases h.newline (hclean p List.mem_cons_self) rest with hstep | ⟨hgap, rfl, hspace⟩
    · rw [scanFrom_step hstep]
      exact Piece.solid_cons ih
    · -- White space at the end of the text becomes one gap with the newline.
      rw [Piece.solid_cons_gap hgap, ← ih, List.drop_append_of_le_length hpos,
        Piece.solid_scanFrom_spaces hspace, List.drop_left, List.length_drop]
      congr 3
      omega

end Scanner

/-! ### Pieces at other positions -/

/-- A span that many positions further on. -/
def Span.shift (k : Nat) (s : Span) : Span := ⟨s.start + k, s.stop + k⟩

/-- A token that many positions further on. -/
def Token.shift (k : Nat) (t : Token) : Token := { t with span := t.span.shift k }

namespace Piece

/-- A piece that many positions further on. -/
def shift (k : Nat) (p : Piece) : Piece := { p with start := p.start + k }

/-- The token of a piece that is moved is the token, moved. -/
theorem token?_shift (k : Nat) (p : Piece) : (p.shift k).token? = p.token?.map (Token.shift k) := by
  have hspan : (p.shift k).span = p.span.shift k := by
    simp [shift, span, Span.shift, Nat.add_right_comm]
  unfold token?
  rw [hspan, show (p.shift k).role = p.role from rfl]
  cases p.role <;> rfl

/-- The first piece of a text further on is the first piece, moved. -/
theorem first_shift (pos k : Nat) (b : UInt8) (rest : Bytes) :
    first (pos + k) b rest = (first pos b rest).shift k := by
  unfold first
  split
  · split <;> rfl
  · rfl

/-- The pieces of a text do not depend on where it stands, but for their positions. -/
theorem scanFrom_shift (pos k skip : Nat) (text : Bytes) :
    scanFrom (pos + k) skip text = (scanFrom pos skip text).map (shift k) := by
  induction text generalizing pos skip with
  | nil => simp [scanFrom]
  | cons b rest ih =>
    cases skip with
    | zero =>
      rw [scanFrom, scanFrom, first_shift, List.map_cons, Nat.add_right_comm, ih]
      rfl
    | succ skip =>
      rw [scanFrom, scanFrom, Nat.add_right_comm, ih]

/-- **The pieces of two texts that a newline joins**, if nothing is set aside in the first one:
    they are those of the first text and those of the second one, gaps apart. -/
theorem solid_scan_newline {text : Bytes} (hclean : ∀ p ∈ scan text, p.role ≠ .aside)
    (rest : Bytes) :
    solid (scan (text ++ ascii '\n' :: rest))
      = solid (scan text) ++ solid ((scan rest).map (shift (text.length + 1))) := by
  have hrun : Scanner.Run text 0 (scan text) := Scanner.run_iff.mpr rfl
  have h := hrun.solid_newline (Nat.zero_le _) hclean rest
  rw [List.drop_zero] at h
  have hshift := scanFrom_shift 0 (text.length + 1) 0 rest
  rw [Nat.zero_add] at hshift
  rwa [hshift] at h

/-- Of the joined text nothing is set aside if nothing is of the two texts. -/
theorem clean_newline {text rest : Bytes} (hclean : ∀ p ∈ scan text, p.role ≠ .aside)
    (hclean' : ∀ p ∈ scan rest, p.role ≠ .aside) :
    ∀ p ∈ scan (text ++ ascii '\n' :: rest), p.role ≠ .aside := by
  apply clean_solid.mp
  rw [solid_scan_newline hclean rest]
  intro p hp
  rcases List.mem_append.mp hp with hp | hp
  · exact clean_solid.mpr hclean p hp
  · obtain ⟨p, hmem, rfl⟩ := List.mem_map.mp (List.mem_filter.mp hp).1
    exact hclean' p hmem

/-- The tokens of pieces that are moved are the tokens, moved. -/
theorem filterMap_shift (k : Nat) (ps : List Piece) :
    (ps.map (shift k)).filterMap token? = (ps.filterMap token?).map (Token.shift k) := by
  rw [List.filterMap_map, List.map_filterMap]
  apply List.filterMap_congr
  intro p _
  exact token?_shift k p

end Piece

/-- **The tokens of two texts that a newline joins.** -/
theorem Token.scan_newline {text : Bytes} (hclean : ∀ p ∈ Piece.scan text, p.role ≠ .aside)
    (rest : Bytes) :
    scan (text ++ ascii '\n' :: rest)
      = scan text ++ (scan rest).map (Token.shift (text.length + 1)) := by
  rw [scan, ← Piece.filterMap_solid, Piece.solid_scan_newline hclean rest, List.filterMap_append,
    Piece.filterMap_solid, Piece.filterMap_solid, Piece.filterMap_shift]
  rfl

/-! ### Text set aside in front of a newline -/

namespace Lexicon

variable {text rest : Bytes} {q : Rule}

/-- A string ends with a quote. -/
theorem quote_of_closed {p : Pattern} {w : Bytes} (hp : p = .string ∨ p = .rawString)
    (hw : w ∈ p.language) : ∃ u b, w = u ++ [b] ∧ Piece.isQuote b = true := by
  have hlast : ∀ {A : Language UInt8} {c : UInt8}, Piece.isQuote c = true → w ∈ A * one (· == c) →
      ∃ u b, w = u ++ [b] ∧ Piece.isQuote b = true := by
    rintro A c hc hmem
    obtain ⟨u, -, v, ⟨b, hb, rfl⟩, rfl⟩ := Language.mem_mul.mp hmem
    exact ⟨u, b, rfl, by rwa [beq_iff_eq.mp hb]⟩
  rcases hp with rfl | rfl
  · rw [Pattern.language, ← mul_assoc] at hw
    exact hlast (by decide) hw
  · rw [Pattern.language, ← mul_assoc] at hw
    exact hlast (by decide) hw

/-- A quote begins nothing but a string. -/
theorem closed_of_quote {b : UInt8} {w : Bytes} (hb : Piece.isQuote b = true) (hq : q ∈ rules)
    (hw : b :: w ∈ q.pattern.language) : q.pattern = .string ∨ q.pattern = .rawString := by
  obtain ⟨k, hk, -⟩ := length?_of_mem hw (List.prefix_refl _)
  simp only [Piece.isQuote, Bool.or_eq_true, beq_iff_eq] at hb
  rcases hb with rfl | rfl
  · have hmem := mem_candidates hq (by decide : lead (ascii '"') = .quote) hk
    rw [candidates_quote, List.mem_singleton] at hmem
    exact Or.inl (by rw [hmem])
  · have hmem := mem_candidates hq (by decide : lead (ascii '\'') = .rawQuote) hk
    rw [candidates_rawQuote, List.mem_singleton] at hmem
    exact Or.inr (by rw [hmem])

/-- Where no rule has a start of a text, none has one of the text in front of a newline, if no
    quote follows. -/
theorem not_prefix_newline {b : UInt8}
    (hnone : ∀ r ∈ rules, ∀ w ∈ r.pattern.language, ¬ w <+: b :: text)
    (hrest : ∀ c ∈ rest, Piece.isQuote c = false) :
    ∀ r ∈ rules, ∀ w ∈ r.pattern.language, ¬ w <+: b :: text ++ ascii '\n' :: rest := by
  rintro r hr w hw ⟨z, hz⟩
  obtain ⟨w, rfl⟩ : ∃ v, w = b :: v := by
    cases w with
    | nil => exact absurd hw (Pattern.nil_notMem (pattern_ne_empty r hr))
    | cons c v => exact ⟨v, by rw [(List.cons.inj hz).1]⟩
  cases hb : Piece.isQuote b with
  | false =>
    exact (failsAt_of_longest? (longest?_eq_none_iff.mpr hnone)).2 hb ⟨r, hr, w, hw⟩
  | true =>
    obtain ⟨u, c, hlast, hc⟩ := quote_of_closed (closed_of_quote hb hr hw) hw
    rcases List.append_eq_append_iff.mp hz with ⟨y, hy, -⟩ | ⟨y, hy, hyz⟩
    · exact hnone r hr _ hw ⟨y, hy.symm⟩
    · -- The closing quote would stand behind the newline.
      rcases List.eq_nil_or_concat' y with rfl | ⟨y, d, rfl⟩
      · exact hnone r hr _ hw ⟨[], by rw [hy, List.append_nil, List.append_nil]⟩
      · rw [hy, ← List.append_assoc] at hlast
        obtain ⟨-, hd⟩ := List.append_inj' hlast rfl
        obtain rfl := List.singleton_inj.mp hd
        have hmem : d ∈ ascii '\n' :: rest := by
          rw [hyz]
          simp
        rcases List.mem_cons.mp hmem with rfl | hmem
        · exact absurd hc (by decide)
        · exact absurd hc (by simp [hrest d hmem])

end Lexicon

namespace Scanner

open Piece (scanFrom)

variable {text rest : Bytes} {pos next : Nat} {p : Piece} {ps : List Piece}

/-- What a step sets aside is set aside also in front of a newline, if no quote follows. -/
theorem Step.aside_newline (h : Step text pos p next) (hp : p.role = .aside)
    (hrest : ∀ c ∈ rest, Piece.isQuote c = false) :
    ∃ q next', Step (text ++ ascii '\n' :: rest) pos q next' ∧ q.role = .aside := by
  obtain ⟨b, t, hdrop⟩ := exists_drop h.pos_lt
  have hlong : (text ++ ascii '\n' :: rest).drop pos = b :: t ++ ascii '\n' :: rest := by
    rw [List.drop_append_of_le_length (Nat.le_of_lt h.pos_lt), hdrop]
  cases h with
  | matched h =>
    simp only [Lexicon.Rule.role] at hp
    split at hp <;> exact absurd hp (by simp)
  | failed hpos hnone _ =>
    rw [hdrop] at hnone
    -- A step can be made there all the same, and it takes no rule, as none takes the start of the
    -- text.
    obtain ⟨q, next', hstep⟩ : ∃ q next', Step (text ++ ascii '\n' :: rest) pos q next' := by
      apply exists_step
      rw [List.length_append]
      omega
    refine ⟨q, next', hstep, ?_⟩
    cases hstep with
    | failed _ _ _ => rfl
    | @matched n r h =>
      have hpre := List.take_prefix n ((text ++ ascii '\n' :: rest).drop pos)
      nth_rewrite 2 [hlong] at hpre
      exact absurd hpre (Lexicon.not_prefix_newline hnone hrest r h.mem_rules _ h.mem)

/-- **Steps over a text that set something aside** do so also in front of a newline. -/
theorem Run.aside_newline (h : Run text pos ps) (hp : ∃ p ∈ ps, p.role = .aside)
    (hrest : ∀ c ∈ rest, Piece.isQuote c = false) :
    ∃ p ∈ scanFrom pos 0 ((text ++ ascii '\n' :: rest).drop pos), p.role = .aside := by
  induction h with
  | done _ => exact absurd hp (by simp)
  | @step pos next p ps h hrun ih =>
    by_cases haside : p.role = .aside
    · obtain ⟨q, next', hstep, hq⟩ := h.aside_newline haside hrest
      rw [scanFrom_step hstep]
      exact ⟨q, List.mem_cons_self, hq⟩
    · have hps : ∃ p ∈ ps, p.role = .aside := by
        obtain ⟨q, hq, hrole⟩ := hp
        rcases List.mem_cons.mp hq with rfl | hq
        · exact absurd hrole haside
        · exact ⟨q, hq, hrole⟩
      -- Up to there the steps are those over the text alone.
      rcases h.newline haside rest with hstep | ⟨-, rfl, -⟩
      · obtain ⟨q, hq, hrole⟩ := ih hps
        rw [scanFrom_step hstep]
        exact ⟨q, List.mem_cons_of_mem _ hq, hrole⟩
      · -- At the end of the text no step is left.
        cases hrun with
        | done _ => exact absurd hps (by simp)
        | step hstep _ => exact absurd hstep.pos_lt (Nat.lt_irrefl _)

end Scanner

/-- **What follows a newline** does not close a quote of the text in front of it, if it has no quote:
    if nothing is set aside in all, nothing is of the text. -/
theorem Piece.clean_of_newline {text rest : Bytes} (hrest : ∀ c ∈ rest, isQuote c = false)
    (hclean : ∀ p ∈ scan (text ++ ascii '\n' :: rest), p.role ≠ .aside) :
    ∀ p ∈ scan text, p.role ≠ .aside := by
  intro p hp haside
  have hrun : Scanner.Run text 0 (scan text) := Scanner.run_iff.mpr rfl
  obtain ⟨q, hq, hrole⟩ := hrun.aside_newline ⟨p, hp, haside⟩ hrest
  exact hclean q hq hrole

end StackLang
