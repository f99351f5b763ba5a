import StackLang.Proofs.Token.Longest
import StackLang.Proofs.Decimal.Layout
import StackLang.Proofs.Text.Quoted

namespace StackLang

/-!
# Lexemes in front of a delimiter

A text in which lexemes are followed by a blank or a closing bracket, or by nothing, is cut
where it was put together: the longest match at a lexeme is that lexeme.

* `Delimited` — what may follow a lexeme;
* `Lexicon.IsLexeme` — a text is the longest match, as a token of a kind, in front of any
  delimited text;
* `Lexicon.isLexeme_float`, `isLexeme_integer`, `isLexeme_name`, `isLexeme_keyword`,
  `isLexeme_operator`, `isLexeme_string` — the lexemes of all kinds;
* `Lexicon.longest?_bracket`, `longest?_space` — brackets and blanks, which need no delimiter.
-/

open Bytes (ascii isDigit digitsValue)

/-- A byte in front of which a lexeme ends: a blank, or the closing bracket of a list or of a
    tuple. -/
def isDelimiter (b : UInt8) : Bool := b == ascii ' ' || b == ascii ']' || b == ascii ')'

/-- A text in front of which a lexeme ends. -/
def Delimited (rest : Bytes) : Prop := ∀ b ∈ rest.head?, isDelimiter b = true

/-- A delimited text does not go on with a byte that no delimiter is. -/
theorem Delimited.not {rest : Bytes} (h : Delimited rest) {p : UInt8 → Bool}
    (hp : p (ascii ' ') = false ∧ p (ascii ']') = false ∧ p (ascii ')') = false) :
    ∀ b ∈ rest.head?, p b = false := by
  intro b hb
  have hd := h b hb
  simp only [isDelimiter, Bool.or_eq_true, beq_iff_eq] at hd
  rcases hd with (rfl | rfl) | rfl
  · exact hp.1
  · exact hp.2.1
  · exact hp.2.2

/-- A text without delimiters behind its first byte does not reach beyond a lexeme. -/
theorem prefix_of_prefix_append {t w rest : Bytes} (ht : t.tail.any isDelimiter = false)
    (hw : w ≠ []) (hrest : Delimited rest) (h : t <+: w ++ rest) : t <+: w := by
  rcases List.prefix_or_prefix_of_prefix h (List.prefix_append w rest) with htw | ⟨u, rfl⟩
  · exact htw
  · -- Whatever it has in common with the rest begins with a delimiter.
    rw [List.prefix_append_right_inj] at h
    cases u with
    | nil => simp
    | cons c u =>
      obtain ⟨v, rfl⟩ := h
      have hc : isDelimiter c = true := hrest c (by simp)
      obtain ⟨a, w, rfl⟩ := List.exists_cons_of_ne_nil hw
      simp [hc] at ht

namespace Pattern

/-! ### Runs -/

/-- A run ends in front of a byte without the property. -/
theorem run_append {p : UInt8 → Bool} {w rest : Bytes} (hw : ∀ b ∈ w, p b = true)
    (hrest : ∀ b ∈ rest.head?, p b = false) : run p (w ++ rest) = w.length := by
  unfold run
  rw [List.takeWhile_append_of_pos hw]
  have hnone : rest.takeWhile p = [] := by
    cases rest with
    | nil => rfl
    | cons b rest => simp [hrest b (by simp)]
  rw [hnone, List.append_nil]

/-- A number other than zero is positive. -/
theorem positive?_pos {n : Nat} (h : n ≠ 0) : positive? n = some n := by
  simp [positive?, h]

variable {rest : Bytes}

/-- The run of digits ends with the digits. -/
theorem run_digits (ds : Digits) (hrest : ∀ b ∈ rest.head?, isDigit b = false) :
    positive? (run isDigit (ds.bytes ++ rest)) = some ds.bytes.length := by
  rw [run_append (fun b hb => ds.isDigit_of_mem hb) hrest]
  exact positive?_pos (by simp [ds.ne_nil])

/-- The length of a sign in front of digits is found. -/
theorem sign_text (s : Numeral.Sign) (ds : Digits) (rest : Bytes) :
    sign (s.text ++ (ds.bytes ++ rest)) = s.text.length := by
  cases s with
  | implicit =>
    obtain ⟨b, bs, hds, hb⟩ := ds.exists_cons
    have hmem : b ∈ ds.bytes := by
      rw [hds]
      exact List.mem_cons_self
    have hplus : b ≠ ascii '+' := ds.ne_of_mem hmem (by decide)
    have hminus : b ≠ ascii '-' := ds.ne_of_mem hmem (by decide)
    rw [hds]
    simp [sign, Numeral.Sign.text, hplus, hminus]
  | plus => rfl
  | minus => rfl

/-- The length of signed digits is found, if no digit follows. -/
theorem signedDigits?_text (s : Numeral.Sign) (ds : Digits)
    (hrest : ∀ b ∈ rest.head?, isDigit b = false) :
    signedDigits? (s.text ++ (ds.bytes ++ rest)) = some (s.text.length + ds.bytes.length) := by
  unfold signedDigits?
  rw [sign_text, List.drop_left, run_digits ds hrest]
  rfl

/-- The length of a fraction is found, if no digit follows. -/
theorem fraction?_text (f : Digits) (hrest : ∀ b ∈ rest.head?, isDigit b = false) :
    fraction? (Numeral.fractionText (some f) ++ rest)
      = some (Numeral.fractionText (some f)).length := by
  show (positive? (run isDigit (f.bytes ++ rest))).map (1 + ·) = some (f.bytes.length + 1)
  rw [run_digits f hrest, Option.map_some, Nat.add_comm]

theorem power?_text (s : Numeral.Sign) (ds : Digits)
    (hrest : ∀ b ∈ rest.head?, isDigit b = false) :
    power? (Numeral.powerText (some (s, ds)) ++ rest)
      = some (Numeral.powerText (some (s, ds))).length := by
  show (signedDigits? (s.text ++ ds.bytes ++ rest)).map (1 + ·)
    = some ((s.text ++ ds.bytes).length + 1)
  rw [List.append_assoc, signedDigits?_text s ds hrest, List.length_append, Option.map_some,
    Nat.add_comm]

/-! ### Numerals -/

/-- A power of ten, or what follows, does not begin with a byte that neither begins with. -/
theorem powerText_head (p? : Option (Numeral.Sign × Digits)) {q : UInt8 → Bool}
    (hq : q (ascii 'e') = false) (hrest : ∀ b ∈ rest.head?, q b = false) :
    ∀ b ∈ (Numeral.powerText p? ++ rest).head?, q b = false := by
  cases p? with
  | none => exact hrest
  | some p =>
    intro b hb
    obtain rfl : ascii 'e' = b := Option.some.inj hb
    exact hq

/-- A fraction, or what follows, does not begin with a byte that neither begins with. -/
theorem fractionText_head (f? : Option Digits) {q : UInt8 → Bool} (hq : q (ascii '.') = false)
    (hrest : ∀ b ∈ rest.head?, q b = false) :
    ∀ b ∈ (Numeral.fractionText f? ++ rest).head?, q b = false := by
  cases f? with
  | none => exact hrest
  | some f =>
    intro b hb
    obtain rfl : ascii '.' = b := Option.some.inj hb
    exact hq

/-- Without a point in front there is no fraction. -/
theorem fraction?_none (h : ∀ b ∈ rest.head?, (b == ascii '.') = false) : fraction? rest = none := by
  cases rest with
  | nil => rfl
  | cons b rest => simp [fraction?, h b (by simp)]

theorem power?_none (h : ∀ b ∈ rest.head?, (b == ascii 'e' || b == ascii 'E') = false) :
    power? rest = none := by
  cases rest with
  | nil => rfl
  | cons b rest => simp [power?, h b (by simp)]

/-- A numeral in front of a text, part by part. -/
theorem text_append (n : Numeral) (rest : Bytes) :
    n.text ++ rest = n.sign.text ++ (n.whole.bytes
      ++ (Numeral.fractionText n.fraction? ++ (Numeral.powerText n.power? ++ rest))) := by
  simp [Numeral.text]

/-- The signed digits of a numeral in front of a delimited text are found. -/
theorem signedDigits?_numeral (n : Numeral) (hrest : Delimited rest) :
    signedDigits? (n.text ++ rest) = some (n.sign.text.length + n.whole.bytes.length) := by
  rw [text_append]
  exact signedDigits?_text _ _ (fractionText_head _ (by decide)
    (powerText_head _ (by decide) (hrest.not (by decide))))

/-- Behind its digits a numeral goes on with the fraction and the power of ten. -/
theorem drop_whole (n : Numeral) (rest : Bytes) :
    (n.text ++ rest).drop (n.sign.text.length + n.whole.bytes.length)
      = Numeral.fractionText n.fraction? ++ (Numeral.powerText n.power? ++ rest) := by
  rw [text_append, ← List.append_assoc, ← List.length_append, List.drop_left]

/-- With a fraction, all of a numeral has the shape of digits with a point. -/
theorem length?_decimal {n : Numeral} {f : Digits} (hf : n.fraction? = some f)
    (hrest : Delimited rest) : decimal.length? (n.text ++ rest) = some n.text.length := by
  have hfraction : fraction? (Numeral.fractionText (some f) ++ (Numeral.powerText n.power? ++ rest))
      = some (Numeral.fractionText (some f)).length :=
    fraction?_text f (powerText_head _ (by decide) (hrest.not (by decide)))
  -- The power is optional: without one its length counts as 0.
  have hpower : (power? (Numeral.powerText n.power? ++ rest)).getD 0
      = (Numeral.powerText n.power?).length := by
    cases n.power? with
    | none =>
      rw [show Numeral.powerText none = [] from rfl, List.nil_append,
        power?_none (hrest.not (by decide))]
      rfl
    | some p =>
      rw [power?_text _ _ (hrest.not (by decide))]
      rfl
  have hdrop := drop_whole n rest
  rw [hf] at hdrop
  simp only [length?, signedDigits?_numeral n hrest, Option.bind_eq_bind, Option.bind_some, hdrop,
    hfraction, ← List.drop_drop, List.drop_left, hpower]
  show some _ = some _
  rw [Numeral.text, hf]
  simp only [List.length_append]

/-- Without a fraction nothing of a numeral has the shape of digits with a point. -/
theorem length?_decimal_none {n : Numeral} (hf : n.fraction? = none) (hrest : Delimited rest) :
    decimal.length? (n.text ++ rest) = none := by
  have hdrop := drop_whole n rest
  rw [hf, show Numeral.fractionText none = [] from rfl, List.nil_append] at hdrop
  simp only [length?, signedDigits?_numeral n hrest, Option.bind_eq_bind, Option.bind_some, hdrop,
    fraction?_none (powerText_head _ (by decide) (hrest.not (by decide)))]
  rfl

/-- With a power of ten behind digits, all of a numeral has the shape of digits with a power. -/
theorem length?_scientific {n : Numeral} {p : Numeral.Sign × Digits} (hf : n.fraction? = none)
    (hp : n.power? = some p) (hrest : Delimited rest) :
    scientific.length? (n.text ++ rest) = some n.text.length := by
  have hdrop := drop_whole n rest
  rw [hf, hp, show Numeral.fractionText none = [] from rfl, List.nil_append] at hdrop
  simp only [length?, signedDigits?_numeral n hrest, Option.bind_eq_bind, Option.bind_some, hdrop,
    power?_text _ _ (hrest.not (by decide))]
  show some _ = some _
  rw [Numeral.text, hf, hp]
  simp only [List.length_append]
  rfl

/-- Without a power of ten, or with a fraction in front of it, nothing of a numeral has that
    shape. -/
theorem length?_scientific_none {n : Numeral} (h : n.fraction? ≠ none ∨ n.power? = none)
    (hrest : Delimited rest) : scientific.length? (n.text ++ rest) = none := by
  -- Behind the first digits comes a point or a delimiter, and no power.
  have hpower : power? (Numeral.fractionText n.fraction? ++ (Numeral.powerText n.power? ++ rest))
      = none := by
    cases hf : n.fraction? with
    | some f => rfl
    | none =>
      have hp : n.power? = none := h.resolve_left (by simp [hf])
      rw [hp]
      exact power?_none (hrest.not (by decide))
  simp only [length?, signedDigits?_numeral n hrest, Option.bind_eq_bind, Option.bind_some,
    drop_whole, hpower]
  rfl

end Pattern

namespace Lexicon

open Pattern (length?_exact)

/-- A text that is cut off in front of any delimiter, as a token of a kind. -/
def IsLexeme (kind : Token.Kind) (w : Bytes) : Prop :=
  w ≠ [] ∧ ∀ rest, Delimited rest →
    ∃ r, longest? (w ++ rest) = some (w.length, r) ∧ r.kind? = some kind

variable {rest : Bytes} {r : Rule} {m : Nat}

/-! ### Numerals as lexemes -/

/-- A numeral begins with a digit or a sign. -/
theorem exists_lead_numeral (n : Numeral) (rest : Bytes) :
    ∃ b t, n.text ++ rest = b :: t ∧
      ((n.sign = .implicit ∧ lead b = .digit) ∨ (n.sign ≠ .implicit ∧ lead b = .sign)) := by
  obtain ⟨d, ds, hds, hd⟩ := n.whole.exists_cons
  rw [Pattern.text_append]
  cases hs : n.sign with
  | implicit => exact ⟨d, _, by rw [hds]; rfl, Or.inl ⟨rfl, lead_digit hd⟩⟩
  | plus => exact ⟨ascii '+', _, rfl, Or.inr ⟨by simp, by decide⟩⟩
  | minus => exact ⟨ascii '-', _, rfl, Or.inr ⟨by simp, by decide⟩⟩

/-- A rule that takes the start of a numeral is one for numerals, or takes its sign only. -/
theorem mem_numeralRules {n : Numeral} (hr : r ∈ rules)
    (hm : r.pattern.length? (n.text ++ rest) = some m) :
    r = ⟨.decimal, some .float⟩ ∨ r = ⟨.scientific, some .float⟩ ∨ r = ⟨.integer, some .integer⟩ ∨
      (n.sign ≠ .implicit ∧ m = 1) := by
  obtain ⟨b, t, hbt, hlead⟩ := exists_lead_numeral n rest
  rw [hbt] at hm
  rcases hlead with ⟨-, hl⟩ | ⟨hs, hl⟩
  · have hmem := mem_candidates hr hl hm
    simp only [candidates_digit, List.mem_cons, List.not_mem_nil, or_false] at hmem
    rcases hmem with rfl | rfl | rfl <;> simp
  · have hmem := mem_candidates hr hl hm
    simp only [candidates_sign, List.mem_cons, List.not_mem_nil, or_false] at hmem
    rcases hmem with rfl | rfl | rfl | rfl | rfl
    · simp
    · simp
    · simp
    · exact Or.inr (Or.inr (Or.inr ⟨hs, (length?_exact.mp hm).2⟩))
    · exact Or.inr (Or.inr (Or.inr ⟨hs, (length?_exact.mp hm).2⟩))

/-- What the rules match at a numeral: all of it as a float, its sign and first digits as an
    integer, or its sign alone. -/
theorem match_numeral {n : Numeral} (hrest : Delimited rest) (hr : r ∈ rules)
    (hm : r.pattern.length? (n.text ++ rest) = some m) :
    (r.kind? = some .float ∧ n.IsFloat ∧ m = n.text.length) ∨
      (r.kind? = some .integer ∧ m = n.sign.text.length + n.whole.bytes.length) ∨
      m < n.sign.text.length + n.whole.bytes.length := by
  -- One case for each rule: digits with a point, digits with a power, digits, and a sign.
  rcases mem_numeralRules hr hm with rfl | rfl | rfl | ⟨hs, rfl⟩
  · left
    cases hf : n.fraction? with
    | none =>
      rw [Pattern.length?_decimal_none hf hrest] at hm
      exact absurd hm (by simp)
    | some f =>
      rw [Pattern.length?_decimal hf hrest] at hm
      injection hm with hm
      exact ⟨rfl, Or.inl (by simp [hf]), hm.symm⟩
  · left
    by_cases hnone : n.fraction? ≠ none ∨ n.power? = none
    · rw [Pattern.length?_scientific_none hnone hrest] at hm
      exact absurd hm (by simp)
    · rw [not_or, not_not] at hnone
      obtain ⟨p, hp⟩ := Option.ne_none_iff_exists'.mp hnone.2
      rw [Pattern.length?_scientific hnone.1 hp hrest] at hm
      injection hm with hm
      exact ⟨rfl, Or.inr hnone.2, hm.symm⟩
  · right
    left
    have hlen := Pattern.signedDigits?_numeral n hrest
    injection hlen.symm.trans hm with hlen
    exact ⟨rfl, hlen.symm⟩
  · right
    right
    have hwhole : 0 < n.whole.bytes.length := List.length_pos_iff.mpr n.whole.ne_nil
    have hsign : n.sign.text.length = 1 := by
      cases h : n.sign with
      | implicit => exact absurd h hs
      | plus => rfl
      | minus => rfl
    omega

/-- No numeral is empty. -/
theorem numeral_ne_nil (n : Numeral) : n.text ≠ [] := by
  simp [Numeral.text, n.whole.ne_nil]

/-- A numeral with a fraction or a power of ten is a lexeme. -/
theorem isLexeme_float {n : Numeral} (h : n.IsFloat) : IsLexeme .float n.text := by
  refine ⟨numeral_ne_nil n, ?_⟩
  intro rest hrest
  -- The rule for integers stops in front of the fraction or the power.
  have hlong : n.sign.text.length + n.whole.bytes.length < n.text.length := by
    have hparts : 0 < (Numeral.fractionText n.fraction?).length
        + (Numeral.powerText n.power?).length := by
      rcases h with hf | hp
      · obtain ⟨f, hf⟩ := Option.ne_none_iff_exists'.mp hf
        rw [hf]
        simp [Numeral.fractionText]
      · obtain ⟨p, hp⟩ := Option.ne_none_iff_exists'.mp hp
        rw [hp]
        simp [Numeral.powerText]
    simp only [Numeral.text, List.length_append]
    omega
  apply longest?_of_bound
  · cases hf : n.fraction? with
    | some f =>
      exact ⟨⟨.decimal, some .float⟩, by decide, Pattern.length?_decimal hf hrest⟩
    | none =>
      obtain ⟨p, hp⟩ := Option.ne_none_iff_exists'.mp (h.resolve_left (by simp [hf]))
      exact ⟨⟨.scientific, some .float⟩, by decide, Pattern.length?_scientific hf hp hrest⟩
  · intro r hr m hm
    rcases match_numeral hrest hr hm with ⟨hk, -, rfl⟩ | ⟨-, rfl⟩ | hlt
    · exact ⟨le_refl _, fun _ => Or.inl hk⟩
    · exact ⟨by omega, fun heq => absurd heq (by omega)⟩
    · exact ⟨by omega, fun heq => absurd heq (by omega)⟩

/-- A numeral with neither is one too. -/
theorem isLexeme_integer (s : Numeral.Sign) (ds : Digits) : IsLexeme .integer (s.text ++ ds.bytes) := by
  have htext : (Numeral.mk s ds none none).text = s.text ++ ds.bytes := by
    simp [Numeral.text, Numeral.fractionText, Numeral.powerText]
  rw [← htext]
  refine ⟨numeral_ne_nil _, ?_⟩
  intro rest hrest
  have hlen : (Numeral.mk s ds none none).text.length = s.text.length + ds.bytes.length := by
    rw [htext, List.length_append]
  rw [hlen]
  apply longest?_of_bound
  · exact ⟨⟨.integer, some .integer⟩, by decide,
      Pattern.signedDigits?_numeral (Numeral.mk s ds none none) hrest⟩
  · intro r hr m hm
    rcases match_numeral hrest hr hm with ⟨-, hfloat, -⟩ | ⟨hk, rfl⟩ | hlt
    · exact absurd hfloat (by simp [Numeral.IsFloat])
    · exact ⟨le_refl _, fun _ => Or.inl hk⟩
    · exact ⟨le_of_lt hlt, fun heq => absurd heq (ne_of_lt hlt)⟩

/-! ### Words as lexemes -/

/-- A text that has the shape of an identifier as a whole. -/
def isWord (s : Bytes) : Bool := Pattern.identifier.length? s == some s.length

/-- A word begins with a byte that starts identifiers, and all others may stand inside one. -/
theorem isWord_iff {s : Bytes} :
    isWord s = true ↔ ∃ b t, s = b :: t ∧ Pattern.isIdentStart b = true ∧
      ∀ c ∈ t, Pattern.isIdentPart c = true := by
  unfold isWord
  cases s with
  | nil => simp [Pattern.length?]
  | cons b t =>
    have hrun : Pattern.run Pattern.isIdentPart t = t.length ↔
        ∀ c ∈ t, Pattern.isIdentPart c = true := by
      unfold Pattern.run
      rw [← List.takeWhile_eq_self_iff]
      exact ⟨fun h => (List.takeWhile_prefix _).eq_of_length h, fun h => by rw [h]⟩
    by_cases hb : Pattern.isIdentStart b = true
    · simp only [Pattern.length?, hb, if_true, beq_iff_eq, Option.some.injEq, List.length_cons,
        List.cons.injEq]
      rw [Nat.add_comm, Nat.add_right_cancel_iff, hrun]
      constructor
      · intro h
        exact ⟨b, t, ⟨rfl, rfl⟩, hb, h⟩
      · rintro ⟨b', t', ⟨rfl, rfl⟩, -, h⟩
        exact h
    · simp [Pattern.length?, hb]

/-- A word in front of a delimited text is the identifier found there. -/
theorem length?_identifier {s : Bytes} (h : isWord s = true) (hrest : Delimited rest) :
    Pattern.identifier.length? (s ++ rest) = some s.length := by
  obtain ⟨b, t, rfl, hb, ht⟩ := isWord_iff.mp h
  show (if Pattern.isIdentStart b then some (1 + Pattern.run Pattern.isIdentPart (t ++ rest)) else none)
    = some (t.length + 1)
  rw [if_pos hb, Pattern.run_append ht (hrest.not (by decide)), Nat.add_comm]

/-- No keyword has a delimiter behind its first byte. -/
theorem keyword_tail : ∀ k ∈ keywords, k.tail.any isDelimiter = false := by
  decide

/-- What the rules match at a word: the word as an identifier, or a keyword that the word begins
    with. -/
theorem match_word {s : Bytes} (h : isWord s = true) (hrest : Delimited rest) (hr : r ∈ rules)
    (hm : r.pattern.length? (s ++ rest) = some m) :
    (r = ⟨.identifier, some .identifier⟩ ∧ m = s.length) ∨
      ∃ k ∈ keywords, r = ⟨.exact k, some .keyword⟩ ∧ k <+: s ∧ m = k.length := by
  have hident := length?_identifier h hrest
  obtain ⟨b, t, rfl, hb, -⟩ := isWord_iff.mp h
  have hlead : lead b = .letter := by
    simp [lead, hb]
  have hmem := mem_candidates hr hlead hm
  rw [candidates_letter, List.mem_append, List.mem_singleton, List.mem_map] at hmem
  rcases hmem with ⟨k, hk, rfl⟩ | rfl
  · obtain ⟨hpre, hlen⟩ := length?_exact.mp hm
    exact Or.inr ⟨k, hk, rfl, prefix_of_prefix_append (keyword_tail k hk) (by simp) hrest hpre, hlen⟩
  · rw [hident] at hm
    injection hm with hm
    exact Or.inl ⟨rfl, hm.symm⟩

/-- A word that is no keyword is a lexeme, an identifier. -/
theorem isLexeme_name {s : Bytes} (h : isWord s = true) (hk : s ∉ keywords) :
    IsLexeme .identifier s := by
  refine ⟨?_, ?_⟩
  · obtain ⟨b, t, rfl, -⟩ := isWord_iff.mp h
    simp
  intro rest hrest
  apply longest?_of_bound
  · exact ⟨⟨.identifier, some .identifier⟩, by decide, length?_identifier h hrest⟩
  · intro r hr m hm
    rcases match_word h hrest hr hm with ⟨rfl, rfl⟩ | ⟨k, hkey, rfl, hpre, rfl⟩
    · exact ⟨le_refl _, fun _ => Or.inl rfl⟩
    · -- A keyword that the name begins with is shorter, as it is not the name.
      refine ⟨hpre.length_le, fun heq => ?_⟩
      rw [hpre.eq_of_length heq] at hkey
      exact absurd hkey hk

/-- Keywords have the shape of identifiers. -/
theorem keyword_isWord : ∀ k ∈ keywords, isWord k = true := by
  decide

/-- A keyword is a lexeme: as long as the identifier, and in front of it. -/
theorem isLexeme_keyword {k : Bytes} (hk : k ∈ keywords) : IsLexeme .keyword k := by
  have h := keyword_isWord k hk
  refine ⟨?_, ?_⟩
  · obtain ⟨b, t, rfl, -⟩ := isWord_iff.mp h
    simp
  intro rest hrest
  have hexact : (Pattern.exact k).length? (k ++ rest) = some k.length :=
    length?_exact.mpr ⟨List.prefix_append k rest, rfl⟩
  apply longest?_of_bound
  · exact ⟨⟨.identifier, some .identifier⟩, by decide, length?_identifier h hrest⟩
  · intro r hr m hm
    rcases match_word h hrest hr hm with ⟨rfl, rfl⟩ | ⟨k', hkey, rfl, hpre, rfl⟩
    · exact ⟨le_refl _, fun _ => Or.inr ⟨_, hexact, keyword_precedes hk⟩⟩
    · exact ⟨hpre.length_le, fun _ => Or.inl rfl⟩

/-! ### Signs, strings, brackets and blanks as lexemes -/

/-- No operator has a delimiter behind its first byte. -/
theorem operator_tail : ∀ o ∈ operators, o.tail.any isDelimiter = false := by
  decide

/-- All operators but `/`, `+` and `-` begin with a byte that begins no other shape. -/
theorem operator_lead : ∀ o ∈ operators, o.head?.map lead = some .other ∨
    (o = utf8 "/" ∨ o = utf8 "+" ∨ o = utf8 "-") := by
  decide

/-- No operator begins with a bracket. -/
theorem operator_bracket : ∀ o ∈ operators, ∀ b ∈ Bracket.all, ¬b.text <+: o := by
  decide

/-- A sign without digits behind it is no numeral. -/
theorem signedDigits?_sign {b : UInt8} (hb : b = ascii '+' ∨ b = ascii '-')
    (hrest : ∀ c ∈ rest.head?, isDigit c = false) : Pattern.signedDigits? (b :: rest) = none := by
  have hsign : Pattern.sign (b :: rest) = 1 := by
    rcases hb with rfl | rfl <;> rfl
  have hrun : Pattern.run isDigit rest = 0 := Pattern.run_append (w := []) (by simp) hrest
  unfold Pattern.signedDigits?
  rw [hsign, List.drop_one, List.tail_cons, hrun]
  rfl

/-- What the rules match at a sign in front of a delimiter: the sign alone. -/
theorem match_sign {b : UInt8} (hb : b = ascii '+' ∨ b = ascii '-') (hrest : Delimited rest)
    (hr : r ∈ rules) (hm : r.pattern.length? (b :: rest) = some m) :
    m = 1 ∧ r.kind? = some .operator := by
  have hlead : lead b = .sign := by
    rcases hb with rfl | rfl <;> decide
  have hnone := signedDigits?_sign hb (hrest.not (by decide))
  -- No numeral begins here, since no digit follows the sign.
  have hnumeral : ∀ p : Pattern, p = .decimal ∨ p = .scientific ∨ p = .integer →
      p.length? (b :: rest) ≠ some m := by
    intro p hp hm
    obtain ⟨k, hk⟩ := Pattern.exists_signedDigits? hp hm
    rw [hnone] at hk
    exact absurd hk (by simp)
  have hmem := mem_candidates hr hlead hm
  simp only [candidates_sign, List.mem_cons, List.not_mem_nil, or_false] at hmem
  rcases hmem with rfl | rfl | rfl | rfl | rfl
  · exact absurd hm (hnumeral _ (by simp))
  · exact absurd hm (hnumeral _ (by simp))
  · exact absurd hm (hnumeral _ (by simp))
  · exact ⟨(length?_exact.mp hm).2, rfl⟩
  · exact ⟨(length?_exact.mp hm).2, rfl⟩

/-- What the rules match at a slash in front of a delimiter: the slash, and no comment. -/
theorem match_slash (hrest : Delimited rest) (hr : r ∈ rules)
    (hm : r.pattern.length? (ascii '/' :: rest) = some m) : m = 1 ∧ r.kind? = some .operator := by
  have hmem := mem_candidates hr (by decide : lead (ascii '/') = .slash) hm
  simp only [candidates_slash, List.mem_cons, List.not_mem_nil, or_false] at hmem
  rcases hmem with rfl | rfl
  · -- A comment needs a second slash.
    cases rest with
    | nil => exact absurd hm (by simp [Pattern.length?])
    | cons c rest =>
      have hc := hrest.not (p := (· == ascii '/')) (by decide) c (by simp)
      simp [Pattern.length?, hc] at hm
  · exact ⟨(length?_exact.mp hm).2, rfl⟩

/-- What the rules match at an operator sign: the sign, or a sign that it begins with. -/
theorem match_operator {o : Bytes} (ho : o ∈ operators) (hrest : Delimited rest) (hr : r ∈ rules)
    (hm : r.pattern.length? (o ++ rest) = some m) : m ≤ o.length ∧ r.kind? = some .operator := by
  -- Slash and signs begin other lexemes too; all other operators begin operators alone.
  rcases operator_lead o ho with hlead | rfl | rfl | rfl
  · obtain ⟨b, hb, hl⟩ := Option.map_eq_some_iff.mp hlead
    obtain ⟨t, rfl⟩ := List.head?_eq_some_iff.mp hb
    have hmem := mem_candidates hr hl hm
    rw [candidates_other, List.mem_append, List.mem_map, List.mem_map] at hmem
    rcases hmem with ⟨c, hc, rfl⟩ | ⟨o', ho', rfl⟩
    · have hpre := prefix_of_prefix_append (t := c.text) (by cases c <;> decide) (by simp) hrest
        (length?_exact.mp hm).1
      exact absurd hpre (operator_bracket _ ho c hc)
    · obtain ⟨hpre, rfl⟩ := length?_exact.mp hm
      have htail := operator_tail o' (List.mem_filter.mp ho').1
      exact ⟨(prefix_of_prefix_append htail (by simp) hrest hpre).length_le, rfl⟩
  · obtain ⟨rfl, hk⟩ := match_slash hrest hr hm
    exact ⟨by decide, hk⟩
  · obtain ⟨rfl, hk⟩ := match_sign (Or.inl rfl) hrest hr hm
    exact ⟨by decide, hk⟩
  · obtain ⟨rfl, hk⟩ := match_sign (Or.inr rfl) hrest hr hm
    exact ⟨by decide, hk⟩

/-- An operator sign is a lexeme. -/
theorem isLexeme_operator {o : Bytes} (ho : o ∈ operators) : IsLexeme .operator o := by
  refine ⟨?_, ?_⟩
  · rintro rfl
    exact absurd ho (by decide)
  intro rest hrest
  apply longest?_of_bound
  · refine ⟨⟨.exact o, some .operator⟩, ?_, length?_exact.mpr ⟨List.prefix_append o rest, rfl⟩⟩
    exact List.mem_append_right _ (List.mem_map_of_mem ho)
  · intro r hr m hm
    obtain ⟨hle, hk⟩ := match_operator ho hrest hr hm
    exact ⟨hle, fun _ => Or.inl hk⟩

/-- A quoted text is a lexeme. -/
theorem isLexeme_string (s : Bytes) : IsLexeme .string (Quoted.encode s) := by
  refine ⟨by simp [Quoted.encode], ?_⟩
  intro rest _
  have hlen := Quoted.length?_encode s rest
  apply longest?_of_bound
  · exact ⟨⟨.string, some .string⟩, by decide, hlen⟩
  · intro r hr m hm
    have hmem := mem_candidates hr (by decide : lead Quoted.mark = .quote) hm
    simp only [candidates_quote, List.mem_singleton] at hmem
    subst hmem
    injection hlen.symm.trans hm with hlen
    exact ⟨hlen.ge, fun _ => Or.inl rfl⟩

/-- A bracket is one byte that begins no other shape. -/
theorem bracket_text (b : Bracket) : ∃ c, b.text = [c] ∧ lead c = .other := by
  cases b <;> exact ⟨_, rfl, by decide⟩

/-- No operator begins with the byte of a bracket. -/
theorem bracket_operator : ∀ b ∈ Bracket.all, ∀ o ∈ operators, o.head? ≠ b.text.head? := by
  decide

/-- Different brackets have different bytes. -/
theorem bracket_injective : ∀ b ∈ Bracket.all, ∀ c ∈ Bracket.all, c.text.head? = b.text.head? → c = b := by
  decide

/-- A bracket is cut off in front of any text. -/
theorem longest?_bracket (b : Bracket) (rest : Bytes) :
    ∃ r, longest? (b.text ++ rest) = some (b.text.length, r) ∧ r.kind? = some (.bracket b) := by
  have hall : b ∈ Bracket.all := by
    cases b <;> decide
  -- A fixed text that matches here begins with the bracket.
  have hhead : ∀ {t : Bytes}, t ≠ [] → t <+: b.text ++ rest → t.head? = b.text.head? := by
    intro t ht hpre
    obtain ⟨a, t, rfl⟩ := List.exists_cons_of_ne_nil ht
    obtain ⟨c, hc, -⟩ := bracket_text b
    rw [hc] at hpre ⊢
    exact congrArg some (List.cons_prefix_cons.mp hpre).1
  apply longest?_of_bound
  · refine ⟨⟨.exact b.text, some (.bracket b)⟩, ?_,
      length?_exact.mpr ⟨List.prefix_append _ rest, rfl⟩⟩
    exact List.mem_append_left _ (List.mem_append_right _ (List.mem_map_of_mem hall))
  · intro r hr m hm
    obtain ⟨c, hc, hl⟩ := bracket_text b
    have hmem := mem_candidates hr hl (by rw [hc] at hm; exact hm)
    rw [candidates_other, List.mem_append, List.mem_map, List.mem_map] at hmem
    rcases hmem with ⟨d, hd, rfl⟩ | ⟨o, ho, rfl⟩
    · obtain ⟨hpre, rfl⟩ := length?_exact.mp hm
      have hne : d.text ≠ [] := by
        cases d <;> decide
      obtain rfl := bracket_injective b hall d hd (hhead hne hpre)
      exact ⟨le_refl _, fun _ => Or.inl rfl⟩
    · have ho := (List.mem_filter.mp ho).1
      have hne : o ≠ [] := by
        rintro rfl
        exact absurd ho (by decide)
      exact absurd (hhead hne (length?_exact.mp hm).1) (bracket_operator b hall o ho)

/-- White space is skipped together with all that follows it. -/
theorem longest?_space {b : UInt8} (hb : Bytes.isSpace b = true) (rest : Bytes) :
    ∃ r, longest? (b :: rest) = some (1 + Pattern.run Bytes.isSpace rest, r) ∧ r.kind? = none := by
  have hlen : Pattern.space.length? (b :: rest) = some (1 + Pattern.run Bytes.isSpace rest) := by
    have hrun : Pattern.run Bytes.isSpace (b :: rest) = 1 + Pattern.run Bytes.isSpace rest := by
      unfold Pattern.run
      rw [List.takeWhile_cons_of_pos hb, List.length_cons, Nat.add_comm]
    show Pattern.positive? (Pattern.run Bytes.isSpace (b :: rest)) = _
    rw [hrun]
    exact Pattern.positive?_pos (by omega)
  apply longest?_of_bound
  · exact ⟨⟨.space, none⟩, by decide, hlen⟩
  · intro r hr m hm
    have hmem := mem_candidates hr (lead_space hb) hm
    simp only [candidates_space, List.mem_singleton] at hmem
    subst hmem
    injection hlen.symm.trans hm with hlen
    exact ⟨hlen.ge, fun _ => Or.inl rfl⟩

end Lexicon

end StackLang
