import StackLang.Proofs.Token.Shape

namespace StackLang

/-!
# Which rule takes the start of a text

The rules of the lexicon are judged by the languages of their shapes, apart from how these are
matched.

* `Lexicon.Selects` — a rule has the longest start of a text, and no earlier rule has it;
* `Lexicon.longest?_eq_some_iff`, `Lexicon.longest?_eq_none_iff` — `longest?` finds that rule;
* `Lexicon.Viable` — a text that more bytes can turn into a lexeme;
* `Lexicon.FailsAt` — how far a text is read, byte by byte, until no lexeme can come of it;
* `Lexicon.failsAt_of_longest?` — where no rule has a start, that is one byte, or all of a text
  that begins with a quote.
-/

open Bytes (ascii isDigit isSpace)
open scoped Computability

namespace Lexicon

variable {text : Bytes} {n m : Nat} {q r : Rule}

/-! ### Selection -/

/-- The start of `n` bytes has the shape of the rule `r`, no longer start has the shape of any
    rule, and this one has not that of an earlier rule. -/
structure Selects (text : Bytes) (n : Nat) (r : Rule) : Prop where
  le : n ≤ text.length
  mem : text.take n ∈ r.pattern.language
  longest : ∀ q ∈ rules, ∀ w ∈ q.pattern.language, w <+: text → w.length ≤ n
  first : ∃ before after, rules = before ++ r :: after ∧
    ∀ q ∈ before, text.take n ∉ q.pattern.language

/-- The rule that is selected is one of the rules. -/
theorem Selects.mem_rules (h : Selects text n r) : r ∈ rules := by
  obtain ⟨before, after, hrules, -⟩ := h.first
  rw [hrules]
  simp

/-- No other selection is shorter. -/
theorem Selects.length_le (h : Selects text n r) (h' : Selects text m q) : n ≤ m := by
  have hle := h'.longest r h.mem_rules _ h.mem (List.take_prefix n text)
  rwa [List.length_take_of_le h.le] at hle

/-- At most one rule is selected, with one length. -/
theorem Selects.unique (h : Selects text n r) (h' : Selects text m q) : n = m ∧ r = q := by
  obtain rfl : n = m := Nat.le_antisymm (h.length_le h') (h'.length_le h)
  refine ⟨rfl, ?_⟩
  obtain ⟨before, after, hrules, hbefore⟩ := h.first
  obtain ⟨before', after', hrules', hbefore'⟩ := h'.first
  -- Neither rule stands among those in front of the other one.
  rw [hrules] at hrules'
  rcases List.append_eq_append_iff.mp hrules' with ⟨c, hc, hrest⟩ | ⟨c, hc, hrest⟩
  · cases c with
    | nil => exact (List.cons.inj hrest).1
    | cons d c =>
      obtain ⟨rfl, -⟩ := List.cons.inj hrest
      exact absurd h.mem (hbefore' r (by rw [hc]; simp))
  · cases c with
    | nil => exact (List.cons.inj hrest).1.symm
    | cons d c =>
      obtain ⟨rfl, -⟩ := List.cons.inj hrest
      exact absurd h'.mem (hbefore q (by rw [hc]; simp))

/-- A word that a text begins with is matched, perhaps by more. -/
theorem length?_of_mem {p : Pattern} {w : Bytes} (hw : w ∈ p.language) (hpre : w <+: text) :
    ∃ k, p.length? text = some k ∧ w.length ≤ k :=
  (p.longest_length? text).bound w hw hpre

/-- The match that is found is selected. -/
theorem selects_of_longest? (h : longest? text = some (n, r)) : Selects text n r := by
  have hlong := isLongest_of_longest? h
  obtain ⟨before, after, hrules, hr, hbefore, -⟩ := id hlong
  obtain ⟨hle, hmem⟩ := (r.pattern.longest_length? text).mem n hr
  refine ⟨hle, hmem, ?_, before, after, hrules, ?_⟩
  · intro q hq w hw hpre
    obtain ⟨k, hk, hwk⟩ := length?_of_mem hw hpre
    exact Nat.le_trans hwk (hlong.le hq hk)
  · intro q hq hword
    obtain ⟨k, hk, hnk⟩ := length?_of_mem hword (List.take_prefix n text)
    rw [List.length_take_of_le hle] at hnk
    exact absurd (hbefore q hq k hk) (by omega)

/-- The rule that is found is the one that is selected. -/
theorem longest?_eq_some_iff : longest? text = some (n, r) ↔ Selects text n r := by
  constructor
  · exact selects_of_longest?
  · intro h
    obtain ⟨k, hk, -⟩ := length?_of_mem h.mem (List.take_prefix n text)
    obtain ⟨m, q, hfound⟩ := longest?_isSome h.mem_rules hk
    obtain ⟨rfl, rfl⟩ := h.unique (selects_of_longest? hfound)
    exact hfound

/-- No match is found if and only if no start has the shape of a rule. -/
theorem longest?_eq_none_iff :
    longest? text = none ↔ ∀ r ∈ rules, ∀ w ∈ r.pattern.language, ¬ w <+: text := by
  constructor
  · intro h r hr w hw hpre
    obtain ⟨k, hk, -⟩ := length?_of_mem hw hpre
    obtain ⟨m, q, hfound⟩ := longest?_isSome hr hk
    rw [h] at hfound
    exact absurd hfound (by simp)
  · intro h
    cases hfound : longest? text with
    | none => rfl
    | some found =>
      have hsel := selects_of_longest? (n := found.1) (r := found.2) hfound
      exact absurd (List.take_prefix _ text) (h _ hsel.mem_rules _ hsel.mem)

/-- No rule is that of the empty text. -/
theorem pattern_ne_empty : ∀ r ∈ rules, r.pattern ≠ .exact [] := by
  decide

/-- A selection is not empty. -/
theorem Selects.pos (h : Selects text n r) : 0 < n := by
  apply Nat.pos_of_ne_zero
  rintro rfl
  exact Pattern.nil_notMem (pattern_ne_empty r h.mem_rules) (by simpa using h.mem)

/-! ### Dead ends -/

/-- More bytes can make a text a lexeme. -/
def Viable (w : Bytes) : Prop := ∃ r ∈ rules, ∃ u, w ++ u ∈ r.pattern.language

/-- What begins a viable text is viable. -/
theorem Viable.of_prefix {v w : Bytes} (h : Viable w) (hpre : v <+: w) : Viable v := by
  obtain ⟨r, hr, u, hu⟩ := h
  obtain ⟨x, rfl⟩ := hpre
  exact ⟨r, hr, x ++ u, by rwa [← List.append_assoc]⟩

/-- A text is read up to and including the byte with which it becomes a dead end, or to its
    end. -/
structure FailsAt (text : Bytes) (n : Nat) : Prop where
  le : n ≤ text.length
  alive : ∀ k < n, Viable (text.take k)
  stops : Viable (text.take n) → n = text.length

/-- No other failure reads fewer bytes. -/
theorem FailsAt.le_of (h : FailsAt text n) (h' : FailsAt text m) : n ≤ m := by
  by_contra hlt
  have hm := h'.stops (h.alive m (by omega))
  have hn := h.le
  omega

/-- A failure reads a definite number of bytes. -/
theorem FailsAt.unique (h : FailsAt text n) (h' : FailsAt text m) : n = m :=
  Nat.le_antisymm (h.le_of h') (h'.le_of h)

/-- A text that is viable to its end fails there. -/
theorem failsAt_of_viable (h : Viable text) : FailsAt text text.length :=
  ⟨Nat.le_refl _, fun k _ => h.of_prefix (List.take_prefix k text), fun _ => rfl⟩

/-! ### Bytes that begin no lexeme -/

/-- The first byte of an operator is an operator. -/
theorem take_operator : ∀ o ∈ operators, o.take 1 ∈ operators := by
  decide

/-- Brackets and operators have rules of their own. -/
theorem exact_mem_rules {t : Bytes} (h : t ∈ Bracket.all.map Bracket.text ∨ t ∈ operators) :
    ∃ r ∈ rules, t ∈ r.pattern.language := by
  rcases h with h | h
  · obtain ⟨b, hb, rfl⟩ := List.mem_map.mp h
    exact ⟨⟨.exact b.text, some (.bracket b)⟩, by simp [rules, hb], Set.mem_singleton _⟩
  · exact ⟨⟨.exact t, some .operator⟩, by simp [rules, h], Set.mem_singleton _⟩

/-- A byte that has a shape has a rule. -/
theorem shape_mem_rules {b : UInt8} {r : Rule} (hr : r ∈ shapes) (h : [b] ∈ r.pattern.language) :
    ∃ r ∈ rules, [b] ∈ r.pattern.language :=
  ⟨r, by simp [rules, hr], h⟩

/-- A byte outside all classes begins brackets and operators only. -/
theorem exact_of_lead_other {b : UInt8} {u : Bytes} (hb : lead b = .other) (hr : r ∈ rules)
    (h : b :: u ∈ r.pattern.language) :
    [b] ∈ Bracket.all.map Bracket.text ∨ [b] ∈ operators := by
  obtain ⟨k, hk, -⟩ := length?_of_mem h (List.prefix_refl _)
  have hcand := mem_candidates hr hb hk
  rw [candidates_other] at hcand
  rcases List.mem_append.mp hcand with hcand | hcand
  · obtain ⟨c, hc, rfl⟩ := List.mem_map.mp hcand
    left
    have hword : b :: u = c.text := h
    have hlen : c.text.length = 1 := by cases c <;> rfl
    rw [← hword, List.length_cons] at hlen
    rw [show u = [] from List.length_eq_zero_iff.mp (by omega)] at hword
    rw [hword]
    exact List.mem_map_of_mem hc
  · obtain ⟨o, ho, rfl⟩ := List.mem_map.mp hcand
    right
    have hword : b :: u = o := h
    have := take_operator o (List.mem_filter.mp ho).1
    rwa [← hword] at this

/-- A byte that begins a lexeme is one, unless it is a quote. -/
theorem Viable.singleton {b : UInt8} (hb : Piece.isQuote b = false) (h : Viable [b]) :
    ∃ r ∈ rules, [b] ∈ r.pattern.language := by
  obtain ⟨r, hr, u, hu⟩ := h
  by_cases hletter : Pattern.isIdentStart b = true
  · exact shape_mem_rules (r := ⟨.identifier, some .identifier⟩) (by decide)
      (mem_one_mul.mpr ⟨b, [], rfl, hletter, Language.nil_mem_kstar _⟩)
  by_cases hdigit : isDigit b = true
  · refine shape_mem_rules (r := ⟨.integer, some .integer⟩) (by decide) ?_
    exact Language.append_mem_mul (a := []) (Or.inl rfl)
      (mem_one_mul.mpr ⟨b, [], rfl, hdigit, Language.nil_mem_kstar _⟩)
  by_cases hspace : isSpace b = true
  · exact shape_mem_rules (r := ⟨.space, none⟩) (by decide)
      (mem_one_mul.mpr ⟨b, [], rfl, hspace, Language.nil_mem_kstar _⟩)
  by_cases hsign : b = ascii '+' ∨ b = ascii '-' ∨ b = ascii '/'
  · apply exact_mem_rules
    rcases hsign with rfl | rfl | rfl <;> exact Or.inr (by decide)
  · -- What is left are the first bytes of fixed texts.
    rw [not_or, not_or] at hsign
    simp only [Piece.isQuote, Bool.or_eq_false_iff, beq_eq_false_iff_ne] at hb
    have hother : lead b = .other := by simp [lead, hletter, hdigit, hspace, hsign, hb]
    exact exact_mem_rules (exact_of_lead_other hother hr hu)

/-! ### Quotes that nothing closes -/

/-- A string that is not closed is viable. -/
theorem viable_of_quote {rest : Bytes} (h : Pattern.string.length? (ascii '"' :: rest) = none) :
    Viable (ascii '"' :: rest) := by
  obtain ⟨u, hu⟩ := Pattern.exists_stringRest (n := 1) h
  refine ⟨⟨.string, some .string⟩, by decide, u, ?_⟩
  exact mem_one_mul.mpr ⟨ascii '"', rest ++ u, rfl, rfl, hu⟩

/-- A raw string that is not closed is viable. -/
theorem viable_of_rawQuote {rest : Bytes}
    (h : Pattern.rawString.length? (ascii '\'' :: rest) = none) : Viable (ascii '\'' :: rest) := by
  -- No byte of the rest is a quote, so that one behind it closes the string.
  have hall : ∀ b ∈ rest, (b != ascii '\'') = true := by
    have hrun : ¬ Pattern.run (· != ascii '\'') rest < rest.length := by
      intro hlt
      simp [Pattern.length?, hlt] at h
    have htake := List.takeWhile_prefix (l := rest) (· != ascii '\'')
    rw [← htake.eq_of_length_le (Nat.not_lt.mp hrun)]
    exact fun b hb => List.mem_takeWhile_imp (p := (· != ascii '\'')) hb
  refine ⟨⟨.rawString, some .rawString⟩, by decide, [ascii '\''], ?_⟩
  apply mem_one_mul.mpr
  exact ⟨ascii '\'', rest ++ [ascii '\''], rfl, rfl,
    Language.append_mem_mul (mem_many.mpr hall) ⟨ascii '\'', rfl, rfl⟩⟩

/-- If no match is found, then no rule matches. -/
theorem length?_eq_none (h : longest? text = none) (hr : r ∈ rules) :
    r.pattern.length? text = none := by
  cases hk : r.pattern.length? text with
  | none => rfl
  | some k =>
    obtain ⟨m, q, hfound⟩ := longest?_isSome hr hk
    rw [h] at hfound
    exact absurd hfound (by simp)

/-- **Where no rule has a start**, the text is a dead end with its first byte, or it begins with
    a quote that nothing closes. -/
theorem failsAt_of_longest? {b : UInt8} {rest : Bytes} (h : longest? (b :: rest) = none) :
    FailsAt (b :: rest) (if Piece.isQuote b then (b :: rest).length else 1) ∧
      (Piece.isQuote b = false → ¬ Viable [b]) := by
  cases hb : Piece.isQuote b with
  | true =>
    refine ⟨failsAt_of_viable ?_, by simp⟩
    simp only [Piece.isQuote, Bool.or_eq_true, beq_iff_eq] at hb
    rcases hb with rfl | rfl
    · exact viable_of_quote (length?_eq_none (r := ⟨.string, some .string⟩) h (by decide))
    · exact viable_of_rawQuote (length?_eq_none (r := ⟨.rawString, some .rawString⟩) h (by decide))
  | false =>
    have hdead : ¬ Viable [b] := by
      intro hviable
      obtain ⟨r, hr, hmem⟩ := hviable.singleton hb
      exact longest?_eq_none_iff.mp h r hr [b] hmem ⟨rest, rfl⟩
    refine ⟨⟨by simp, ?_, fun hviable => absurd hviable hdead⟩, fun _ => hdead⟩
    intro k hk
    obtain rfl : k = 0 := by simpa using hk
    -- Anything can come of the empty text.
    exact ⟨⟨.exact (utf8 "."), some .operator⟩, by decide, utf8 ".", Set.mem_singleton _⟩

end Lexicon

end StackLang
