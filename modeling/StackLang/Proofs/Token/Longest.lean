import StackLang.Token.Scan
import Mathlib.Data.List.Induction
import Mathlib.Tactic.Common

namespace StackLang

/-!
# The longest match

* `Lexicon.IsLongest` — a rule matches a length that no rule exceeds and no earlier rule reaches;
* `Lexicon.isLongest_of_longest?` — what `longest?` finds is such a rule, and
  `Lexicon.longest?_isSome` — it finds one if any rule matches;
* `Lexicon.longest?_of_bound` — the kind of the longest match from a bound on all matches;
* `Lexicon.keyword_precedes` — keywords stand in front of identifiers;
* `Lexicon.Lead`, `Lexicon.lead` — what a lexeme may begin with, and
  `Pattern.leads_of_length?` — which of these the shapes begin with;
* `Lexicon.candidates`, `Lexicon.mem_candidates` — the few rules that can match at all.
-/

namespace Lexicon

/-! ### The fold over the rules -/

/-- Of the rules, `r` is the first one that matches as many as `n` bytes, and none matches
    more. -/
def IsLongest (text : Bytes) (rules : List Rule) (n : Nat) (r : Rule) : Prop :=
  ∃ before after, rules = before ++ r :: after ∧ r.pattern.length? text = some n ∧
    (∀ q ∈ before, ∀ m, q.pattern.length? text = some m → m < n) ∧
    ∀ q ∈ after, ∀ m, q.pattern.length? text = some m → m ≤ n

variable {text : Bytes} {rules : List Rule} {n : Nat} {r : Rule}

/-- One more rule that matches no more bytes does not change the first longest match. -/
theorem IsLongest.concat (h : IsLongest text rules n r) {q : Rule}
    (hq : ∀ m, q.pattern.length? text = some m → m ≤ n) : IsLongest text (rules ++ [q]) n r := by
  obtain ⟨before, after, rfl, hr, hbefore, hafter⟩ := h
  refine ⟨before, after ++ [q], by simp, hr, hbefore, ?_⟩
  intro p hp
  rcases List.mem_append.mp hp with hp | hp
  · exact hafter p hp
  · rw [List.mem_singleton.mp hp]
    exact hq

/-- No rule matches more bytes than the longest match. -/
theorem IsLongest.le (h : IsLongest text rules n r) {q : Rule} (hq : q ∈ rules) {m : Nat}
    (hm : q.pattern.length? text = some m) : m ≤ n := by
  obtain ⟨before, after, rfl, hr, hbefore, hafter⟩ := h
  rcases List.mem_append.mp hq with hq | hq
  · exact Nat.le_of_lt (hbefore q hq m hm)
  · rcases List.mem_cons.mp hq with rfl | hq
    · rw [hr] at hm
      injection hm with hm
      omega
    · exact hafter q hq m hm

/-- One more rule that matches more bytes than all others is the first longest match. -/
theorem isLongest_last {q : Rule} (hn : q.pattern.length? text = some n)
    (hrules : ∀ p ∈ rules, ∀ m, p.pattern.length? text = some m → m < n) :
    IsLongest text (rules ++ [q]) n q :=
  ⟨rules, [], rfl, hn, hrules, fun _ hp => absurd hp List.not_mem_nil⟩

/-- The fold keeps the first longest match of the rules that it has gone through. -/
theorem foldl_better (text : Bytes) (rules : List Rule) :
    (rules.foldl (better text) none = none ∧ ∀ r ∈ rules, r.pattern.length? text = none) ∨
      ∃ n r, rules.foldl (better text) none = some (n, r) ∧ IsLongest text rules n r := by
  -- The fold takes the rules from the front, so the induction adds them at the end.
  induction rules using List.reverseRecOn with
  | nil => exact Or.inl ⟨rfl, fun _ hr => absurd hr List.not_mem_nil⟩
  | append_singleton rules q ih =>
    rw [List.foldl_append, List.foldl_cons, List.foldl_nil]
    rcases ih with ⟨hnone, hall⟩ | ⟨n, r, hsome, hlong⟩
    · rw [hnone]
      cases hq : q.pattern.length? text with
      | none =>
        refine Or.inl ⟨by simp [better, hq], ?_⟩
        intro p hp
        rcases List.mem_append.mp hp with hp | hp
        · exact hall p hp
        · rw [List.mem_singleton.mp hp, hq]
      | some k =>
        refine Or.inr ⟨k, q, by simp [better, hq], isLongest_last hq ?_⟩
        intro p hp m hm
        rw [hall p hp] at hm
        exact absurd hm (by simp)
    · rw [hsome]
      refine Or.inr ?_
      cases hq : q.pattern.length? text with
      | none =>
        refine ⟨n, r, by simp [better, hq], hlong.concat ?_⟩
        intro m hm
        rw [hq] at hm
        exact absurd hm (by simp)
      | some k =>
        -- Only a strictly longer match takes over.
        by_cases hk : n < k
        · refine ⟨k, q, by simp [better, hq, hk], isLongest_last hq ?_⟩
          intro p hp m hm
          exact Nat.lt_of_le_of_lt (hlong.le hp hm) hk
        · refine ⟨n, r, by simp [better, hq, hk], hlong.concat ?_⟩
          intro m hm
          rw [hq] at hm
          injection hm with hm
          omega

/-- The match that is found is the first longest one. -/
theorem isLongest_of_longest? (h : longest? text = some (n, r)) :
    IsLongest text Lexicon.rules n r := by
  rcases foldl_better text Lexicon.rules with ⟨hnone, -⟩ | ⟨m, q, hsome, hlong⟩
  · rw [longest?, hnone] at h
    exact absurd h (by simp)
  · rw [longest?, hsome] at h
    injection h with h
    obtain ⟨rfl, rfl⟩ := Prod.mk.inj h
    exact hlong

/-- A match is found if a rule has one. -/
theorem longest?_isSome (hr : r ∈ Lexicon.rules) (hn : r.pattern.length? text = some n) :
    ∃ m q, longest? text = some (m, q) := by
  rcases foldl_better text Lexicon.rules with ⟨-, hall⟩ | ⟨m, q, hsome, -⟩
  · rw [hall r hr] at hn
    exact absurd hn (by simp)
  · exact ⟨m, q, hsome⟩

/-- A rule stands in front of another one among the rules. -/
def Precedes (q r : Rule) : Prop :=
  ∀ before after, Lexicon.rules = before ++ r :: after → q ∈ before

/-- If no match is longer than a given one, and all that are as long make tokens of one kind or
    stand behind another one, the longest match makes a token of that kind. -/
theorem longest?_of_bound {kind? : Option Token.Kind}
    (hmatch : ∃ r ∈ Lexicon.rules, r.pattern.length? text = some n)
    (hbound : ∀ r ∈ Lexicon.rules, ∀ m, r.pattern.length? text = some m → m ≤ n ∧
      (m = n → r.kind? = kind? ∨ ∃ q, q.pattern.length? text = some n ∧ Precedes q r)) :
    ∃ r, longest? text = some (n, r) ∧ r.kind? = kind? := by
  obtain ⟨q, hq, hn⟩ := hmatch
  obtain ⟨m, r, hlong⟩ := longest?_isSome hq hn
  have hspec := isLongest_of_longest? hlong
  have hle := hspec.le hq hn
  -- The match that was found is as long as the given one.
  obtain ⟨before, after, hrules, hr, hbefore, -⟩ := hspec
  obtain ⟨hmn, hkind⟩ := hbound r (by rw [hrules]; simp) m hr
  obtain rfl : m = n := by omega
  rcases hkind rfl with hk | ⟨p, hp, hprec⟩
  · exact ⟨r, hlong, hk⟩
  · exact absurd (hbefore p (hprec before after hrules) m hp) (Nat.lt_irrefl m)

/-- Keywords stand in front of identifiers. -/
theorem keyword_precedes {k : Bytes} (hk : k ∈ keywords) :
    Precedes ⟨.exact k, some .keyword⟩ ⟨.identifier, some .identifier⟩ := by
  intro before after hrules
  unfold Lexicon.rules at hrules
  rw [List.append_assoc, List.append_assoc] at hrules
  have hmem : (⟨.exact k, some .keyword⟩ : Rule) ∈
      keywords.map fun k => (⟨.exact k, some .keyword⟩ : Rule) := List.mem_map_of_mem hk
  rcases List.append_eq_append_iff.mp hrules with ⟨c, hc, -⟩ | ⟨c, hc, hrest⟩
  · rw [hc]
    exact List.mem_append_left _ hmem
  · -- The rule for identifiers is none of those for keywords.
    cases c with
    | nil =>
      rw [List.append_nil] at hc
      rwa [← hc]
    | cons d c =>
      injection hrest with hd _
      have hin : (⟨.identifier, some .identifier⟩ : Rule) ∈
          keywords.map fun k => (⟨.exact k, some .keyword⟩ : Rule) := by
        rw [hc, hd]
        simp
      exact absurd hin (by decide)

end Lexicon

/-! ### What lexemes begin with -/

namespace Lexicon

open Bytes (ascii isDigit isSpace)

/-- What a lexeme begins with. -/
inductive Lead where
  | letter
  | digit
  | sign
  | slash
  | quote
  | rawQuote
  | space
  | other
deriving DecidableEq, Repr

/-- What a byte is as the first one of a lexeme. -/
def lead (b : UInt8) : Lead :=
  if Pattern.isIdentStart b then .letter
  else if isDigit b then .digit
  else if b == ascii '+' || b == ascii '-' then .sign
  else if b == ascii '/' then .slash
  else if b == ascii '"' then .quote
  else if b == ascii '\'' then .rawQuote
  else if isSpace b then .space
  else .other

/-- A digit begins numerals. -/
theorem lead_digit {b : UInt8} (h : isDigit b = true) : lead b = .digit := by
  have hrange : 48 ≤ b.toNat ∧ b.toNat ≤ 57 := by
    simpa [isDigit, UInt8.le_iff_toNat_le] using h
  -- Digits come before all letters and the underscore.
  have hident : Pattern.isIdentStart b = false := by
    have hunder : b ≠ ascii '_' := by
      rintro rfl
      exact absurd hrange (by decide)
    simp only [Pattern.isIdentStart, Bytes.isLetter, UInt8.le_iff_toNat_le, UInt8.reduceToNat]
    simp [hunder]
    omega
  simp [lead, hident, h]

/-- A white-space byte begins white space. -/
theorem lead_space {b : UInt8} (h : isSpace b = true) : lead b = .space := by
  simp only [isSpace, Bool.or_eq_true, beq_iff_eq] at h
  rcases h with ((rfl | rfl) | rfl) | rfl <;> decide

end Lexicon

namespace Pattern

open Bytes (ascii isDigit isSpace)
open Lexicon (lead lead_digit lead_space)

variable {b : UInt8} {rest : Bytes} {n : Nat}

/-- A fixed text matches where the text begins with it, with its length. -/
theorem length?_exact {t text : Bytes} :
    (exact t).length? text = some n ↔ t <+: text ∧ n = t.length := by
  show (if t.isPrefixOf text then some t.length else none) = some n ↔ _
  by_cases h : t.isPrefixOf text = true
  · rw [if_pos h]
    simp [List.isPrefixOf_iff_prefix.mp h, eq_comm]
  · rw [if_neg h]
    simp [mt List.isPrefixOf_iff_prefix.mpr h]

/-- Signed digits begin with a digit or a sign. -/
theorem lead_of_signedDigits? (h : signedDigits? (b :: rest) = some n) :
    lead b = .digit ∨ lead b = .sign := by
  -- Without a sign the digits begin at once.
  by_cases hs : b = ascii '+' ∨ b = ascii '-'
  · rcases hs with rfl | rfl <;> exact Or.inr (by decide)
  · have hsign : sign (b :: rest) = 0 := by
      simpa [sign] using hs
    by_cases hd : isDigit b = true
    · exact Or.inl (lead_digit hd)
    · rw [signedDigits?, hsign] at h
      simp [run, hd, positive?] at h

/-- What a text of a shape begins with; a fixed text begins like the text. -/
def leads : Pattern → Lexicon.Lead → Bool
  | exact t, l => t.head?.all (lead · == l)
  | comment, l => l == .slash
  | string, l => l == .quote
  | rawString, l => l == .rawQuote
  | identifier, l => l == .letter
  | decimal, l => l == .digit || l == .sign
  | scientific, l => l == .digit || l == .sign
  | integer, l => l == .digit || l == .sign
  | space, l => l == .space

/-- Every kind of numeral begins with an optional sign and digits. -/
theorem exists_signedDigits? {p : Pattern} {text : Bytes}
    (hp : p = .decimal ∨ p = .scientific ∨ p = .integer) (h : p.length? text = some n) :
    ∃ k, signedDigits? text = some k := by
  cases hk : signedDigits? text with
  | none => rcases hp with rfl | rfl | rfl <;> simp [length?, hk] at h
  | some k => exact ⟨k, rfl⟩

/-- Numerals begin as their shape tells. -/
theorem leads_of_numeral {p : Pattern} (hp : p = .decimal ∨ p = .scientific ∨ p = .integer)
    (h : p.length? (b :: rest) = some n) : p.leads (lead b) = true := by
  obtain ⟨k, hk⟩ := exists_signedDigits? hp h
  rcases lead_of_signedDigits? hk with hl | hl <;> rcases hp with rfl | rfl | rfl <;>
    simp [leads, hl]

/-- What a shape matches begins as the shape tells. -/
theorem leads_of_length? {p : Pattern} (h : p.length? (b :: rest) = some n) :
    p.leads (lead b) = true := by
  -- Each shape demands something of the first byte, which rules out all leads but its own.
  cases p with
  | exact t =>
    cases t with
    | nil => rfl
    | cons c t =>
      have hc : c = b := (List.cons_prefix_cons.mp (length?_exact.mp h).1).1
      simp [leads, hc]
  | comment =>
    cases rest with
    | nil => simp [length?] at h
    | cons c rest =>
      simp only [length?] at h
      split_ifs at h with hslash
      simp only [Bool.and_eq_true, beq_iff_eq] at hslash
      rw [hslash.1]
      decide
  | string =>
    simp only [length?] at h
    split_ifs at h with hquote
    rw [beq_iff_eq.mp hquote]
    decide
  | rawString =>
    simp only [length?] at h
    split_ifs at h with hquote
    simp only [Bool.and_eq_true, beq_iff_eq] at hquote
    rw [hquote.1]
    decide
  | identifier =>
    simp only [length?] at h
    split_ifs at h with hstart
    simp [leads, lead, hstart]
  | decimal => exact leads_of_numeral (by simp) h
  | scientific => exact leads_of_numeral (by simp) h
  | integer => exact leads_of_numeral (by simp) h
  | space =>
    have hb : isSpace b = true := by
      by_contra hb
      simp [length?, run, hb, positive?] at h
    simp [leads, lead_space hb]

end Pattern

namespace Lexicon

/-- The rules whose lexemes begin in a way. -/
def candidates (l : Lead) : List Rule := rules.filter (·.pattern.leads l)

/-- A rule that matches is one whose lexemes begin with the first byte. -/
theorem mem_candidates {b : UInt8} {rest : Bytes} {r : Rule} {n : Nat} {l : Lead}
    (hr : r ∈ rules) (hl : lead b = l) (hn : r.pattern.length? (b :: rest) = some n) :
    r ∈ candidates l := by
  rw [← hl]
  exact List.mem_filter.mpr ⟨hr, Pattern.leads_of_length? hn⟩

/-- A letter begins keywords and identifiers. -/
theorem candidates_letter : candidates .letter
    = keywords.map (fun k => ⟨.exact k, some .keyword⟩) ++ [⟨.identifier, some .identifier⟩] := by
  decide

theorem candidates_digit : candidates .digit
    = [⟨.decimal, some .float⟩, ⟨.scientific, some .float⟩, ⟨.integer, some .integer⟩] := by
  decide

/-- A sign begins numerals and the operators of one sign. -/
theorem candidates_sign : candidates .sign
    = [⟨.decimal, some .float⟩, ⟨.scientific, some .float⟩, ⟨.integer, some .integer⟩,
      ⟨.exact (utf8 "+"), some .operator⟩, ⟨.exact (utf8 "-"), some .operator⟩] := by
  decide

theorem candidates_slash : candidates .slash
    = [⟨.comment, none⟩, ⟨.exact (utf8 "/"), some .operator⟩] := by
  decide

theorem candidates_quote : candidates .quote = [⟨.string, some .string⟩] := by
  decide

theorem candidates_space : candidates .space = [⟨.space, none⟩] := by
  decide

/-- Other bytes begin brackets and the other operators. -/
theorem candidates_other : candidates .other
    = Bracket.all.map (fun b => ⟨.exact b.text, some (.bracket b)⟩)
      ++ (operators.filter (· ∉ [utf8 "/", utf8 "+", utf8 "-"])).map
        (fun o => ⟨.exact o, some .operator⟩) := by
  decide

end Lexicon

end StackLang
