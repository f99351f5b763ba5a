import StackLang.Value.Compare
import StackLang.Program.Parse
import StackLang.Proofs.Token.Lexeme

namespace StackLang

/-!
# Well-formed programs

* `Symbol.isWellFormed` — a symbol that source text can denote;
* `Symbol.unspanned` — a symbol without its positions;
* `Symbol.equalsAll_of_unspanned` — well-formed programs that agree up to positions are equal;
* `Program.parse_wellFormed` — every program that is read from a text is well-formed.
-/

open Bytes (ascii)

/-! ### Definitions -/

namespace Lexicon

/-- The keywords that are operators. -/
def wordOperators : List Bytes :=
  [utf8 "not", utf8 "and", utf8 "or", utf8 "if", utf8 "while", utf8 "do"]

/-- A name: it has the shape of an identifier and is no keyword. -/
def isName (s : Bytes) : Bool := isWord s && !keywords.contains s

/-- An operator: a sign or a keyword. -/
def isOperator (s : Bytes) : Bool := operators.contains s || wordOperators.contains s

end Lexicon

mutual

/-- A value that a literal can denote. -/
def Value.isWellFormed : Value → Bool
  | .bool _ => true
  | .int _ => true
  | .float x => !x.isNaN
  | .str _ => true
  | .list _ _ => false
  | .tuple _ => false
  | .block body => Symbol.areWellFormed body

/-- A symbol that source text can denote. -/
def Symbol.isWellFormed : Symbol → Bool
  | .literal v _ => v.isWellFormed
  | .name s _ => Lexicon.isName s
  | .operator s _ => Lexicon.isOperator s
  | .group .list body _ => Symbol.areWellFormed body
  | .group .tuple body _ => Symbol.areWellFormed body
  | .group .unspecified _ _ => false
  | .blank _ => false

/-- A program that source text can denote. -/
def Symbol.areWellFormed : List Symbol → Bool
  | [] => true
  | s :: ss => s.isWellFormed && Symbol.areWellFormed ss

end

mutual

/-- A value without the positions inside its blocks. -/
def Value.unspanned : Value → Value
  | .bool b => .bool b
  | .int n => .int n
  | .float x => .float x
  | .str s => .str s
  | .list i vs => .list i (Value.unspannedAll vs)
  | .tuple vs => .tuple (Value.unspannedAll vs)
  | .block body => .block (Symbol.unspannedAll body)

/-- Values without the positions inside their blocks. -/
def Value.unspannedAll : List Value → List Value
  | [] => []
  | v :: vs => v.unspanned :: Value.unspannedAll vs

/-- A symbol without its positions. -/
def Symbol.unspanned : Symbol → Symbol
  | .literal v _ => .literal v.unspanned .none
  | .name s _ => .name s .none
  | .operator s _ => .operator s .none
  | .group k body _ => .group k (Symbol.unspannedAll body) .none
  | .blank _ => .blank .none

/-- A program without its positions. -/
def Symbol.unspannedAll : List Symbol → List Symbol
  | [] => []
  | s :: ss => s.unspanned :: Symbol.unspannedAll ss

end

/-- The positions of a program are dropped symbol by symbol. -/
theorem Symbol.unspannedAll_eq (ss : List Symbol) :
    Symbol.unspannedAll ss = ss.map Symbol.unspanned := by
  induction ss with
  | nil => rfl
  | cons s ss ih => rw [Symbol.unspannedAll, ih, List.map_cons]

/-- A program is well-formed if and only if its symbols are. -/
theorem Symbol.areWellFormed_iff {ss : List Symbol} :
    Symbol.areWellFormed ss = true ↔ ∀ s ∈ ss, s.isWellFormed = true := by
  induction ss with
  | nil => simp [Symbol.areWellFormed]
  | cons s ss ih => simp [Symbol.areWellFormed, ih]

/-- A well-formed program may be turned around. -/
theorem Symbol.areWellFormed_reverse (ss : List Symbol) :
    Symbol.areWellFormed ss.reverse = Symbol.areWellFormed ss := by
  rw [Bool.eq_iff_iff, Symbol.areWellFormed_iff, Symbol.areWellFormed_iff]
  simp only [List.mem_reverse]

/-! ### Equality up to positions -/

mutual

/-- A well-formed value is equal to any that differs from it in positions alone. -/
theorem Value.equals_of_unspanned : ∀ (v w : Value), v.isWellFormed = true →
    v.unspanned = w.unspanned → v.kind = w.kind ∧ v.equals w = true
  | .bool a, w, _, h => by
    cases w <;> simp_all [Value.unspanned, Value.equals, Value.kind]
  | .int a, w, _, h => by
    cases w <;> simp_all [Value.unspanned, Value.equals, Value.kind]
  | .float x, w, hx, h => by
    -- A float equals itself unless it is NaN.
    have hnan : x.isNaN = false := (Bool.not_eq_true' _).mp hx
    have hself := Parts.beq_self hnan
    cases w <;> simp_all [Value.unspanned, Value.equals, Value.kind]
  | .str a, w, _, h => by
    cases w <;> simp_all [Value.unspanned, Value.equals, Value.kind]
  | .list i vs, w, hv, _ => by simp [Value.isWellFormed] at hv
  | .tuple vs, w, hv, _ => by simp [Value.isWellFormed] at hv
  | .block body, w, hv, h => by
    cases w with
    | block other =>
      injection h with h
      refine ⟨rfl, ?_⟩
      rw [Value.equals]
      exact Symbol.equalsAll_of_unspanned body other hv h
    | _ => simp [Value.unspanned] at h

/-- A well-formed symbol is equal to any that differs from it in positions alone. -/
theorem Symbol.equals_of_unspanned : ∀ (s t : Symbol), s.isWellFormed = true →
    s.unspanned = t.unspanned → s.equals t = true
  | .literal v _, t, hs, h => by
    cases t with
    | literal w _ =>
      injection h with h
      obtain ⟨hk, he⟩ := Value.equals_of_unspanned v w hs h
      simp [Symbol.equals, hk, he]
    | _ => simp [Symbol.unspanned] at h
  | .name a _, t, _, h => by
    cases t <;> simp_all [Symbol.unspanned, Symbol.equals]
  | .operator a _, t, _, h => by
    cases t <;> simp_all [Symbol.unspanned, Symbol.equals]
  | .group k body _, t, hs, h => by
    cases t with
    | group l other _ =>
      injection h with hk h
      have hbody : Symbol.areWellFormed body = true := by
        cases k <;> first | exact hs | simp [Symbol.isWellFormed] at hs
      simp [Symbol.equals, hk, Symbol.equalsAll_of_unspanned body other hbody h]
    | _ => simp [Symbol.unspanned] at h
  | .blank _, t, hs, _ => by simp [Symbol.isWellFormed] at hs

/-- Well-formed programs that differ in positions alone are equal. -/
theorem Symbol.equalsAll_of_unspanned : ∀ (ss ts : List Symbol), Symbol.areWellFormed ss = true →
    Symbol.unspannedAll ss = Symbol.unspannedAll ts → Symbol.equalsAll ss ts = true
  | [], ts, _, h => by
    cases ts with
    | nil => rw [Symbol.equalsAll]
    | cons t ts => simp [Symbol.unspannedAll] at h
  | s :: ss, ts, hs, h => by
    cases ts with
    | nil => simp [Symbol.unspannedAll] at h
    | cons t ts =>
      injection h with h1 h2
      rw [Symbol.areWellFormed, Bool.and_eq_true] at hs
      rw [Symbol.equalsAll, Symbol.equals_of_unspanned s t hs.1 h1,
        Symbol.equalsAll_of_unspanned ss ts hs.2 h2]
      rfl

end

/-! ### What the scanner cuts off -/

namespace Token

/-- What the text of a token of a kind is known to be. -/
def Admits : Kind → Bytes → Prop
  | .identifier, text => Lexicon.isName text = true
  | .keyword, text => text ∈ Lexicon.keywords
  | .operator, text => text ∈ Lexicon.operators
  | _, _ => True

end Token

namespace Lexicon

variable {text : Bytes} {n : Nat} {r : Rule}

/-- What a fixed pattern takes is its own text. -/
theorem take_of_exact {t : Bytes} (h : (Pattern.exact t).length? text = some n) :
    text.take n = t := by
  obtain ⟨⟨rest, rfl⟩, rfl⟩ := Pattern.length?_exact.mp h
  rw [List.take_left]

/-- What the pattern of identifiers takes is a word, as a whole. -/
theorem isWord_take (h : Pattern.identifier.length? text = some n) :
    isWord (text.take n) = true ∧ (text.take n).length = n := by
  cases text with
  | nil => simp [Pattern.length?] at h
  | cons b rest =>
    simp only [Pattern.length?] at h
    split_ifs at h with hb
    injection h with h
    have htake : (b :: rest).take n = b :: rest.takeWhile Pattern.isIdentPart := by
      rw [← h, Nat.add_comm, List.take_succ_cons]
      congr 1
      exact (List.prefix_iff_eq_take.mp (List.takeWhile_prefix _)).symm
    rw [htake]
    refine ⟨isWord_iff.mpr ⟨b, _, rfl, hb, fun c hc => List.mem_takeWhile_imp hc⟩, ?_⟩
    rw [← h, List.length_cons, Nat.add_comm]
    rfl

/-- Identifiers are the tokens of one rule. -/
theorem rule_identifier : ∀ r ∈ rules, r.kind? = some .identifier →
    r = ⟨.identifier, some .identifier⟩ := by
  decide

theorem rule_keyword : ∀ r ∈ rules, r.kind? = some .keyword →
    ∃ w ∈ keywords, r.pattern = .exact w := by
  decide

theorem rule_operator : ∀ r ∈ rules, r.kind? = some .operator →
    ∃ o ∈ operators, r.pattern = .exact o := by
  decide

/-- An identifier is no keyword: the rule of the keyword would have come first. -/
theorem isName_of_longest? (h : longest? text = some (n, ⟨.identifier, some .identifier⟩)) :
    isName (text.take n) = true := by
  obtain ⟨before, after, hrules, hn, hbefore, -⟩ := isLongest_of_longest? h
  obtain ⟨hword, hlen⟩ := isWord_take hn
  -- The rule of the keyword would match as many bytes.
  have hkey : text.take n ∉ keywords := by
    intro hmem
    have hmatch : (Pattern.exact (text.take n)).length? text = some n :=
      Pattern.length?_exact.mpr ⟨List.take_prefix n text, hlen.symm⟩
    exact Nat.lt_irrefl n (hbefore _ (keyword_precedes hmem before after hrules) n hmatch)
  simp [isName, hword, hkey]

/-- The lexeme of the longest match is what its kind promises. -/
theorem admits_of_longest? {k : Token.Kind} (h : longest? text = some (n, r))
    (hk : r.kind? = some k) : Token.Admits k (text.take n) := by
  obtain ⟨before, after, hrules, hn, -⟩ := isLongest_of_longest? h
  have hr : r ∈ rules := by
    rw [hrules]
    simp
  cases k with
  | identifier =>
    obtain rfl := rule_identifier r hr hk
    exact isName_of_longest? h
  | keyword =>
    obtain ⟨w, hw, hpattern⟩ := rule_keyword r hr hk
    rw [hpattern] at hn
    show text.take n ∈ keywords
    rwa [take_of_exact hn]
  | operator =>
    obtain ⟨o, ho, hpattern⟩ := rule_operator r hr hk
    rw [hpattern] at hn
    show text.take n ∈ operators
    rwa [take_of_exact hn]
  | _ => trivial

end Lexicon

namespace Piece

/-- A piece whose text is what its kind promises, if it is a token. -/
def Sound (p : Piece) : Prop := ∀ k, p.role = .token k → Token.Admits k p.text

/-- The first piece of a text is what its kind promises. -/
theorem sound_first (pos : Nat) (b : UInt8) (rest : Bytes) : (first pos b rest).Sound := by
  intro k hk
  unfold first at hk ⊢
  cases hlong : Lexicon.longest? (b :: rest) with
  | none =>
    rw [hlong] at hk
    exact Role.noConfusion hk
  | some found =>
    obtain ⟨n, r⟩ := found
    simp only [hlong] at hk ⊢
    cases hkind : r.kind? with
    | none =>
      simp only [hkind] at hk
      exact absurd hk (by simp)
    | some k' =>
      simp only [hkind] at hk ⊢
      injection hk with hk
      subst hk
      exact Lexicon.admits_of_longest? hlong hkind

/-- All pieces of a text are what their kinds promise. -/
theorem sound_scanFrom (pos skip : Nat) (text : Bytes) : ∀ p ∈ scanFrom pos skip text, p.Sound := by
  induction text generalizing pos skip with
  | nil =>
    intro p hp
    cases skip <;> exact absurd hp (by simp [scanFrom])
  | cons b rest ih =>
    cases skip with
    | succ skip => exact ih (pos + 1) skip
    | zero =>
      intro p hp
      rw [scanFrom, List.mem_cons] at hp
      rcases hp with rfl | hp
      · exact sound_first pos b rest
      · exact ih _ _ p hp

end Piece

/-! ### What the parser makes of it -/

namespace Symbol

/-- A keyword is a truth value or an operator. -/
theorem keyword_cases : ∀ k ∈ Lexicon.keywords,
    k = utf8 "true" ∨ k = utf8 "false" ∨ Lexicon.isOperator k = true := by
  decide

/-- The symbol of a token is well-formed. -/
theorem wellFormed_ofToken {t : Token} (ht : Token.Admits t.kind t.lexeme)
    (hbracket : ∀ b, t.kind ≠ .bracket b) {s : Symbol} (h : ofToken t = .ok s) :
    s.isWellFormed = true := by
  obtain ⟨kind, lexeme, span⟩ := t
  unfold ofToken at h
  cases kind with
  | identifier =>
    injection h with h
    rw [← h]
    exact ht
  | integer =>
    simp only at h
    split at h
    · injection h with h
      rw [← h]
      rfl
    · exact absurd h (by simp)
  | float =>
    simp only at h
    split at h
    · injection h with h
      rw [← h]
      show (!Float.isNaN _) = true
      rw [Decimal.isNaN_toFloat]
      rfl
    · exact absurd h (by simp)
  | string =>
    simp only at h
    split at h
    · injection h with h
      rw [← h]
      rfl
    · exact absurd h (by simp)
  | rawString =>
    injection h with h
    rw [← h]
    rfl
  | keyword =>
    simp only at h
    split_ifs at h with htrue hfalse
    · injection h with h
      rw [← h]
      rfl
    · injection h with h
      rw [← h]
      rfl
    · injection h with h
      rw [← h]
      -- All keywords but the two truth values are operators.
      rcases keyword_cases lexeme ht with rfl | rfl | hop
      · exact absurd rfl htrue
      · exact absurd rfl hfalse
      · exact hop
  | bracket b => exact absurd rfl (hbracket b)
  | operator =>
    injection h with h
    rw [← h]
    have hmem : lexeme ∈ Lexicon.operators := ht
    simp [isWellFormed, Lexicon.isOperator, hmem]

/-- A closed group with a well-formed body is well-formed. -/
theorem wellFormed_ofGroup (b : Bracket) {body : Program} (span : Span)
    (h : areWellFormed body = true) : (ofGroup b body span).isWellFormed = true := by
  cases b <;> exact h

end Symbol

namespace Program

/-- What a parse that goes well can make of a piece: it skips a gap, adds a symbol, opens a group
    or closes the innermost one. -/
theorem parseFrom_cons_ok {text : Bytes} {opens : List Open} {done : List Symbol} {p : Piece}
    {rest : List Piece} {program : Program}
    (h : parseFrom text opens done (p :: rest) = .ok program) :
    (p.role = .gap ∧ parseFrom text opens done rest = .ok program) ∨
    (∃ k s, p.role = .token k ∧ (∀ b, k ≠ .bracket b) ∧ Symbol.ofToken ⟨k, p.text, p.span⟩ = .ok s ∧
      parseFrom text opens (s :: done) rest = .ok program) ∨
    (∃ b, p.role = .token (.bracket b) ∧
      parseFrom text (⟨b, p.span, done⟩ :: opens) [] rest = .ok program) ∨
    ∃ b o outer, p.role = .token (.bracket b) ∧ opens = o :: outer ∧ o.bracket.closer? = some b ∧
      parseFrom text outer
        (Symbol.ofGroup o.bracket done.reverse (o.span.cover p.span) :: o.before) rest = .ok program := by
  rw [parseFrom] at h
  cases hrole : p.role with
  | gap =>
    rw [hrole] at h
    exact Or.inl ⟨rfl, h⟩
  | aside =>
    rw [hrole] at h
    exact absurd h (by simp)
  | token k =>
    rw [hrole] at h
    cases k with
    | bracket b =>
      cases hcloser : b.closer? with
      | some c =>
        simp only [hcloser] at h
        exact Or.inr (Or.inr (Or.inl ⟨b, rfl, h⟩))
      | none =>
        simp only [hcloser] at h
        -- A closing bracket must be the one that the innermost group waits for.
        cases opens with
        | nil => exact absurd h (by simp)
        | cons o outer =>
          simp only at h
          split_ifs at h with ho
          exact Or.inr (Or.inr (Or.inr ⟨b, o, outer, rfl, rfl, beq_iff_eq.mp ho, h⟩))
    | _ =>
      simp only at h
      split at h
      · rename_i s hs
        exact Or.inr (Or.inl ⟨_, s, rfl, by simp, hs, h⟩)
      · exact absurd h (by simp)

/-- Whatever the parser returns is well-formed, if the symbols that it holds already are. -/
theorem parseFrom_wellFormed (text : Bytes) (pieces : List Piece) (hp : ∀ p ∈ pieces, p.Sound)
    (opens : List Open) (hopens : ∀ o ∈ opens, Symbol.areWellFormed o.before = true)
    (done : List Symbol) (hdone : Symbol.areWellFormed done = true) {program : Program}
    (h : parseFrom text opens done pieces = .ok program) :
    Symbol.areWellFormed program = true := by
  -- The invariant: all symbols that are held, inside and outside of open groups, are well-formed.
  induction pieces generalizing opens done with
  | nil =>
    cases opens with
    | nil =>
      injection h with h
      rw [← h, Symbol.areWellFormed_reverse]
      exact hdone
    | cons o opens => exact absurd h (by simp [parseFrom])
  | cons p rest ih =>
    have hrest : ∀ q ∈ rest, q.Sound := fun q hq => hp q (List.mem_cons_of_mem _ hq)
    rcases parseFrom_cons_ok h with ⟨-, h⟩ | ⟨k, s, hrole, hk, hs, h⟩ | ⟨b, -, h⟩ |
      ⟨b, o, outer, -, rfl, -, h⟩
    · exact ih hrest opens hopens done hdone h
    · have hsym := Symbol.wellFormed_ofToken (t := ⟨k, p.text, p.span⟩)
        (hp p List.mem_cons_self k hrole) hk hs
      exact ih hrest opens hopens (s :: done) (by simp [Symbol.areWellFormed, hsym, hdone]) h
    · refine ih hrest _ ?_ [] rfl h
      intro o ho
      rcases List.mem_cons.mp ho with rfl | ho
      · exact hdone
      · exact hopens o ho
    · have hbody : Symbol.areWellFormed done.reverse = true := by
        rwa [Symbol.areWellFormed_reverse]
      have hsym := Symbol.wellFormed_ofGroup o.bracket (o.span.cover p.span) hbody
      refine ih hrest outer (fun q hq => hopens q (List.mem_cons_of_mem _ hq)) _ ?_ h
      rw [Symbol.areWellFormed, hsym, hopens o List.mem_cons_self]
      rfl

/-- Every program that is read from a text is well-formed. -/
theorem parse_wellFormed {text : Bytes} {program : Program} (h : parse text = .ok program) :
    Symbol.areWellFormed program = true :=
  parseFrom_wellFormed text _ (Piece.sound_scanFrom 0 0 text) [] (by simp) [] rfl h

end Program

end StackLang
