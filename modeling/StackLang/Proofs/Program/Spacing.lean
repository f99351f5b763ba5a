import StackLang.Proofs.Token.Spacing
import StackLang.Proofs.Program.Joining

namespace StackLang

/-!
# Programs of texts with other white space

What parsing gives, program or failure, depends on the types and the lexemes of the tokens of a
text, but for positions.  So white space between tokens, and comments, can be written in any way.

* `Program.unplaced` — what parsing gives, without positions;
* `Token.piece`, `Program.parse_eq_of_clean` — the parser sees nothing but the tokens of a text in
  which nothing is set aside;
* `Program.parseFrom_congr` — over the same tokens at other positions, the parser gives the same at
  other positions;
* `Program.unplaced_parse`, `Program.parse_congr` — texts with the same tokens are parsed as the
  same, and have the same program, but for positions;
* `Program.respacing_keeps_tokens` — a text with other white space has the same tokens and is
  parsed as the same.
-/

/-! ### Parsing without positions -/

/-- A failure without its position. -/
def Failure.unplaced (f : Failure) : Failure := { f with span := .none }

/-- An open group without its positions. -/
def Open.unplaced (o : Open) : Open := ⟨o.bracket, .none, Symbol.unspannedAll o.before⟩

@[simp] theorem Open.bracket_unplaced (o : Open) : o.unplaced.bracket = o.bracket := rfl

@[simp] theorem Open.before_unplaced (o : Open) :
    o.unplaced.before = Symbol.unspannedAll o.before := rfl

@[simp] theorem Token.kind_unplaced (t : Token) : t.unplaced.kind = t.kind := rfl

/-- The positions may be dropped before or after turning a sequence around. -/
theorem Symbol.unspannedAll_reverse (ss : List Symbol) :
    unspannedAll ss.reverse = (unspannedAll ss).reverse := by
  rw [unspannedAll_eq, unspannedAll_eq, List.map_reverse]

/-- What parsing gives, without its positions. -/
def Program.unplaced : Except Failure Program → Except Failure Program
  | .ok p => .ok (Symbol.unspannedAll p)
  | .error f => .error f.unplaced

namespace Token

variable {t u : Token}

/-- A token at another position denotes the same symbol there. -/
theorem Denotes.of_unplaced (h : t.unplaced = u.unplaced) {s : Symbol} (hs : t.Denotes s) :
    ∃ s', u.Denotes s' ∧ s'.unspanned = s.unspanned := by
  have hnone := hs.respan fun _ => .none
  rw [show t.respan (fun _ => .none) = u.respan fun _ => .none from h] at hnone
  obtain ⟨s', hs', heq⟩ := hnone.of_respan
  refine ⟨s', hs', ?_⟩
  rw [← Symbol.unspanned_respan (fun _ => .none) s', heq, Symbol.unspanned_respan]

/-- A literal that denotes no value is reported as the same at another position. -/
theorem Unconvertible.of_unplaced (h : t.unplaced = u.unplaced) {f : Failure}
    (hf : t.Unconvertible f) : ∃ f', u.Unconvertible f' ∧ f'.unplaced = f.unplaced := by
  obtain ⟨k, w, span⟩ := t
  obtain ⟨k', w', span'⟩ := u
  obtain ⟨rfl, rfl, -⟩ := Token.mk.inj h
  cases hf with
  | integer hk h => exact ⟨_, .integer hk h, rfl⟩
  | float hk h => exact ⟨_, .float hk h, rfl⟩
  | string hk h => exact ⟨_, .string hk h, rfl⟩

/-- A token as a piece of a text. -/
def piece (t : Token) : Piece := ⟨.token t.kind, t.span.start, t.lexeme⟩

end Token

namespace Program

variable {text text' : Bytes} {opens opens' : List Open} {done done' : List Symbol}

/-! ### The parser and tokens -/

/-- The parser sees the tokens and what is set aside, but no gaps. -/
theorem parseFrom_solid (text : Bytes) (opens : List Open) (done : List Symbol) (ps : List Piece) :
    parseFrom text opens done (Piece.solid ps) = parseFrom text opens done ps := by
  induction ps generalizing opens done with
  | nil => rfl
  | cons p ps ih =>
    by_cases hgap : p.role = .gap
    · rw [Piece.solid_cons_gap hgap, ih, parseFrom_gap hgap]
    · -- Whatever the parser does with the piece, it goes on with the others.
      rw [Piece.solid_cons_of_ne hgap, parseFrom, parseFrom]
      simp only [ih]

/-- The pieces of a text that are no gaps are its tokens, if nothing is set aside. -/
theorem solid_eq_tokens {ps : List Piece} (hclean : ∀ p ∈ ps, p.role ≠ .aside) :
    Piece.solid ps = (ps.filterMap Piece.token?).map Token.piece := by
  induction ps with
  | nil => rfl
  | cons p ps ih =>
    obtain ⟨hp, hps⟩ := List.forall_mem_cons.mp hclean
    obtain ⟨role, start, w⟩ := p
    cases role with
    | gap => rw [Piece.solid_cons_gap rfl, ih hps]; rfl
    | aside => exact absurd rfl hp
    | token k =>
      rw [Piece.solid_cons_of_ne (by simp), ih hps]
      rfl

/-- **The parser sees nothing but tokens**, if nothing is set aside. -/
theorem parse_eq_of_clean (hclean : ∀ p ∈ Piece.scan text, p.role ≠ .aside) :
    parse text = parseFrom text [] [] ((Token.scan text).map Token.piece) := by
  rw [parse, ← parseFrom_solid, solid_eq_tokens hclean]
  rfl

/-- Tokens that differ in their positions give the same symbol, or the same failure, but for its
    positions. -/
theorem ofToken_congr {t u : Token} (h : t.unplaced = u.unplaced) (hk : ∀ b, t.kind ≠ .bracket b) :
    (∃ r s, Symbol.ofToken t = .ok r ∧ Symbol.ofToken u = .ok s ∧ r.unspanned = s.unspanned) ∨
      ∃ f g, Symbol.ofToken t = .error f ∧ Symbol.ofToken u = .error g ∧
        f.unplaced = g.unplaced := by
  rcases t.denotes_or_unconvertible hk with ⟨s, hs⟩ | ⟨f, hf⟩
  · obtain ⟨s', hs', heq⟩ := hs.of_unplaced h
    exact Or.inl ⟨s, s', hs.ofToken_eq, hs'.ofToken_eq, heq.symm⟩
  · obtain ⟨f', hf', heq⟩ := hf.of_unplaced h
    exact Or.inr ⟨f, f', hf.ofToken_eq, hf'.ofToken_eq, heq.symm⟩

/-- A group is the same as one of the same symbols, but for positions. -/
theorem unspanned_group {b : Bracket} {body body' : Program}
    (h : Symbol.unspannedAll body = Symbol.unspannedAll body') (span span' : Span) :
    (Symbol.ofGroup b body span).unspanned = (Symbol.ofGroup b body' span').unspanned :=
  (unspanned_ofGroup b span h).trans (unspanned_ofGroup b span' rfl).symm

/-- **Over the same tokens at other positions**, behind the same symbols and open groups at other
    positions, the parser gives the same at other positions. -/
theorem parseFrom_congr {ts us : List Token} (h : ts.map Token.unplaced = us.map Token.unplaced)
    (hopens : opens.map Open.unplaced = opens'.map Open.unplaced)
    (hdone : Symbol.unspannedAll done = Symbol.unspannedAll done') :
    unplaced (parseFrom text opens done (ts.map Token.piece)) =
      unplaced (parseFrom text' opens' done' (us.map Token.piece)) := by
  induction ts generalizing us opens opens' done done' with
  | nil =>
    obtain rfl := List.map_eq_nil_iff.mp h.symm
    cases opens with
    | nil =>
      obtain rfl := List.map_eq_nil_iff.mp hopens.symm
      simp only [List.map_nil, parseFrom, unplaced, Symbol.unspannedAll_reverse, hdone]
    | cons o outer =>
      obtain ⟨o', outer', rfl, ho, -⟩ := List.map_eq_cons_iff.mp hopens.symm
      have hbracket : o'.bracket = o.bracket := by simpa using congrArg Open.bracket ho
      simp only [List.map_nil, parseFrom, unplaced, Failure.unplaced, hbracket]
  | cons t ts ih =>
    obtain ⟨u, us, rfl, hu, hrest⟩ := List.map_eq_cons_iff.mp h.symm
    have hkind : u.kind = t.kind := by simpa using congrArg Token.kind hu
    rw [List.map_cons, List.map_cons]
    by_cases hk : ∃ b, t.kind = .bracket b
    · obtain ⟨b, hb⟩ := hk
      rw [parseFrom, parseFrom]
      simp only [Token.piece, hkind, hb]
      cases b.closer? with
      | some c =>
        -- The symbols in front of the group wait with it.
        exact ih hrest.symm (congrArg₂ List.cons (congrArg (Open.mk b .none) hdone) hopens) rfl
      | none =>
        cases opens with
        | nil =>
          obtain rfl := List.map_eq_nil_iff.mp hopens.symm
          rfl
        | cons o outer =>
          obtain ⟨o', outer', rfl, ho, houter⟩ := List.map_eq_cons_iff.mp hopens.symm
          have hbracket : o'.bracket = o.bracket := by simpa using congrArg Open.bracket ho
          have hbefore : Symbol.unspannedAll o'.before = Symbol.unspannedAll o.before := by
            simpa using congrArg Open.before ho
          simp only [hbracket]
          split
          · -- The group is closed behind the symbols in front of it.
            have hbody : Symbol.unspannedAll done.reverse = Symbol.unspannedAll done'.reverse := by
              rw [Symbol.unspannedAll_reverse, Symbol.unspannedAll_reverse, hdone]
            exact ih hrest.symm houter.symm
              (congrArg₂ List.cons (unspanned_group hbody _ _) hbefore.symm)
          · -- Another group is open, or nothing is closed by the bracket: only the place is reported.
            cases o.bracket.closer? <;> rfl
    · have hnot : ∀ b, t.kind ≠ .bracket b := fun b hb => hk ⟨b, hb⟩
      -- The parser reads the token off the piece, at the place of the piece.
      have hplaced : (t.respan fun _ => t.piece.span).unplaced
          = (u.respan fun _ => u.piece.span).unplaced := hu.symm
      rw [parseFrom_leaf (t := t.respan fun _ => t.piece.span) rfl hnot,
        parseFrom_leaf (t := u.respan fun _ => u.piece.span) rfl fun b => hkind ▸ hnot b]
      rcases ofToken_congr hplaced hnot with ⟨r, s, hr, hs, heq⟩ | ⟨f, g, hf, hg, heq⟩
      · rw [hr, hs]
        exact ih hrest.symm hopens (congrArg₂ List.cons heq hdone)
      · rw [hf, hg]
        exact congrArg Except.error heq

/-! ### Texts with the same tokens -/

/-- **Texts with the same tokens** are parsed as the same, but for positions. -/
theorem unplaced_parse (hclean : ∀ p ∈ Piece.scan text, p.role ≠ .aside)
    (hclean' : ∀ p ∈ Piece.scan text', p.role ≠ .aside)
    (htokens : (Token.scan text').map Token.unplaced = (Token.scan text).map Token.unplaced) :
    unplaced (parse text') = unplaced (parse text) := by
  rw [parse_eq_of_clean hclean, parse_eq_of_clean hclean']
  exact parseFrom_congr htokens rfl rfl

/-- Programs that are the same without positions are both parsed or both refused. -/
theorem exists_of_unplaced_ok {r : Except Failure Program} {p : Program}
    (h : unplaced r = unplaced (.ok p)) :
    ∃ q, r = .ok q ∧ Symbol.unspannedAll q = Symbol.unspannedAll p := by
  cases r with
  | ok q => exact ⟨q, rfl, Except.ok.inj h⟩
  | error f => cases h

/-- **Texts with the same tokens** have the same program, but for its positions. -/
theorem parse_congr {p : Program} (h : parse text = .ok p)
    (hclean : ∀ p ∈ Piece.scan text', p.role ≠ .aside)
    (htokens : (Token.scan text').map Token.unplaced = (Token.scan text).map Token.unplaced) :
    ∃ q, parse text' = .ok q ∧ Symbol.unspannedAll q = Symbol.unspannedAll p := by
  have hsame := unplaced_parse (sequence_of_parse h).1 hclean htokens
  rw [h] at hsame
  exact exists_of_unplaced_ok hsame

/-- **Tokens survive respacing.**  If nothing is set aside in a text, then nothing is if its lexemes
    are put apart by other white space, which gives the same types and lexemes; and what any text
    is parsed as depends on the types and lexemes of its tokens only, but for positions. -/
theorem respacing_keeps_tokens (hclean : ∀ p ∈ Piece.scan text, p.role ≠ .aside) :
    (∀ lead parts, Token.Respacing (Token.scan text) lead parts →
      (∀ p ∈ Piece.scan (lead ++ Token.joined parts), p.role ≠ .aside) ∧
        (Token.scan (lead ++ Token.joined parts)).map Token.label
          = (Token.scan text).map Token.label ∧
        unplaced (parse (lead ++ Token.joined parts)) = unplaced (parse text)) ∧
      ∀ text', (∀ p ∈ Piece.scan text', p.role ≠ .aside) →
        (Token.scan text').map Token.label = (Token.scan text).map Token.label →
        unplaced (parse text') = unplaced (parse text) := by
  refine ⟨fun lead parts h => ?_, fun text' hclean' hlabels => ?_⟩
  · obtain ⟨hclean', htokens⟩ := Token.scan_respaced h
    exact ⟨hclean', Token.map_label_of_unplaced htokens, unplaced_parse hclean hclean' htokens⟩
  · have hlexemes := congrArg (List.map Prod.snd) hlabels
    rw [List.map_map, List.map_map] at hlexemes
    exact unplaced_parse hclean hclean' (Token.map_unplaced_of_lexemes
      (fun _ => Lexicon.Scans.of_mem) (fun _ => Lexicon.Scans.of_mem) hlexemes)

/-- Signs that touch numerals and names, a string that holds slashes, and a comment. -/
def tight : Bytes := utf8 "[-1-x/\"// \"]// y"

/-- Tabs and newlines between the lexemes of `tight` keep its tokens. -/
theorem respacing_keeps_tokens_tight :
    let parts := (Token.scan tight).map (·, utf8 "\t\n")
    (∀ p ∈ Piece.scan tight, p.role ≠ .aside) ∧
    Token.Respacing (Token.scan tight) (utf8 " ") parts ∧
    Token.joined parts = utf8 "[\t\n-1\t\n-\t\nx\t\n/\t\n\"// \"\t\n]\t\n" ∧
    (∀ p ∈ Piece.scan (utf8 " " ++ Token.joined parts), p.role ≠ .aside) ∧
    (Token.scan (utf8 " " ++ Token.joined parts)).map Token.lexeme
      = [utf8 "[", utf8 "-1", utf8 "-", utf8 "x", utf8 "/", utf8 "\"// \"", utf8 "]"] ∧
    ∃ p q, parse tight = .ok p ∧ parse (utf8 " " ++ Token.joined parts) = .ok q ∧
      Symbol.unspannedAll q = Symbol.unspannedAll p := by
  intro parts
  have hclean : ∀ p ∈ Piece.scan tight, p.role ≠ .aside := by decide
  have hparts : Token.Respacing (Token.scan tight) (utf8 " ") parts :=
    Token.respacing_uniform (List.all_eq_true.mp rfl) (by decide) (List.all_eq_true.mp rfl)
  obtain ⟨p, hp⟩ : ∃ p, parse tight = .ok p := ⟨_, rfl⟩
  obtain ⟨hclean', hlabels, hparse⟩ := (respacing_keeps_tokens hclean).1 _ _ hparts
  rw [hp] at hparse
  obtain ⟨q, hq, hsame⟩ := exists_of_unplaced_ok hparse
  have hlexemes := congrArg (List.map Prod.snd) hlabels
  rw [List.map_map, List.map_map] at hlexemes
  exact ⟨hclean, hparts, by decide, hclean', hlexemes.trans (by decide), p, q, hp, hq, hsame⟩

end Program

end StackLang
