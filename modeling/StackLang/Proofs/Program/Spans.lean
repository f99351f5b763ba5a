import StackLang.Proofs.Token.Slicing
import StackLang.Proofs.Program.Joining

namespace StackLang

/-!
# The spans of a program

Each symbol of a program has the span from its first to its last token, so that the part of the
text at that span has the symbol as its program.

* `Symbol.body` — the symbols between the brackets of a symbol; `Program.Level` — the sequences of
  symbols at all depths of a program;
* `Grammar.Atom.cases_tokens` — a symbol has one token, or a sequence between brackets;
* `Grammar.Atom.extent` — the span of a symbol;
* `Grammar.Sequence.pairwise_span`, `Grammar.Atom.body_between` — where symbols stand to each other,
  and to what is between their brackets;
* `Program.parse_slice` — the program of the text at the span of a symbol;
* `Program.spans_exact` — all of this for every symbol at any depth of a program.
-/

/-- The symbols between the brackets of a symbol. -/
def Symbol.body : Symbol → Program
  | .literal (.block body) _ => body
  | .group _ body _ => body
  | _ => []

/-- The sequences of symbols at all depths of a program: itself, and those between the brackets of
    their symbols. -/
inductive Program.Level (program : Program) : Program → Prop
  | top : Level program program
  | inside {p : Program} {s : Symbol} (h : Level program p) (hs : s ∈ p) : Level program s.body

/-! ### Tokens of symbols -/

namespace Token

/-- A symbol denoted by a token stands where the token does. -/
theorem Denotes.span_eq {t : Token} {s : Symbol} (h : t.Denotes s) : s.span = t.span := by
  cases h <;> rfl

theorem Denotes.body_eq {t : Token} {s : Symbol} (h : t.Denotes s) : s.body = [] := by
  cases h <;> rfl

end Token

namespace Grammar

open Token (Ordered Extent)

variable {ts : List Token} {s t : Symbol}

/-- A symbol has one token, or the sequence of its body between two brackets. -/
theorem Atom.cases_tokens (h : Atom ts s) :
    (∃ u, ts = [u] ∧ s.span = u.span ∧ s.body = []) ∨
      ∃ o us c, ts = o :: us ++ [c] ∧ s.span = o.span.cover c.span ∧ Sequence us s.body := by
  cases h with
  | leaf h => exact Or.inl ⟨_, rfl, h.span_eq, h.body_eq⟩
  | list _ _ h => exact Or.inr ⟨_, _, _, rfl, rfl, h⟩
  | tuple _ _ h => exact Or.inr ⟨_, _, _, rfl, rfl, h⟩
  | block _ _ h => exact Or.inr ⟨_, _, _, rfl, rfl, h⟩

/-- The tokens of a body are among those of its symbol. -/
theorem Atom.exists_body (h : Atom ts s) : ∃ us, us <:+: ts ∧ Sequence us s.body := by
  rcases h.cases_tokens with ⟨u, rfl, -, hbody⟩ | ⟨o, us, c, rfl, -, hbody⟩
  · rw [hbody]
    exact ⟨[], List.nil_infix, .nil⟩
  · exact ⟨us, ⟨[o], [c], rfl⟩, hbody⟩

/-- The tokens of a symbol are among those of its sequence. -/
theorem Sequence.exists_atom {ts : List Token} {p : Program} (hs : s ∈ p) :
    Sequence ts p → ∃ us, us <:+: ts ∧ Atom us s
  | .nil => absurd hs List.not_mem_nil
  | @Sequence.cons first rest _ _ ha htail => by
    rcases List.mem_cons.mp hs with rfl | hs
    · exact ⟨first, (List.prefix_append first rest).isInfix, ha⟩
    · obtain ⟨us, hus, hatom⟩ := htail.exists_atom hs
      exact ⟨us, hus.trans (List.suffix_append first rest).isInfix, hatom⟩

/-- The tokens of all depths are among those of the program. -/
theorem Sequence.exists_level {program p : Program} (h : Sequence ts program)
    (hp : Program.Level program p) : ∃ us, us <:+: ts ∧ Sequence us p := by
  induction hp with
  | top => exact ⟨ts, List.infix_rfl, h⟩
  | inside _ hs ih =>
    obtain ⟨us, hus, hseq⟩ := ih
    obtain ⟨vs, hvs, hatom⟩ := hseq.exists_atom hs
    obtain ⟨ws, hws, hbody⟩ := hatom.exists_body
    exact ⟨ws, hws.trans (hvs.trans hus), hbody⟩

/-! ### Spans of symbols -/

/-- **The span of a symbol** goes from its first to its last token. -/
theorem Atom.extent (h : Atom ts s) (hts : Ordered ts) : Extent ts s.span := by
  rcases h.cases_tokens with ⟨u, rfl, hspan, -⟩ | ⟨o, us, c, rfl, hspan, -⟩
  · rw [hspan]
    exact ⟨⟨u, [], rfl, rfl⟩, ⟨[], u, rfl, rfl⟩⟩
  · -- The opening bracket is in front of the closing one, so that they are the ends of the cover.
    have hle : o.span.stop ≤ c.span.start :=
      hts.le_of_append List.mem_cons_self (List.mem_singleton.mpr rfl)
    have ho := hts.nonempty o (by simp)
    have hc := hts.nonempty c (by simp)
    rw [hspan]
    refine ⟨⟨o, us ++ [c], rfl, ?_⟩, ⟨o :: us, c, rfl, ?_⟩⟩
    · exact Nat.min_eq_left (by omega)
    · exact Nat.max_eq_right (by omega)

/-- A symbol begins at one of its tokens, ends at one of them, and is not empty. -/
theorem Atom.exists_ends (h : Atom ts s) (hts : Ordered ts) :
    (∃ u ∈ ts, s.span.start = u.span.start) ∧ (∃ u ∈ ts, s.span.stop = u.span.stop) ∧
      s.span.start < s.span.stop := by
  obtain ⟨⟨u, rest, hfirst, hstart⟩, ⟨front, v, hlast, hstop⟩⟩ := h.extent hts
  have hu : u ∈ ts := by simp [hfirst]
  have hv : v ∈ ts := by simp [hlast]
  refine ⟨⟨u, hu, hstart⟩, ⟨v, hv, hstop⟩, ?_⟩
  have hupos := hts.nonempty u hu
  have hvpos := hts.nonempty v hv
  -- The first token is the last one, or it stands in front of it.
  rw [hfirst] at hv
  rcases List.mem_cons.mp hv with rfl | hv
  · omega
  · rw [hfirst] at hts
    have hle := (List.pairwise_cons.mp hts.pairwise).1 v hv
    omega

/-- **Symbols of a sequence** stand one behind the other. -/
theorem Sequence.pairwise_span {ts : List Token} {p : Program} (hts : Ordered ts) :
    Sequence ts p → p.Pairwise fun s t => s.span.stop ≤ t.span.start
  | .nil => .nil
  | @Sequence.cons first rest _ _ ha htail => by
    have hfirst := hts.part (List.prefix_append first rest).isInfix
    have hrest := hts.part (List.suffix_append first rest).isInfix
    refine .cons (fun t ht => ?_) (htail.pairwise_span hrest)
    -- A later symbol begins at a token of the rest, behind all tokens of the first one.
    obtain ⟨us, hus, hatom⟩ := htail.exists_atom ht
    obtain ⟨-, ⟨u, hu, hstop⟩, -⟩ := ha.exists_ends hfirst
    obtain ⟨⟨v, hv, hstart⟩, -, -⟩ := hatom.exists_ends (hrest.part hus)
    rw [hstop, hstart]
    exact hts.le_of_append hu (hus.subset hv)

/-- **The body of a symbol** is strictly between its brackets. -/
theorem Atom.body_between (h : Atom ts s) (hts : Ordered ts) (ht : t ∈ s.body) :
    s.span.start < t.span.start ∧ t.span.stop < s.span.stop := by
  rcases h.cases_tokens with ⟨u, rfl, -, hbody⟩ | ⟨o, us, c, rfl, hspan, hbody⟩
  · rw [hbody] at ht
    exact absurd ht List.not_mem_nil
  · obtain ⟨vs, hvs, hatom⟩ := hbody.exists_atom ht
    have hvs' : Ordered vs := (hts.part ⟨[o], [c], rfl⟩).part hvs
    obtain ⟨⟨u, hu, hstart⟩, ⟨v, hv, hstop⟩, -⟩ := hatom.exists_ends hvs'
    have ho := hts.nonempty o (by simp)
    have hc := hts.nonempty c (by simp)
    -- The symbol begins and ends at tokens between the brackets.
    have hou : o.span.stop ≤ u.span.start := by
      refine (List.pairwise_cons.mp hts.pairwise).1 u ?_
      simp [hvs.subset hu]
    have hvc : v.span.stop ≤ c.span.start :=
      hts.le_of_append (by simp [hvs.subset hv]) (List.mem_singleton.mpr rfl)
    rw [hspan, hstart, hstop, Span.cover]
    simp only
    omega

end Grammar

/-! ### Parts of a text -/

namespace Program

open Grammar (Sequence Atom)

variable {text : Bytes} {ts : List Token} {s : Symbol}

/-- **The part of a text at the span of a symbol** has the symbol as its program, at positions
    counted from the start of the part. -/
theorem parse_slice (hclean : ∀ p ∈ Piece.scan text, p.role ≠ .aside)
    (hts : ts <:+: Token.scan text) (h : Atom ts s) :
    ∃ s', parse ((text.take s.span.stop).drop s.span.start) = .ok [s'] ∧
      s'.respan (Span.shift s.span.start) = s := by
  have hextent := h.extent ((Token.ordered_scan text).part hts)
  -- The tokens of the part are those of the symbol, further to the left.
  obtain ⟨hslice, htokens⟩ := Token.scan_slice hclean hts hextent
  obtain ⟨s', hatom, hs⟩ := h.of_respan (Span.keepsCover_shift s.span.start) htokens
  have hseq := Sequence.cons hatom .nil
  rw [List.append_nil] at hseq
  exact ⟨s', parseFrom_of_sequence hslice hseq, hs⟩

/-- A symbol that is parsed is equal to itself at other positions. -/
theorem equals_respan {s' : Symbol} {g : Span → Span} (h : parse text = .ok [s']) :
    s'.equals (s'.respan g) = true := by
  have hwell := parse_wellFormed h
  rw [Symbol.areWellFormed, Bool.and_eq_true] at hwell
  exact Symbol.equals_of_unspanned s' _ hwell.1 (Symbol.unspanned_respan g s').symm

/-- **The spans of a program are exact.**  At every depth, symbols stand one behind the other; each
    of them has a span that is not empty and inside the text, strictly between whose first and last
    byte the spans of its body are; and the text at the span alone is parsed as one symbol, which
    is equal to it, and which it is with all spans moved up by the start of its own. -/
theorem spans_exact {program p : Program} (h : parse text = .ok program) (hp : Level program p) :
    p.Pairwise (fun s t => s.span.stop ≤ t.span.start) ∧
    ∀ s ∈ p, (s.span.start < s.span.stop ∧ s.span.stop ≤ text.length) ∧
      (∀ t ∈ s.body, s.span.start < t.span.start ∧ t.span.stop < s.span.stop) ∧
      ∃ s', parse ((text.take s.span.stop).drop s.span.start) = .ok [s'] ∧
        s'.equals s = true ∧ s'.respan (Span.shift s.span.start) = s := by
  obtain ⟨hclean, hseq⟩ := sequence_of_parse h
  obtain ⟨ts, hts, hlevel⟩ := hseq.exists_level hp
  have hordered := (Token.ordered_scan text).part hts
  refine ⟨hlevel.pairwise_span hordered, fun s hs => ?_⟩
  -- The tokens of the symbol lie next to each other among those of the text, and its span goes from
  -- the first to the last.
  obtain ⟨us, hus, hatom⟩ := hlevel.exists_atom hs
  have hordered := hordered.part hus
  obtain ⟨-, ⟨u, hu, hstop⟩, hlt⟩ := hatom.exists_ends hordered
  obtain ⟨s', hparse, hs'⟩ := parse_slice hclean (hus.trans hts) hatom
  refine ⟨⟨hlt, ?_⟩, fun t ht => hatom.body_between hordered ht, s', hparse, ?_, hs'⟩
  · rw [hstop]
    exact Token.stop_le_length ((hus.trans hts).subset hu)
  · have hequals : s'.equals (s'.respan (Span.shift s.span.start)) = true := equals_respan hparse
    rwa [hs'] at hequals

/-- A list inside a block, with brackets in a string and in a comment: its text alone is read as the
    same list, one position to the left. -/
theorem spans_exact_nested :
    let text := utf8 "\x7b[1 ']'] // \x7d\n f\x7d (2)"
    let numbers : Symbol :=
      .group .list [.literal (.int 1) ⟨2, 3⟩, .literal (.str (utf8 "]")) ⟨4, 7⟩] ⟨1, 8⟩
    let body : Program := [numbers, .name (utf8 "f") ⟨15, 16⟩]
    let program : Program :=
      [.literal (.block body) ⟨0, 17⟩, .group .tuple [.literal (.int 2) ⟨19, 20⟩] ⟨18, 21⟩]
    (parse text = .ok program ∧ Level program body) ∧
    body.Pairwise (fun s t => s.span.stop ≤ t.span.start) ∧
    (1 < numbers.span.stop ∧ numbers.span.stop ≤ text.length) ∧
    (∀ t ∈ numbers.body, 1 < t.span.start ∧ t.span.stop < numbers.span.stop) ∧
    ∃ s', parse (utf8 "[1 ']']") = .ok [s'] ∧ s'.equals numbers = true ∧
      s'.respan (Span.shift 1) = numbers := by
  intro text numbers body program
  have hparse : parse text = .ok program := rfl
  have hlevel : Level program body := .inside .top List.mem_cons_self
  obtain ⟨hpairwise, hsymbols⟩ := spans_exact hparse hlevel
  exact ⟨⟨hparse, hlevel⟩, hpairwise, hsymbols numbers List.mem_cons_self⟩

end Program

end StackLang
