import StackLang.Proofs.Program.RoundTrip

namespace StackLang

/-!
# The grammar of programs

A program is a sequence of atoms; an atom is a token that denotes a symbol, or a sequence between
brackets.

* `Token.Denotes`, `Token.Unconvertible` — the symbol of a token other than a bracket, or what is
  reported if it has none;
* `Grammar.Sequence`, `Grammar.Atom` — which tokens are derived, and with which tree;
* `Grammar.parseFrom_sequence` — the parser goes over derived tokens and makes their tree;
* `Program.Takes` — what the parser does with one token that it takes;
* `Program.Opened` — what the groups that are open hold, told by the grammar;
  `Program.Takes.opened` — each token that is taken keeps it.
-/

namespace Token

/-! ### Atoms of one token -/

/-- The symbol of a token other than a bracket. -/
inductive Denotes (t : Token) : Symbol → Prop
  | integer {n : Int64} (hk : t.kind = .integer) (h : Symbol.word? t.lexeme = some n) :
    Denotes t (.literal (.int n) t.span)
  | float {d : Decimal} (hk : t.kind = .float) (h : Decimal.read? t.lexeme = some d) :
    Denotes t (.literal (.float d.toFloat) t.span)
  | string {s : Bytes} (hk : t.kind = .string)
    (h : Quoted.decode? (Symbol.inner t.lexeme) = some s) : Denotes t (.literal (.str s) t.span)
  | rawString (hk : t.kind = .rawString) :
    Denotes t (.literal (.str (Symbol.inner t.lexeme)) t.span)
  | true (hk : t.kind = .keyword) (h : t.lexeme = utf8 "true") :
    Denotes t (.literal (.bool Bool.true) t.span)
  | false (hk : t.kind = .keyword) (h : t.lexeme = utf8 "false") :
    Denotes t (.literal (.bool Bool.false) t.span)
  | name (hk : t.kind = .identifier) : Denotes t (.name t.lexeme t.span)
  | keyword (hk : t.kind = .keyword) (ht : t.lexeme ≠ utf8 "true") (hf : t.lexeme ≠ utf8 "false") :
    Denotes t (.operator t.lexeme t.span)
  | operator (hk : t.kind = .operator) : Denotes t (.operator t.lexeme t.span)

/-- What is reported of a literal that denotes no value. -/
inductive Unconvertible (t : Token) : Failure → Prop
  | integer (hk : t.kind = .integer) (h : Symbol.word? t.lexeme = none) :
    Unconvertible t
      { cause := .invalidLiteral (utf8 "integer") t.lexeme (utf8 "value out of range"),
        span := t.span }
  | float (hk : t.kind = .float) (h : Decimal.read? t.lexeme = none) :
    Unconvertible t
      { cause := .invalidLiteral (utf8 "float") t.lexeme (utf8 "invalid syntax"), span := t.span }
  | string (hk : t.kind = .string) (h : Quoted.decode? (Symbol.inner t.lexeme) = none) :
    Unconvertible t
      { cause := .invalidLiteral (utf8 "string") t.lexeme (utf8 "invalid syntax"),
        span := t.span }

variable {t : Token} {s : Symbol} {f : Failure}

/-- A token that denotes a symbol by itself is no bracket. -/
theorem Denotes.not_bracket (h : t.Denotes s) (b : Bracket) : t.kind ≠ .bracket b := by
  intro hb
  cases h <;> simp_all

/-- The symbol that a token denotes is made of it. -/
theorem Denotes.ofToken_eq (h : t.Denotes s) : Symbol.ofToken t = .ok s := by
  unfold Symbol.ofToken
  cases h with
  | integer hk h => simp only [hk, h]
  | float hk h => simp only [hk, h]
  | string hk h => simp only [hk, h]
  | rawString hk => simp only [hk]
  | true hk h => simp [hk, h]
  | false hk h =>
    have hne : (utf8 "false" == utf8 "true") = Bool.false := by decide
    simp [hk, h, hne]
  | name hk => simp only [hk]
  | keyword hk ht hf => simp [hk, ht, hf]
  | operator hk => simp only [hk]

theorem Unconvertible.not_bracket (h : t.Unconvertible f) (b : Bracket) :
    t.kind ≠ .bracket b := by
  intro hb
  cases h <;> simp_all

theorem Unconvertible.ofToken_eq (h : t.Unconvertible f) : Symbol.ofToken t = .error f := by
  unfold Symbol.ofToken
  cases h with
  | integer hk h =>
    simp only [hk, h]
    rfl
  | float hk h =>
    simp only [hk, h]
    rfl
  | string hk h =>
    simp only [hk, h]
    rfl

/-- A token other than a bracket denotes a symbol, or is a literal that denotes no value. -/
theorem denotes_or_unconvertible (t : Token) (hk : ∀ b, t.kind ≠ .bracket b) :
    (∃ s, t.Denotes s) ∨ ∃ f, t.Unconvertible f := by
  cases hkind : t.kind with
  | identifier => exact Or.inl ⟨_, .name hkind⟩
  | integer =>
    cases h : Symbol.word? t.lexeme with
    | some n => exact Or.inl ⟨_, .integer hkind h⟩
    | none => exact Or.inr ⟨_, .integer hkind h⟩
  | float =>
    cases h : Decimal.read? t.lexeme with
    | some d => exact Or.inl ⟨_, .float hkind h⟩
    | none => exact Or.inr ⟨_, .float hkind h⟩
  | string =>
    cases h : Quoted.decode? (Symbol.inner t.lexeme) with
    | some s => exact Or.inl ⟨_, .string hkind h⟩
    | none => exact Or.inr ⟨_, .string hkind h⟩
  | rawString => exact Or.inl ⟨_, .rawString hkind⟩
  | keyword =>
    by_cases ht : t.lexeme = utf8 "true"
    · exact Or.inl ⟨_, .true hkind ht⟩
    by_cases hf : t.lexeme = utf8 "false"
    · exact Or.inl ⟨_, .false hkind hf⟩
    · exact Or.inl ⟨_, .keyword hkind ht hf⟩
  | bracket b => exact absurd hkind (hk b)
  | operator => exact Or.inl ⟨_, .operator hkind⟩

end Token

/-! ### Derivations -/

namespace Grammar

mutual

/-- A sequence of atoms. -/
inductive Sequence : List Token → Program → Prop
  | nil : Sequence [] []
  | cons {ts us : List Token} {s : Symbol} {ss : Program} (h : Atom ts s) (hs : Sequence us ss) :
    Sequence (ts ++ us) (s :: ss)

/-- A token that denotes a symbol, or a sequence between brackets. -/
inductive Atom : List Token → Symbol → Prop
  | leaf {t : Token} {s : Symbol} (h : t.Denotes s) : Atom [t] s
  | list {o c : Token} {ts : List Token} {body : Program} (ho : o.kind = .bracket .openList)
    (hc : c.kind = .bracket .closeList) (h : Sequence ts body) :
    Atom (o :: ts ++ [c]) (.group .list body (o.span.cover c.span))
  | tuple {o c : Token} {ts : List Token} {body : Program} (ho : o.kind = .bracket .openTuple)
    (hc : c.kind = .bracket .closeTuple) (h : Sequence ts body) :
    Atom (o :: ts ++ [c]) (.group .tuple body (o.span.cover c.span))
  | block {o c : Token} {ts : List Token} {body : Program} (ho : o.kind = .bracket .openBlock)
    (hc : c.kind = .bracket .closeBlock) (h : Sequence ts body) :
    Atom (o :: ts ++ [c]) (.literal (.block body) (o.span.cover c.span))

end

end Grammar

namespace Program

open Grammar (Sequence Atom)

variable {text : Bytes} {opens : List Open} {done : List Symbol} {p : Piece} {rest : List Piece}
  {t : Token} {s : Symbol}

/-! ### One piece -/

/-- The parser passes over gaps. -/
theorem parseFrom_gap (hp : p.role = .gap) :
    parseFrom text opens done (p :: rest) = parseFrom text opens done rest := by
  rw [parseFrom]
  simp only [hp]

/-- The parser adds what becomes of a token other than a bracket, or fails with it. -/
theorem parseFrom_leaf (hp : p.token? = some t) (hk : ∀ b, t.kind ≠ .bracket b) :
    parseFrom text opens done (p :: rest)
      = (Symbol.ofToken t).bind fun s => parseFrom text opens (s :: done) rest := by
  obtain ⟨hrole, hlexeme, hspan⟩ := Piece.token?_eq_some hp
  have ht : t = ⟨t.kind, p.text, p.span⟩ := by
    rw [← hlexeme, ← hspan]
  rw [parseFrom, ht]
  cases hkind : t.kind with
  | bracket b => exact absurd hkind (hk b)
  | _ =>
    rw [hkind] at hrole
    simp only [hrole]
    cases Symbol.ofToken _ <;> rfl

/-- What the parser does with a token that it takes: it adds the symbol of the token, opens a
    group, or closes the innermost one. -/
inductive Takes : List Open → List Symbol → Token → List Open → List Symbol → Prop
  | leaf {opens : List Open} {done : List Symbol} {t : Token} {s : Symbol} (h : t.Denotes s) :
    Takes opens done t opens (s :: done)
  | opening {opens : List Open} {done : List Symbol} {t : Token} {b c : Bracket}
    (ht : t.kind = .bracket b) (hb : b.closer? = some c) :
    Takes opens done t (⟨b, t.span, done⟩ :: opens) []
  | closing {o : Open} {outer : List Open} {done : List Symbol} {t : Token} {c : Bracket}
    (ht : t.kind = .bracket c) (ho : o.bracket.closer? = some c) :
    Takes (o :: outer) done t outer
      (Symbol.ofGroup o.bracket done.reverse (o.span.cover t.span) :: o.before)

/-- The parser takes a token as the grammar tells. -/
theorem parseFrom_takes (hp : p.token? = some t) {opens' : List Open} {done' : List Symbol}
    (h : Takes opens done t opens' done') :
    parseFrom text opens done (p :: rest) = parseFrom text opens' done' rest := by
  obtain ⟨hrole, -, hspan⟩ := Piece.token?_eq_some hp
  cases h with
  | leaf h =>
    rw [parseFrom_leaf hp h.not_bracket, h.ofToken_eq]
    rfl
  | opening ht hb =>
    rw [ht] at hrole
    rw [parseFrom, hspan]
    simp only [hrole, hb]
  | closing ht ho =>
    rw [ht] at hrole
    rw [parseFrom_close ho hrole, hspan]

/-! ### Derived tokens are parsed as their tree -/

/-- Between tokens, the parser goes over gaps. -/
theorem parseFrom_gaps {ps : List Piece} (hclean : ∀ p ∈ ps, p.role ≠ .aside)
    (hnone : ∀ p ∈ ps, p.token? = none) :
    parseFrom text opens done (ps ++ rest) = parseFrom text opens done rest := by
  induction ps with
  | nil => rfl
  | cons p ps ih =>
    have hgap : p.role = .gap := by
      cases hrole : p.role with
      | gap => rfl
      | aside => exact absurd hrole (hclean p List.mem_cons_self)
      | token k => exact absurd (hnone p List.mem_cons_self) (by simp [Piece.token?, hrole])
    rw [List.cons_append, parseFrom_gap hgap]
    exact ih (fun q hq => hclean q (List.mem_cons_of_mem _ hq))
      (fun q hq => hnone q (List.mem_cons_of_mem _ hq))

/-- Over pieces with these tokens, and with nothing set aside, the parser goes from one state to
    another one. -/
def Goes (ts : List Token) (opens : List Open) (done : List Symbol) (opens' : List Open)
    (done' : List Symbol) : Prop :=
  ∀ text ps rest, ps.filterMap Piece.token? = ts → (∀ p ∈ ps, p.role ≠ .aside) →
    parseFrom text opens done (ps ++ rest) = parseFrom text opens' done' rest

theorem goes_nil (opens : List Open) (done : List Symbol) : Goes [] opens done opens done := by
  intro text ps rest hps hclean
  exact parseFrom_gaps hclean (List.filterMap_eq_nil_iff.mp hps)

/-- The parser goes on by a token that it takes. -/
theorem goes_takes {opens' : List Open} {done' : List Symbol} (h : Takes opens done t opens' done') :
    Goes [t] opens done opens' done' := by
  intro text ps rest hps hclean
  obtain ⟨front, p, back, rfl, hfront, hp, hback⟩ := List.filterMap_eq_cons_iff.mp hps
  rw [List.append_assoc, parseFrom_gaps (fun q hq => hclean q (by simp [hq])) hfront,
    List.cons_append, parseFrom_takes hp h]
  exact goes_nil opens' done' text back rest hback (fun q hq => hclean q (by simp [hq]))

/-- The parser goes over tokens put together part by part. -/
theorem Goes.append {ts us : List Token} {opens₁ opens₂ opens₃ : List Open}
    {done₁ done₂ done₃ : List Symbol} (h : Goes ts opens₁ done₁ opens₂ done₂)
    (h' : Goes us opens₂ done₂ opens₃ done₃) : Goes (ts ++ us) opens₁ done₁ opens₃ done₃ := by
  intro text ps rest hps hclean
  obtain ⟨front, back, rfl, hfront, hback⟩ := List.filterMap_eq_append_iff.mp hps
  rw [List.append_assoc, h text front (back ++ rest) hfront fun q hq => hclean q (by simp [hq])]
  exact h' text back rest hback fun q hq => hclean q (by simp [hq])

/-- The parser goes over a sequence between brackets as over one symbol. -/
theorem goes_group {o c : Token} {ts : List Token} {body : Program} {b b' : Bracket}
    (ho : o.kind = .bracket b) (hb : b.closer? = some b') (hc : c.kind = .bracket b')
    (h : ∀ opens done, Goes ts opens done opens (body.reverse ++ done)) (opens : List Open)
    (done : List Symbol) :
    Goes (o :: ts ++ [c]) opens done opens
      (Symbol.ofGroup b body (o.span.cover c.span) :: done) := by
  have hopen : Goes [o] opens done (⟨b, o.span, done⟩ :: opens) [] := goes_takes (.opening ho hb)
  have hbody := h (⟨b, o.span, done⟩ :: opens) []
  rw [List.append_nil] at hbody
  have hclose : Goes [c] (⟨b, o.span, done⟩ :: opens) body.reverse opens
      (Symbol.ofGroup b body (o.span.cover c.span) :: done) := by
    have htakes : Takes (⟨b, o.span, done⟩ :: opens) body.reverse c opens _ := .closing hc hb
    rw [List.reverse_reverse] at htakes
    exact goes_takes htakes
  exact (hopen.append hbody).append hclose

end Program

namespace Grammar

open Program (Goes goes_nil goes_takes goes_group)

mutual

/-- **Derived tokens** are parsed as their tree. -/
theorem Sequence.goes {ts : List Token} {ss : Program} (opens : List Open) (done : List Symbol) :
    Sequence ts ss → Goes ts opens done opens (ss.reverse ++ done)
  | .nil => goes_nil opens done
  | .cons h hs => by
    rw [List.reverse_cons, List.append_assoc]
    exact (h.goes opens done).append (hs.goes opens _)

/-- Over the tokens of a symbol the parser goes on by this symbol. -/
theorem Atom.goes {ts : List Token} {s : Symbol} (opens : List Open) (done : List Symbol) :
    Atom ts s → Goes ts opens done opens (s :: done)
  | .leaf h => goes_takes (.leaf h)
  | .list ho hc h => goes_group ho rfl hc (fun opens done => h.goes opens done) opens done
  | .tuple ho hc h => goes_group ho rfl hc (fun opens done => h.goes opens done) opens done
  | .block ho hc h => goes_group ho rfl hc (fun opens done => h.goes opens done) opens done

end

/-! ### What is parsed is derived -/

/-- A symbol may be added to the end of a sequence. -/
theorem Sequence.concat {ts us : List Token} {ss : Program} {s : Symbol} :
    Sequence ts ss → Atom us s → Sequence (ts ++ us) (ss ++ [s])
  | .nil, h => by
    have hs := Sequence.cons h .nil
    rwa [List.append_nil] at hs
  | .cons h hs, h' => by
    rw [List.append_assoc]
    exact .cons h (hs.concat h')

/-- A sequence between partners among the brackets is one symbol. -/
theorem atom_group {o c : Token} {ts : List Token} {body : Program} {b b' : Bracket}
    (ho : o.kind = .bracket b) (hb : b.closer? = some b') (hc : c.kind = .bracket b')
    (h : Sequence ts body) :
    Atom (o :: ts ++ [c]) (Symbol.ofGroup b body (o.span.cover c.span)) := by
  cases b with
  | openList =>
    obtain rfl := Option.some.inj hb
    exact .list ho hc h
  | openTuple =>
    obtain rfl := Option.some.inj hb
    exact .tuple ho hc h
  | openBlock =>
    obtain rfl := Option.some.inj hb
    exact .block ho hc h
  | _ => exact absurd hb (by simp [Bracket.closer?])

end Grammar

namespace Program

open Grammar (Sequence Atom)

/-- What the parser holds behind some tokens: in front of, inside and between the groups that are
    open stand sequences. -/
inductive Opened : List Token → List Open → List Symbol → Prop
  | outside {ts : List Token} {done : List Symbol} (h : Sequence ts done.reverse) :
    Opened ts [] done
  | inside {ts us : List Token} {o : Token} {b c : Bracket} {opens : List Open}
    {before done : List Symbol} (hbefore : Opened ts opens before) (ho : o.kind = .bracket b)
    (hb : b.closer? = some c) (h : Sequence us done.reverse) :
    Opened (ts ++ o :: us) (⟨b, o.span, before⟩ :: opens) done

/-- Outside of all groups, the tokens are derived. -/
theorem Opened.sequence {ts : List Token} {done : List Symbol} (h : Opened ts [] done) :
    Sequence ts done.reverse := by
  cases h with
  | outside h => exact h

/-- A symbol may be added to what the parser holds. -/
theorem Opened.concat {ts us : List Token} {opens : List Open} {done : List Symbol} {s : Symbol}
    (h : Opened ts opens done) (hs : Atom us s) : Opened (ts ++ us) opens (s :: done) := by
  cases h with
  | outside h =>
    apply Opened.outside
    rw [List.reverse_cons]
    exact h.concat hs
  | inside hbefore ho hb h =>
    rw [List.append_assoc, List.cons_append]
    apply Opened.inside hbefore ho hb
    rw [List.reverse_cons]
    exact h.concat hs

/-- Each token that is taken keeps what the parser holds. -/
theorem Takes.opened {ts : List Token} {t : Token} {opens opens' : List Open}
    {done done' : List Symbol} (h : Takes opens done t opens' done') (ho : Opened ts opens done) :
    Opened (ts ++ [t]) opens' done' := by
  cases h with
  | leaf h => exact ho.concat (.leaf h)
  | opening ht hb => exact .inside ho ht hb .nil
  | closing ht hc =>
    cases ho with
    | inside hbefore hopen _ hbody =>
      -- The innermost group and its brackets are an atom of what is around it.
      rw [List.append_assoc]
      exact hbefore.concat (Grammar.atom_group hopen hc ht hbody)

end Program

end StackLang
