import StackLang.Proofs.Program.Grammar

namespace StackLang

/-!
# Exactly the texts of the grammar are parsed

* `Token.pending` — the brackets that are open behind some tokens, innermost first;
* `Token.Fault`, `Piece.Fault` — what is wrong with a token or piece behind others;
* `Program.Violation` — all that is wrong with a text, and where; `Program.Leftmost` — the first
  of it;
* `Program.Reached` — the invariant of the parser: what it holds is told by the grammar, and
  nothing is wrong with what it has gone over; `Program.Reached.step` — each piece keeps it, or is
  at fault; `Program.Reached.run` — it holds at the end of the text, or a piece is at fault;
* `Program.parse_iff_derived` — a text is parsed as the tree that the grammar gives its tokens, or
  its leftmost violation is reported.
-/

/-! ### Violations -/

namespace Token

/-- The open brackets behind one more token: a closing bracket closes the innermost one. -/
def nest (opened : List Token) (t : Token) : List Token :=
  match t.kind with
  | .bracket b => if b.closer?.isSome then t :: opened else opened.tail
  | _ => opened

/-- The brackets that are open behind some tokens, innermost first. -/
def pending (ts : List Token) : List Token := ts.foldl nest []

/-- The brackets that are open behind one more token. -/
theorem pending_concat (ts : List Token) (t : Token) :
    pending (ts ++ [t]) = nest (pending ts) t := by
  unfold pending
  rw [List.foldl_append, List.foldl_cons, List.foldl_nil]

/-- What is wrong with a token behind others: it is a literal that denotes no value, or it closes
    no group, or another one than the innermost. -/
inductive Fault (before : List Token) (t : Token) : Failure → Prop
  | literal {f : Failure} (h : t.Unconvertible f) : Fault before t f
  | unexpected {c : Bracket} (ht : t.kind = .bracket c) (hc : c.closer? = none)
    (h : pending before = []) :
    Fault before t { cause := .unexpectedBracket c.text, span := t.span }
  | mismatched {c b e : Bracket} {o : Token} {outer : List Token} (ht : t.kind = .bracket c)
    (hc : c.closer? = none) (h : pending before = o :: outer) (ho : o.kind = .bracket b)
    (hb : b.closer? = some e) (hne : e ≠ c) :
    Fault before t { cause := .mismatchedBracket c.text e.text, span := t.span }

/-- Only one thing is wrong with a token. -/
theorem Fault.unique {before : List Token} {t : Token} {f f' : Failure} (h : Fault before t f)
    (h' : Fault before t f') : f = f' := by
  cases h with
  | literal h =>
    cases h' with
    | literal h' => exact Except.error.inj (h.ofToken_eq.symm.trans h'.ofToken_eq)
    | unexpected ht => exact absurd ht (h.not_bracket _)
    | mismatched ht => exact absurd ht (h.not_bracket _)
  | unexpected ht hc hp =>
    cases h' with
    | literal h' => exact absurd ht (h'.not_bracket _)
    | unexpected ht' => simp_all
    | mismatched ht' hc' hp' => simp_all
  | mismatched ht hc hp ho hb hne =>
    cases h' with
    | literal h' => exact absurd ht (h'.not_bracket _)
    | unexpected ht' hc' hp' => simp_all
    | mismatched ht' hc' hp' ho' hb' hne' => simp_all

/-- A numeral or quoted string denotes a value. -/
def Converts (t : Token) : Prop :=
  (t.kind = .integer → ∃ n, Symbol.word? t.lexeme = some n) ∧
    (t.kind = .float → ∃ d, Decimal.read? t.lexeme = some d) ∧
    (t.kind = .string → ∃ s, Quoted.decode? (Symbol.inner t.lexeme) = some s)

/-- A token that is not unconvertible denotes a value, if it is a numeral or a string. -/
theorem converts_of_not_unconvertible {t : Token} (h : ∀ f, ¬ t.Unconvertible f) : t.Converts := by
  refine ⟨fun hk => ?_, fun hk => ?_, fun hk => ?_⟩
  · exact Option.ne_none_iff_exists'.mp fun hnone => h _ (.integer hk hnone)
  · exact Option.ne_none_iff_exists'.mp fun hnone => h _ (.float hk hnone)
  · exact Option.ne_none_iff_exists'.mp fun hnone => h _ (.string hk hnone)

end Token

/-- What is wrong with a piece of a text behind others. -/
inductive Piece.Fault (text : Bytes) (before : List Piece) (p : Piece) : Failure → Prop
  | unscannable (h : p.role = .aside) :
    Fault text before p { cause := .illegalInput (.ofPiece text p) }
  | token {t : Token} {f : Failure} (hp : p.token? = some t)
    (h : Token.Fault (before.filterMap Piece.token?) t f) : Fault text before p f

/-- Only one thing is wrong with a piece. -/
theorem Piece.Fault.unique {text : Bytes} {before : List Piece} {p : Piece} {f f' : Failure}
    (h : Fault text before p f) (h' : Fault text before p f') : f = f' := by
  cases h with
  | unscannable h =>
    cases h' with
    | unscannable _ => rfl
    | token hp' _ => exact absurd (h.symm.trans (token?_eq_some hp').1) (by simp)
  | token hp h =>
    cases h' with
    | unscannable h' => exact absurd (h'.symm.trans (token?_eq_some hp).1) (by simp)
    | token hp' h' =>
      obtain rfl := Option.some.inj (hp.symm.trans hp')
      exact h.unique h'

namespace Program

/-- All that is wrong with a text, and where: a piece is at fault, or the text ends inside a
    group. -/
inductive Violation (text : Bytes) : Nat → Failure → Prop
  | piece {before after : List Piece} {p : Piece} {f : Failure}
    (hscan : Piece.scan text = before ++ p :: after) (h : p.Fault text before f) :
    Violation text p.start f
  | unclosed {o : Token} {outer : List Token} {b : Bracket}
    (h : Token.pending (Token.scan text) = o :: outer) (ho : o.kind = .bracket b) :
    Violation text text.length { cause := .unclosed b.text, span := o.span }

/-- A violation in front of all others. -/
def Leftmost (text : Bytes) (pos : Nat) (f : Failure) : Prop :=
  Violation text pos f ∧ ∀ pos' f', Violation text pos' f' → pos < pos' ∨ pos' = pos ∧ f' = f

/-- Only one violation is leftmost. -/
theorem Leftmost.unique {text : Bytes} {pos pos' : Nat} {f f' : Failure}
    (h : Leftmost text pos f) (h' : Leftmost text pos' f') : f = f' := by
  rcases h.2 pos' f' h'.1 with hlt | ⟨-, rfl⟩
  · rcases h'.2 pos f h.1 with hlt' | ⟨-, rfl⟩
    · omega
    · rfl
  · rfl

/-! ### One token -/

/-- An open group waits behind its opening bracket. -/
def Waits (o : Open) (t : Token) : Prop :=
  t.kind = .bracket o.bracket ∧ t.span = o.span ∧ ∃ c, o.bracket.closer? = some c

variable {text : Bytes} {before : List Token} {opens opens' : List Open} {done done' : List Symbol}
  {t : Token} {p : Piece} {rest : List Piece} {f : Failure}

/-- The open groups are those of the brackets that are open. -/
theorem Takes.pending (h : Takes opens done t opens' done')
    (hw : List.Forall₂ Waits opens (Token.pending before)) :
    List.Forall₂ Waits opens' (Token.pending (before ++ [t])) := by
  rw [Token.pending_concat]
  unfold Token.nest
  cases h with
  | leaf h =>
    cases hk : t.kind with
    | bracket b => exact absurd hk (h.not_bracket b)
    | _ => exact hw
  | opening ht hb =>
    simp only [ht, hb, Option.isSome_some, if_true]
    exact .cons ⟨ht, rfl, _, hb⟩ hw
  | closing ht ho =>
    simp only [ht, closer?_closer ho, Option.isSome_none]
    -- The group that is closed is the innermost one that waits.
    cases hpending : Token.pending before with
    | nil =>
      rw [hpending] at hw
      cases hw
    | cons o' outer =>
      rw [hpending] at hw
      cases hw with
      | cons _ hw => exact hw

/-- A token that is taken is not at fault. -/
theorem Takes.not_fault (h : Takes opens done t opens' done')
    (hw : List.Forall₂ Waits opens (Token.pending before)) : ¬ Token.Fault before t f := by
  intro hfault
  cases h with
  | leaf h =>
    cases hfault with
    | literal h' => exact absurd (h.ofToken_eq.symm.trans h'.ofToken_eq) (by simp)
    | unexpected ht => exact h.not_bracket _ ht
    | mismatched ht => exact h.not_bracket _ ht
  | opening ht hb =>
    cases hfault with
    | literal h' => exact h'.not_bracket _ ht
    | unexpected ht' hc => simp_all
    | mismatched ht' hc => simp_all
  | closing ht ho =>
    cases hfault with
    | literal h' => exact h'.not_bracket _ ht
    | unexpected ht' hc hpending =>
      rw [hpending] at hw
      cases hw
    | mismatched ht' hc hpending ho' hb hne =>
      rw [hpending] at hw
      cases hw with
      | cons hwait _ =>
        have hkind := hwait.1
        simp_all

/-- A token is taken, or it is at fault. -/
theorem takes_or_fault (t : Token) (done : List Symbol)
    (hw : List.Forall₂ Waits opens (Token.pending before)) :
    (∃ opens' done', Takes opens done t opens' done') ∨ ∃ f, Token.Fault before t f := by
  by_cases hk : ∃ b, t.kind = .bracket b
  · obtain ⟨b, hb⟩ := hk
    cases hcloser : b.closer? with
    | some c => exact Or.inl ⟨_, _, .opening hb hcloser⟩
    | none =>
      cases hpending : Token.pending before with
      | nil => exact Or.inr ⟨_, .unexpected hb hcloser hpending⟩
      | cons o' outer =>
        rw [hpending] at hw
        cases hw with
        | cons hwait _ =>
          obtain ⟨hkind, -, c, hc⟩ := hwait
          -- The innermost group is closed by this bracket or by another one.
          by_cases hcb : c = b
          · subst hcb
            exact Or.inl ⟨_, _, .closing hb hc⟩
          · exact Or.inr ⟨_, .mismatched hb hcloser hpending hkind hc hcb⟩
  · have hnot : ∀ b, t.kind ≠ .bracket b := fun b hb => hk ⟨b, hb⟩
    rcases t.denotes_or_unconvertible hnot with ⟨s, hs⟩ | ⟨f, hf⟩
    · exact Or.inl ⟨_, _, .leaf hs⟩
    · exact Or.inr ⟨f, .literal hf⟩

/-- What is wrong with a token is reported. -/
theorem parseFrom_fault (hp : p.token? = some t)
    (hw : List.Forall₂ Waits opens (Token.pending before)) (h : Token.Fault before t f) :
    parseFrom text opens done (p :: rest) = .error f := by
  obtain ⟨hrole, -, hspan⟩ := Piece.token?_eq_some hp
  cases h with
  | literal h =>
    rw [parseFrom_leaf hp h.not_bracket, h.ofToken_eq]
    rfl
  -- There is no pending bracket, and so there is no open group.
  | unexpected ht hc hpending =>
    rw [hpending] at hw
    cases hw
    rw [ht] at hrole
    rw [parseFrom]
    simp only [hrole, hc, hspan]
    rfl
  -- The innermost group waits for the closing bracket of its own opening one.
  | mismatched ht hc hpending ho hb hne =>
    rw [hpending] at hw
    cases hw with
    | cons hwait _ =>
      have hkind := hwait.1
      rw [ho] at hkind
      injection hkind with hkind
      subst hkind
      rw [ht] at hrole
      rw [parseFrom]
      simp [hrole, hc, hspan, hb, hne, strayBracket]

/-! ### One piece -/

/-- A piece starts behind the texts of those in front of it. -/
theorem scan_start {before after : List Piece} (hscan : Piece.scan text = before ++ p :: after) :
    p.start = (before.flatMap Piece.text).length :=
  (Piece.tiling_scan text).starts before p after hscan

/-- No piece is empty. -/
theorem scan_length_pos {before after : List Piece} (hscan : Piece.scan text = before ++ p :: after) :
    0 < p.text.length :=
  List.length_pos_of_ne_nil ((Piece.tiling_scan text).nonempty p (by rw [hscan]; simp))

/-- A piece lies inside the text. -/
theorem scan_stop_le {before after : List Piece} (hscan : Piece.scan text = before ++ p :: after) :
    p.start + p.text.length ≤ text.length := by
  have hcovers := congrArg List.length (Piece.tiling_scan text).covers
  rw [hscan, List.flatMap_append, List.flatMap_cons, List.length_append, List.length_append,
    ← scan_start hscan] at hcovers
  omega

/-- Two pieces of a text are the same if one starts inside the other one. -/
theorem same_piece {before after before' after' : List Piece} {q : Piece}
    (hscan : Piece.scan text = before ++ p :: after)
    (hscan' : Piece.scan text = before' ++ q :: after') (hle : p.start ≤ q.start)
    (hlt : q.start < p.start + p.text.length) : before' = before ∧ q = p := by
  have hp := scan_start hscan
  have hq := scan_start hscan'
  have hqpos := scan_length_pos hscan'
  rw [hscan] at hscan'
  rcases List.append_eq_append_iff.mp hscan' with ⟨c, rfl, hrest⟩ | ⟨c, rfl, hrest⟩
  · cases c with
    | nil => exact ⟨List.append_nil _, (List.cons.inj hrest).1.symm⟩
    | cons d c =>
      -- The first piece would end in front of the second one.
      obtain ⟨rfl, -⟩ := List.cons.inj hrest
      simp only [List.flatMap_append, List.flatMap_cons, List.length_append] at hq
      omega
  · cases c with
    | nil => exact ⟨(List.append_nil _).symm, (List.cons.inj hrest).1⟩
    | cons d c =>
      obtain ⟨rfl, -⟩ := List.cons.inj hrest
      simp only [List.flatMap_append, List.flatMap_cons, List.length_append] at hp
      omega

/-- Where the parser stands: nothing is wrong in front of it, and what it holds is told by the
    grammar. -/
structure Reached (text : Bytes) (front : List Piece) (opens : List Open) (done : List Symbol) :
    Prop where
  clean : ∀ p ∈ front, p.role ≠ .aside
  opened : Opened (front.filterMap Piece.token?) opens done
  pending : List.Forall₂ Waits opens (Token.pending (front.filterMap Piece.token?))
  ahead : ∀ pos f, Violation text pos f → (front.flatMap Piece.text).length ≤ pos

/-- If a piece is not at fault, all violations are behind it. -/
theorem ahead_step {front : List Piece} (hscan : Piece.scan text = front ++ p :: rest)
    (hnot : ∀ f, ¬ p.Fault text front f)
    (hahead : ∀ pos f, Violation text pos f → (front.flatMap Piece.text).length ≤ pos) (pos : Nat)
    (f : Failure) (h : Violation text pos f) :
    ((front ++ [p]).flatMap Piece.text).length ≤ pos := by
  have hlen : ((front ++ [p]).flatMap Piece.text).length = p.start + p.text.length := by
    rw [List.flatMap_append, List.flatMap_singleton, List.length_append, scan_start hscan]
  rw [hlen]
  have hle := hahead pos f h
  rw [← scan_start hscan] at hle
  cases h with
  | unclosed _ _ => exact scan_stop_le hscan
  | piece hscan' hfault =>
    by_contra hlt
    obtain ⟨rfl, rfl⟩ := same_piece hscan hscan' hle (by omega)
    exact hnot f hfault

/-- A piece at fault is the leftmost violation if nothing is wrong in front of it. -/
theorem leftmost_of_fault {front : List Piece} (hscan : Piece.scan text = front ++ p :: rest)
    (h : p.Fault text front f)
    (hahead : ∀ pos f, Violation text pos f → (front.flatMap Piece.text).length ≤ pos) :
    Leftmost text p.start f := by
  refine ⟨.piece hscan h, fun pos' f' h' => ?_⟩
  have hle := hahead pos' f' h'
  rw [← scan_start hscan] at hle
  have hpos := scan_length_pos hscan
  have hstop := scan_stop_le hscan
  cases h' with
  | unclosed _ _ => exact Or.inl (by omega)
  | piece hscan' h' =>
    rcases Nat.lt_or_eq_of_le hle with hlt | heq
    · exact Or.inl hlt
    · obtain ⟨rfl, rfl⟩ := same_piece hscan hscan' hle (by omega)
      exact Or.inr ⟨rfl, h'.unique h⟩

/-- **One piece** is taken or passed over, or it is at fault and reported. -/
theorem Reached.step {front : List Piece} (hscan : Piece.scan text = front ++ p :: rest)
    (h : Reached text front opens done) :
    (∃ opens' done', Reached text (front ++ [p]) opens' done' ∧
      parseFrom text opens done (p :: rest) = parseFrom text opens' done' rest) ∨
    ∃ f, p.Fault text front f ∧ parseFrom text opens done (p :: rest) = .error f := by
  have hclean : p.role ≠ .aside → ∀ q ∈ front ++ [p], q.role ≠ .aside := by
    intro hp q hq
    rcases List.mem_append.mp hq with hq | hq
    · exact h.clean q hq
    · rwa [List.mem_singleton.mp hq]
  cases hrole : p.role with
  -- Gaps change nothing that the parser holds.
  | gap =>
    have htoken : p.token? = none := by simp [Piece.token?, hrole]
    have htokens : (front ++ [p]).filterMap Piece.token? = front.filterMap Piece.token? := by
      simp [htoken]
    refine Or.inl ⟨opens, done, ⟨hclean (by simp [hrole]), ?_, ?_, ?_⟩, parseFrom_gap hrole⟩
    · rw [htokens]
      exact h.opened
    · rw [htokens]
      exact h.pending
    · -- Nothing can be wrong with a gap.
      refine ahead_step hscan (fun f hf => ?_) h.ahead
      cases hf with
      | unscannable hp => exact absurd (hrole.symm.trans hp) (by simp)
      | token hp _ => exact absurd (htoken.symm.trans hp) (by simp)
  | aside =>
    refine Or.inr ⟨_, .unscannable hrole, ?_⟩
    rw [parseFrom]
    simp only [hrole]
  | token k =>
    have htoken : p.token? = some ⟨k, p.text, p.span⟩ := by simp [Piece.token?, hrole]
    rcases takes_or_fault ⟨k, p.text, p.span⟩ done h.pending with
      ⟨opens', done', htakes⟩ | ⟨f, hf⟩
    · -- A token that is taken leads from derivation to derivation, and nothing is wrong with it.
      have htokens : (front ++ [p]).filterMap Piece.token?
          = front.filterMap Piece.token? ++ [⟨k, p.text, p.span⟩] := by
        simp [htoken]
      refine Or.inl ⟨opens', done', ⟨hclean (by simp [hrole]), ?_, ?_, ?_⟩,
        parseFrom_takes htoken htakes⟩
      · rw [htokens]
        exact htakes.opened h.opened
      · rw [htokens]
        exact htakes.pending h.pending
      · refine ahead_step hscan (fun f hf => ?_) h.ahead
        cases hf with
        | unscannable hp => exact absurd (hrole.symm.trans hp) (by simp)
        | token hp hf =>
          obtain rfl := Option.some.inj (htoken.symm.trans hp)
          exact htakes.not_fault h.pending hf
    · exact Or.inr ⟨f, .token htoken hf, parseFrom_fault htoken h.pending hf⟩

/-! ### All pieces -/

/-- At the end of the text, only a group can be wrong that is still open. -/
theorem Violation.unclosed_of_le {pos : Nat} (h : Violation text pos f) (hle : text.length ≤ pos) :
    ∃ o outer b, Token.pending (Token.scan text) = o :: outer ∧ o.kind = .bracket b ∧
      pos = text.length ∧ f = { cause := .unclosed b.text, span := o.span } := by
  cases h with
  | unclosed h ho => exact ⟨_, _, _, h, ho, rfl, rfl⟩
  | piece hscan _ =>
    have hpos := scan_length_pos hscan
    have hstop := scan_stop_le hscan
    omega

/-- At the end of the text, the parser has a derivation, or the text ends inside the innermost
    group. -/
theorem Reached.finish (h : Reached text (Piece.scan text) opens done) :
    (∃ program, parseFrom text opens done [] = .ok program ∧
      Grammar.Sequence (Token.scan text) program ∧ ∀ pos f, ¬ Violation text pos f) ∨
    ∃ pos f, parseFrom text opens done [] = .error f ∧ Leftmost text pos f := by
  have hahead := h.ahead
  rw [(Piece.tiling_scan text).covers] at hahead
  have hpending : List.Forall₂ Waits opens (Token.pending (Token.scan text)) := h.pending
  cases opens with
  | nil =>
    refine Or.inl ⟨done.reverse, rfl, h.opened.sequence, ?_⟩
    intro pos f hv
    -- All violations are at or behind the end of the text, and the only one there is an open group.
    obtain ⟨o, outer, b, hopen, -⟩ := hv.unclosed_of_le (hahead pos f hv)
    rw [hopen] at hpending
    cases hpending
  | cons o opens =>
    cases hopen : Token.pending (Token.scan text) with
    | nil =>
      rw [hopen] at hpending
      cases hpending
    | cons t outer =>
      rw [hopen] at hpending
      cases hpending with
      | cons hwait _ =>
        obtain ⟨hkind, hspan, -⟩ := hwait
        refine Or.inr ⟨text.length, _, rfl, ?_, ?_⟩
        · have hv := Violation.unclosed hopen hkind
          rwa [hspan] at hv
        · -- Any other violation is at the end of the text too, and names the same innermost group.
          intro pos' f' hv
          obtain ⟨t', outer', b, hopen', hkind', rfl, rfl⟩ := hv.unclosed_of_le (hahead pos' f' hv)
          obtain ⟨rfl, -⟩ := List.cons.inj (hopen.symm.trans hopen')
          rw [hkind] at hkind'
          injection hkind' with hkind'
          exact Or.inr ⟨rfl, by rw [hkind', hspan]⟩

/-- **All pieces**: the parser comes to the end of the text, or it stops at the leftmost piece that is
    at fault. -/
theorem Reached.run {front : List Piece} (hscan : Piece.scan text = front ++ rest)
    (h : Reached text front opens done) :
    (∃ opens' done', Reached text (Piece.scan text) opens' done' ∧
      parseFrom text opens done rest = parseFrom text opens' done' []) ∨
    ∃ before p after f, Piece.scan text = before ++ p :: after ∧ p.Fault text before f ∧
      parseFrom text opens done rest = .error f ∧ Leftmost text p.start f := by
  -- The pieces that are left go over to the front, one after the other.
  induction rest generalizing front opens done with
  | nil =>
    rw [List.append_nil] at hscan
    subst hscan
    exact Or.inl ⟨opens, done, h, rfl⟩
  | cons p rest ih =>
    rcases h.step hscan with ⟨opens', done', hnext, hparse⟩ | ⟨f, hfault, hparse⟩
    · rw [hparse]
      exact ih (by rw [hscan, List.append_assoc, List.singleton_append]) hnext
    · exact Or.inr ⟨front, p, rest, f, hscan, hfault, hparse, leftmost_of_fault hscan hfault h.ahead⟩

/-- The parser stands at the start with nothing in its hands. -/
theorem reached_start (text : Bytes) : Reached text [] [] [] :=
  ⟨by simp, .outside .nil, .nil, fun _ _ _ => Nat.zero_le _⟩

/-- The parser gives a derivation of the tokens of the text, or its leftmost violation. -/
theorem parse_outcome (text : Bytes) :
    (∃ program, parse text = .ok program ∧
      (∀ p ∈ Piece.scan text, p.role ≠ .aside) ∧ Grammar.Sequence (Token.scan text) program ∧
      ∀ pos f, ¬ Violation text pos f) ∨
    ∃ pos f, parse text = .error f ∧ Leftmost text pos f := by
  rcases (reached_start text).run (List.nil_append _).symm with
    ⟨opens, done, h, hparse⟩ | ⟨_, p, _, f, -, -, hparse, hleft⟩
  · rcases h.finish with ⟨program, hok, hseq, hnone⟩ | ⟨pos, f, hf, hleft⟩
    · exact Or.inl ⟨program, hparse.trans hok, h.clean, hseq, hnone⟩
    · exact Or.inr ⟨pos, f, hparse.trans hf, hleft⟩
  · exact Or.inr ⟨p.start, f, hparse, hleft⟩

/-- Pieces with derived tokens are parsed as their tree. -/
theorem parseFrom_of_sequence {ps : List Piece} {program : Program}
    (hclean : ∀ p ∈ ps, p.role ≠ .aside)
    (h : Grammar.Sequence (ps.filterMap Piece.token?) program) :
    parseFrom text [] [] ps = .ok program := by
  have hparse := h.goes [] [] text ps [] rfl hclean
  rw [List.append_nil, List.append_nil] at hparse
  rw [hparse]
  show Except.ok program.reverse.reverse = _
  rw [List.reverse_reverse]

/-- The tokens of a text have one tree at most. -/
theorem sequence_unique {program program' : Program}
    (h : Grammar.Sequence (Token.scan text) program)
    (h' : Grammar.Sequence (Token.scan text) program') : program = program' := by
  -- Without what is set aside, the pieces of the text have the same tokens.
  have htokens : ((Piece.scan text).filter (·.role ≠ .aside)).filterMap Piece.token?
      = Token.scan text := by
    rw [List.filterMap_filter]
    apply List.filterMap_congr
    intro p _
    cases hrole : p.role <;> simp [Piece.token?, hrole]
  have hclean : ∀ p ∈ (Piece.scan text).filter (·.role ≠ .aside), p.role ≠ .aside := by
    intro p hp
    simpa using (List.mem_filter.mp hp).2
  rw [← htokens] at h h'
  have hok : parseFrom text [] [] _ = .ok program := parseFrom_of_sequence hclean h
  rw [parseFrom_of_sequence hclean h'] at hok
  exact (Except.ok.inj hok).symm

/-- All that is wrong with a text is a syntax error. -/
theorem Violation.kind_eq {pos : Nat} (h : Violation text pos f) : f.kind = .syntaxError := by
  cases h with
  | unclosed _ _ => rfl
  | piece _ h =>
    cases h with
    | unscannable _ => rfl
    | token _ h =>
      cases h with
      | literal h => cases h <;> rfl
      | unexpected _ _ _ => rfl
      | mismatched _ _ _ _ _ _ => rfl

/-- If nothing is wrong with a text, its literals denote values. -/
theorem converts_of_no_violation (h : ∀ pos f, ¬ Violation text pos f) :
    ∀ t ∈ Token.scan text, t.Converts := by
  intro t ht
  obtain ⟨p, hp, htoken⟩ := List.mem_filterMap.mp ht
  obtain ⟨before, after, hscan⟩ := List.append_of_mem hp
  apply Token.converts_of_not_unconvertible
  intro f hf
  exact h _ f (.piece hscan (.token htoken (.literal hf)))

/-- **Exactly the grammar is parsed.**  A text is parsed as a program if and only if nothing is set
    aside, its literals denote values, and its tokens are derived with the program as their tree,
    which is the only one.  Otherwise the leftmost violation is reported, as an error of syntax. -/
theorem parse_iff_derived (text : Bytes) :
    (∀ program, parse text = .ok program ↔ (∀ p ∈ Piece.scan text, p.role ≠ .aside) ∧
      (∀ t ∈ Token.scan text, t.Converts) ∧ Grammar.Sequence (Token.scan text) program) ∧
    (∀ program program', Grammar.Sequence (Token.scan text) program →
      Grammar.Sequence (Token.scan text) program' → program = program') ∧
    (∀ f, parse text = .error f ↔ ∃ pos, Leftmost text pos f) ∧
    ∀ f, parse text = .error f → f.kind = .syntaxError := by
  have houtcome := parse_outcome text
  have herror : ∀ f, parse text = .error f → ∃ pos, Leftmost text pos f := by
    intro f hf
    rcases houtcome with ⟨program, hok, -⟩ | ⟨pos, f', hf', hleft⟩
    · exact absurd (hf.symm.trans hok) (by simp)
    · obtain rfl := Except.error.inj (hf.symm.trans hf')
      exact ⟨pos, hleft⟩
  refine ⟨fun program => ⟨?_, ?_⟩, fun _ _ h h' => sequence_unique h h', fun f => ⟨herror f, ?_⟩, ?_⟩
  · intro hparse
    rcases houtcome with ⟨program', hok, hclean, hseq, hnone⟩ | ⟨pos, f, hf, -⟩
    · obtain rfl := Except.ok.inj (hparse.symm.trans hok)
      exact ⟨hclean, converts_of_no_violation hnone, hseq⟩
    · exact absurd (hparse.symm.trans hf) (by simp)
  · rintro ⟨hclean, -, hseq⟩
    exact parseFrom_of_sequence hclean hseq
  · rintro ⟨pos, hleft⟩
    rcases houtcome with ⟨program, -, -, -, hnone⟩ | ⟨pos', f', hf', hleft'⟩
    · exact absurd hleft.1 (hnone pos f)
    · rw [hleft.unique hleft']
      exact hf'
  · intro f hf
    obtain ⟨pos, hleft⟩ := herror f hf
    exact hleft.1.kind_eq

end Program

end StackLang
