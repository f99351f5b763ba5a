import StackLang.Proofs.Token.Joining

namespace StackLang

/-!
# Parts of a text

A lexeme that is the longest at its place is so also where the text ends sooner.  So a part of a
text that begins with one piece and ends with another is cut into the same pieces.

* `Lexicon.Selects.take` — the rule that takes the start of a text also takes it of a shorter text;
* `Scanner.Step.take`, `Scanner.Run.take` — steps over the start of a text are those over a text
  that ends behind them;
* `Piece.scan_slice` — the pieces of a part of a text;
* `Token.Ordered` — tokens that stand one behind the other; `Token.ordered_scan` — those of a text;
* `Token.Extent` — the span from the first to the last of some tokens; `Token.scan_slice` — the
  tokens of the part of a text at that span.
-/

/-! ### Selection in a shorter text -/

namespace Lexicon

variable {text : Bytes} {n m : Nat} {r : Rule}

/-- The start of a text is taken by the same rule if the text ends behind it. -/
theorem Selects.take (h : Selects text n r) (hm : n ≤ m) : Selects (text.take m) n r := by
  have htake : (text.take m).take n = text.take n := by
    rw [List.take_take, Nat.min_eq_left hm]
  refine ⟨?_, ?_, ?_, ?_⟩
  · rw [List.length_take]
    exact Nat.le_min.mpr ⟨hm, h.le⟩
  · rw [htake]
    exact h.mem
  · -- A longer lexeme of the shorter text would be one of the text.
    intro q hq w hw hpre
    exact h.longest q hq w hw (hpre.trans (List.take_prefix m text))
  · rw [htake]
    exact h.first

end Lexicon

/-! ### Steps over a shorter text -/

namespace Scanner

variable {text : Bytes} {pos next stop : Nat} {p : Piece} {ps qs : List Piece}

/-- A piece that is a token or a gap is the same in a text that is cut off behind it. -/
theorem Step.take (h : Step text pos p next) (hp : p.role ≠ .aside) (hstop : next ≤ stop) :
    Step (text.take stop) pos p next := by
  cases h with
  | failed _ _ _ => exact absurd rfl hp
  | @matched n r h =>
    have hdrop : (text.take stop).drop pos = (text.drop pos).take (stop - pos) := List.drop_take ..
    have htake : (text.drop pos).take n = ((text.take stop).drop pos).take n := by
      rw [hdrop, List.take_take, Nat.min_eq_left (by omega)]
    rw [htake]
    apply Step.matched
    rw [hdrop]
    exact h.take (by omega)

/-- **Steps over some pieces** are all steps over a text that ends behind them. -/
theorem Run.take (h : Run text pos (ps ++ qs)) (hclean : ∀ p ∈ ps, p.role ≠ .aside) :
    Run (text.take (pos + (ps.flatMap Piece.text).length)) pos ps := by
  induction ps generalizing pos with
  | nil => exact .done (by simp)
  | cons p ps ih =>
    cases h with
    | step hstep hrun =>
      have ih := ih hrun fun q hq => hclean q (List.mem_cons_of_mem _ hq)
      -- The end is the same, counted from behind the first piece.
      rw [hstep.next_eq, Nat.add_assoc, ← List.length_append, ← List.flatMap_cons] at ih
      refine .step (hstep.take (hclean p List.mem_cons_self) ?_) (hstep.next_eq ▸ ih)
      rw [hstep.next_eq, List.flatMap_cons, List.length_append]
      omega

/-- Each step begins where the one before it has ended, or behind that. -/
theorem Run.ordered (h : Run text pos ps) : (∀ p ∈ ps, pos ≤ p.span.start) ∧
    ps.Pairwise fun p q => p.span.stop ≤ q.span.start := by
  induction h with
  | done _ => exact ⟨by simp, .nil⟩
  | @step pos next p ps h _ ih =>
    obtain ⟨hstart, hpairwise⟩ := ih
    have hspan : p.span = ⟨pos, next⟩ := by rw [Piece.span, h.start_eq, h.next_eq]
    have hlt : pos ≤ next := by
      rw [h.next_eq]
      omega
    refine ⟨fun q hq => ?_, .cons (fun q hq => ?_) hpairwise⟩
    · rcases List.mem_cons.mp hq with rfl | hq
      · rw [hspan]
      · exact Nat.le_trans hlt (hstart q hq)
    · rw [hspan]
      exact hstart q hq

end Scanner

/-- **The pieces of a part of a text** that lies under some of its pieces are these pieces. -/
theorem Piece.scan_slice {text : Bytes} {front mid back : List Piece}
    (hscan : scan text = front ++ (mid ++ back)) (hclean : ∀ p ∈ mid, p.role ≠ .aside)
    {start stop : Nat} (hstart : start = (front.flatMap Piece.text).length)
    (hstop : stop = start + (mid.flatMap Piece.text).length) :
    (scan ((text.take stop).drop start)).map (shift start) = mid := by
  have hrun : Scanner.Run text 0 (front ++ (mid ++ back)) := Scanner.run_iff.mpr hscan.symm
  have hmid := hrun.of_append
  rw [Nat.zero_add, ← hstart] at hmid
  -- The pieces are those of the part where it stands, and at its own positions by a shift.
  have hpieces := (hmid.take hclean).eq_scanFrom
  have hshift := scanFrom_shift 0 start 0 ((text.take stop).drop start)
  rw [← hstop] at hpieces
  rw [Nat.zero_add, ← hpieces] at hshift
  exact hshift.symm

/-! ### Tokens of a part of a text -/

namespace Token

/-- Tokens one behind the other, none of them empty. -/
structure Ordered (ts : List Token) : Prop where
  pairwise : ts.Pairwise fun t u => t.span.stop ≤ u.span.start
  nonempty : ∀ t ∈ ts, t.span.start < t.span.stop

/-- Some of the tokens in order, next to each other, are in order. -/
theorem Ordered.part {ts us : List Token} (h : Ordered ts) (hus : us <:+: ts) : Ordered us :=
  ⟨h.pairwise.sublist hus.sublist, fun t ht => h.nonempty t (hus.subset ht)⟩

/-- Tokens in front stop before those behind them start. -/
theorem Ordered.le_of_append {ts us : List Token} (h : Ordered (ts ++ us)) {t u : Token}
    (ht : t ∈ ts) (hu : u ∈ us) : t.span.stop ≤ u.span.start :=
  (List.pairwise_append.mp h.pairwise).2.2 t ht u hu

/-- The tokens of a text stand one behind the other. -/
theorem ordered_scan (text : Bytes) : Ordered (scan text) where
  pairwise := by
    have hrun : Scanner.Run text 0 (Piece.scan text) := Scanner.run_iff.mpr rfl
    refine hrun.ordered.2.filterMap _ fun p q hpq t ht u hu => ?_
    rwa [(Piece.token?_eq_some ht).2.2, (Piece.token?_eq_some hu).2.2]
  nonempty t ht := by
    obtain ⟨p, hp, htoken⟩ := List.mem_filterMap.mp ht
    have hpos := List.length_pos_of_ne_nil ((Piece.tiling_scan text).nonempty p hp)
    rw [(Piece.token?_eq_some htoken).2.2]
    exact Nat.lt_add_of_pos_right hpos

/-- Tokens stop inside the text. -/
theorem stop_le_length {text : Bytes} {t : Token} (ht : t ∈ scan text) :
    t.span.stop ≤ text.length := by
  obtain ⟨p, hp, htoken⟩ := List.mem_filterMap.mp ht
  have hcut := congrArg List.length ((Piece.tiling_scan text).text_eq hp)
  have hpos := List.length_pos_of_ne_nil ((Piece.tiling_scan text).nonempty p hp)
  rw [(Piece.token?_eq_some htoken).2.2]
  rw [List.length_drop, List.length_take] at hcut
  simp only [Piece.span] at hcut ⊢
  omega

/-- The span from the first to the last of some tokens. -/
structure Extent (ts : List Token) (span : Span) : Prop where
  start : ∃ t rest, ts = t :: rest ∧ span.start = t.span.start
  stop : ∃ front t, ts = front ++ [t] ∧ span.stop = t.span.stop

variable {text : Bytes} {ts : List Token} {span : Span}

/-- Some tokens of a text lie under pieces of the text, from the first one of them to the last. -/
theorem Extent.exists_pieces (hspan : Extent ts span) (hts : ts <:+: scan text) :
    ∃ front mid back, Piece.scan text = front ++ (mid ++ back) ∧ mid.filterMap Piece.token? = ts ∧
      span.start = (front.flatMap Piece.text).length ∧
      span.stop = span.start + (mid.flatMap Piece.text).length := by
  obtain ⟨before, after, hscan⟩ := hts
  obtain ⟨t, rest, hfirst, hstart⟩ := hspan.start
  obtain ⟨inits, u, hlast, hstop⟩ := hspan.stop
  -- The piece of the first token is in front of that of the last one, or the same.
  have htokens : scan text = before ++ t :: (rest ++ after) := by
    rw [← hscan, hfirst, List.append_assoc, List.cons_append]
  obtain ⟨front, p, tail, hpieces, -, hp, htail⟩ := Piece.exists_split htokens
  have hmid : (p :: tail).filterMap Piece.token? = inits ++ u :: after := by
    rw [List.filterMap_cons_some hp, htail, ← List.cons_append, ← hfirst, hlast,
      List.append_assoc, List.singleton_append]
  obtain ⟨mid, q, back, hsplit, hinits, hq, -⟩ := Piece.exists_split hmid
  have hpstart := (Piece.tiling_scan text).starts front p tail hpieces
  rw [hsplit] at hpieces
  have hqstart := (Piece.tiling_scan text).starts (front ++ mid) q back
    (by rw [hpieces, List.append_assoc])
  have hfrom : span.start = (front.flatMap Piece.text).length := by
    rw [hstart, (Piece.token?_eq_some hp).2.2]
    exact hpstart
  refine ⟨front, mid ++ [q], back, ?_, ?_, hfrom, ?_⟩
  · rw [hpieces, List.append_assoc, List.singleton_append]
  · rw [List.filterMap_append, hinits, List.filterMap_cons_some hq, List.filterMap_nil, hlast]
  · rw [hstop, (Piece.token?_eq_some hq).2.2, Piece.span, hfrom, hqstart]
    simp only [List.flatMap_append, List.flatMap_singleton, List.length_append]
    omega

/-- **The tokens of a part of a text** that begins and ends with tokens of the text are these
    tokens, and nothing is set aside. -/
theorem scan_slice (hclean : ∀ p ∈ Piece.scan text, p.role ≠ .aside) (hts : ts <:+: scan text)
    (hspan : Extent ts span) :
    (∀ p ∈ Piece.scan ((text.take span.stop).drop span.start), p.role ≠ .aside) ∧
      (scan ((text.take span.stop).drop span.start)).map (Token.shift span.start) = ts := by
  obtain ⟨front, mid, back, hscan, rfl, hstart, hstop⟩ := hspan.exists_pieces hts
  have hmid : ∀ p ∈ mid, p.role ≠ .aside := fun p hp => hclean p (by rw [hscan]; simp [hp])
  have hslice := Piece.scan_slice hscan hmid hstart hstop
  refine ⟨fun p hp => ?_, ?_⟩
  · exact hmid (p.shift span.start) (hslice ▸ List.mem_map_of_mem hp)
  · rw [← hslice, Piece.filterMap_shift]
    rfl

end Token

end StackLang
