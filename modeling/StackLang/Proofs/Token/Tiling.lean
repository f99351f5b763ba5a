import StackLang.Proofs.Token.Selection

namespace StackLang

/-!
# The pieces of a text tile it

A scanner stands at a position of a text.  One step takes the start that a rule selects, or goes
over the bytes up to a dead end; a call for the next token takes steps until one of them gives a
token, or the text ends.

* `Scanner.Step`, `Scanner.Next`, `Scanner.Reads` — one step, one call, and all calls up to the
  end of the text, as relations;
* `Scanner.Run` — all steps up to the end of the text;
* `Scanner.run_iff`, `Scanner.reads_iff` — they go over the pieces of the text and give its tokens;
* `Piece.Tiling` — pieces that lie end to end, none empty, each of them what its role says;
* `Piece.scan_tiles` — the calls end, and what they go over is a tiling.
-/

open Lexicon (Selects FailsAt Viable rules)

namespace Lexicon

/-- What a piece that a rule takes is. -/
def Rule.role (r : Rule) : Piece.Role :=
  match r.kind? with
  | some k => .token k
  | none => .gap

end Lexicon

/-! ### A scanner -/

namespace Scanner

/-- At a position, a step gives a piece and the position to go on from.  A failure goes over the
    bytes that were read, and over one byte at least. -/
inductive Step (text : Bytes) (pos : Nat) : Piece → Nat → Prop
  | matched {n : Nat} {r : Lexicon.Rule} (h : Selects (text.drop pos) n r) :
    Step text pos ⟨r.role, pos, (text.drop pos).take n⟩ (pos + n)
  | failed {n : Nat} (hpos : pos < text.length)
    (hnone : ∀ r ∈ rules, ∀ w ∈ r.pattern.language, ¬ w <+: text.drop pos)
    (h : FailsAt (text.drop pos) n) :
    Step text pos ⟨.aside, pos, (text.drop pos).take (max n 1)⟩ (pos + max n 1)

/-- A call for the next token: the pieces that it goes over, the token if there is one, and the
    position to go on from. -/
inductive Next (text : Bytes) : Nat → List Piece → Option Token → Nat → Prop
  | done {pos : Nat} (h : text.length ≤ pos) : Next text pos [] none pos
  | token {pos next : Nat} {p : Piece} {t : Token} (h : Step text pos p next)
    (ht : p.token? = some t) : Next text pos [p] (some t) next
  | pass {pos next stop : Nat} {p : Piece} {ps : List Piece} {t? : Option Token}
    (h : Step text pos p next) (ht : p.token? = none) (hnext : Next text next ps t? stop) :
    Next text pos (p :: ps) t? stop

/-- Calls up to the first one that finds no token: all pieces that they go over, and all
    tokens. -/
inductive Reads (text : Bytes) : Nat → List Piece → List Token → Prop
  | last {pos stop : Nat} {ps : List Piece} (h : Next text pos ps none stop) : Reads text pos ps []
  | more {pos next : Nat} {ps qs : List Piece} {t : Token} {ts : List Token}
    (h : Next text pos ps (some t) next) (hmore : Reads text next qs ts) :
    Reads text pos (ps ++ qs) (t :: ts)

/-- Steps up to the end of the text. -/
inductive Run (text : Bytes) : Nat → List Piece → Prop
  | done {pos : Nat} (h : text.length ≤ pos) : Run text pos []
  | step {pos next : Nat} {p : Piece} {ps : List Piece} (h : Step text pos p next)
    (hrun : Run text next ps) : Run text pos (p :: ps)

end Scanner

/-! ### Tilings -/

namespace Piece

/-- A piece is what its role says: a token or a gap is what the first rule with the longest start
    takes, and text set aside is a byte that begins no lexeme, or begins with a quote and goes on
    to the end. -/
def Lawful (text : Bytes) (p : Piece) : Prop :=
  match p.role with
  | .token k => ∃ r, Selects (text.drop p.start) p.text.length r ∧ r.kind? = some k
  | .gap => ∃ r, Selects (text.drop p.start) p.text.length r ∧ r.kind? = none
  | .aside => (∀ r ∈ rules, ∀ w ∈ r.pattern.language, ¬ w <+: text.drop p.start) ∧
    ((∃ b, p.text = [b] ∧ ¬ Viable [b]) ∨
      (∃ b ∈ p.text.head?, isQuote b = true) ∧ p.text = text.drop p.start)

/-- Pieces that lie end to end over a text. -/
structure Tiling (text : Bytes) (ps : List Piece) : Prop where
  covers : ps.flatMap Piece.text = text
  starts : ∀ before p after, ps = before ++ p :: after →
    p.start = (before.flatMap Piece.text).length
  nonempty : ∀ p ∈ ps, p.text ≠ []
  lawful : ∀ p ∈ ps, p.Lawful text

end Piece

/-! ### One step -/

namespace Scanner

variable {text : Bytes} {pos next : Nat} {p : Piece} {ps : List Piece}

/-- A piece starts where the step does. -/
theorem Step.start_eq (h : Step text pos p next) : p.start = pos := by
  cases h <;> rfl

/-- A step goes over some of the bytes that are left. -/
theorem Step.extent (h : Step text pos p next) :
    ∃ n, 0 < n ∧ n ≤ (text.drop pos).length ∧ p.text = (text.drop pos).take n ∧ next = pos + n := by
  cases h with
  | @matched n r h => exact ⟨n, h.pos, h.le, rfl, rfl⟩
  | @failed n hpos _ h =>
    refine ⟨max n 1, by omega, ?_, rfl, rfl⟩
    have hle := h.le
    rw [List.length_drop] at hle ⊢
    omega

/-- A step goes on behind its piece. -/
theorem Step.next_eq (h : Step text pos p next) : next = pos + p.text.length := by
  obtain ⟨n, -, hle, htext, hnext⟩ := h.extent
  rw [htext, List.length_take_of_le hle, hnext]

/-- No piece is empty. -/
theorem Step.text_ne_nil (h : Step text pos p next) : p.text ≠ [] := by
  obtain ⟨n, hpos, hle, htext, -⟩ := h.extent
  apply List.ne_nil_of_length_pos
  rwa [htext, List.length_take_of_le hle]

/-- Behind a position stand the piece and what follows it. -/
theorem Step.drop_eq (h : Step text pos p next) : text.drop pos = p.text ++ text.drop next := by
  obtain ⟨n, -, -, htext, hnext⟩ := h.extent
  rw [htext, hnext, ← List.drop_drop, List.take_append_drop]

/-- A step starts inside the text. -/
theorem Step.pos_lt (h : Step text pos p next) : pos < text.length := by
  obtain ⟨n, hpos, hle, -, -⟩ := h.extent
  rw [List.length_drop] at hle
  omega

/-- Inside the text there is a byte. -/
theorem exists_drop (h : pos < text.length) : ∃ b rest, text.drop pos = b :: rest :=
  ⟨text[pos], text.drop (pos + 1), List.drop_eq_getElem_cons h⟩

/-- The first piece is what the selected rule takes. -/
theorem first_of_selects {b : UInt8} {rest : Bytes} {n : Nat} {r : Lexicon.Rule}
    (h : Selects (b :: rest) n r) : Piece.first pos b rest = ⟨r.role, pos, (b :: rest).take n⟩ := by
  unfold Piece.first Lexicon.Rule.role
  simp only [Lexicon.longest?_eq_some_iff.mpr h]
  cases r.kind? <;> rfl

/-- Where nothing is matched, a step goes over one byte, or over all bytes from a quote on. -/
theorem first_of_failsAt {b : UInt8} {rest : Bytes} {n : Nat}
    (hnone : ∀ r ∈ rules, ∀ w ∈ r.pattern.language, ¬ w <+: b :: rest)
    (h : FailsAt (b :: rest) n) :
    Piece.first pos b rest = ⟨.aside, pos, (b :: rest).take (max n 1)⟩ := by
  have hfound := Lexicon.longest?_eq_none_iff.mpr hnone
  have hn := h.unique (Lexicon.failsAt_of_longest? hfound).1
  unfold Piece.first
  rw [hfound]
  cases hb : Piece.isQuote b with
  | true =>
    rw [hb, if_pos rfl] at hn
    rw [hn, List.take_of_length_le (by omega), if_pos rfl]
  | false =>
    rw [hb, if_neg (by simp)] at hn
    rw [hn, if_neg (by simp)]
    rfl

/-- A step gives the first piece of what is left. -/
theorem Step.eq_first {b : UInt8} {rest : Bytes} (hdrop : text.drop pos = b :: rest)
    (h : Step text pos p next) : p = Piece.first pos b rest := by
  cases h with
  | matched h =>
    rw [hdrop] at h ⊢
    exact (first_of_selects h).symm
  | failed _ hnone h =>
    rw [hdrop] at hnone h ⊢
    exact (first_of_failsAt hnone h).symm

/-- Up to the end of the text there is always a step. -/
theorem exists_step (hpos : pos < text.length) : ∃ p next, Step text pos p next := by
  obtain ⟨b, rest, hdrop⟩ := exists_drop hpos
  cases hfound : Lexicon.longest? (text.drop pos) with
  | some found => exact ⟨_, _, .matched (Lexicon.selects_of_longest? (r := found.2) hfound)⟩
  | none =>
    have hnone := Lexicon.longest?_eq_none_iff.mp hfound
    rw [hdrop] at hfound
    have hfails := (Lexicon.failsAt_of_longest? hfound).1
    rw [← hdrop] at hfails
    exact ⟨_, _, .failed hpos hnone hfails⟩

/-- The piece of a step is what its role says. -/
theorem Step.lawful (h : Step text pos p next) : p.Lawful text := by
  cases h with
  | @matched n r h =>
    have hlen : ((text.drop pos).take n).length = n := List.length_take_of_le h.le
    unfold Piece.Lawful Lexicon.Rule.role
    cases hk : r.kind? with
    | some k => exact ⟨r, hlen.symm ▸ h, hk⟩
    | none => exact ⟨r, hlen.symm ▸ h, hk⟩
  | @failed n hpos hnone h =>
    refine ⟨hnone, ?_⟩
    obtain ⟨b, rest, hdrop⟩ := exists_drop hpos
    rw [hdrop] at hnone h ⊢
    obtain ⟨hfails, hdead⟩ :=
      Lexicon.failsAt_of_longest? (Lexicon.longest?_eq_none_iff.mpr hnone)
    obtain rfl := h.unique hfails
    -- A quote that is not closed is read to the end, and any other byte is a dead end by itself.
    cases hb : Piece.isQuote b with
    | true =>
      right
      rw [if_pos rfl, List.take_of_length_le (by omega)]
      exact ⟨⟨b, rfl, hb⟩, rfl⟩
    | false =>
      left
      exact ⟨b, rfl, hdead hb⟩

/-! ### All steps -/

/-- Behind some of its pieces a run goes on. -/
theorem Run.of_append {before after : List Piece} (h : Run text pos (before ++ after)) :
    Run text (pos + (before.flatMap Piece.text).length) after := by
  induction before generalizing pos with
  | nil => exact h
  | cons p before ih =>
    cases h with
    | step h hrun =>
      rw [h.next_eq] at hrun
      have hafter := ih hrun
      rwa [List.flatMap_cons, List.length_append, ← Nat.add_assoc]

/-- Each piece of a run is that of a step. -/
theorem Run.step_of_append {before after : List Piece}
    (h : Run text pos (before ++ p :: after)) :
    ∃ next, Step text (pos + (before.flatMap Piece.text).length) p next := by
  cases h.of_append with
  | step h _ => exact ⟨_, h⟩

/-- The texts of a run put together are the text behind its position. -/
theorem Run.flatMap_text (h : Run text pos ps) : ps.flatMap Piece.text = text.drop pos := by
  induction h with
  | done h => rw [List.drop_of_length_le h, List.flatMap_nil]
  | step h _ ih => rw [List.flatMap_cons, ih, h.drop_eq]

/-- The pieces of a run lie end to end over the text. -/
theorem Run.tiling (h : Run text 0 ps) : Piece.Tiling text ps where
  covers := h.flatMap_text
  starts before p after hps := by
    subst hps
    obtain ⟨next, hstep⟩ := h.step_of_append
    rw [hstep.start_eq, Nat.zero_add]
  nonempty p hp := by
    obtain ⟨before, after, rfl⟩ := List.append_of_mem hp
    exact h.step_of_append.elim fun _ hstep => hstep.text_ne_nil
  lawful p hp := by
    obtain ⟨before, after, rfl⟩ := List.append_of_mem hp
    exact h.step_of_append.elim fun _ hstep => hstep.lawful

/-- From every position there are only finitely many steps to the end. -/
theorem exists_run (text : Bytes) (pos : Nat) : ∃ ps, Run text pos ps := by
  by_cases hpos : pos < text.length
  · obtain ⟨p, next, hstep⟩ := exists_step hpos
    obtain ⟨n, hn, hle, -, hnext⟩ := hstep.extent
    obtain ⟨ps, hrun⟩ := exists_run text next
    exact ⟨p :: ps, .step hstep hrun⟩
  · exact ⟨[], .done (Nat.not_lt.mp hpos)⟩
termination_by text.length - pos

end Scanner

namespace Piece

/-- Bytes that belong to an earlier piece are passed over. -/
theorem scanFrom_drop (pos skip : Nat) (text : Bytes) :
    scanFrom pos skip text = scanFrom (pos + skip) 0 (text.drop skip) := by
  induction text generalizing pos skip with
  | nil => simp [scanFrom]
  | cons b rest ih =>
    cases skip with
    | zero => rfl
    | succ skip =>
      rw [scanFrom, ih, List.drop_succ_cons]
      congr 1
      omega

end Piece

namespace Scanner

variable {text : Bytes} {pos next : Nat} {p : Piece} {ps qs : List Piece} {ts : List Token}

/-- The scanner gives the piece of a step, and goes on where the step does. -/
theorem scanFrom_step (h : Step text pos p next) :
    Piece.scanFrom pos 0 (text.drop pos) = p :: Piece.scanFrom next 0 (text.drop next) := by
  obtain ⟨b, rest, hdrop⟩ := exists_drop h.pos_lt
  have hlen : 1 ≤ p.text.length := List.length_pos_of_ne_nil h.text_ne_nil
  rw [h.next_eq, ← List.drop_drop, hdrop, Piece.scanFrom, ← h.eq_first hdrop,
    Piece.scanFrom_drop]
  -- The first byte of the piece has been taken off already.
  rw [show p.text.length = (p.text.length - 1) + 1 by omega, List.drop_succ_cons,
    Nat.add_sub_cancel, Nat.add_assoc, Nat.add_comm 1]

/-- The pieces of a run are those that the scanner gives. -/
theorem Run.eq_scanFrom (h : Run text pos ps) : ps = Piece.scanFrom pos 0 (text.drop pos) := by
  induction h with
  | done h =>
    rw [List.drop_of_length_le h]
    rfl
  | step h _ ih => rw [scanFrom_step h, ih]

/-- **All steps** go over the pieces of the text. -/
theorem run_iff : Run text 0 ps ↔ ps = Piece.scan text := by
  constructor
  · exact Run.eq_scanFrom
  · intro h
    obtain ⟨qs, hrun⟩ := exists_run text 0
    have hqs : qs = Piece.scan text := hrun.eq_scanFrom
    rwa [h, ← hqs]

/-! ### All calls -/

/-- The pieces that a call goes over, in front of a run, are a run. -/
theorem Next.run {t? : Option Token} (h : Next text pos ps t? next) (hrun : Run text next qs) :
    Run text pos (ps ++ qs) := by
  induction h with
  | done _ => exact hrun
  | token h _ => exact .step h hrun
  | pass h _ _ ih => exact .step h (ih hrun)

/-- The token of a call is the only one among its pieces. -/
theorem Next.filterMap_token? {t? : Option Token} (h : Next text pos ps t? next) :
    ps.filterMap Piece.token? = t?.toList := by
  induction h with
  | done _ => rfl
  | token _ ht => rw [List.filterMap_cons_some ht, List.filterMap_nil, Option.toList_some]
  | pass _ ht _ ih => rw [List.filterMap_cons_none ht, ih]

/-- A call that finds no token goes to the end of the text. -/
theorem Next.length_le (h : Next text pos ps none next) : text.length ≤ next := by
  generalize ht : (none : Option Token) = t? at h
  induction h with
  | done h => exact h
  | token _ _ => exact absurd ht (by simp)
  | pass _ _ _ ih => exact ih ht

/-- The pieces that calls go over are a run, and the tokens are theirs. -/
theorem Reads.run (h : Reads text pos ps ts) :
    Run text pos ps ∧ ts = ps.filterMap Piece.token? := by
  induction h with
  | last h =>
    have hrun := h.run (.done h.length_le)
    rw [List.append_nil] at hrun
    exact ⟨hrun, h.filterMap_token?.symm⟩
  | more h _ ih => exact ⟨h.run ih.1, by rw [List.filterMap_append, h.filterMap_token?, ← ih.2]; rfl⟩

/-- A piece that is no token may be gone over by the next call. -/
theorem Reads.pass (h : Step text pos p next) (ht : p.token? = none)
    (hreads : Reads text next ps ts) : Reads text pos (p :: ps) ts := by
  cases hreads with
  | last hnext => exact .last (.pass h ht hnext)
  | more hnext hmore => exact .more (.pass h ht hnext) hmore

/-- A run is gone over by calls that find its tokens. -/
theorem Run.reads (h : Run text pos ps) : Reads text pos ps (ps.filterMap Piece.token?) := by
  induction h with
  | done h => exact .last (.done h)
  | @step pos next p ps h _ ih =>
    cases ht : p.token? with
    | none =>
      rw [List.filterMap_cons_none ht]
      exact ih.pass h ht
    | some t =>
      rw [List.filterMap_cons_some ht]
      exact .more (.token h ht) ih

/-- **All calls** go over the pieces of the text and give its tokens. -/
theorem reads_iff : Reads text 0 ps ts ↔ ps = Piece.scan text ∧ ts = Token.scan text := by
  constructor
  · intro h
    obtain ⟨hrun, rfl⟩ := h.run
    obtain rfl := run_iff.mp hrun
    exact ⟨rfl, rfl⟩
  · rintro ⟨rfl, rfl⟩
    exact (run_iff.mpr rfl).reads

end Scanner

/-! ### The tiling -/

namespace Piece

/-- The pieces that the scanner gives lie end to end over the text. -/
theorem tiling_scan (text : Bytes) : Tiling text (scan text) :=
  (Scanner.run_iff.mpr rfl).tiling

/-- A piece is the part of the text at its place. -/
theorem Tiling.text_eq {text : Bytes} {ps : List Piece} (h : Tiling text ps) {p : Piece}
    (hp : p ∈ ps) : p.text = (text.take p.span.stop).drop p.span.start := by
  obtain ⟨before, after, rfl⟩ := List.append_of_mem hp
  have hcovers := h.covers
  rw [List.flatMap_append, List.flatMap_cons] at hcovers
  have hstart : p.span.start = (before.flatMap Piece.text).length :=
    h.starts before p after rfl
  have hstop : p.span.stop = (before.flatMap Piece.text).length + p.text.length := by
    rw [← hstart]
    rfl
  rw [hstart, hstop, ← hcovers, List.take_length_add_append, List.drop_left, List.take_left]

/-- The token of a piece has its text and its place. -/
theorem token?_eq_some {p : Piece} {t : Token} (h : p.token? = some t) :
    p.role = .token t.kind ∧ t.lexeme = p.text ∧ t.span = p.span := by
  unfold token? at h
  split at h
  · next k hrole =>
    obtain rfl := Option.some.inj h
    exact ⟨hrole, rfl, rfl⟩
  · exact absurd h (by simp)

/-- Where a token stands among the tokens of some pieces, its piece stands among the pieces. -/
theorem exists_split {ps : List Piece} {before after : List Token} {t : Token}
    (h : ps.filterMap token? = before ++ t :: after) :
    ∃ front p back, ps = front ++ p :: back ∧ front.filterMap token? = before ∧
      p.token? = some t ∧ back.filterMap token? = after := by
  obtain ⟨front, rest, rfl, hfront, hrest⟩ := List.filterMap_eq_append_iff.mp h
  obtain ⟨others, p, back, rfl, hothers, hp, hback⟩ := List.filterMap_eq_cons_iff.mp hrest
  refine ⟨front ++ others, p, back, (List.append_assoc _ _ _).symm, ?_, hp, hback⟩
  rw [List.filterMap_append, hfront, List.filterMap_eq_nil_iff.mpr hothers, List.append_nil]

/-- **The pieces of a text tile it.**  Calls for the next token come to the end of the text; what
    they go over are the pieces of the text, which lie end to end, and what they give are its
    tokens, each of them the longest lexeme at its place, by the first rule that has it. -/
theorem scan_tiles (text : Bytes) :
    (∀ ps ts, Scanner.Reads text 0 ps ts ↔ ps = scan text ∧ ts = Token.scan text) ∧
      Tiling text (scan text) ∧
      ∀ t ∈ Token.scan text, t.lexeme = (text.take t.span.stop).drop t.span.start ∧
        ∃ r, Selects (text.drop t.span.start) t.lexeme.length r ∧ r.kind? = some t.kind := by
  refine ⟨fun ps ts => Scanner.reads_iff, tiling_scan text, ?_⟩
  intro t ht
  obtain ⟨p, hp, htoken⟩ := List.mem_filterMap.mp ht
  obtain ⟨hrole, hlexeme, hspan⟩ := token?_eq_some htoken
  rw [hlexeme, hspan]
  refine ⟨(tiling_scan text).text_eq hp, ?_⟩
  have hlawful := (tiling_scan text).lawful p hp
  unfold Lawful at hlawful
  rw [hrole] at hlawful
  exact hlawful

end Piece

end StackLang
