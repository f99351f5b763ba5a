import StackLang.Proofs.Token.Joining
import StackLang.Proofs.Program.Grammar

namespace StackLang

/-!
# Programs at other positions

* `Value.respan`, `Symbol.respan`, `Token.respan` — values, symbols and tokens with other positions,
  given by a change of spans; `Token.unplaced` — a token without its position;
* `Grammar.Sequence.respan`, `Grammar.Atom.of_respan` — tokens at other positions are derived with
  the same tree at other positions, and with no other one, if the change of spans goes through
  `Span.cover`.
-/

/-! ### Changes of positions -/

namespace Span

/-- A change of spans that keeps which spans are covered. -/
def KeepsCover (g : Span → Span) : Prop := ∀ s t : Span, g (s.cover t) = (g s).cover (g t)

/-- Moving all positions by the same distance keeps which ones are covered. -/
theorem keepsCover_shift (k : Nat) : KeepsCover (shift k) := by
  intro s t
  simp only [shift, cover, Span.mk.injEq]
  omega

end Span

mutual

/-- A value with other positions inside its blocks. -/
def Value.respan (g : Span → Span) : Value → Value
  | .bool b => .bool b
  | .int n => .int n
  | .float x => .float x
  | .str s => .str s
  | .list i vs => .list i (Value.respanAll g vs)
  | .tuple vs => .tuple (Value.respanAll g vs)
  | .block body => .block (Symbol.respanAll g body)

/-- Values with other positions inside their blocks. -/
def Value.respanAll (g : Span → Span) : List Value → List Value
  | [] => []
  | v :: vs => v.respan g :: Value.respanAll g vs

/-- A symbol with other positions. -/
def Symbol.respan (g : Span → Span) : Symbol → Symbol
  | .literal v span => .literal (v.respan g) (g span)
  | .name s span => .name s (g span)
  | .operator s span => .operator s (g span)
  | .group k body span => .group k (Symbol.respanAll g body) (g span)
  | .blank span => .blank (g span)

/-- A program with other positions. -/
def Symbol.respanAll (g : Span → Span) : List Symbol → List Symbol
  | [] => []
  | s :: ss => s.respan g :: Symbol.respanAll g ss

end

mutual

/-- A value with other positions is the same without them. -/
theorem Value.unspanned_respan (g : Span → Span) : ∀ v : Value, (v.respan g).unspanned = v.unspanned
  | .bool _ => rfl
  | .int _ => rfl
  | .float _ => rfl
  | .str _ => rfl
  | .list _ vs => by rw [Value.respan, Value.unspanned, Value.unspanned, Value.unspannedAll_respan g vs]
  | .tuple vs => by rw [Value.respan, Value.unspanned, Value.unspanned, Value.unspannedAll_respan g vs]
  | .block body => by
    rw [Value.respan, Value.unspanned, Value.unspanned, Symbol.unspannedAll_respan g body]

theorem Value.unspannedAll_respan (g : Span → Span) : ∀ vs : List Value,
    Value.unspannedAll (Value.respanAll g vs) = Value.unspannedAll vs
  | [] => rfl
  | v :: vs => by
    rw [Value.respanAll, Value.unspannedAll, Value.unspannedAll, Value.unspanned_respan g v,
      Value.unspannedAll_respan g vs]

/-- A symbol with other positions is the same without them. -/
theorem Symbol.unspanned_respan (g : Span → Span) : ∀ s : Symbol,
    (s.respan g).unspanned = s.unspanned
  | .literal v _ => by rw [Symbol.respan, Symbol.unspanned, Symbol.unspanned, Value.unspanned_respan g v]
  | .name _ _ => rfl
  | .operator _ _ => rfl
  | .group _ body _ => by
    rw [Symbol.respan, Symbol.unspanned, Symbol.unspanned, Symbol.unspannedAll_respan g body]
  | .blank _ => rfl

/-- A program with other positions is the same without them. -/
theorem Symbol.unspannedAll_respan (g : Span → Span) : ∀ ss : List Symbol,
    Symbol.unspannedAll (Symbol.respanAll g ss) = Symbol.unspannedAll ss
  | [] => rfl
  | s :: ss => by
    rw [Symbol.respanAll, Symbol.unspannedAll, Symbol.unspannedAll, Symbol.unspanned_respan g s,
      Symbol.unspannedAll_respan g ss]

end

/-! ### Derivations -/

namespace Token

/-- A token with another position. -/
def respan (g : Span → Span) (t : Token) : Token := { t with span := g t.span }

/-- A token without its position. -/
def unplaced (t : Token) : Token := t.respan fun _ => .none

/-- Tokens that are moved are the same without their positions. -/
theorem map_unplaced_shift (k : Nat) (ts : List Token) :
    (ts.map (shift k)).map unplaced = ts.map unplaced := by
  rw [List.map_map]
  rfl

/-- A token at another position denotes the same symbol there. -/
theorem Denotes.respan {t : Token} {s : Symbol} (g : Span → Span) (h : t.Denotes s) :
    (t.respan g).Denotes (s.respan g) := by
  cases h with
  | integer hk h => exact .integer hk h
  | float hk h => exact .float hk h
  | string hk h => exact .string hk h
  | rawString hk => exact .rawString hk
  | true hk h => exact .true hk h
  | false hk h => exact .false hk h
  | name hk => exact .name hk
  | keyword hk ht hf => exact .keyword hk ht hf
  | operator hk => exact .operator hk

/-- What a token at another position denotes, it denotes at its own. -/
theorem Denotes.of_respan {t : Token} {s : Symbol} {g : Span → Span}
    (h : (t.respan g).Denotes s) : ∃ s', t.Denotes s' ∧ s'.respan g = s := by
  cases h with
  | integer hk h => exact ⟨_, .integer hk h, rfl⟩
  | float hk h => exact ⟨_, .float hk h, rfl⟩
  | string hk h => exact ⟨_, .string hk h, rfl⟩
  | rawString hk => exact ⟨_, .rawString hk, rfl⟩
  | true hk h => exact ⟨_, .true hk h, rfl⟩
  | false hk h => exact ⟨_, .false hk h, rfl⟩
  | name hk => exact ⟨_, .name hk, rfl⟩
  | keyword hk ht hf => exact ⟨_, .keyword hk ht hf, rfl⟩
  | operator hk => exact ⟨_, .operator hk, rfl⟩

end Token

namespace Grammar

variable {g : Span → Span}

mutual

/-- Tokens at other positions are derived with the symbols at these positions. -/
theorem Sequence.respan {ts : List Token} {p : Program} (hg : Span.KeepsCover g) :
    Sequence ts p → Sequence (ts.map (Token.respan g)) (Symbol.respanAll g p)
  | .nil => .nil
  | .cons ha hs => by
    rw [List.map_append]
    exact .cons (ha.respan hg) (hs.respan hg)

/-- **Tokens at other positions** are derived with the same tree at other positions. -/
theorem Atom.respan {ts : List Token} {s : Symbol} (hg : Span.KeepsCover g) :
    Atom ts s → Atom (ts.map (Token.respan g)) (s.respan g)
  | .leaf h => .leaf (h.respan g)
  | .list (o := o) (c := c) ho hc h => by
    -- The brackets move with the body, and the span that they cover with them.
    rw [List.map_append, Symbol.respan, hg]
    exact .list (o := o.respan g) (c := c.respan g) ho hc (h.respan hg)
  | .tuple (o := o) (c := c) ho hc h => by
    rw [List.map_append, Symbol.respan, hg]
    exact .tuple (o := o.respan g) (c := c.respan g) ho hc (h.respan hg)
  | .block (o := o) (c := c) ho hc h => by
    rw [List.map_append, Symbol.respan, hg]
    exact .block (o := o.respan g) (c := c.respan g) ho hc (h.respan hg)

end

/-- Tokens between others, of tokens at other positions. -/
theorem map_eq_group {o c : Token} {ts us : List Token}
    (h : us.map (Token.respan g) = o :: ts ++ [c]) :
    ∃ o' us' c', us = o' :: us' ++ [c'] ∧ o'.respan g = o ∧ us'.map (Token.respan g) = ts ∧
      c'.respan g = c := by
  obtain ⟨l, l', rfl, hl, hl'⟩ := List.map_eq_append_iff.mp h
  obtain ⟨o', us', rfl, ho, hus⟩ := List.map_eq_cons_iff.mp hl
  obtain ⟨c', hc, rfl⟩ := List.map_eq_singleton_iff.mp hl'
  exact ⟨o', us', c', by rw [hc], ho, hus, rfl⟩

mutual

/-- What tokens at other positions are derived with comes from what they are derived with
    themselves. -/
theorem Sequence.of_respan {ts us : List Token} {p : Program} (hg : Span.KeepsCover g)
    (hus : us.map (Token.respan g) = ts) :
    Sequence ts p → ∃ p', Sequence us p' ∧ Symbol.respanAll g p' = p
  | .nil => by
    obtain rfl := List.map_eq_nil_iff.mp hus
    exact ⟨[], .nil, rfl⟩
  | .cons ha hs => by
    obtain ⟨l, l', rfl, hl, hl'⟩ := List.map_eq_append_iff.mp hus
    obtain ⟨s, ha', rfl⟩ := ha.of_respan hg hl
    obtain ⟨p, hs', rfl⟩ := hs.of_respan hg hl'
    exact ⟨s :: p, .cons ha' hs', rfl⟩

/-- **The tree of tokens at other positions** is that of the tokens, at other positions. -/
theorem Atom.of_respan {ts us : List Token} {s : Symbol} (hg : Span.KeepsCover g)
    (hus : us.map (Token.respan g) = ts) : Atom ts s → ∃ s', Atom us s' ∧ s'.respan g = s
  | .leaf h => by
    obtain ⟨t, rfl, rfl⟩ := List.map_eq_singleton_iff.mp hus
    obtain ⟨s, h', rfl⟩ := h.of_respan
    exact ⟨s, .leaf h', rfl⟩
  | .list ho hc h => by
    obtain ⟨o, us, c, rfl, rfl, hts, rfl⟩ := map_eq_group hus
    obtain ⟨body, h', rfl⟩ := h.of_respan hg hts
    exact ⟨_, .list ho hc h', by rw [Symbol.respan, hg]; rfl⟩
  | .tuple ho hc h => by
    obtain ⟨o, us, c, rfl, rfl, hts, rfl⟩ := map_eq_group hus
    obtain ⟨body, h', rfl⟩ := h.of_respan hg hts
    exact ⟨_, .tuple ho hc h', by rw [Symbol.respan, hg]; rfl⟩
  | .block ho hc h => by
    obtain ⟨o, us, c, rfl, rfl, hts, rfl⟩ := map_eq_group hus
    obtain ⟨body, h', rfl⟩ := h.of_respan hg hts
    exact ⟨_, .block ho hc h', by rw [Symbol.respan, hg]; rfl⟩

end

end Grammar

end StackLang
