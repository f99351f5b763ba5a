import StackLang.Proofs.Program.RoundTrip

namespace StackLang

/-!
# Values as source text

The text of a value is that of a symbol: a literal, or a group whose symbols stand for the
elements of a list or a tuple.

* `Value.isSourced` — a value whose blocks source text can denote;
* `Value.containsNaN`, `Value.nesting` — what inspection may fail for, and how deeply lists and
  tuples are nested;
* `Value.source` — the symbol that stands for a value;
* `Value.parse_inspection` — the text of a value is parsed as that symbol, up to positions.
-/

/-! ### Definitions -/

mutual

/-- A value whose blocks source text can denote. -/
def Value.isSourced : Value → Bool
  | .bool _ => true
  | .int _ => true
  | .float _ => true
  | .str _ => true
  | .list _ vs => Value.areSourced vs
  | .tuple vs => Value.areSourced vs
  | .block body => Symbol.areWellFormed body

/-- Values whose blocks source text can denote. -/
def Value.areSourced : List Value → Bool
  | [] => true
  | v :: vs => v.isSourced && Value.areSourced vs

end

mutual

/-- Whether a value is, or has among its elements, a float that is not a number.  No source text
    denotes such a float, so that blocks need not be looked into. -/
def Value.containsNaN : Value → Bool
  | .bool _ => false
  | .int _ => false
  | .float x => x.isNaN
  | .str _ => false
  | .list _ vs => Value.containNaN vs
  | .tuple vs => Value.containNaN vs
  | .block _ => false

/-- Whether some values contain a float that is not a number. -/
def Value.containNaN : List Value → Bool
  | [] => false
  | v :: vs => v.containsNaN || Value.containNaN vs

end

mutual

/-- How deeply lists and tuples are nested in a value. -/
def Value.nesting : Value → Nat
  | .bool _ => 0
  | .int _ => 0
  | .float _ => 0
  | .str _ => 0
  | .list _ vs => Value.nestings vs + 1
  | .tuple vs => Value.nestings vs + 1
  | .block _ => 0

/-- How deeply lists and tuples are nested in some values. -/
def Value.nestings : List Value → Nat
  | [] => 0
  | v :: vs => max v.nesting (Value.nestings vs)

end

mutual

/-- The symbol that stands for a value in source text. -/
def Value.source : Value → Symbol
  | .bool b => .literal (.bool b) .none
  | .int n => .literal (.int n) .none
  | .float x => .literal (.float x) .none
  | .str s => .literal (.str s) .none
  | .list _ vs => .group .list (Value.sources vs) .none
  | .tuple vs => .group .tuple (Value.sources vs) .none
  | .block body => .literal (.block body) .none

/-- The symbols that stand for some values in source text. -/
def Value.sources : List Value → Program
  | [] => []
  | v :: vs => v.source :: Value.sources vs

end

/-- Values have blocks that source text can denote if and only if each one does. -/
theorem Value.areSourced_iff {vs : List Value} :
    Value.areSourced vs = true ↔ ∀ v ∈ vs, v.isSourced = true := by
  induction vs with
  | nil => simp [Value.areSourced]
  | cons v vs ih => simp [Value.areSourced, ih]

/-! ### Texts -/

mutual

/-- A value and the symbol that stands for it have the same text. -/
theorem Value.text_source : ∀ v : Value, v.source.text = v.text
  | .bool _ => by rw [Value.source, Symbol.text]
  | .int _ => by rw [Value.source, Symbol.text]
  | .float _ => by rw [Value.source, Symbol.text]
  | .str _ => by rw [Value.source, Symbol.text]
  | .list _ vs => by
    rw [Value.source, Symbol.text, Value.texts_sources vs, Value.text]
    simp
  | .tuple vs => by rw [Value.source, Symbol.text, Value.texts_sources vs, Value.text]
  | .block _ => by rw [Value.source, Symbol.text]

theorem Value.texts_sources : ∀ vs : List Value, Symbol.texts (Value.sources vs) = Value.texts vs
  | [] => by rw [Value.sources, Symbol.texts, Value.texts]
  | v :: vs => by
    rw [Value.sources, Symbol.texts, Value.texts, Value.text_source v, Value.texts_sources vs]

end

mutual

/-- Source text can denote the symbol that stands for a value. -/
theorem Value.wellFormed_source : ∀ v : Value, v.isSourced = true → v.containsNaN = false →
    v.source.isWellFormed = true
  | .bool _, _, _ => rfl
  | .int _, _, _ => rfl
  | .float _, _, hnan => (Bool.not_eq_true' _).mpr hnan
  | .str _, _, _ => rfl
  | .list _ vs, h, hnan => Value.wellFormed_sources vs h hnan
  | .tuple vs, h, hnan => Value.wellFormed_sources vs h hnan
  | .block _, h, _ => h

/-- The symbols that stand for some values can be denoted by source text, unless there is a NaN
    among the values. -/
theorem Value.wellFormed_sources : ∀ vs : List Value, Value.areSourced vs = true →
    Value.containNaN vs = false → Symbol.areWellFormed (Value.sources vs) = true
  | [], _, _ => rfl
  | v :: vs, h, hnan => by
    obtain ⟨hv, hvs⟩ := Bool.and_eq_true_iff.mp h
    obtain ⟨hnv, hnvs⟩ := Bool.or_eq_false_iff.mp hnan
    exact Bool.and_eq_true_iff.mpr
      ⟨Value.wellFormed_source v hv hnv, Value.wellFormed_sources vs hvs hnvs⟩

end

/-- **The text of a value** is parsed as the symbol that stands for it, up to positions. -/
theorem Value.parse_inspection {v : Value} (h : v.isSourced = true) (hnan : v.containsNaN = false) :
    ∃ s, Program.parse v.text = .ok [s] ∧ s.unspanned = v.source.unspanned := by
  have hwell : Symbol.areWellFormed [v.source] = true := by
    rw [Symbol.areWellFormed, Value.wellFormed_source v h hnan]
    rfl
  have htext : Program.text [v.source] = v.text := by
    simp [Program.text, Symbol.texts, Value.text_source, Bytes.spaced, Bytes.joined]
  obtain ⟨again, hparse, hsame⟩ := Program.parse_unspanned hwell
  rw [htext] at hparse
  rw [Symbol.unspannedAll_eq, Symbol.unspannedAll_eq] at hsame
  obtain ⟨s, rest, rfl, hs, hrest⟩ := List.map_eq_cons_iff.mp hsame
  obtain rfl := List.map_eq_nil_iff.mp hrest
  exact ⟨s, hparse, hs⟩

end StackLang
