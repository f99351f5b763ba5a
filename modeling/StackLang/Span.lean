import StackLang.Text.Bytes

namespace StackLang

/-!
# Spans

A span is a range of byte positions of a source text: a start and the position just
behind the end.

* `Span.none` — the span of what has no position;
* `Span.cover` — the least span that holds two others;
* `Span.length` — the number of positions, counted modulo `2 ^ 64`;
* `Span.text` — `(start…stop)`.
-/

/-- A range of byte positions. -/
structure Span where
  start : Nat
  stop : Nat
deriving DecidableEq, Repr

namespace Span

/-- The span of what has no position. -/
def none : Span := ⟨0, 0⟩

/-- Whether a span is that of what has no position. -/
def isNone (s : Span) : Bool := s == none

/-- The least span that holds both spans. -/
def cover (s t : Span) : Span := ⟨min s.start t.start, max s.stop t.stop⟩

/-- The number of positions, modulo `2 ^ 64`. -/
def length (s : Span) : Nat := (s.stop + Nat.pow 2 64 - s.start) % Nat.pow 2 64

/-- The first span if it is a position, else the second one. -/
def orElse (s t : Span) : Span := if s.isNone then t else s

/-- A span in text. -/
def text (s : Span) : Bytes :=
  utf8 "(" ++ Bytes.decimal s.start ++ utf8 "…" ++ Bytes.decimal s.stop ++ utf8 ")"

end Span

end StackLang
