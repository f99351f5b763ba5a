import StackLang.Proofs.Program.Positions
import StackLang.Proofs.Program.Violation

namespace StackLang

/-!
# Programs of joined texts

* `Grammar.Sequence.append` — derived tokens behind derived tokens are derived;
* `Program.parse_newline` — the program of two texts that a newline joins is that of the first one
  followed by that of the second one, but for its positions.
-/

open Bytes (ascii)

/-- Sequences of tokens put together are the symbols of both. -/
theorem Grammar.Sequence.append {ts us : List Token} {p q : Program} :
    Sequence ts p → Sequence us q → Sequence (ts ++ us) (p ++ q)
  | .nil, h => h
  | .cons ha hs, h => by
    rw [List.append_assoc]
    exact .cons ha (hs.append h)

namespace Program

variable {text rest : Bytes} {p q : Program}

/-- Of a text with a program, nothing is set aside, and its tokens are derived. -/
theorem sequence_of_parse (h : parse text = .ok p) :
    (∀ p ∈ Piece.scan text, p.role ≠ .aside) ∧ Grammar.Sequence (Token.scan text) p := by
  rcases parse_outcome text with ⟨p', hok, hclean, hseq, -⟩ | ⟨pos, f, hf, -⟩
  · obtain rfl := Except.ok.inj (h.symm.trans hok)
    exact ⟨hclean, hseq⟩
  · exact absurd (h.symm.trans hf) (by simp)

/-- **The program of two texts that a newline joins** is that of the first one followed by that of
    the second one, but for its positions. -/
theorem parse_newline (hp : parse text = .ok p) (hq : parse rest = .ok q) :
    ∃ q', parse (text ++ ascii '\n' :: rest) = .ok (p ++ q') ∧
      Symbol.unspannedAll q' = Symbol.unspannedAll q := by
  obtain ⟨hclean, hseq⟩ := sequence_of_parse hp
  obtain ⟨hclean', hseq'⟩ := sequence_of_parse hq
  refine ⟨Symbol.respanAll (Span.shift (text.length + 1)) q, ?_, Symbol.unspannedAll_respan _ q⟩
  apply parseFrom_of_sequence (Piece.clean_newline hclean hclean')
  show Grammar.Sequence (Token.scan (text ++ ascii '\n' :: rest)) _
  rw [Token.scan_newline hclean rest]
  exact hseq.append (hseq'.respan (Span.keepsCover_shift _))

end Program

end StackLang
