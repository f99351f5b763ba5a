import StackLang.Proofs.Evaluation.Safety

namespace StackLang

/-!
# The strings of an evaluation

An evaluation may evaluate strings, which it makes of other strings as it goes.  A string is one of
those if it matters what its program is: nothing in a program catches a halt, so that an evaluation
that comes to a string at all ends in another way if the string is refused.

* `Evaluator.Evaluates`, `Evaluator.ComesTo` — an evaluation evaluates a string, and so does a
  program in any machine;
* `Evaluator.refusing` — a parser that refuses some texts;
* `Evaluator.run_refusing` — a program has the same outcome if fewer texts are refused, unless it
  came to one of those that no longer are;
* `Evaluator.run_evaluated`, `Evaluator.run_comesTo` — so all strings may be refused that it does
  not evaluate.
-/

/-- The first of two calls may be told that a text is refused. -/
def Halt.Ends.refusal (texts : Bytes → Prop) : Ends where
  shared := Fine
  lost h := (∃ text, texts text ∧ h = .issue (.plain text)) ∨ ∃ f, h = .fault f
  ofCause := same.ofCause
  shared_map := same.shared_map
  lost_map := by
    rintro h g - (⟨text, ht, rfl⟩ | ⟨f, rfl⟩)
    · exact Or.inl ⟨text, ht, rfl⟩
    · exact Or.inr ⟨f, rfl⟩
  fault := fun _ f => Or.inr ⟨f, rfl⟩

namespace Evaluator

/-- An evaluation evaluates a string: it would end in another way for some other program of that
    string. -/
def Evaluates (ev : Evaluator) (p : Program) (memory : Memory) (initial : List Value)
    (text : Bytes) : Prop :=
  ∃ parse : Parser, (∀ other, other ≠ text → parse other = ev.parse other) ∧
    { ev with parse }.evaluate p memory initial ≠ ev.evaluate p memory initial

/-- A program in a machine comes to a string: it would end in another way for some other program of
    that string. -/
def ComesTo (ev : Evaluator) (levels : Nat) (p : Program) (m : Machine) (text : Bytes) : Prop :=
  ∃ parse : Parser, (∀ other, other ≠ text → parse other = ev.parse other) ∧
    { ev with parse }.run levels p m ≠ ev.run levels p m

/-! ### Parsers that refuse texts -/

open Classical in
/-- A parser that refuses some texts, and says which one it was. -/
noncomputable def refusing (refused : Bytes → Prop) (parse : Parser) : Parser := fun text =>
  if refused text then .error (.plain text) else parse text

variable {refused fewer : Bytes → Prop} {parse : Parser} {text : Bytes}

/-- A text that is refused is not parsed. -/
theorem refusing_of_refused (h : refused text) :
    refusing refused parse text = .error (.plain text) :=
  if_pos h

theorem refusing_of_not (h : ¬ refused text) : refusing refused parse text = parse text :=
  if_neg h

/-- To refuse nothing is to parse as ever. -/
theorem refusing_none : refusing (fun _ => False) parse = parse :=
  funext fun _ => refusing_of_not id

/-- Where fewer texts are refused, two calls parse alike but for the others. -/
theorem parsesAlike_refusing (hfewer : ∀ text, fewer text → refused text) :
    (Halt.Ends.refusal fun text => refused text ∧ ¬ fewer text).ParsesAlike
      (refusing refused parse) (refusing fewer parse) := by
  intro source
  by_cases hr : refused source
  · by_cases hf : fewer source
    · rw [refusing_of_refused hr, refusing_of_refused hf]
      exact Or.inl ⟨rfl, fun i _ => Halt.fine_issue i⟩
    · exact Or.inr ⟨.plain source, refusing_of_refused hr, Or.inl ⟨source, ⟨hr, hf⟩, rfl⟩⟩
  · rw [refusing_of_not hr, refusing_of_not fun hf => hr (hfewer source hf)]
    exact Or.inl ⟨rfl, fun i _ => Halt.fine_issue i⟩

variable {maxDepth rounds levels : Nat} {p : Program} {memory : Memory} {initial : List Value}
  {m k : Machine} {h : Halt}

/-- A program has the same outcome if fewer texts are refused, unless it came to one of those that
    no longer are. -/
theorem run_refusing (refused fewer : Bytes → Prop) (parse : Parser) (hm : m.Coherent)
    (hfewer : ∀ text, fewer text → refused text)
    (hend : ∀ text k, (Evaluator.builtin (refusing refused parse) maxDepth rounds).run levels p m
      = .error (.issue (.plain text)) k → refused text → fewer text) :
    (Evaluator.builtin (refusing fewer parse) maxDepth rounds).run levels p m
      = (Evaluator.builtin (refusing refused parse) maxDepth rounds).run levels p m := by
  have halike := run_reparsed (refusing refused parse) rounds _ Halt.fine_exhausted
    (parsesAlike_refusing hfewer) maxDepth levels m.depth ⟨m, hm, rfl⟩ p m m ⟨.refl m, rfl⟩
  refine Depths.eq_of_alike_same halike ?_
  rintro h k herror (⟨text, ⟨hr, hf⟩, rfl⟩ | ⟨f, rfl⟩)
  · exact hf (hend text k herror hr)
  · exact run_faultless _ rounds maxDepth hm levels p herror f rfl

/-- All texts of some kind may be refused, if a program comes to none of them where it alone is. -/
theorem run_refused (others : Bytes → Prop) (parse : Parser) (hm : m.Coherent)
    (hnone : ∀ text k, (Evaluator.builtin (refusing (· = text) parse) maxDepth rounds).run levels
      p m = .error (.issue (.plain text)) k → ¬ others text) :
    (Evaluator.builtin (refusing others parse) maxDepth rounds).run levels p m
      = (Evaluator.builtin parse maxDepth rounds).run levels p m := by
  have hsame := run_refusing others (fun _ => False) parse hm (fun _ hf => hf.elim)
    fun text k hrun hother => by
      -- The program comes to this text, also if no others are refused.
      have hone := run_refusing others (· = text) parse hm (by rintro _ rfl; exact hother)
        fun other l hl _ => by
          rw [hrun] at hl
          injection hl with hl _
          exact (Issue.plain.inj (Halt.issue.inj hl)).symm
      exact hnone text k (hone.trans hrun) hother
  rw [refusing_none] at hsame
  exact hsame.symm

/-! ### Strings that are evaluated -/

/-- An evaluation fails as its program does, and the memory is what the program leaves. -/
theorem evaluate_eq_error_iff {ev : Evaluator} {after : Memory} :
    ev.evaluate p memory initial = (.error h, after) ↔
      ∃ k, ev.run (ev.maxDepth + 1) p (start memory initial) = .error h k ∧ memoryOf k = after := by
  rw [evaluate]
  cases ev.run (ev.maxDepth + 1) p (start memory initial) with
  | ok _ k => simp
  | error g k => simp

/-- With the parser of the language, programs halt in ways that are open to programs. -/
theorem reported_of_run (hm : m.Coherent)
    (hrun : (Evaluator.builtin parser maxDepth rounds).run levels p m = .error h k) :
    h.Reported :=
  Depths.shared_of_respects .reported hm (fun _ h => h)
    (fun w => run_guarded parser rounds .reported (Or.inl rfl) parses_reported maxDepth levels
      m.depth w p) hrun

/-- A string that an evaluation comes to, and is refused, is one that it evaluates. -/
theorem evaluates_of_refused
    (hrun : (Evaluator.builtin (refusing (· = text) parser) maxDepth rounds).run (maxDepth + 1) p
      (start memory initial) = .error (.issue (.plain text)) k) :
    (Evaluator.builtin parser maxDepth rounds).Evaluates p memory initial text := by
  refine ⟨refusing (· = text) parser, fun other hne => refusing_of_not hne, fun heq => ?_⟩
  have hrefused : (Evaluator.builtin (refusing (· = text) parser) maxDepth rounds).evaluate p memory
      initial = (.error (.issue (.plain text)), memoryOf k) :=
    evaluate_eq_error_iff.mpr ⟨k, hrun, rfl⟩
  obtain ⟨l, hl, -⟩ := evaluate_eq_error_iff.mp (heq.symm.trans hrefused)
  -- The parser of the language never ends with a text alone.
  rcases reported_of_run (Machine.coherent_opening ..) hl with hex | ⟨f, hf, -⟩
  · exact absurd hex (by simp)
  · exact absurd (Halt.issue.inj hf) (by simp)

/-- **Strings that are not evaluated** do not matter: all of them may be refused. -/
theorem run_evaluated (maxDepth rounds : Nat) (p : Program) (memory : Memory)
    (initial : List Value) :
    (Evaluator.builtin (refusing
        (fun text => ¬ (Evaluator.builtin parser maxDepth rounds).Evaluates p memory initial text)
        parser) maxDepth rounds).run (maxDepth + 1) p (start memory initial)
      = (Evaluator.builtin parser maxDepth rounds).run (maxDepth + 1) p (start memory initial) :=
  run_refused _ parser (Machine.coherent_opening ..) fun _ _ hrun hother =>
    hother (evaluates_of_refused hrun)

/-- **Strings that a program does not come to** may be refused as well, in any machine. -/
theorem run_comesTo (maxDepth rounds levels : Nat) (p : Program) (hm : m.Coherent) :
    (Evaluator.builtin (refusing
        (fun text => ¬ (Evaluator.builtin parser maxDepth rounds).ComesTo levels p m text)
        parser) maxDepth rounds).run levels p m
      = (Evaluator.builtin parser maxDepth rounds).run levels p m := by
  refine run_refused _ parser hm fun text k hrun hother => hother ?_
  refine ⟨refusing (· = text) parser, fun other hne => refusing_of_not hne, fun heq => ?_⟩
  -- The parser of the language never ends with a text alone.
  rcases reported_of_run hm (heq.symm.trans hrun) with hex | ⟨f, hf, -⟩
  · exact absurd hex (by simp)
  · exact absurd (Halt.issue.inj hf) (by simp)

end Evaluator

end StackLang
