import StackLang.Proofs.Simulation.Callers
import Mathlib.Logic.Relation

namespace StackLang

/-!
# The calls of an evaluation

An evaluation runs programs inside programs: blocks, groups, conditions and source text.

* `Evaluator.Call` — a program that is run in a machine, with some levels left;
* `Evaluator.Asks` — the calls that a call makes itself;
* `Evaluator.Calls` — and those that are made during the call, at any depth;
* `Evaluator.calls_invariant` — every call is made in a coherent machine, one deeper than
  the call that makes it, and never runs out of levels;
* `Evaluator.run_within` — what a call leaves alone.
-/

/-- Outcomes of one call that are alike are equal. -/
theorem Callers.eq_of_alike {m : Machine} {h : m.Coherent} {r q : Outcome Unit}
    (hrq : (comparison m.depth).Alike Eq (one m h) r q) : r = q := by
  cases r with
  | ok a k =>
    cases q with
    | ok b l => rw [hrq.2.eq_of_one]
    | error g l => exact hrq.elim
  | error f k =>
    cases q with
    | ok b l => exact hrq.elim
    | error g l =>
      obtain ⟨rfl, hkl⟩ := hrq.resolve_left id
      rw [hkl.eq_of_one]

namespace Evaluator

/-- A program that is run in a machine, with some levels left. -/
structure Call where
  levels : Nat
  program : Program
  machine : Machine

/-- How a call ends. -/
def Call.outcome (ev : Evaluator) (c : Call) : Outcome Unit := ev.run c.levels c.program c.machine

/-- The machine at the end of a call, whether it succeeds or halts. -/
def Call.final (ev : Evaluator) (c : Call) : Machine := Outcome.machine (c.outcome ev)

/-- A program one level deeper, where a given function runs the programs that it runs in
    turn. -/
def runWith (ev : Evaluator) (inner : Program → Eval Unit) (p : Program) : Eval Unit :=
  Eval.nested ev.maxDepth (steps ev.table ⟨ev.parse, inner, ev.rounds⟩ p)

/-- A call makes another one itself, if it would end in another way for some other end of
    that one.  Nothing in a program catches a halt, so that a call which is made at all
    decides by its end how the call ends that makes it. -/
def Asks (ev : Evaluator) (c d : Call) : Prop :=
  c.levels = d.levels + 1 ∧ ∃ inner : Program → Eval Unit,
    (∀ p m, ¬ (p = d.program ∧ m = d.machine) → inner p m = ev.run d.levels p m) ∧
      ev.runWith inner c.program c.machine ≠ c.outcome ev

/-- The calls that are made during a call, at any depth, and the call itself. -/
abbrev Calls (ev : Evaluator) : Call → Call → Prop := Relation.ReflTransGen ev.Asks

section

variable {parse : Parser} {maxDepth rounds : Nat}

/-- **What a call leaves alone.** -/
theorem run_within {m : Machine} (h : m.Coherent) (levels : Nat) (p : Program) :
    m.Within (Outcome.machine ((Evaluator.builtin parse maxDepth rounds).run levels p m)) :=
  Callers.within_of_respects h (run_same parse maxDepth rounds levels p)

/-- A call depends on other calls in coherent machines one level deeper only. -/
theorem runWith_eq {m : Machine} (h : m.Coherent) (levels : Nat) (p : Program)
    {inner : Program → Eval Unit}
    (hinner : ∀ q k, k.Coherent → k.depth = m.depth + 1 → m.depth < maxDepth →
      inner q k = (Evaluator.builtin parse maxDepth rounds).run levels q k) :
    (Evaluator.builtin parse maxDepth rounds).runWith inner p m =
      (Evaluator.builtin parse maxDepth rounds).run (levels + 1) p m := by
  show Eval.nested maxDepth _ m = Eval.nested maxDepth _ m
  rw [Eval.nested_eq, Eval.nested_eq]
  by_cases hdeep : maxDepth ≤ m.depth
  · rw [if_pos hdeep, if_pos hdeep]
  · rw [if_neg hdeep, if_neg hdeep]
    -- Both ways of running the inner programs agree wherever the steps can get.
    have hc : (Simulation.callers (m.depth + 1)).Contexts ⟨parse, inner, rounds⟩
        ((Evaluator.builtin parse maxDepth rounds).context levels) := by
      refine .of_parse (fun source => ?_) ?_ fun _ => Or.inl rfl
      · rcases Callers.parses parse source with ⟨q, hq, hqq⟩ | ⟨i, hi, hii⟩
        · exact Or.inl ⟨q, q, hq, hq, hqq⟩
        · exact Or.inr (Or.inl ⟨i, i, hi, hi, hii⟩)
      · intro w q q' hqq k l hkl
        obtain rfl : q = q' := List.forall₂_eq_eq_eq ▸ hqq
        have hk : inner q k = (Evaluator.builtin parse maxDepth rounds).run levels q k :=
          hinner q k (Callers.Same.agree hkl).first_coherent (Callers.Same.agree hkl).first_depth (by omega)
        show (Callers.comparison (m.depth + 1)).Alike Eq w (inner q k) _
        rw [hk]
        exact run_same parse maxDepth rounds levels q w k l hkl
    let deeper : Machine := { m with depth := m.depth + 1 }
    have hdeeper : deeper.Coherent := h
    have halike := Simulation.steps_respects Callers.keepsTable hc (Callers.program_refl p)
      deeper deeper (Callers.same_one deeper hdeeper)
    exact congrArg _ (Callers.eq_of_alike halike)

/-- **The calls that a call makes itself.** -/
theorem asks_invariant {c d : Call} (h : (Evaluator.builtin parse maxDepth rounds).Asks c d)
    (hc : c.machine.Coherent) :
    d.machine.Coherent ∧ d.machine.depth = c.machine.depth + 1 ∧ c.machine.depth < maxDepth := by
  obtain ⟨hlevels, inner, hinner, hne⟩ := h
  by_contra hnot
  -- Otherwise the other way of running inner programs agrees with the evaluator.
  have hrun : c.outcome (Evaluator.builtin parse maxDepth rounds) =
      (Evaluator.builtin parse maxDepth rounds).run (d.levels + 1) c.program c.machine := by
    unfold Call.outcome
    rw [hlevels]
  apply hne
  rw [hrun]
  refine runWith_eq hc d.levels c.program fun q k hk hdepth hlow => hinner q k ?_
  rintro ⟨_, rfl⟩
  exact hnot ⟨hk, hdepth, hlow⟩

/-- **The calls made during a call.** -/
theorem calls_invariant {c d : Call} (h : (Evaluator.builtin parse maxDepth rounds).Calls c d)
    (hc : c.machine.Coherent) (hdepth : c.machine.depth ≤ maxDepth) :
    d.machine.Coherent ∧ d.machine.depth ≤ maxDepth ∧
      d.levels + d.machine.depth = c.levels + c.machine.depth := by
  induction h with
  | refl => exact ⟨hc, hdepth, rfl⟩
  | tail _ hde ih =>
    obtain ⟨hcoherent, _, hsum⟩ := ih
    obtain ⟨hcoherent', hnext, hlow⟩ := asks_invariant hde hcoherent
    have hlevels := hde.1
    exact ⟨hcoherent', by omega, by omega⟩

/-- What each call leaves alone that is made during a call. -/
theorem calls_within {c d : Call} (h : (Evaluator.builtin parse maxDepth rounds).Calls c d)
    (hc : c.machine.Coherent) (hdepth : c.machine.depth ≤ maxDepth) :
    d.machine.Within (d.final (Evaluator.builtin parse maxDepth rounds)) :=
  run_within (calls_invariant h hc hdepth).1 d.levels d.program

end

end Evaluator

end StackLang
