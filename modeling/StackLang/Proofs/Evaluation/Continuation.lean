import StackLang.Proofs.Evaluation.Inlining
import StackLang.Proofs.Evaluation.Limits
import StackLang.Proofs.Program.Joining
import StackLang.Proofs.Simulation.Positions

namespace StackLang

/-!
# Evaluations that go on where others ended

* `Evaluator.run_append` — a program behind one that has gone well goes on in the machine at its
  end;
* `Evaluator.evaluateIn_continued` — so does a new evaluation, which has nothing of that machine but
  the values left, the scopes and the number of lists;
* `Machine.Within.scopes_root` — an evaluation against global bindings leaves no other scope than
  theirs;
* `Evaluator.evaluate_append` — the same for programs against global bindings;
* `Evaluator.evaluate_positions` — evaluations of programs that differ in positions only;
* `Evaluator.evaluateText_newline` — two texts that a newline joins are evaluated one after the
  other, up to positions.
-/

open Bytes (ascii)

namespace Evaluator

variable {parse : Parser} {maxDepth rounds levels : Nat} {p : Program} {m k : Machine}

/-! ### One program behind the other -/

/-- A program that succeeds stays within its call. -/
theorem within_of_run_ok (hm : m.Coherent)
    (h : (Evaluator.builtin parse maxDepth rounds).run levels p m = .ok () k) : m.Within k := by
  have hwithin : m.Within (Outcome.machine
      ((Evaluator.builtin parse maxDepth rounds).run levels p m)) := run_within hm levels p
  rwa [h] at hwithin

/-- If a program goes well, then so do its symbols, one level deeper. -/
theorem steps_of_run_ok (hm : m.Coherent)
    (h : (Evaluator.builtin parse maxDepth rounds).run (levels + 1) p m = .ok () k) :
    ¬ maxDepth ≤ m.depth ∧
      steps .builtin ((Evaluator.builtin parse maxDepth rounds).context levels) p
        (m.atDepth (m.depth + 1)) = .ok () (k.atDepth (m.depth + 1)) := by
  have hdeeper : (m.atDepth (m.depth + 1)).Coherent := hm
  have hwithin := steps_within parse maxDepth rounds levels hdeeper p
  rw [run_succ] at h
  by_cases hlimit : maxDepth ≤ m.depth
  · rw [if_pos hlimit] at h
    exact absurd h (by simp)
  · rw [if_neg hlimit] at h
    cases hsteps : steps .builtin ((Evaluator.builtin parse maxDepth rounds).context levels) p
        (m.atDepth (m.depth + 1)) with
    | error g r =>
      rw [hsteps] at h
      exact absurd h (by simp [Outcome.onMachine])
    | ok _ r =>
      rw [hsteps] at h hwithin
      have hr : r.depth = m.depth + 1 := hwithin.depth
      injection h with _ hk
      subst hk
      refine ⟨hlimit, ?_⟩
      -- The program ends one level up again, and its symbols one level below that.
      show _ = EStateM.Result.ok () { r with depth := m.depth + 1 }
      rw [← hr]

/-- A program behind one that has gone well goes on in the machine at its end. -/
theorem run_append (hm : m.Coherent)
    (h : (Evaluator.builtin parse maxDepth rounds).run (levels + 1) p m = .ok () k) (q : Program) :
    (Evaluator.builtin parse maxDepth rounds).run (levels + 1) (p ++ q) m
      = (Evaluator.builtin parse maxDepth rounds).run (levels + 1) q k := by
  obtain ⟨hlimit, hsteps⟩ := steps_of_run_ok hm h
  rw [run_succ, run_succ, (within_of_run_ok hm h).depth, if_neg hlimit, if_neg hlimit,
    steps_append _ _ _ (not_dangles_of_ok hsteps), bind_of_ok hsteps]

/-! ### A new evaluation -/

/-- A report gives the scopes of the last machine. -/
theorem scopes_report (r : Outcome Unit) : (Report.of r).scopes = (Outcome.machine r).scopes := by
  cases r <;> rfl

theorem lists_report (r : Outcome Unit) : (Report.of r).lists = (Outcome.machine r).nextList := by
  cases r <;> rfl

/-- Two calls of one program that end alike have the same report. -/
theorem report_of_alike {d : Nat} {w : Callers d} {r s : Outcome Unit}
    (h : (Callers.comparison d).Alike Eq w r s) : Report.of r = Report.of s := by
  have hsame := Callers.same_of_alike h
  ext1
  · cases r with
    | ok a m =>
      cases s with
      | ok b n => exact congrArg (fun vs => Except.ok (List.reverse vs)) hsame.visible
      | error g n => exact h.elim
    | error f m =>
      cases s with
      | ok b n => exact h.elim
      | error g n => exact congrArg Except.error (h.resolve_left id).1
  · rw [scopes_report, scopes_report, hsame.scopes]
  · rw [lists_report, lists_report, hsame.nextList]

/-- The machine at the end of an evaluation is one at the start of another one, but for the number
    of frames made. -/
theorem eq_opening {scopes : Scopes Value} {root lists : Nat} {initial : List Value}
    (h : (Machine.opening scopes root lists initial).Within k) :
    { k with nextFrame := 1 } = Machine.opening k.scopes root k.nextList k.stack.values := by
  have hframes := h.frames
  have hdepth := h.depth
  -- Nothing is protected at the start, so that all values are visible at the end.
  have hstack : k.stack = Stack.empty.pushAll k.stack.values := by
    apply Stack.ext_of_values
    · simp [Stack.pushAll, Stack.values, Stack.empty]
    · exact h.hidden
  unfold Machine.opening
  rw [← hstack, show k.frames = _ from hframes, show k.depth = 0 from hdepth]
  rfl

/-- What is reported of an evaluation that has gone well. -/
theorem evaluateIn_eq_ok_iff {scopes scopes' : Scopes Value} {root lists lists' : Nat}
    {initial left : List Value} :
    (Evaluator.builtin parse maxDepth rounds).evaluateIn p scopes root lists initial
        = ⟨.ok left, scopes', lists'⟩ ↔
      ∃ k, (Evaluator.builtin parse maxDepth rounds).run (maxDepth + 1) p
          (.opening scopes root lists initial) = .ok () k ∧
        left = k.stack.values ∧ scopes' = k.scopes ∧ lists' = k.nextList := by
  show Report.of ((Evaluator.builtin parse maxDepth rounds).run (maxDepth + 1) p _) = _ ↔ _
  cases (Evaluator.builtin parse maxDepth rounds).run (maxDepth + 1) p
      (.opening scopes root lists initial) with
  | ok _ k => simp [Report.of, eq_comm]
  | error g k => simp [Report.of]

/-- **An evaluation goes on** where one ended that has gone well: two programs one behind the other
    end as the second one does on the values that the first one left, in the scopes that it left. -/
theorem evaluateIn_continued {scopes scopes' : Scopes Value} {root lists lists' : Nat}
    {initial left : List Value}
    (h : (Evaluator.builtin parse maxDepth rounds).evaluateIn p scopes root lists initial
      = ⟨.ok left, scopes', lists'⟩) (q : Program) :
    (Evaluator.builtin parse maxDepth rounds).evaluateIn (p ++ q) scopes root lists initial
      = (Evaluator.builtin parse maxDepth rounds).evaluateIn q scopes' root lists' left := by
  obtain ⟨k, hrun, rfl, rfl, rfl⟩ := evaluateIn_eq_ok_iff.mp h
  have hopening := Machine.coherent_opening scopes root lists initial
  have hwithin := within_of_run_ok hopening hrun
  have hk : k.Coherent := hwithin.coherent hopening
  -- The two calls of the second program differ in the number of frames made before.
  let w : Callers k.depth := ⟨k, { k with nextFrame := 1 }, hk, hk, rfl, rfl, rfl⟩
  have halike := run_same parse maxDepth rounds (maxDepth + 1) q w k { k with nextFrame := 1 }
    ⟨.refl _, .refl _, rfl, rfl, rfl, Nat.add_comm ..⟩
  rw [← run_append hopening hrun q, eq_opening hwithin] at halike
  exact report_of_alike halike

end Evaluator

/-! ### Global bindings -/

/-- An evaluation against global bindings leaves no other scope than theirs. -/
theorem Machine.Within.scopes_root {globals : Table Value} {lists : Nat} {initial : List Value}
    {k : Machine} (h : (opening (.root globals) Machine.globals lists initial).Within k) :
    k.scopes = .root (k.scopes.tableOf Machine.globals) := by
  have hsize : k.scopes.all.size = 1 := h.scopes_size
  have hplace : (k.scopes.get? Machine.globals).map Scope.place = some (Scopes.rootName, none) :=
    h.scopes_active
  obtain ⟨sc, hsc, hname⟩ := Option.map_eq_some_iff.mp hplace
  obtain ⟨hname, hparent⟩ := Prod.mk.inj hname
  have htable : k.scopes.tableOf Machine.globals = sc.table := by
    unfold Scopes.tableOf
    rw [hsc]
    rfl
  -- There is one scope, with the name and the parent of the global one.
  have hall : k.scopes.all = #[sc] := by
    apply Array.ext
    · exact hsize
    · intro i hi _
      obtain rfl : i = 0 := by omega
      exact Option.some.inj ((Array.getElem?_eq_getElem hi).symm.trans hsc)
  rw [htable, Scopes.root, ← hname, ← hparent]
  exact congrArg Scopes.mk hall

/-- What outlives an evaluation, without the positions inside the values. -/
def Memory.unspanned (memory : Memory) : Memory :=
  ⟨memory.globals.map Value.unspanned, memory.lists⟩

namespace Evaluator

variable {parse : Parser} {maxDepth rounds : Nat} {p q : Program} {memory memory' : Memory}
  {initial left : List Value}

/-- What remains of an evaluation that has gone well. -/
theorem evaluate_eq_ok_iff :
    (Evaluator.builtin parse maxDepth rounds).evaluate p memory initial = (.ok left, memory') ↔
      ∃ k, (Evaluator.builtin parse maxDepth rounds).run (maxDepth + 1) p (start memory initial)
          = .ok () k ∧ left = k.stack.values ∧ memory' = memoryOf k := by
  have hdepth : (Evaluator.builtin parse maxDepth rounds).maxDepth = maxDepth := rfl
  rw [evaluate, hdepth]
  cases (Evaluator.builtin parse maxDepth rounds).run (maxDepth + 1) p (start memory initial) with
  | ok _ k => simp [eq_comm]
  | error g k => simp

/-- An evaluation against the bindings that another one left goes on where that one ended. -/
theorem evaluate_append
    (h : (Evaluator.builtin parse maxDepth rounds).evaluate p memory initial
      = (.ok left, memory')) (q : Program) :
    (Evaluator.builtin parse maxDepth rounds).evaluate (p ++ q) memory initial
      = (Evaluator.builtin parse maxDepth rounds).evaluate q memory' left := by
  obtain ⟨k, hrun, rfl, rfl⟩ := evaluate_eq_ok_iff.mp h
  have hreport : (Evaluator.builtin parse maxDepth rounds).evaluateIn p (.root memory.globals)
      Machine.globals memory.lists initial = ⟨.ok k.stack.values, k.scopes, k.nextList⟩ :=
    evaluateIn_eq_ok_iff.mpr ⟨k, hrun, rfl, rfl, rfl⟩
  have hwithin : (start memory initial).Within k :=
    within_of_run_ok (Machine.coherent_opening ..) hrun
  rw [evaluate_eq_evaluateIn, evaluate_eq_evaluateIn, evaluateIn_continued hreport q]
  -- Of the scopes, the memory keeps the table of the only one.
  conv_lhs => rw [hwithin.scopes_root]
  rfl

/-- Evaluations of programs that differ in positions only leave values and bindings that differ in
    positions only. -/
theorem evaluate_positions (hpq : Symbol.unspannedAll p = Symbol.unspannedAll q)
    (h : (Evaluator.builtin parse maxDepth rounds).evaluate p memory initial
      = (.ok left, memory')) :
    ∃ left' memory'', (Evaluator.builtin parse maxDepth rounds).evaluate q memory initial
        = (.ok left', memory'') ∧
      left'.map Value.unspanned = left.map Value.unspanned ∧
      memory''.unspanned = memory'.unspanned := by
  obtain ⟨k, hrun, rfl, rfl⟩ := evaluate_eq_ok_iff.mp h
  -- Both programs run in step, so that neither fails alone.
  have halike := run_positions parse maxDepth rounds (maxDepth + 1) hpq
    (m := start memory initial) rfl
  rw [hrun] at halike
  cases hrun' : (Evaluator.builtin parse maxDepth rounds).run (maxDepth + 1) q
      (start memory initial) with
  | error g l =>
    rw [hrun'] at halike
    exact halike.elim
  | ok _ l =>
    rw [hrun'] at halike
    have hkl : k.unspanned = l.unspanned := halike.2
    refine ⟨l.stack.values, memoryOf l, evaluate_eq_ok_iff.mpr ⟨l, hrun', rfl, rfl⟩, ?_, ?_⟩
    · have hvisible : k.stack.visible.map Value.unspanned = l.stack.visible.map Value.unspanned :=
        congrArg (fun m => m.stack.visible) hkl
      rw [Stack.values, Stack.values, List.map_reverse, List.map_reverse, hvisible]
    · have hscopes : k.scopes.map Value.unspanned = l.scopes.map Value.unspanned :=
        congrArg Machine.scopes hkl
      show Memory.mk ((l.scopes.tableOf _).map Value.unspanned) l.nextList
        = Memory.mk ((k.scopes.tableOf _).map Value.unspanned) k.nextList
      rw [← Scopes.tableOf_map, ← Scopes.tableOf_map, hscopes, Positions.nextList_eq hkl]

/-! ### Source texts -/

/-- A text that is evaluated has a program, and that program is evaluated in its place. -/
theorem parse_of_evaluateText_ok {text : Bytes}
    (h : (Evaluator.builtin parser maxDepth rounds).evaluateText text memory initial
      = (.ok left, memory')) :
    ∃ p, Program.parse text = .ok p ∧
      (Evaluator.builtin parser maxDepth rounds).evaluate p memory initial = (.ok left, memory') := by
  have hparser : (Evaluator.builtin parser maxDepth rounds).parse text = parser text := rfl
  unfold evaluateText at h
  rw [hparser, parser] at h
  cases hparse : Program.parse text with
  | ok p =>
    rw [hparse] at h
    exact ⟨p, rfl, h⟩
  | error f =>
    rw [hparse] at h
    exact absurd (congrArg Prod.fst h) (by simp)

/-- A text with a program is evaluated as this program. -/
theorem evaluateText_of_parse {text : Bytes} (h : Program.parse text = .ok p) :
    (Evaluator.builtin parser maxDepth rounds).evaluateText text memory initial
      = (Evaluator.builtin parser maxDepth rounds).evaluate p memory initial := by
  have hparser : (Evaluator.builtin parser maxDepth rounds).parse text = .ok p := by
    show parser text = _
    rw [parser, h]
  unfold evaluateText
  rw [hparser]

/-- **Two texts that a newline joins** are evaluated one after the other, up to positions, if both
    go well. -/
theorem evaluateText_newline {text rest : Bytes} {memory'' : Memory} {left' : List Value}
    (h : (Evaluator.builtin parser maxDepth rounds).evaluateText text memory initial
      = (.ok left, memory'))
    (h' : (Evaluator.builtin parser maxDepth rounds).evaluateText rest memory' left
      = (.ok left', memory'')) :
    ∃ last final, (Evaluator.builtin parser maxDepth rounds).evaluateText
        (text ++ ascii '\n' :: rest) memory initial = (.ok last, final) ∧
      last.map Value.unspanned = left'.map Value.unspanned ∧
      final.unspanned = memory''.unspanned := by
  obtain ⟨p, hp, heval⟩ := parse_of_evaluateText_ok h
  obtain ⟨q, hq, heval'⟩ := parse_of_evaluateText_ok h'
  obtain ⟨q', hpq, hq'⟩ := Program.parse_newline hp hq
  rw [evaluateText_of_parse hpq, evaluate_append heval]
  exact evaluate_positions hq'.symm heval'

end Evaluator

end StackLang
