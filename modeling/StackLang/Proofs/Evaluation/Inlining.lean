import StackLang.Proofs.Simulation.Depth
import StackLang.Proofs.Evaluation.Sequencing
import StackLang.Proofs.Evaluation.Protection

namespace StackLang

/-!
# Blocks in place

A block that is evaluated in place runs one level deeper than its symbols would, and what fails in
it is reported once more.  Neither makes a difference.

* `Evaluator.Reaches` — the states in which an evaluation comes to a symbol;
* `Evaluator.run_eq_steps` — a program in place does what its symbols do, unless it comes to the
  limit of nesting;
* `Evaluator.LacksTarget` — a program in place fails for its last symbol, a sign of assignment;
* `Evaluator.steps_inline` — a block in place, and what follows, is the symbols of the block, and
  what follows.
-/

namespace Evaluator

/-! ### States -/

/-- During a call, an evaluation comes to a symbol of a program in a machine, with some levels
    left for the programs that are run in turn. -/
def Reaches (ev : Evaluator) (start : Call) (levels : Nat) (m : Machine) : Prop :=
  ∃ c before rest, ev.Calls start c ∧ c.levels = levels + 1 ∧ c.machine.depth < ev.maxDepth ∧
    c.program = before ++ rest ∧
    steps ev.table (ev.context levels) before (c.machine.atDepth (c.machine.depth + 1)) = .ok () m

variable {parse : Parser} {maxDepth rounds levels : Nat} {m : Machine}

/-- The symbols of a program stay within its call. -/
theorem steps_within (parse : Parser) (maxDepth rounds levels : Nat) (h : m.Coherent)
    (p : Program) :
    m.Within (Outcome.machine
      (steps .builtin ((Evaluator.builtin parse maxDepth rounds).context levels) p m)) :=
  Callers.within_of_respects h fun _ => Simulation.steps_respects Callers.keepsTable
    (context_same parse maxDepth rounds levels) (Callers.program_refl p)

/-- A machine that is reached is coherent, its depth is within the limit, and the levels that are
    left there are those up to one above the limit. -/
theorem reaches_invariant {p : Program} {scopes : Scopes Value} {root lists : Nat}
    {initial : List Value}
    (h : (Evaluator.builtin parse maxDepth rounds).Reaches
      ((Evaluator.builtin parse maxDepth rounds).opening p scopes root lists initial) levels m) :
    m.Coherent ∧ m.depth ≤ maxDepth ∧ levels + m.depth = maxDepth + 1 := by
  obtain ⟨c, before, rest, hcalls, hlevels, hlow, -, hsteps⟩ := h
  obtain ⟨hcoherent, -, hsum⟩ :=
    calls_invariant hcalls (Machine.coherent_opening ..) (Nat.zero_le _)
  have hdeeper : (c.machine.atDepth (c.machine.depth + 1)).Coherent := hcoherent
  have hwithin := steps_within parse maxDepth rounds levels hdeeper before
  rw [show steps .builtin _ before _ = _ from hsteps] at hwithin
  have hdepth : m.depth = c.machine.depth + 1 := hwithin.depth
  have hstart : c.levels + c.machine.depth = maxDepth + 1 := hsum
  have hlow' : c.machine.depth < maxDepth := hlow
  exact ⟨hwithin.coherent hdeeper, by omega, by omega⟩

/-! ### A program in place -/

/-- **A program in place** does what its symbols do, unless it comes to the limit of nesting. -/
theorem run_eq_steps (hm : m.Coherent) (hdepth : m.depth ≤ maxDepth)
    (hlevels : levels + m.depth = maxDepth + 1) {p : Program}
    (hdeep : ∀ h k, (Evaluator.builtin parse maxDepth rounds).run levels p m = .error h k →
      ¬ h.Deep) :
    (Evaluator.builtin parse maxDepth rounds).run levels p m
      = steps .builtin ((Evaluator.builtin parse maxDepth rounds).context levels) p m := by
  obtain ⟨l, rfl⟩ : ∃ l, levels = l + 1 := ⟨levels - 1, by omega⟩
  have hrun := run_succ parse rounds maxDepth l p m
  by_cases hlimit : maxDepth ≤ m.depth
  · rw [if_pos hlimit] at hrun
    exact absurd (Halt.deep_tooDeep maxDepth) (hdeep _ _ hrun)
  · rw [if_neg hlimit] at hrun
    let w : Depths (m.depth + 1) := ⟨m.atDepth (m.depth + 1), hm, rfl⟩
    -- The symbols are one level deeper on the left, and so are the programs that they run.
    have halike : (Simulation.depths .deep (m.depth + 1) m.depth).Alike Eq w
        (steps .builtin ((Evaluator.builtin parse maxDepth rounds).context l) p
          (m.atDepth (m.depth + 1)))
        (steps .builtin ((Evaluator.builtin parse maxDepth rounds).context (l + 1)) p m) :=
      steps_headroom parse rounds (by omega) hlevels (by omega) (by omega) w p _ _
        ⟨.refl _, rfl⟩
    have hwithin := steps_within parse maxDepth rounds l w.coherent p
    rw [Depths.eq_of_alike halike ?_, hrun]
    · apply Outcome.onMachine_congr
      rw [hwithin.depth]
      rfl
    · rintro g k hsteps (hg | ⟨f, rfl⟩)
      · rw [hsteps] at hrun
        exact hdeep g _ hrun hg
      · rw [hsteps] at hrun
        exact run_faultless parse rounds maxDepth hm (l + 1) p hrun f rfl

/-- A missing target is no matter of depth. -/
theorem not_deep_missingTarget (sign : Symbol) :
    ¬ (Halt.issue (.failure (annotate sign { cause := .missingTarget }))).Deep := by
  rintro ⟨i, f, hi, hf, hkind⟩
  obtain rfl := Halt.issue.inj hi
  obtain rfl := Option.some.inj hf
  rw [annotate_kind] at hkind
  exact absurd hkind (by decide)

/-- A program that comes to the limit of nesting comes to it also in front of another one. -/
theorem run_append_of_deep {p : Program} (q : Program) {h : Halt} {k : Machine}
    (hrun : (Evaluator.builtin parse maxDepth rounds).run levels p m = .error h k) (hdeep : h.Deep) :
    (Evaluator.builtin parse maxDepth rounds).run levels (p ++ q) m = .error h k := by
  cases levels with
  | zero => exact hrun
  | succ l =>
    rw [run_succ] at hrun ⊢
    by_cases hlimit : maxDepth ≤ m.depth
    · rw [if_pos hlimit] at hrun ⊢
      exact hrun
    · rw [if_neg hlimit] at hrun ⊢
      cases hsteps : steps .builtin ((Evaluator.builtin parse maxDepth rounds).context l) p
          (m.atDepth (m.depth + 1)) with
      | ok _ r =>
        rw [hsteps] at hrun
        exact absurd hrun (by simp [Outcome.onMachine])
      | error g r =>
        -- The longer program would go on where the shorter one lacks a target, but that is no
        -- matter of depth.
        have hnot : ¬ Dangles .builtin ((Evaluator.builtin parse maxDepth rounds).context l) p
            (m.atDepth (m.depth + 1)) := by
          rintro ⟨before, sign, r', rfl, hsign, hbefore⟩
          rw [steps_of_dangles hsign hbefore] at hrun
          injection hrun with hh _
          rw [← hh] at hdeep
          exact not_deep_missingTarget sign hdeep
        rw [steps_append p q _ hnot, bind_of_error hsteps, ← hsteps]
        exact hrun

/-! ### Inlining -/

/-- A program in place fails because its own last symbol, a sign of assignment, lacks a target. -/
def LacksTarget (ev : Evaluator) (levels : Nat) (p : Program) (m : Machine) : Prop :=
  ∃ before sign k, p = before ++ [sign] ∧ ev.run levels before m = .ok () k ∧
    ev.run levels p m = .error (.issue (.failure (annotate sign { cause := .missingTarget }))) k

/-- `%` with a block runs its symbols in place, unless it folds what lies below. -/
theorem operate_evalBlock (ctx : Context) (m : Machine) (body : Program)
    (htop : ∀ v ∈ m.stack.visible.head?, Operand.iterable.accepts v = false) :
    operate .builtin ctx (utf8 "%") (m.withVisible (.block body :: m.stack.visible))
      = ctx.run body m := by
  have heq : operate .builtin ctx (utf8 "%") (m.withVisible (.block body :: m.stack.visible))
      = ctx.run body (m.withVisible m.stack.visible) := by
    generalize m.stack.visible = visible at htop
    cases visible with
    | nil => rfl
    | cons v vs =>
      have hv := htop v rfl
      cases v with
      | list _ _ => exact absurd hv (by simp [Operand.accepts, Operand.acceptsKind, Value.kind])
      | tuple _ => exact absurd hv (by simp [Operand.accepts, Operand.acceptsKind, Value.kind])
      | str _ => exact absurd hv (by simp [Operand.accepts, Operand.acceptsKind, Value.kind])
      | _ => rfl
  exact heq

/-- A block and the sign `%` behind it run the block, and report for the sign what fails in it. -/
theorem steps_evalBlock (ctx : Context) (m : Machine) (body : Program)
    (htop : ∀ v ∈ m.stack.visible.head?, Operand.iterable.accepts v = false)
    (blockSpan signSpan : Span) (rest : Program) :
    steps .builtin ctx
        (.literal (.block body) blockSpan :: .operator (utf8 "%") signSpan :: rest) m
      = (Eval.mapIssue (Issue.map (annotate (.operator (utf8 "%") signSpan))) (ctx.run body)
          >>= fun _ => steps .builtin ctx rest) m := by
  have hliteral : isAssign (.literal (.block body) blockSpan) = false := rfl
  have hpercent : isAssign (.operator (utf8 "%") signSpan) = false :=
    show (utf8 "%" == assignSign) = false by decide
  rw [steps_cons hliteral, steps_cons hpercent]
  -- The block is on top of the stack when the sign comes.
  show EStateM.bind (Eval.mapIssue _ (operate .builtin ctx (utf8 "%"))) _
      (m.withVisible (.block body :: m.stack.visible)) = EStateM.bind _ _ m
  simp only [EStateM.bind, Eval.mapIssue_eq, operate_evalBlock ctx m body htop]

/-- Where the symbols of a program come to a sign of assignment at its end, so does the program in
    place, and fails for it. -/
theorem lacksTarget_of_dangles (hm : m.Coherent) (hdepth : m.depth ≤ maxDepth)
    (hlevels : levels + m.depth = maxDepth + 1) {p : Program}
    (hdeep : ∀ h k, (Evaluator.builtin parse maxDepth rounds).run levels p m = .error h k →
      ¬ h.Deep)
    (h : Dangles .builtin ((Evaluator.builtin parse maxDepth rounds).context levels) p m) :
    (Evaluator.builtin parse maxDepth rounds).LacksTarget levels p m := by
  obtain ⟨before, sign, k, rfl, hsign, hbefore⟩ := h
  refine ⟨before, sign, k, rfl, ?_, ?_⟩
  · rw [run_eq_steps hm hdepth hlevels, hbefore]
    intro h l hrun hd
    exact hdeep h l (run_append_of_deep [sign] hrun hd) hd
  · rw [run_eq_steps hm hdepth hlevels hdeep, steps_of_dangles hsign hbefore]

/-- **A block in place is its symbols.**  In every state of an evaluation in which the topmost
    visible value, if there is one, has no elements, let a block be run in place whose symbols have
    positions.  Unless that comes to the limit of nesting, or fails because the last symbol of the
    block lacks its target, the block, the sign `%` and any program behind them have the same
    outcome as the symbols of the block and the program. -/
theorem steps_inline (parse : Parser) (maxDepth rounds : Nat) (p : Program)
    (scopes : Scopes Value) (root lists : Nat) (initial : List Value) {levels : Nat} {m : Machine}
    (hm : (Evaluator.builtin parse maxDepth rounds).Reaches
      ((Evaluator.builtin parse maxDepth rounds).opening p scopes root lists initial) levels m)
    {body : Program} (hbody : ∀ s ∈ body, s.span.isNone = false)
    (htop : ∀ v ∈ m.stack.visible.head?, Operand.iterable.accepts v = false)
    (hdeep : ∀ h k, (Evaluator.builtin parse maxDepth rounds).run levels body m = .error h k →
      ¬ h.Deep)
    (htarget : ¬ (Evaluator.builtin parse maxDepth rounds).LacksTarget levels body m)
    (blockSpan signSpan : Span) (rest : Program) :
    let ctx := (Evaluator.builtin parse maxDepth rounds).context levels
    steps .builtin ctx
        (.literal (.block body) blockSpan :: .operator (utf8 "%") signSpan :: rest) m
      = steps .builtin ctx (body ++ rest) m := by
  intro ctx
  obtain ⟨hcoherent, hdepth, hlevels⟩ := reaches_invariant hm
  have hrun : ctx.run body m = steps .builtin ctx body m :=
    run_eq_steps hcoherent hdepth hlevels hdeep
  have hnot : ¬ Dangles .builtin ctx body m := fun h =>
    htarget (lacksTarget_of_dangles hcoherent hdepth hlevels hdeep h)
  rw [steps_append body rest m hnot]
  rw [steps_evalBlock ctx m body htop]
  cases hsteps : steps .builtin ctx body m with
  | ok _ k =>
    have hmapped : Eval.mapIssue (Issue.map (annotate (.operator (utf8 "%") signSpan)))
        (ctx.run body) m = .ok () k := by
      rw [Eval.mapIssue_eq, hrun, hsteps, Outcome.mapHalt]
    rw [bind_of_ok hmapped, bind_of_ok hsteps]
  | error g k =>
    -- What fails in the block has a position already, and is not reported for the sign.
    have hmapped : Eval.mapIssue (Issue.map (annotate (.operator (utf8 "%") signSpan)))
        (ctx.run body) m = .error g k := by
      rw [Eval.mapIssue_eq, hrun, hsteps, Outcome.mapHalt,
        map_of_located (steps_located hbody hsteps)]
    rw [bind_of_error hmapped, bind_of_error hsteps]

/-- The machine behind the program `1`. -/
def behindOne : Machine :=
  ((Machine.opening (.root .empty) Machine.globals 0 []).atDepth 1).withVisible [.int 1]

/-- The machine behind `1` is reached from an empty stack. -/
theorem reaches_behindOne :
    (Evaluator.builtin parser 5 5).Reaches
      ((Evaluator.builtin parser 5 5).opening [.literal (.int 1) ⟨0, 1⟩] (.root .empty)
        Machine.globals 0 []) 5 behindOne :=
  ⟨_, [.literal (.int 1) ⟨0, 1⟩], [], .refl, rfl, by decide, rfl, rfl⟩

/-- Behind `1`, the program `{2 +} % .` runs as `2 + .` does. -/
theorem steps_inline_behindOne :
    let ctx := (Evaluator.builtin parser 5 5).context 5
    let body : Program := [.literal (.int 2) ⟨3, 4⟩, .operator (utf8 "+") ⟨5, 6⟩]
    let rest : Program := [.operator (utf8 ".") ⟨10, 11⟩]
    (Evaluator.builtin parser 5 5).Reaches
        ((Evaluator.builtin parser 5 5).opening [.literal (.int 1) ⟨0, 1⟩] (.root .empty)
          Machine.globals 0 []) 5 behindOne ∧
      steps .builtin ctx (.literal (.block body) ⟨2, 7⟩ :: .operator (utf8 "%") ⟨8, 9⟩ :: rest)
        behindOne = steps .builtin ctx (body ++ rest) behindOne := by
  intro ctx body rest
  have hrun : ∃ k, (Evaluator.builtin parser 5 5).run 5 body behindOne = .ok () k := ⟨_, rfl⟩
  obtain ⟨k, hrun⟩ := hrun
  refine ⟨reaches_behindOne, steps_inline parser 5 5 _ _ _ _ _ reaches_behindOne ?_ ?_ ?_ ?_ _ _ _⟩
  · decide
  · intro v hv
    obtain rfl := Option.some.inj hv
    rfl
  · intro h l herror
    exact absurd (hrun.symm.trans herror) (by simp)
  · rintro ⟨before, sign, l, -, -, herror⟩
    exact absurd (hrun.symm.trans herror) (by simp)

end Evaluator

end StackLang
