import StackLang.Proofs.Simulation.Depth
import StackLang.Proofs.Evaluation.Protection

namespace StackLang

/-!
# Limits of evaluations

What the limit of nesting, and the bounds on loops and levels, have to do with how an evaluation
ends.

* `Report` — what is known at the end of an evaluation: its result, the scopes and the lists made;
* `Evaluator.evaluateIn` — an evaluation in any scope of some scopes;
* `Evaluator.run_kept` — an evaluation has the same outcome with more levels and rounds, and with
  another parser, unless it is lost for lack of them or at a text that is not parsed alike;
* `Evaluator.evaluateIn_raised` — under a greater limit of nesting an evaluation ends in the same
  way, unless it came to the lesser limit;
* `Evaluator.evaluateIn_rounds` — so it does if loops may take more rounds;
* `OperatorTable.Loopless` — the operators of the language but for those that loop as long as a
  condition holds;
* `Evaluator.evaluation_settles` — with them, every evaluation ends with values or with an issue,
  and no bound on loops or levels is ever met.
-/

/-- What is known at the end of an evaluation. -/
@[ext] structure Report where
  /-- The values left, bottom first, or why the evaluation halted. -/
  result : Except Halt (List Value)
  scopes : Scopes Value
  /-- The number of lists made. -/
  lists : Nat

namespace Report

/-- The report on how a program ends. -/
def of : Outcome Unit → Report
  | .ok _ m => ⟨.ok m.stack.values, m.scopes, m.nextList⟩
  | .error h m => ⟨.error h, m.scopes, m.nextList⟩

/-- An evaluation has come to its end: it has left values or met an issue. -/
def Settled (r : Report) : Prop := ∀ h, r.result = .error h → ∃ i, h = .issue i

/-- A report of a halt comes from an evaluation that has ended with it. -/
theorem of_result_of_error {r : Outcome Unit} {h : Halt} (hr : (of r).result = .error h) :
    ∃ k, r = .error h k := by
  cases r with
  | ok a m => exact absurd hr (by simp [of])
  | error g k =>
    obtain rfl := Except.error.inj hr
    exact ⟨k, rfl⟩

end Report

namespace Evaluator

/-- Evaluates a program in one of some scopes, on a stack that holds the initial values. -/
def evaluateIn (ev : Evaluator) (p : Program) (scopes : Scopes Value) (root lists : Nat)
    (initial : List Value) : Report :=
  .of (ev.run (ev.maxDepth + 1) p (.opening scopes root lists initial))

/-- An evaluation against global bindings is one in their scope. -/
theorem evaluate_eq_evaluateIn (ev : Evaluator) (p : Program) (memory : Memory)
    (initial : List Value) :
    let report := ev.evaluateIn p (.root memory.globals) Machine.globals memory.lists initial
    ev.evaluate p memory initial
      = (report.result, ⟨report.scopes.tableOf Machine.globals, report.lists⟩) := by
  unfold evaluate evaluateIn
  rw [start_eq_opening]
  cases ev.run (ev.maxDepth + 1) p _ <;> rfl

/-! ### Raising the limit of nesting -/

/-- The machine at the start of an evaluation, as the beginning of a call. -/
def openingDepths (scopes : Scopes Value) (root lists : Nat) (initial : List Value) : Depths 0 :=
  ⟨.opening scopes root lists initial, Machine.coherent_opening .., rfl⟩

variable (parse : Parser)

/-- With more levels and more rounds under a limit that is not lesser, and with another parser, an
    evaluation has the same outcome, unless it is lost. -/
theorem run_kept {parse parse' : Parser} (ends : Halt.Ends) (hex : ends.shared .exhausted)
    (hparse : ends.ParsesAlike parse parse') {limit limit' rounds rounds' : Nat}
    (hlimit : limit ≤ limit')
    (hdeep : ends.lost (.ofCause (.tooDeep limit) []) ∨ limit = limit')
    (hrounds : ends.Rounds rounds rounds') (p : Program) (scopes : Scopes Value)
    (root lists : Nat) (initial : List Value)
    (hend : ∀ h k, (Evaluator.builtin parse limit rounds).run (limit + 1) p
      (.opening scopes root lists initial) = .error h k → ¬ ends.lost h) :
    (Evaluator.builtin parse' limit' rounds').run (limit' + 1) p
        (.opening scopes root lists initial)
      = (Evaluator.builtin parse limit rounds).run (limit + 1) p
        (.opening scopes root lists initial) := by
  have halike : (Simulation.depths ends 0 0).Alike Eq
      (openingDepths scopes root lists initial)
      ((Evaluator.builtin parse limit rounds).run (limit + 1) p
        (.opening scopes root lists initial))
      ((Evaluator.builtin parse' limit' rounds').run (limit' + 1) p
        (.opening scopes root lists initial)) := by
    -- Both runs begin at depth zero, so that the second one is as far from its limit as the first
    -- one, or farther.
    apply run_headroom ends (fun _ _ => Depths.keepsTable hex) hparse hrounds
      (limit + 1) (limit' + 1) 0 0
    · omega
    · omega
    · omega
    · omega
    · exact hdeep.imp_right fun h => ⟨h, rfl⟩
    · exact ⟨.refl _, rfl⟩
  exact Depths.eq_of_alike_same halike hend

/-- With more levels and more rounds under a greater limit, an evaluation has the same outcome,
    unless it came to the lesser limit or ran out of rounds. -/
theorem run_raised {limit limit' rounds rounds' : Nat} (hlimit : limit ≤ limit')
    (hrounds : rounds ≤ rounds') (p : Program) (scopes : Scopes Value) (root lists : Nat)
    (initial : List Value)
    (hend : ∀ h k, (Evaluator.builtin parse limit rounds).run (limit + 1) p
      (.opening scopes root lists initial) = .error h k → ¬ h.Deep ∧ h ≠ .exhausted) :
    (Evaluator.builtin parse limit' rounds').run (limit' + 1) p
        (.opening scopes root lists initial)
      = (Evaluator.builtin parse limit rounds).run (limit + 1) p
        (.opening scopes root lists initial) := by
  apply run_kept .unfinished Halt.fine_exhausted (.refl fun _ i _ => Halt.fine_issue i) hlimit
    (Or.inl (Or.inl (Halt.deep_tooDeep limit))) (fun _ => Or.inr ⟨Or.inr (Or.inl rfl), hrounds⟩)
  -- The first evaluation is not lost: it meets no limit, and there are no faults.
  rintro h k herror (hdeep | hex | ⟨f, rfl⟩)
  · exact (hend h k herror).1 hdeep
  · exact (hend h k herror).2 hex
  · exact run_faultless parse rounds limit (Machine.coherent_opening ..) (limit + 1) p herror f rfl

/-- **Raising the limit of nesting.** Let an evaluation with a positive limit end with anything but
    a failure because of the limit.  With any greater limit it ends with the same result, in the
    same scopes, also if loops may take more rounds. -/
theorem evaluateIn_raised (base rounds rounds' : Nat) (n m : Int) (hn : 1 ≤ n) (hnm : n ≤ m)
    (hrounds : rounds ≤ rounds') (p : Program) (scopes : Scopes Value) (root lists : Nat)
    (initial : List Value)
    (hend : ∀ h, (((Evaluator.builtin parse base rounds).withDepth n).evaluateIn p scopes root
      lists initial).result = .error h → ¬ h.Deep ∧ h ≠ .exhausted) :
    ((Evaluator.builtin parse base rounds').withDepth m).evaluateIn p scopes root lists initial
      = ((Evaluator.builtin parse base rounds).withDepth n).evaluateIn p scopes root lists
        initial := by
  have hdepth : ∀ (rounds : Nat) (n : Int), 1 ≤ n →
      (Evaluator.builtin parse base rounds).withDepth n
        = Evaluator.builtin parse n.toNat rounds := by
    intro rounds n hn
    unfold withDepth
    rw [if_neg (by omega)]
    rfl
  -- A limit that is given counts as it is; only then the runs are those of two built-in evaluators.
  rw [hdepth rounds n hn] at hend ⊢
  rw [hdepth rounds' m (by omega)]
  apply congrArg Report.of
  apply run_raised parse (by omega) hrounds
  intro h k herror
  refine hend h ?_
  show (Report.of ((Evaluator.builtin parse n.toNat rounds).run (n.toNat + 1) p _)).result = _
  rw [herror]
  rfl

/-- An invocation is nested too deeply for a limit of `1`; a limit of `2` may be raised to `7`. -/
theorem evaluateIn_raised_invocation :
    let report (limit : Int) : Report :=
      ((Evaluator.builtin parser 5 5).withDepth limit).evaluateIn invocation (.root .empty)
        Machine.globals 0 [.bool true]
    (∃ h : Halt, (report 1).result = .error h ∧ h.Deep) ∧ report 7 = report 2 := by
  intro report
  refine ⟨⟨_, rfl, _, _, rfl, rfl, rfl⟩, ?_⟩
  apply evaluateIn_raised parser 5 5 5 2 7
  · decide
  · decide
  · decide
  · intro h herror
    have hok : (report 2).result = .ok [.bool true, .int 1, .int 2] := rfl
    exact absurd (hok.symm.trans herror) (by simp)

/-- What is known of an evaluation whose loops came to their ends does not change when they may take
    more rounds. -/
theorem evaluateIn_rounds {maxDepth rounds rounds' : Nat} (hrounds : rounds ≤ rounds')
    (p : Program) (scopes : Scopes Value) (root lists : Nat) (initial : List Value)
    (hend : ((Evaluator.builtin parse maxDepth rounds).evaluateIn p scopes root lists
      initial).result ≠ .error .exhausted) :
    (Evaluator.builtin parse maxDepth rounds').evaluateIn p scopes root lists initial
      = (Evaluator.builtin parse maxDepth rounds).evaluateIn p scopes root lists initial := by
  apply congrArg Report.of
  apply run_kept .looping Halt.fine_exhausted (.refl fun _ i _ => Halt.fine_issue i)
    (Nat.le_refl _) (Or.inr rfl) (fun _ => Or.inr ⟨Or.inl rfl, hrounds⟩)
  rintro h k herror (rfl | ⟨f, rfl⟩)
  · apply hend
    show (Report.of ((Evaluator.builtin parse maxDepth rounds).run (maxDepth + 1) p _)).result = _
    rw [herror]
    rfl
  · exact run_faultless parse rounds maxDepth (Machine.coherent_opening ..) (maxDepth + 1) p herror f
      rfl

end Evaluator

/-! ### Operators without unbounded loops -/

namespace OperatorTable

/-- Every overload of a table is one of the language, and none is of an operator that loops as
    long as a condition holds. -/
def Loopless (t : OperatorTable) : Prop :=
  ∀ op, ∀ ov ∈ t.get op, ∃ a ∈ plainActions ++ Control.actions,
    a.1 ∉ Control.loops ∧ op = utf8 a.1 ∧ ov.signature = a.2.1 ∧ ov.action = a.2.2

/-- A table without loops is kept by every simulation, even where running out of rounds is not. -/
theorem Loopless.keepsTable {t : OperatorTable} (ht : t.Loopless) (s : Simulation) :
    s.KeepsTable t := by
  intro op ov hov
  obtain ⟨a, ha, hloop, -, hsig, hact⟩ := ht op ov hov
  rw [hsig, hact]
  rcases List.mem_append.mp ha with ha | ha
  · exact Simulation.plain_kept ha
  · exact Simulation.control_kept ha fun h => absurd h hloop

/-- The table of all operators of the language but for those that loop as long as a condition
    holds. -/
def loopless : OperatorTable :=
  empty.registerAll ((plainActions ++ Control.actions).filter fun a => a.1 ∉ Control.loops)

/-- The table `loopless` has no loops. -/
theorem loopless_loopless : loopless.Loopless := by
  intro op ov hov
  rcases mem_get_registerAll hov with h | ⟨a, ha, hov⟩
  · exact absurd h (by simp [get, empty, Table.get?, Table.empty])
  · obtain ⟨hmem, hloop⟩ := List.mem_filter.mp ha
    exact ⟨a, hmem, of_decide_eq_true hloop, hov⟩

/-- The built-in table is the one without loops, to which `while` and `do` are added. -/
theorem builtin_eq_loopless :
    builtin = (loopless.register (utf8 "while") [.block, .block] Control.whileLoop).register
      (utf8 "do") [.block] Control.doLoop :=
  rfl

/-- All other operators have all their overloads. -/
theorem loopless_get {op : Bytes} (hwhile : op ≠ utf8 "while") (hdo : op ≠ utf8 "do") :
    loopless.get op = builtin.get op := by
  rw [builtin_eq_loopless, get_register_of_ne _ _ hdo, get_register_of_ne _ _ hwhile]

end OperatorTable

namespace Evaluator

variable {t : OperatorTable}

/-- Without unbounded loops an evaluation has the same outcome whatever bounds there are on loops
    and, above the limit of nesting, on levels. -/
theorem run_settled (ht : t.Loopless) (parse : Parser) (maxDepth rounds rounds' : Nat)
    {levels levels' : Nat} (hlevels : maxDepth < levels) (hlevels' : maxDepth < levels')
    (p : Program) (scopes : Scopes Value) (root lists : Nat) (initial : List Value) :
    (Simulation.depths .settled 0 0).Alike Eq (openingDepths scopes root lists initial)
      ((⟨t, parse, maxDepth, rounds⟩ : Evaluator).run levels p (.opening scopes root lists initial))
      ((⟨t, parse, maxDepth, rounds'⟩ : Evaluator).run levels' p
        (.opening scopes root lists initial)) := by
  have hrounds : Halt.Ends.settled.Rounds rounds rounds' := by
    rintro ⟨i, hi⟩
    exact Halt.noConfusion hi
  exact run_headroom .settled (fun _ _ => ht.keepsTable _) (.refl fun _ i _ => ⟨i, rfl⟩) hrounds
    levels levels' 0 0 hlevels hlevels' (Nat.le_refl _) (Nat.zero_le _) (Or.inr ⟨rfl, rfl⟩) _ p _ _
    ⟨.refl _, rfl⟩

/-- **Without unbounded loops every evaluation ends**, with values or with an issue of the program,
    and it does so whatever bounds there are on loops and, above the limit of nesting, on levels. -/
theorem evaluation_settles (ht : t.Loopless) (parse : Parser) (maxDepth : Nat) (p : Program)
    (scopes : Scopes Value) (root lists : Nat) (initial : List Value) :
    ∃ report : Report, report.Settled ∧ ∀ rounds levels, maxDepth < levels →
      Report.of ((⟨t, parse, maxDepth, rounds⟩ : Evaluator).run levels p
        (.opening scopes root lists initial)) = report := by
  let final (rounds levels : Nat) : Outcome Unit :=
    (⟨t, parse, maxDepth, rounds⟩ : Evaluator).run levels p (.opening scopes root lists initial)
  refine ⟨.of (final 0 (maxDepth + 1)), ?_, ?_⟩
  · intro h hresult
    obtain ⟨k, herror⟩ := Report.of_result_of_error hresult
    have halike := run_settled ht parse maxDepth 0 0 (Nat.lt_succ_self _) (Nat.lt_succ_self _) p
      scopes root lists initial
    rw [show (⟨t, parse, maxDepth, 0⟩ : Evaluator).run (maxDepth + 1) p _ = .error h k from herror]
      at halike
    exact (halike.resolve_left id).1.2
  · -- The rounds do not matter: the first run, which may take none, ends in the same way.
    intro rounds levels hlevels
    have halike := run_settled ht parse maxDepth 0 rounds (Nat.lt_succ_self _) hlevels p scopes root
      lists initial
    exact congrArg Report.of (Depths.eq_of_alike_same halike fun _ _ _ h => h)

/-- The program `{r %} : r %`, a block that evaluates itself. -/
def recursive : Program :=
  [.literal (.block [.name (utf8 "r") ⟨1, 2⟩, .operator (utf8 "%") ⟨3, 4⟩]) ⟨0, 5⟩,
    .operator assignSign ⟨6, 7⟩, .name (utf8 "r") ⟨8, 9⟩, .operator (utf8 "%") ⟨10, 11⟩]

/-- A program that recurses without bound settles, with an error at the limit of nesting. -/
theorem evaluation_settles_recursive :
    (∀ op, op ≠ utf8 "while" → op ≠ utf8 "do" →
      OperatorTable.loopless.get op = OperatorTable.builtin.get op) ∧
    ∃ report : Report, report.Settled ∧ ∀ rounds levels, 100 < levels →
      Report.of ((⟨.loopless, parser, 100, rounds⟩ : Evaluator).run levels recursive
        (.opening (.root .empty) Machine.globals 0 [])) = report :=
  ⟨fun _ => OperatorTable.loopless_get,
    evaluation_settles OperatorTable.loopless_loopless parser 100 recursive _ _ _ _⟩

end Evaluator

end StackLang
