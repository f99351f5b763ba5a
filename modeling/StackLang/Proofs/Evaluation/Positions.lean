import StackLang.Proofs.Evaluation.Limits
import StackLang.Proofs.Simulation.Positions

namespace StackLang

/-!
# Positions do not influence evaluations

Two evaluations begin with programs, values and scopes that differ in the positions of symbols only,
also of those inside blocks.  They behave alike.

* `Issue.Agrees` — issues that tell the same, but for where it happened;
* `Report.Corresponds` — what is known at the end of two evaluations differs in positions only;
* `Report.BehaveAlike` — two evaluations both go on for ever, both succeed, or both fail, and what
  they leave differs in positions only;
* `Evaluator.evaluateIn_positions` — with any number of rounds for their loops, what is known of
  the two evaluations corresponds;
* `Evaluator.evaluation_positions` — so they behave alike.
-/

/-! ### Issues -/

/-- Two failures tell the same, but for where it happened. -/
structure Failure.Agrees (f g : Failure) : Prop where
  kind : f.kind = g.kind
  name : f.cause.name = g.cause.name
  operands : f.cause.operands = g.cause.operands
  index : f.cause.index = g.cause.index

/-- Two issues tell the same, but for where it happened. -/
inductive Issue.Agrees : Issue → Issue → Prop
  | failure {f g : Failure} (h : f.Agrees g) : Agrees (.failure f) (.failure g)
  | wrapped {f g : Failure} (message : Bytes) (h : f.Agrees g) :
    Agrees (.wrapped message f) (.wrapped message g)
  | plain (message : Bytes) : Agrees (.plain message) (.plain message)

/-- Failures that are the same without positions agree. -/
theorem Failure.agrees_of_bare {f g : Failure} (h : f.bare = g.bare) : f.Agrees g := by
  have hcause : f.cause = g.cause := congrArg (fun f => f.cause) h
  exact ⟨congrArg Cause.kind hcause, congrArg Cause.name hcause, congrArg Cause.operands hcause,
    congrArg Cause.index hcause⟩

namespace Halt

/-- Without what tells where it happened, an issue still is one, and tells the same. -/
theorem agrees_of_bare {i : Issue} {g : Halt} (h : (Halt.issue i).bare = g.bare) :
    ∃ j, g = .issue j ∧ i.Agrees j := by
  cases g with
  | fault f => exact absurd h (by simp [bare, map])
  | exhausted => exact absurd h (by simp [bare, map])
  | issue j =>
    have hij : i.map Failure.bare = j.map Failure.bare := Halt.issue.inj h
    refine ⟨j, rfl, ?_⟩
    cases i with
    | failure f =>
      cases j with
      | failure g => exact .failure (Failure.agrees_of_bare (Issue.failure.inj hij))
      | _ => exact absurd hij (by simp [Issue.map])
    | wrapped message f =>
      cases j with
      | wrapped message' g =>
        obtain ⟨rfl, hfg⟩ := Issue.wrapped.inj hij
        exact .wrapped message (Failure.agrees_of_bare hfg)
      | _ => exact absurd hij (by simp [Issue.map])
    | plain message =>
      cases j with
      | plain message' =>
        obtain rfl := Issue.plain.inj hij
        exact .plain message
      | _ => exact absurd hij (by simp [Issue.map])

/-- Only running out of rounds is the same as running out of rounds. -/
theorem bare_eq_exhausted {h : Halt} : h.bare = .exhausted ↔ h = .exhausted := by
  cases h <;> simp [bare, map]

end Halt

/-! ### Reports -/

namespace Report

/-- What is known at the end of two evaluations differs in positions only. -/
structure Corresponds (r q : Report) : Prop where
  result : match r.result, q.result with
    | .ok vs, .ok us => vs.map Value.unspanned = us.map Value.unspanned
    | .error h, .error g => h.bare = g.bare
    | _, _ => False
  scopes : r.scopes.map Value.unspanned = q.scopes.map Value.unspanned
  lists : r.lists = q.lists

/-- Two evaluations behave alike, up to positions.  They are given by what is known of them for
    every number of rounds that loops may take. -/
inductive BehaveAlike (r q : Nat → Report) : Prop
  /-- Both go on for ever: no number of rounds is enough. -/
  | diverge (hr : ∀ n, (r n).result = .error .exhausted)
    (hq : ∀ n, (q n).result = .error .exhausted)
  /-- With enough rounds both succeed. -/
  | succeed {vs us : List Value} {scopes scopes' : Scopes Value} {lists : Nat} (enough : Nat)
    (hr : ∀ n, enough ≤ n → r n = ⟨.ok vs, scopes, lists⟩)
    (hq : ∀ n, enough ≤ n → q n = ⟨.ok us, scopes', lists⟩)
    (hvalues : vs.map Value.unspanned = us.map Value.unspanned)
    (hscopes : scopes.map Value.unspanned = scopes'.map Value.unspanned)
  /-- With enough rounds both fail. -/
  | fail {i j : Issue} {scopes scopes' : Scopes Value} {lists : Nat} (enough : Nat)
    (hr : ∀ n, enough ≤ n → r n = ⟨.error (.issue i), scopes, lists⟩)
    (hq : ∀ n, enough ≤ n → q n = ⟨.error (.issue j), scopes', lists⟩)
    (hissues : i.Agrees j)
    (hscopes : scopes.map Value.unspanned = scopes'.map Value.unspanned)

/-- Outcomes that are alike up to positions have reports that correspond. -/
theorem corresponds_of_alike {x y : Outcome Unit}
    (h : Comparison.positions.Alike Eq () x y) : (of x).Corresponds (of y) := by
  have hmachines : ∀ {m n : Machine}, m.unspanned = n.unspanned →
      m.scopes.map Value.unspanned = n.scopes.map Value.unspanned ∧ m.nextList = n.nextList :=
    fun hmn => ⟨congrArg Machine.scopes hmn, Positions.nextList_eq hmn⟩
  cases x with
  | ok a m =>
    cases y with
    | error g n => exact h.elim
    | ok b n =>
      have hmn : m.unspanned = n.unspanned := h.2
      have hvisible : m.stack.visible.map Value.unspanned = n.stack.visible.map Value.unspanned :=
        congrArg (fun k => k.stack.visible) hmn
      refine ⟨?_, (hmachines hmn).1, (hmachines hmn).2⟩
      show m.stack.values.map _ = n.stack.values.map _
      rw [Stack.values, Stack.values, List.map_reverse, List.map_reverse, hvisible]
  | error f m =>
    cases y with
    | ok b n => exact h.elim
    | error g n =>
      obtain ⟨hbare, hmn⟩ := h.resolve_left id
      exact ⟨hbare, (hmachines hmn).1, (hmachines hmn).2⟩

namespace Corresponds

variable {r q : Report}

/-- Two runs that correspond run out of rounds together. -/
theorem exhausted_iff (h : r.Corresponds q) :
    r.result = .error .exhausted ↔ q.result = .error .exhausted := by
  have hresult := h.result
  cases hr : r.result with
  | ok vs =>
    cases hq : q.result with
    | ok us => simp
    | error g => simp [hr, hq] at hresult
  | error f =>
    cases hq : q.result with
    | ok us => simp [hr, hq] at hresult
    | error g =>
      simp only [hr, hq] at hresult
      rw [Except.error.injEq, Except.error.injEq, ← Halt.bare_eq_exhausted, hresult,
        Halt.bare_eq_exhausted]

end Corresponds

end Report

namespace Evaluator

variable (parse : Parser) (maxDepth : Nat)

/-- What is known at the end of an evaluation tells that it met an issue, ran out of rounds, or
    left values. -/
theorem evaluateIn_fine (rounds : Nat) (p : Program) (scopes : Scopes Value) (root lists : Nat)
    (initial : List Value) {h : Halt}
    (herror : ((Evaluator.builtin parse maxDepth rounds).evaluateIn p scopes root lists
      initial).result = .error h) : h.Fine := by
  obtain ⟨k, hrun⟩ := Report.of_result_of_error herror
  exact run_faultless parse rounds maxDepth (Machine.coherent_opening ..) (maxDepth + 1) p hrun

variable {p q : Program} {scopes scopes' : Scopes Value} {initial initial' : List Value}

/-- With any number of rounds for their loops, evaluations that begin alike up to positions end
    alike up to positions. -/
theorem evaluateIn_positions (rounds : Nat)
    (hprogram : Symbol.unspannedAll p = Symbol.unspannedAll q)
    (hscopes : scopes.map Value.unspanned = scopes'.map Value.unspanned)
    (hinitial : initial.map Value.unspanned = initial'.map Value.unspanned) (root lists : Nat) :
    ((Evaluator.builtin parse maxDepth rounds).evaluateIn p scopes root lists initial).Corresponds
      ((Evaluator.builtin parse maxDepth rounds).evaluateIn q scopes' root lists initial') := by
  apply Report.corresponds_of_alike
  apply run_positions parse maxDepth rounds (maxDepth + 1) hprogram
  have hopening : ∀ (s : Scopes Value) (vs : List Value),
      (Machine.opening s root lists vs).unspanned
        = .opening (s.map Value.unspanned) root lists (vs.map Value.unspanned) := by
    intro s vs
    simp [Machine.opening, Machine.unspanned, Stack.unspanned, Stack.pushAll, Stack.empty]
  rw [hopening, hopening, hscopes, hinitial]

/-- **Positions do not influence evaluations.**  With the operators of the language, two evaluations
    of programs on values and in scopes that differ in the positions of symbols only both go on for
    ever, or both succeed and leave values and bindings that differ in positions only, or both fail
    with issues that tell the same. -/
theorem evaluation_positions (hprogram : Symbol.unspannedAll p = Symbol.unspannedAll q)
    (hscopes : scopes.map Value.unspanned = scopes'.map Value.unspanned)
    (hinitial : initial.map Value.unspanned = initial'.map Value.unspanned) (root lists : Nat) :
    Report.BehaveAlike
      (fun rounds => (Evaluator.builtin parse maxDepth rounds).evaluateIn p scopes root lists
        initial)
      (fun rounds => (Evaluator.builtin parse maxDepth rounds).evaluateIn q scopes' root lists
        initial') := by
  have hall := fun rounds =>
    evaluateIn_positions parse maxDepth rounds hprogram hscopes hinitial root lists
  by_cases hends : ∃ enough, ((Evaluator.builtin parse maxDepth enough).evaluateIn p scopes root
      lists initial).result ≠ .error .exhausted
  · obtain ⟨enough, hp⟩ := hends
    -- With more rounds than enough, nothing changes on either side.
    have hq := fun h => hp ((hall enough).exhausted_iff.mpr h)
    have hstable := fun n (hn : enough ≤ n) => evaluateIn_rounds parse hn p scopes root lists initial hp
    have hstable' := fun n (hn : enough ≤ n) =>
      evaluateIn_rounds parse hn q scopes' root lists initial' hq
    have hfine := fun (h : Halt) =>
      evaluateIn_fine (h := h) parse maxDepth enough p scopes root lists initial
    obtain ⟨hresult, hscopes, hlists⟩ := hall enough
    generalize (Evaluator.builtin parse maxDepth enough).evaluateIn p scopes root lists initial = r
      at hp hstable hresult hscopes hlists hfine
    generalize (Evaluator.builtin parse maxDepth enough).evaluateIn q scopes' root lists initial' = s
      at hq hstable' hresult hscopes hlists
    obtain ⟨result, left, made⟩ := r
    obtain ⟨result', left', made'⟩ := s
    obtain rfl : made = made' := hlists
    cases result with
    | ok vs =>
      cases result' with
      | ok us => exact .succeed enough hstable hstable' hresult hscopes
      | error g => exact hresult.elim
    | error h =>
      cases result' with
      | ok us => exact hresult.elim
      | error g =>
        cases h with
        | fault f => exact absurd rfl (hfine _ rfl f)
        | exhausted => exact absurd rfl hp
        | issue i =>
          obtain ⟨j, rfl, hij⟩ := Halt.agrees_of_bare hresult
          exact .fail enough hstable hstable' hij hscopes
  · have hp : ∀ n, ((Evaluator.builtin parse maxDepth n).evaluateIn p scopes root lists
        initial).result = .error .exhausted := by
      intro n
      by_contra hn
      exact hends ⟨n, hn⟩
    exact .diverge hp fun n => (hall n).exhausted_iff.mp (hp n)

/-- A block on the stack whose symbol has a position, or has none, is evaluated in place and fails:
    the failures are reported at different positions. -/
theorem evaluation_positions_blocks :
    let report (span : Span) (rounds : Nat) : Report :=
      (Evaluator.builtin parser 5 rounds).evaluateIn [.operator (utf8 "%") ⟨0, 1⟩] (.root .empty)
        Machine.globals 0 [.block [.operator (utf8 "+") span]]
    let failure (span : Span) : Failure := { cause := .tooFewOperands 2 0, op := utf8 "+", span }
    (report ⟨5, 6⟩ 0).result = .error (.issue (.failure (failure ⟨5, 6⟩))) ∧
      (report .none 0).result = .error (.issue (.failure (failure ⟨0, 1⟩))) ∧
      Report.BehaveAlike (report ⟨5, 6⟩) (report .none) := by
  intro report failure
  refine ⟨rfl, rfl, ?_⟩
  apply evaluation_positions parser 5 <;> rfl

end Evaluator

end StackLang
