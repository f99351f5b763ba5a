import StackLang.Proofs.Simulation.Operators

namespace StackLang

/-!
# Programs respect simulations

* `Simulation.KeepsTable` — an operator table whose overloads are all respected;
* `Simulation.keepsTable_builtin` — the operators of the language are;
* `Simulation.steps_respects` — the symbols of a program, one after the other, are, given
  that the programs they evaluate in turn are;
* `Simulation.run_respects` — whole programs are, if nothing is lost one level deeper.
-/

namespace Simulation

variable (s : Simulation)

/-! ### Operators -/

/-- All overloads of a table are respected. -/
def KeepsTable (t : OperatorTable) : Prop :=
  ∀ op, ∀ ov ∈ t.get op, s.Kept ov.signature ov.action

/-- **The operators of the language** respect every simulation. -/
theorem keepsTable_builtin (he : s.halt .exhausted .exhausted) : s.KeepsTable .builtin := by
  intro op ov hov
  obtain ⟨a, ha, _, hsig, hact⟩ := OperatorTable.exists_action_of_mem_builtin hov
  rw [hsig, hact]
  rcases List.mem_append.mp ha with ha | ha
  · exact plain_kept ha
  · exact control_kept ha fun _ => he

variable {s} {w : s.World} {t : OperatorTable} {ctx dtx : Context}

/-- An operator finds the same overload for operands that correspond, and its action respects the
    simulation. -/
theorem operate_respects (ht : s.KeepsTable t) (hc : s.Contexts ctx dtx) (op : Bytes) :
    s.Respects Eq w (Evaluator.operate t ctx op) (Evaluator.operate t dtx op) := by
  intro m n hm
  have hvis := s.visible hm
  have hres := t.resolve_congr op (hvis.imp fun _ _ h => s.kind h)
  rcases Evaluator.operate_cases t ctx op m with
    ⟨f, hf, hop⟩ | ⟨ov, hov, args, rest, hr, hm', hfit, hop⟩
  · rcases Evaluator.operate_cases t dtx op n with ⟨g, hg, hop'⟩ | ⟨ov', _, _, _, hr', _⟩
    · obtain rfl : f = g := by
        rw [hf, hg] at hres
        exact Except.error.inj hres
      obtain ⟨a, rfl, ha⟩ := OperatorTable.exists_cause_of_resolve hf
      rw [hop, hop']
      exact Or.inr ⟨s.halt_ofCause op ha, hm⟩
    · rw [hf, hr'] at hres
      cases hres
  · rcases Evaluator.operate_cases t dtx op n with
      ⟨g, hg, _⟩ | ⟨ov', _, brgs, rest', hr', hn', hfit', hop'⟩
    · rw [hr, hg] at hres
      cases hres
    · obtain rfl : ov = ov' := by
        rw [hr, hr'] at hres
        exact Except.ok.inj hres
      -- Both sides take equally many values, so what they take and leave corresponds.
      have hlen : args.reverse.length = brgs.reverse.length := by
        rw [List.length_reverse, List.length_reverse, ← hfit.length_eq, hfit'.length_eq]
      rw [hm', hn'] at hvis
      have hargs : s.values args brgs := by
        have h := List.forall₂_take args.reverse.length hvis
        rw [List.take_left, hlen, List.take_left] at h
        exact List.forall₂_reverse_iff.mp h
      have hrest : s.values rest rest' := by
        have h := List.forall₂_drop args.reverse.length hvis
        rw [List.drop_left, hlen, List.drop_left] at h
        exact h
      rw [hop, hop']
      exact ht op ov hov hc hargs hfit _ _ (s.withVisible hm hrest)

/-! ### Assignment -/

/-- Names are bound one by one to values that correspond. -/
theorem bindAll_respects {vs us : List Value} (hv : s.values vs us) (names : List Bytes) :
    s.Respects Eq w (Evaluator.bindAll (names.zip vs)) (Evaluator.bindAll (names.zip us)) := by
  induction hv generalizing names with
  | nil =>
    rw [List.zip_nil_right]
    exact .pure rfl
  | cons h _ ih =>
    cases names with
    | nil => exact .pure rfl
    | cons name names => exact (s.bind w name h).bind fun _ _ _ => ih names

/-- The same targets are names on both sides. -/
theorem targetNames_alike {p q : Program} (h : s.program p q) :
    (∃ names, Evaluator.targetNames p = .ok names ∧ Evaluator.targetNames q = .ok names) ∨
    (∃ a b, Evaluator.targetNames p = .error a ∧ Evaluator.targetNames q = .error b ∧
      s.symbol a b) := by
  induction h with
  | nil => exact Or.inl ⟨[], rfl, rfl⟩
  | @cons a b p q hab _ ih =>
    have hshape := s.shape hab
    cases a <;> cases b <;> first | exact hshape.elim | skip
    case name.name x _ y _ =>
      obtain rfl : x = y := hshape
      rcases ih with ⟨names, hp, hq⟩ | ⟨a, b, hp, hq, hab'⟩
      · exact Or.inl ⟨x :: names, by simp [Evaluator.targetNames, hp],
          by simp [Evaluator.targetNames, hq]⟩
      · exact Or.inr ⟨a, b, by simp [Evaluator.targetNames, hp],
          by simp [Evaluator.targetNames, hq], hab'⟩
    all_goals exact Or.inr ⟨_, _, rfl, rfl, hab⟩

/-- The targets inside a bracket are assigned the elements of values that correspond. -/
theorem assignEach_respects {p q : Program} (hp : s.program p q) {v u : Value}
    (hv : s.value v u) :
    s.Respects Eq w (Evaluator.assignEach p v) (Evaluator.assignEach q u) := by
  have helems := s.elements hv
  have hacc : Operand.sequence.accepts v = Operand.sequence.accepts u := by
    rw [Operand.accepts, Operand.accepts, s.kind hv]
  have hkinds : Value.kindNames [v] = Value.kindNames [u] :=
    OperatorTable.kindNames_congr (.cons (s.kind hv) .nil)
  unfold Evaluator.assignEach
  rcases targetNames_alike hp with ⟨names, hp', hq'⟩ | ⟨a, b, hp', hq', hab⟩
  · rw [hp', hq']
    simp only [hacc, hkinds, helems.length_eq]
    split
    · exact s.fail_respects fun _ h => ErrorKind.noConfusion h
    · split
      · exact s.fail_respects fun _ h => ErrorKind.noConfusion h
      · exact bindAll_respects helems names
  · rw [hp', hq']
    exact .throw (s.halt_badTarget hab)

/-- What an assignment does with the value it finds. -/
def bindTarget : Symbol → Value → Eval Unit
  | .name a _, v => Eval.bind a v
  | .literal (.block targets) _, v => Evaluator.assignEach targets v
  | a, _ => Eval.fail (.badTarget a.text)

/-- An assignment needs a value on the stack. -/
theorem assign_of_nil (target : Symbol) {m : Machine} (h : m.stack.visible = []) :
    Evaluator.assign target m = Eval.fail (.noEntry 0 0) m := by
  have hpeek : m.stack.peek 0 = .error { cause := .noEntry 0 0 } := by
    simp [Stack.peek, Stack.height, h]
  unfold Evaluator.assign
  simp only [Bind.bind, EStateM.bind, show (get : Eval Machine) m = .ok m m from rfl, hpeek]
  rfl

/-- With a value on the stack an assignment binds its target to the topmost one. -/
theorem assign_of_cons (target : Symbol) {m : Machine} {v : Value} {vs : List Value}
    (h : m.stack.visible = v :: vs) : Evaluator.assign target m = bindTarget target v m := by
  have hpeek : m.stack.peek 0 = .ok v := by
    simp [Stack.peek, h]
  unfold Evaluator.assign
  simp only [Bind.bind, EStateM.bind, show (get : Eval Machine) m = .ok m m from rfl, hpeek]
  cases target with
  | literal u _ => cases u <;> rfl
  | _ => rfl

/-- Targets that correspond are bound to values that correspond, or refused with the same
    failure. -/
theorem bindTarget_respects {a b : Symbol} (hab : s.symbol a b) {v u : Value} (hv : s.value v u) :
    s.Respects Eq w (bindTarget a v) (bindTarget b u) := by
  have hshape := s.shape hab
  cases a <;> cases b <;> first | exact hshape.elim | skip
  case name.name x _ y _ =>
    obtain rfl : x = y := hshape
    exact s.bind w x hv
  case literal.literal x _ y _ =>
    have hxy : s.value x y := hshape
    by_cases hb : ∃ p, x = .block p
    · obtain ⟨p, rfl⟩ := hb
      obtain ⟨q, rfl, hp⟩ := s.block hxy
      exact assignEach_respects hp hv
    · have hbad : ∀ (x : Value) (span : Span), (∀ p, x ≠ .block p) →
          bindTarget (.literal x span) = fun _ => Eval.fail (.badTarget (Symbol.literal x span).text) := by
        intro x span hx
        cases x with
        | block p => exact absurd rfl (hx p)
        | _ => rfl
      have hx : ∀ p, x ≠ .block p := fun p h => hb ⟨p, h⟩
      rw [hbad x _ hx, hbad y _ (not_block hxy hx)]
      exact .throw (s.halt_badTarget hab)
  all_goals exact .throw (s.halt_badTarget hab)

/-- Assignments to targets that correspond respect the simulation. -/
theorem assign_respects {a b : Symbol} (hab : s.symbol a b) :
    s.Respects Eq w (Evaluator.assign a) (Evaluator.assign b) := by
  intro m n hm
  have hvis := s.visible hm
  cases hmv : m.stack.visible with
  | nil =>
    rw [hmv, List.forall₂_nil_left_iff] at hvis
    rw [assign_of_nil a hmv, assign_of_nil b hvis]
    refine s.fail_respects ?_ m n hm
    exact nofun
  | cons v vs =>
    rw [hmv] at hvis
    obtain ⟨u, us, hvu, _, hnv⟩ := List.forall₂_cons_left_iff.mp hvis
    rw [assign_of_cons a hmv, assign_of_cons b hnv]
    exact bindTarget_respects hab hvu m n hm

/-! ### Symbols -/

/-- Groups with bodies that correspond make values that correspond. -/
theorem group_respects (hc : s.Contexts ctx dtx) (kind : Group) {p q : Program}
    (hp : s.program p q) :
    s.Respects Eq w (Evaluator.group ctx kind p) (Evaluator.group dtx kind q) := by
  cases kind with
  | tuple => exact (collect_respects hc _ hp).bind fun _ _ h => s.push_respects (s.tuple h)
  | _ => exact (collect_respects hc _ hp).bind fun _ _ h => s.pushList_respects h

/-- One symbol other than the sign of assignment. -/
theorem step_respects (ht : s.KeepsTable t) (hc : s.Contexts ctx dtx) {a b : Symbol}
    (hab : s.symbol a b) :
    s.Respects Eq w (Evaluator.step t ctx a) (Evaluator.step t dtx b) := by
  have hshape := s.shape hab
  cases a <;> cases b <;> first | exact hshape.elim | skip
  case literal.literal x _ y _ => exact s.push_respects hshape
  case name.name x _ y _ =>
    obtain rfl : x = y := hshape
    exact (s.lookup w x).bind fun _ _ h => s.push_respects h
  case operator.operator x _ y _ =>
    obtain rfl : x = y := hshape
    exact operate_respects ht hc x
  case group.group k p _ l q _ =>
    obtain ⟨rfl, hp⟩ : k = l ∧ s.program p q := hshape
    exact group_respects hc k hp
  case blank.blank => exact .throw (s.halt_unexpected hab)

/-- Symbols that correspond are both assignments or neither is. -/
theorem isAssign_alike {a b : Symbol} (hab : s.symbol a b) :
    Evaluator.isAssign a = Evaluator.isAssign b := by
  have hshape := s.shape hab
  cases a <;> cases b <;> first | exact hshape.elim | rfl | skip
  case operator.operator x _ y _ =>
    obtain rfl : x = y := hshape
    rfl

/-- Steps that correspond do so too with their failures reported for symbols that correspond. -/
theorem annotated_respects {a b : Symbol} (hab : s.symbol a b) {x y : Eval Unit}
    (hx : s.Respects Eq w x y) :
    s.Respects Eq w (Eval.mapIssue (Issue.map (Evaluator.annotate a)) x)
      (Eval.mapIssue (Issue.map (Evaluator.annotate b)) y) :=
  hx.mapIssue (fun _ => s.lost_annotate a) (fun _ _ => s.halt_annotate hab)

/-- **Programs respect simulations**, given that the programs they evaluate in turn do. -/
theorem steps_respects (ht : s.KeepsTable t) (hc : s.Contexts ctx dtx) : ∀ {p q : Program},
    s.program p q → s.Respects Eq w (Evaluator.steps t ctx p) (Evaluator.steps t dtx q)
  | [], [], _ => .pure rfl
  | a :: p, b :: q, .cons hab hpq => by
    rw [Evaluator.steps.eq_def, Evaluator.steps.eq_def]
    simp only [isAssign_alike hab]
    split
    · match p, q, hpq with
      | [], [], _ => exact annotated_respects hab (s.fail_respects nofun)
      | _ :: p, _ :: q, .cons hab' hpq' =>
        exact (annotated_respects hab (assign_respects hab')).bind
          fun _ _ _ => steps_respects ht hc hpq'
    · exact (annotated_respects hab (step_respects ht hc hab)).bind
        fun _ _ _ => steps_respects ht hc hpq

end Simulation

/-! ### Whole programs -/

/-- What operators may use in an evaluation that has some levels left. -/
def Evaluator.context (ev : Evaluator) (levels : Nat) : Context :=
  ⟨ev.parse, ev.run levels, ev.rounds⟩

namespace Simulation

variable (s : Simulation)

/-- A parser whose results correspond to themselves. -/
def Parses (parse : Parser) : Prop :=
  ∀ source,
    (∃ p, parse source = .ok p ∧ s.program p p) ∨
    (∃ i, parse source = .error i ∧ s.halt (.issue i) (.issue i))

/-- A simulation that holds for steps if another one holds for them one level deeper. -/
structure Nests (deeper : Simulation) (limit : Nat) : Prop where
  symbol : ∀ {a b}, s.symbol a b → deeper.symbol a b
  nested : ∀ {x y : Eval Unit}, (∀ w, deeper.Respects Eq w x y) →
    ∀ w, s.Respects Eq w (Eval.nested limit x) (Eval.nested limit y)

variable {s}

/-- A context is respected by a simulation in which its parser and its runs of programs are. -/
theorem contexts_refl {ev : Evaluator} {levels : Nat} (hparse : s.Parses ev.parse)
    (hrun : ∀ w p q, s.program p q → s.Respects Eq w (ev.run levels p) (ev.run levels q)) :
    s.Contexts (ev.context levels) (ev.context levels) := by
  refine .of_parse (fun source => ?_) hrun fun _ => Or.inl rfl
  rcases hparse source with ⟨p, hp, hpp⟩ | ⟨i, hi, hii⟩
  · exact Or.inl ⟨p, p, hp, hp, hpp⟩
  · exact Or.inr (Or.inl ⟨i, i, hi, hi, hii⟩)

/-- **Evaluations respect simulations** with any number of levels, given a simulation for
    each depth. -/
theorem run_respects (ev : Evaluator) (sim : Nat → Simulation)
    (he : ∀ d, (sim d).halt .exhausted .exhausted) (ht : ∀ d, (sim d).KeepsTable ev.table)
    (hparse : ∀ d, (sim d).Parses ev.parse)
    (hnest : ∀ d, (sim d).Nests (sim (d + 1)) ev.maxDepth) :
    ∀ levels d w p q, (sim d).program p q →
      (sim d).Respects Eq w (ev.run levels p) (ev.run levels q)
  | 0, d, _, _, _, _ => .throw (he d)
  | levels + 1, d, w, _, _, hpq => by
    have hc : (sim (d + 1)).Contexts (ev.context levels) (ev.context levels) :=
      contexts_refl (hparse (d + 1)) (run_respects ev sim he ht hparse hnest levels (d + 1))
    have hpq' := hpq.imp fun _ _ => (hnest d).symbol
    exact (hnest d).nested (fun _ => steps_respects (ht (d + 1)) hc hpq') w

end Simulation

end StackLang
