import StackLang.Proofs.Evaluation.Protection

namespace StackLang

/-!
# Where names are bound

A call binds names in the scope that is active at its start, and in no other scope that
exists then.

* `Machine.BindsIn` — all scopes but one are as they were;
* `Eval.KeepsScopes` — a step after which all scopes are as they were;
* `Eval.BindsInActive` — a step that binds in the active scope only;
* `Evaluator.operate_keepsScopes`, `group_keepsScopes`, `Context.single_keepsScopes` — the
  steps that evaluate code in scopes of its own;
* `Evaluator.calls_bind` — every call binds in its active scope only.
-/

/-- All scopes but one are as they were, and no scope has been added. -/
def Machine.BindsIn (m : Machine) (scope : Nat) (r : Machine) : Prop :=
  r.scopes.size = m.scopes.size ∧ ∀ id ≠ scope, r.scopes.get? id = m.scopes.get? id

/-- What happens within a call binds in its active scope only. -/
theorem Machine.Within.bindsIn {m r : Machine} (h : m.Within r) : m.BindsIn m.active r :=
  ⟨h.scopes_size, h.scopes_get⟩

namespace Eval

variable {α β : Type}

/-- A step within a call after which all scopes are as they were. -/
def KeepsScopes (x : Eval α) : Prop :=
  ∀ m : Machine, m.Coherent →
    m.Within (Outcome.machine (x m)) ∧ (Outcome.machine (x m)).scopes = m.scopes

namespace KeepsScopes

/-- Steps that keep all scopes, one behind the other, keep them. -/
theorem bind {x : Eval α} {f : α → Eval β} (hx : KeepsScopes x) (hf : ∀ a, KeepsScopes (f a)) :
    KeepsScopes (x >>= f) := by
  intro m h
  obtain ⟨hwithin, hscopes⟩ := hx m h
  show m.Within (Outcome.machine (EStateM.bind x f m)) ∧
    (Outcome.machine (EStateM.bind x f m)).scopes = m.scopes
  unfold EStateM.bind
  cases hxm : x m with
  | ok a k =>
    rw [hxm] at hwithin hscopes
    obtain ⟨hwithin', hscopes'⟩ := hf a k (hwithin.coherent h)
    exact ⟨hwithin.trans hwithin', hscopes'.trans hscopes⟩
  | error g k =>
    rw [hxm] at hwithin hscopes
    exact ⟨hwithin, hscopes⟩

theorem pure (a : α) : KeepsScopes (Pure.pure a) := fun m _ => ⟨.refl m, rfl⟩

/-- The effects of operators that evaluate no code keep all scopes. -/
theorem effect (e : Effect) : KeepsScopes e.perform := by
  intro m _
  cases e with
  | fail c => exact ⟨.refl m, rfl⟩
  | _ => exact ⟨⟨rfl, rfl, rfl, rfl, fun _ _ => rfl, rfl⟩, rfl⟩

/-- An invocation in a new scope, which no longer exists afterwards. -/
theorem bracketedIn {x : Eval α}
    (hx : ∀ d (w : Callers d), (Callers.comparison d).Respects Eq w x x) (name scopeName : Bytes) :
    KeepsScopes (Eval.bracketedIn name scopeName x) := by
  intro m h
  have hin : (m.callee name scopeName).Within (Outcome.machine (x (m.callee name scopeName))) :=
    Callers.within_of_respects (Machine.coherent_called ..) (hx _)
  have hout : Outcome.machine (Eval.bracketedIn name scopeName x m) =
      m.resumed (Outcome.machine (x (m.callee name scopeName))) := by
    rw [bracketedIn_eq h name scopeName x hin]
    cases x (m.callee name scopeName) <;> rfl
  rw [hout]
  exact ⟨Machine.Within.resumed_callee (.refl m) hin, hin.resumed_scopes⟩

end KeepsScopes

/-- A step that binds in the active scope only. -/
def BindsInActive (x : Eval α) : Prop :=
  ∀ m : Machine, m.Coherent → m.BindsIn m.active (Outcome.machine (x m))

/-- A step that is the same for all callers binds in the active scope only. -/
theorem BindsInActive.of_respects {x : Eval α}
    (hx : ∀ d (w : Callers d), (Callers.comparison d).Respects Eq w x x) : BindsInActive x :=
  fun _ h => (Callers.within_of_respects h (hx _)).bindsIn

end Eval

/-! ### Code in scopes of its own -/

section

variable (parse : Parser) (maxDepth rounds levels : Nat)

open Eval (KeepsScopes)

/-- An invocation keeps all scopes, as its block binds in a scope of its own. -/
theorem Context.invoke_keepsScopes (name : Bytes) (body : Program) (args : List Value) :
    KeepsScopes (((Evaluator.builtin parse maxDepth rounds).context levels).invoke name body
      args) :=
  .bracketedIn (fun _ w => invoke_inner parse maxDepth rounds levels w body args) name name

/-- A block that is to leave one value binds in a scope of its own. -/
theorem Context.single_keepsScopes (what scopeName : Bytes) (body : Program)
    (args : List Value) :
    KeepsScopes (((Evaluator.builtin parse maxDepth rounds).context levels).single what scopeName
      body args) :=
  .bracketedIn (fun _ w => single_inner parse maxDepth rounds levels w what body args) what
    scopeName

/-- A group binds in a scope of its own. -/
theorem Context.collect_keepsScopes (name : Bytes) (body : Program) :
    KeepsScopes (((Evaluator.builtin parse maxDepth rounds).context levels).collect name
      body) :=
  .bracketedIn (fun _ w => collect_inner parse maxDepth rounds levels w body) name name

/-- Lists and tuples keep all scopes. -/
theorem Evaluator.group_keepsScopes (kind : Group) (body : Program) :
    KeepsScopes (Evaluator.group ((Evaluator.builtin parse maxDepth rounds).context levels) kind
      body) := by
  cases kind with
  | tuple =>
    exact (Context.collect_keepsScopes parse maxDepth rounds levels (utf8 "tuple") body).bind
      fun vs => .effect (.push [.tuple vs])
  | _ =>
    exact (Context.collect_keepsScopes parse maxDepth rounds levels (utf8 "list") body).bind
      fun vs => .effect (.pushList vs)

/-- Collecting the results for some elements keeps all scopes if each step does. -/
theorem Control.mapEach_keepsScopes {f : Value → Eval Value} (hf : ∀ v, KeepsScopes (f v))
    (vs results : List Value) : KeepsScopes (Control.mapEach f results vs) := by
  induction vs generalizing results with
  | nil => exact .pure _
  | cons v vs ih => exact (hf v).bind fun r => ih (r :: results)

/-- `!` keeps all scopes. -/
theorem Control.invoke_keepsScopes {args : List Value} (h : Operand.Fit [.any, .block] args) :
    KeepsScopes (Control.invoke ((Evaluator.builtin parse maxDepth rounds).context levels) args) := by
  obtain _ | ⟨_, _ | ⟨hb, _ | _⟩⟩ := h
  obtain ⟨body, rfl⟩ := Operand.exists_block hb
  rw [Control.invoke_eq]
  exact Context.invoke_keepsScopes parse maxDepth rounds levels _ body _

/-- `/` with a block keeps all scopes. -/
theorem Control.mapBlock_keepsScopes {args : List Value}
    (h : Operand.Fit [.iterable, .block] args) :
    KeepsScopes (Control.mapBlock ((Evaluator.builtin parse maxDepth rounds).context levels)
      args) := by
  obtain _ | ⟨_, _ | ⟨hb, _ | _⟩⟩ := h
  obtain ⟨body, rfl⟩ := Operand.exists_block hb
  exact (Control.mapEach_keepsScopes
    (fun v => Context.single_keepsScopes parse maxDepth rounds levels _ _ body [v]) _ _).bind
      fun vs => .effect (.pushList vs)

/-- Of the operators that evaluate code, two have the signs `!` and `/`. -/
theorem Control.keepsScopes_of_name {a : String × List Operand × Action} (ha : a ∈ Control.actions)
    (hname : utf8 a.1 = utf8 "!" ∨ utf8 a.1 = utf8 "/") {args : List Value}
    (hfit : Operand.Fit a.2.1 args) :
    KeepsScopes (a.2.2 ((Evaluator.builtin parse maxDepth rounds).context levels) args) := by
  simp only [Control.actions, List.mem_cons, List.not_mem_nil, or_false] at ha
  rcases ha with rfl | rfl | rfl | rfl | rfl | rfl | rfl | rfl | rfl | rfl | rfl | rfl
  · exact Control.invoke_keepsScopes parse maxDepth rounds levels hfit
  · exact absurd hname (by decide)
  · exact absurd hname (by decide)
  · exact absurd hname (by decide)
  · exact Control.mapBlock_keepsScopes parse maxDepth rounds levels hfit
  all_goals exact absurd hname (by decide)

/-- **Invocation and map**, and all that is said with the same signs, change no scope. -/
theorem Evaluator.operate_keepsScopes {op : Bytes} (hop : op = utf8 "!" ∨ op = utf8 "/") :
    KeepsScopes (Evaluator.operate .builtin
      ((Evaluator.builtin parse maxDepth rounds).context levels) op) := by
  intro m hm
  rcases Evaluator.operate_cases .builtin
      ((Evaluator.builtin parse maxDepth rounds).context levels) op m with
    ⟨f, _, hres⟩ | ⟨ov, hov, args, rest, _, _, hfit, hres⟩
  · rw [hres]
    exact ⟨.refl m, rfl⟩
  · have hkeeps : KeepsScopes
        (ov.action ((Evaluator.builtin parse maxDepth rounds).context levels) args) := by
      obtain ⟨a, ha, hname, hsig, hact⟩ := OperatorTable.exists_action_of_mem_builtin hov
      rw [hsig] at hfit
      rw [hact]
      -- An operator without code has an effect on the stack only; the others are known by name.
      rcases List.mem_append.mp ha with ha | ha
      · obtain ⟨e, he⟩ := OperatorTable.exists_effect ha args hfit
        rw [he]
        exact .effect e
      · rw [hname] at hop
        exact Control.keepsScopes_of_name parse maxDepth rounds levels ha hop hfit
    have htaken : m.Within (m.withVisible rest) := ⟨rfl, rfl, rfl, rfl, fun _ _ => rfl, rfl⟩
    obtain ⟨hwithin, hscopes⟩ := hkeeps (m.withVisible rest) (htaken.coherent hm)
    rw [hres]
    exact ⟨htaken.trans hwithin, hscopes⟩

/-! ### Code in place -/

open Eval (BindsInActive)

/-- Every symbol binds in the active scope only. -/
theorem Evaluator.step_bindsInActive (a : Symbol) :
    BindsInActive (Evaluator.step .builtin
      ((Evaluator.builtin parse maxDepth rounds).context levels) a) :=
  .of_respects fun d _ =>
    Simulation.step_respects (s := Simulation.callers d) Callers.keepsTable
      (Evaluator.context_same parse maxDepth rounds levels) rfl

/-- An assignment binds in the active scope only. -/
theorem Evaluator.assign_bindsInActive (target : Symbol) :
    BindsInActive (Evaluator.assign target) :=
  .of_respects fun d _ => Simulation.assign_respects (s := Simulation.callers d) rfl

/-- A program run in place binds in the active scope only. -/
theorem Evaluator.run_bindsInActive (p : Program) :
    BindsInActive ((Evaluator.builtin parse maxDepth rounds).run levels p) :=
  .of_respects fun _ => Evaluator.run_same parse maxDepth rounds levels p

/-- A condition, which is evaluated without a scope of its own, binds in the active scope only. -/
theorem Context.condition_bindsInActive (what : Bytes) (v : Value) :
    BindsInActive (((Evaluator.builtin parse maxDepth rounds).context levels).condition what
      v) :=
  .of_respects fun d _ =>
    Simulation.condition_respects (s := Simulation.callers d)
      (Evaluator.context_same parse maxDepth rounds levels) what rfl

end

namespace Evaluator

/-- **Bindings change only in the active scope.** A call that is made during an evaluation
    binds only in the scope that is active at its start.  Invocations, map, groups and the
    conditions of `while` change no scope there is; symbols, assignments, code in place and
    the conditions of other operators bind only in the active scope. -/
theorem calls_bind (parse : Parser) (maxDepth rounds : Nat) (p : Program)
    (scopes : Scopes Value) (root lists : Nat) (initial : List Value) :
    let ev := Evaluator.builtin parse maxDepth rounds
    (∀ c, ev.Calls (ev.opening p scopes root lists initial) c →
      c.machine.Coherent ∧ c.machine.BindsIn c.machine.active (c.final ev)) ∧
    ∀ levels,
      Eval.KeepsScopes (operate .builtin (ev.context levels) (utf8 "!")) ∧
      Eval.KeepsScopes (operate .builtin (ev.context levels) (utf8 "/")) ∧
      (∀ kind body, Eval.KeepsScopes (group (ev.context levels) kind body)) ∧
      (∀ cond, Eval.KeepsScopes
        ((ev.context levels).single (utf8 "while condition") (utf8 "while") cond [])) ∧
      (∀ a, Eval.BindsInActive (step .builtin (ev.context levels) a)) ∧
      (∀ target, Eval.BindsInActive (assign target)) ∧
      (∀ body, Eval.BindsInActive (ev.run levels body)) ∧
      (∀ what v, Eval.BindsInActive ((ev.context levels).condition what v)) := by
  intro ev
  refine ⟨fun c hc => ?_, fun levels => ?_⟩
  · obtain ⟨hcoherent, _⟩ := calls_invariant hc (Machine.coherent_opening ..) (Nat.zero_le _)
    exact ⟨hcoherent, (run_within hcoherent c.levels c.program).bindsIn⟩
  · exact ⟨operate_keepsScopes parse maxDepth rounds levels (Or.inl rfl),
      operate_keepsScopes parse maxDepth rounds levels (Or.inr rfl),
      group_keepsScopes parse maxDepth rounds levels,
      fun cond => Context.single_keepsScopes parse maxDepth rounds levels _ _ cond [],
      step_bindsInActive parse maxDepth rounds levels, assign_bindsInActive,
      run_bindsInActive parse maxDepth rounds levels,
      Context.condition_bindsInActive parse maxDepth rounds levels⟩

/-- The invocation in `1 {2} !` binds in the scope made for it only. -/
theorem calls_bind_invoked :
    (Evaluator.builtin parser 5 5).Calls
      ((Evaluator.builtin parser 5 5).opening invocation (.root .empty) Machine.globals 0
        [.bool true]) invoked ∧
      invoked.machine.BindsIn 1 (invoked.final (Evaluator.builtin parser 5 5)) :=
  ⟨calls_invoked, ((calls_bind parser 5 5 invocation _ _ _ _).1 invoked calls_invoked).2⟩

end Evaluator

end StackLang
