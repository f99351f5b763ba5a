import StackLang.Proofs.Evaluation.Calls

namespace StackLang

/-!
# Independence of the caller's stack

Code that is evaluated behind a boundary does not depend on what is below.

* `Outcome.SameAbove` — outcomes that are the same but for what was on the stacks before;
* `Eval.Independent` — a step with such outcomes in all machines that differ in their stacks
  and frames only;
* `Eval.Independent.bracketed`, `bracketedIn` — invocations are independent;
* `Machine.alone` — a machine with nothing on its stack but arguments, and no caller;
* `Context.invoke_alone` — an invocation leaves what the block leaves in such a machine;
* `Evaluator.protected_independent` — all constructs that protect the stack.
-/

namespace Outcome

variable {α : Type}

/-- Outcomes, from two machines, that are the same but for what was on the stacks: either
    the halts are the same, or the results are, and the same values have been put above. -/
def SameAbove (d : Nat) (m n : Machine) (r q : Outcome α) : Prop :=
  (∃ h k l, r = .error h k ∧ q = .error h l) ∨
  ∃ a left k l, r = .ok a k ∧ q = .ok a l ∧
    k.stack = m.stack.joined left ∧ l.stack = n.stack.joined left ∧ Machine.Agree d k l

end Outcome

namespace Eval

variable {α β : Type}

/-- A step that does not depend on stacks and frames. -/
def Independent (x : Eval α) : Prop :=
  ∀ d m n, Machine.Agree d m n → Outcome.SameAbove d m n (x m) (x n)

namespace Independent

theorem pure (a : α) : Independent (Pure.pure a) :=
  fun _ _ _ h => Or.inr ⟨a, [], _, _, rfl, rfl, rfl, rfl, h⟩

/-- Steps that are independent, one behind the other, are independent. -/
theorem bind {x : Eval α} {f : α → Eval β} (hx : Independent x) (hf : ∀ a, Independent (f a)) :
    Independent (x >>= f) := by
  intro d m n h
  show Outcome.SameAbove d m n (EStateM.bind x f m) (EStateM.bind x f n)
  unfold EStateM.bind
  rcases hx d m n h with ⟨e, k, l, hm, hn⟩ | ⟨a, left, k, l, hm, hn, hk, hl, hkl⟩
  · rw [hm, hn]
    exact Or.inl ⟨e, k, l, rfl, rfl⟩
  · rw [hm, hn]
    rcases hf a d k l hkl with ⟨e, k', l', hk', hl'⟩ | ⟨b, left', k', l', hfk, hfl, hk', hl', hkl'⟩
    · exact Or.inl ⟨e, k', l', hk', hl'⟩
    · -- What the second step leaves is above what the first one has left.
      have hjoin : ∀ s : Stack, (s.joined left).joined left' = s.joined (left' ++ left) := by
        intro s
        apply Stack.ext_of_values
        · simp [Stack.joined]
        · rfl
      refine Or.inr ⟨b, left' ++ left, k', l', hfk, hfl, ?_, ?_, hkl'⟩
      · rw [hk', hk, hjoin]
      · rw [hl', hl, hjoin]

/-- Pushing a value is independent: it lies on top of whatever is there. -/
theorem push (v : Value) : Independent (Eval.push v) := fun _ _ _ h =>
  Or.inr ⟨(), [v], _, _, rfl, rfl, rfl, rfl, ⟨h.first_coherent, h.second_coherent,
    h.first_depth, h.second_depth, h.active_eq, h.scopes, h.nextList⟩⟩

/-- Pushing a new list is independent, as list identities do not come from the stack. -/
theorem pushList (elems : List Value) : Independent (Eval.pushList elems) := by
  intro d m n h
  refine Or.inr ⟨(), [.list m.nextList elems], _, _, rfl, rfl, rfl, ?_, ⟨h.first_coherent,
    h.second_coherent, h.first_depth, h.second_depth, h.active_eq, h.scopes, ?_⟩⟩
  · rw [h.nextList]
    rfl
  · exact congrArg (· + 1) h.nextList

/-! ### Invocations -/

/-- Behind invocations that have ended alike. -/
theorem sameAbove_resumed {d : Nat} {c : Callers d} {m n : Machine} {r q : Outcome α}
    (h : Machine.Agree d m n) (hrq : (Callers.comparison d).Alike Eq c r q)
    (hm : m.Within (m.resumed (Outcome.machine r))) (hn : n.Within (n.resumed (Outcome.machine q))) :
    Outcome.SameAbove d m n (Outcome.onMachine m.resumed r) (Outcome.onMachine n.resumed q) := by
  cases r with
  | ok a k =>
    cases q with
    | ok b l =>
      obtain ⟨rfl, hkl⟩ := hrq
      refine Or.inr ⟨a, k.stack.visible, m.resumed k, n.resumed l, rfl, rfl, rfl, ?_, ?_⟩
      · rw [hkl.visible]
        rfl
      · refine ⟨hm.coherent h.first_coherent, hn.coherent h.second_coherent,
          hm.depth.trans h.first_depth, hn.depth.trans h.second_depth, h.active_eq, ?_,
          hkl.nextList⟩
        show k.scopes.truncate m.scopes.size = l.scopes.truncate n.scopes.size
        rw [hkl.scopes, h.scopes]
    | error g l => exact hrq.elim
  | error e k =>
    cases q with
    | ok b l => exact hrq.elim
    | error g l =>
      obtain ⟨rfl, _⟩ := hrq.resolve_left id
      exact Or.inl ⟨e, m.resumed k, n.resumed l, rfl, rfl⟩

variable {x : Eval α}

/-- A step in a call of its own is independent if it is the same for all callers. -/
theorem bracketed (hx : ∀ d (w : Callers d), (Callers.comparison d).Respects Eq w x x)
    (name : Bytes) : Independent (Eval.bracketed name x) := by
  intro d m n h
  have hin := hx d (Callers.calling h name) _ _ (Callers.calling_same h name)
  have hsame := Callers.same_of_alike hin
  rw [bracketed_eq h.first_coherent name x hsame.first,
    bracketed_eq h.second_coherent name x hsame.second]
  exact sameAbove_resumed h hin (Machine.Within.resumed_called (.refl m) hsame.first)
    (Machine.Within.resumed_called (.refl n) hsame.second)

/-- A step in a call with a scope of its own is independent if it is the same for all callers. -/
theorem bracketedIn (hx : ∀ d (w : Callers d), (Callers.comparison d).Respects Eq w x x)
    (name scopeName : Bytes) : Independent (Eval.bracketedIn name scopeName x) := by
  intro d m n h
  have hin := hx d (Callers.callingIn h name scopeName) _ _
    (Callers.callingIn_same h name scopeName)
  have hsame := Callers.same_of_alike hin
  rw [bracketedIn_eq h.first_coherent name scopeName x hsame.first,
    bracketedIn_eq h.second_coherent name scopeName x hsame.second]
  exact sameAbove_resumed h hin (Machine.Within.resumed_callee (.refl m) hsame.first)
    (Machine.Within.resumed_callee (.refl n) hsame.second)

end Independent

end Eval

/-! ### Constructs that protect the stack -/

section

variable (parse : Parser) (maxDepth rounds levels : Nat)

open Eval (Independent)

namespace Context

/-- The one value that a block leaves does not depend on stacks and frames. -/
theorem single_independent (what scopeName : Bytes) (body : Program) (args : List Value) :
    Independent (((Evaluator.builtin parse maxDepth rounds).context levels).single what scopeName
      body args) :=
  .bracketedIn (fun _ w => single_inner parse maxDepth rounds levels w what body args) what
    scopeName

/-- The values that a group collects do not depend on stacks and frames. -/
theorem collect_independent (name : Bytes) (body : Program) :
    Independent (((Evaluator.builtin parse maxDepth rounds).context levels).collect name body) :=
  .bracketedIn (fun _ w => collect_inner parse maxDepth rounds levels w body) name name

/-- The value of a condition does not depend on stacks and frames. -/
theorem condition_independent (what : Bytes) (body : Program) :
    Independent (((Evaluator.builtin parse maxDepth rounds).context levels).condition what
      (.block body)) :=
  .bracketed (fun _ w => condition_inner parse maxDepth rounds levels w what body) what

end Context

/-- Lists and tuples do not depend on stacks and frames. -/
theorem Evaluator.group_independent (kind : Group) (body : Program) :
    Independent (Evaluator.group ((Evaluator.builtin parse maxDepth rounds).context levels) kind
      body) := by
  cases kind with
  | tuple =>
    exact (Context.collect_independent parse maxDepth rounds levels (utf8 "tuple") body).bind
      fun vs => .push (.tuple vs)
  | _ =>
    exact (Context.collect_independent parse maxDepth rounds levels (utf8 "list") body).bind
      fun vs => .pushList vs

/-- Results collected for some elements do not depend on stacks and frames if each one does not. -/
theorem Control.mapEach_independent {f : Value → Eval Value} (hf : ∀ v, Independent (f v))
    (vs results : List Value) : Independent (Control.mapEach f results vs) := by
  induction vs generalizing results with
  | nil => exact .pure _
  | cons v vs ih => exact (hf v).bind fun r => ih (r :: results)

/-- `/` with a block does not depend on stacks and frames. -/
theorem Control.mapBlock_independent (v : Value) (body : Program) :
    Independent (Control.mapBlock ((Evaluator.builtin parse maxDepth rounds).context levels)
      [v, .block body]) :=
  (Control.mapEach_independent
    (fun e => Context.single_independent parse maxDepth rounds levels _ _ body [e]) _ _).bind
      fun vs => .pushList vs

end

/-! ### Blocks on a stack of their own -/

/-- A machine without callers, with nothing on its stack but arguments, in which a new scope
    is active. -/
def Machine.alone (name : Bytes) (scopes : Scopes Value) (parent lists depth : Nat)
    (args : List Value) : Machine where
  scopes := scopes.add name (some parent)
  stack := Stack.empty.pushAll args
  frames := [⟨name, scopes.size, 0, 0⟩]
  nextFrame := 1
  nextList := lists
  depth := depth

/-- How an invocation ends in a machine, by how the block ends alone: in the same way, with
    what the block leaves alone above the visible values. -/
def Outcome.Resumes (m : Machine) (r : Outcome Unit) : (alone : Outcome Unit) → Prop
  | .ok _ i => ∃ k, r = .ok () k ∧ k.stack = m.stack.joined i.stack.visible
  | .error e _ => ∃ k, r = .error e k

section

variable (parse : Parser) (maxDepth rounds levels : Nat)

/-- **Invocations** end as the block does in a machine without callers. -/
theorem Context.invoke_alone {m : Machine} (h : m.Coherent) (name : Bytes) (body : Program)
    (args : List Value) :
    let ev := Evaluator.builtin parse maxDepth rounds
    Outcome.Resumes m ((ev.context levels).invoke name body args m)
      (ev.run levels body (.alone name m.scopes m.active m.nextList m.depth args)) := by
  intro ev
  let x : Eval Unit := do Eval.pushAll args; (ev.context levels).run body
  let empty := Machine.alone name m.scopes m.active m.nextList m.depth []
  -- The block is called from the machine, and from no machine at all.
  let c : Callers m.depth :=
    ⟨m.callee name name, empty, Machine.coherent_called .., ⟨_, [], rfl, rfl⟩, rfl, rfl, rfl⟩
  have hsame : c.Same (m.callee name name) empty :=
    ⟨.refl _, .refl _, rfl, rfl, rfl, Nat.add_comm ..⟩
  have hin : (Callers.comparison m.depth).Alike Eq c (x (m.callee name name)) (x empty) :=
    invoke_inner parse maxDepth rounds levels c body args _ _ hsame
  have hinvoke : (ev.context levels).invoke name body args m =
      Outcome.onMachine m.resumed (x (m.callee name name)) :=
    Eval.bracketedIn_eq h name name x (Callers.same_of_alike hin).first
  rw [hinvoke]
  show Outcome.Resumes m _ (x empty)
  cases hr : x (m.callee name name) with
  | ok a k =>
    cases hq : x empty with
    | ok b i =>
      rw [hr, hq] at hin
      refine ⟨m.resumed k, rfl, ?_⟩
      rw [← hin.2.visible]
      rfl
    | error g i => rw [hr, hq] at hin; exact hin.elim
  | error e k =>
    cases hq : x empty with
    | ok b i => rw [hr, hq] at hin; exact hin.elim
    | error g i =>
      rw [hr, hq] at hin
      obtain ⟨rfl, _⟩ := hin.resolve_left id
      exact ⟨m.resumed k, rfl⟩

end

namespace Evaluator

/-- `!` takes its block and the value below it, and invokes the block with its arguments. -/
theorem operate_invoke (ctx : Context) (m : Machine) (v : Value) (body : Program)
    (below : List Value) :
    operate .builtin ctx (utf8 "!") (m.withVisible (.block body :: v :: below)) =
      ctx.invoke (utf8 "invoke") body v.arguments (m.withVisible below) := by
  rw [← Control.invoke_eq]
  rfl

/-- `/` takes its block and the value below it, and maps the elements. -/
theorem operate_map (ctx : Context) (m : Machine) {v : Value}
    (hv : Operand.iterable.accepts v = true) (body : Program) (below : List Value) :
    operate .builtin ctx (utf8 "/") (m.withVisible (.block body :: v :: below)) =
      Control.mapBlock ctx [v, .block body] (m.withVisible below) := by
  cases v with
  | list _ _ => rfl
  | tuple _ => rfl
  | str _ => rfl
  | _ => exact absurd hv (by simp [Operand.accepts, Operand.acceptsKind, Value.kind])

/-- Machines that agree still do with other visible values. -/
theorem agree_withVisible {d : Nat} {m n : Machine} (h : Machine.Agree d m n)
    (vs us : List Value) : Machine.Agree d (m.withVisible vs) (n.withVisible us) :=
  ⟨h.first_coherent, h.second_coherent, h.first_depth, h.second_depth, h.active_eq, h.scopes,
    h.nextList⟩

/-- **Protected evaluation does not depend on the caller's stack.** Let two machines have
    the same scopes, the same active scope and the same depth, whatever their stacks,
    boundaries and frames.  Then `!` halts in the same way on both, or leaves the same values
    on both, and these are what the block leaves in a machine without callers; and groups,
    map and the conditions of `if`, `and`, `or` and `while` have the same outcome on both. -/
theorem protected_independent (parse : Parser) (maxDepth rounds levels : Nat) {d : Nat}
    {m n : Machine} (h : Machine.Agree d m n) (v : Value) (body : Program)
    (below₁ below₂ : List Value) :
    let ev := Evaluator.builtin parse maxDepth rounds
    let ctx := ev.context levels
    let m₁ := m.withVisible (.block body :: v :: below₁)
    let n₁ := n.withVisible (.block body :: v :: below₂)
    let alone := Machine.alone (utf8 "invoke") m.scopes m.active m.nextList d v.arguments
    ((∃ e k l i, operate .builtin ctx (utf8 "!") m₁ = .error e k ∧
        operate .builtin ctx (utf8 "!") n₁ = .error e l ∧ ev.run levels body alone = .error e i) ∨
      ∃ left k l i, operate .builtin ctx (utf8 "!") m₁ = .ok () k ∧
        operate .builtin ctx (utf8 "!") n₁ = .ok () l ∧ ev.run levels body alone = .ok () i ∧
        i.stack.visible = left ∧
        k.stack.visible = left ++ below₁ ∧ k.stack.hidden = m.stack.hidden ∧
        l.stack.visible = left ++ below₂ ∧ l.stack.hidden = n.stack.hidden) ∧
    (Operand.iterable.accepts v = true →
      Outcome.SameAbove d (m.withVisible below₁) (n.withVisible below₂)
        (operate .builtin ctx (utf8 "/") m₁) (operate .builtin ctx (utf8 "/") n₁)) ∧
    (∀ kind, Outcome.SameAbove d m n (group ctx kind body m) (group ctx kind body n)) ∧
    (∀ what, Outcome.SameAbove d m n (ctx.condition what (.block body) m)
      (ctx.condition what (.block body) n)) ∧
    Outcome.SameAbove d m n
      (ctx.single (utf8 "while condition") (utf8 "while") body [] m)
      (ctx.single (utf8 "while condition") (utf8 "while") body [] n) := by
  intro ev ctx m₁ n₁ alone
  have hbelow := agree_withVisible h below₁ below₂
  refine ⟨?_, fun hv => ?_, fun kind => group_independent parse maxDepth rounds levels kind body
    d m n h, fun what => Context.condition_independent parse maxDepth rounds levels what body
    d m n h, Context.single_independent parse maxDepth rounds levels _ _ body [] d m n h⟩
  · -- Both invocations are compared with the run of the block alone, which does not depend on what
    -- is below.
    have hm : Outcome.Resumes (m.withVisible below₁) (operate .builtin ctx (utf8 "!") m₁)
        (ev.run levels body alone) := by
      rw [operate_invoke]
      have hinvoke := Context.invoke_alone parse maxDepth rounds levels hbelow.first_coherent
        (utf8 "invoke") body v.arguments
      rwa [hbelow.first_depth] at hinvoke
    have hn : Outcome.Resumes (n.withVisible below₂) (operate .builtin ctx (utf8 "!") n₁)
        (ev.run levels body alone) := by
      rw [operate_invoke]
      have hinvoke := Context.invoke_alone parse maxDepth rounds levels hbelow.second_coherent
        (utf8 "invoke") body v.arguments
      -- The machine without callers was made from `m`; what it takes over is the same in `n`.
      rwa [hbelow.second_depth, ← hbelow.scopes, ← hbelow.active_eq, ← hbelow.nextList] at hinvoke
    cases hi : ev.run levels body alone with
    | ok _ i =>
      rw [hi] at hm hn
      obtain ⟨k, hmk, hk⟩ := hm
      obtain ⟨l, hnl, hl⟩ := hn
      refine Or.inr ⟨i.stack.visible, k, l, i, hmk, hnl, rfl, rfl, ?_⟩
      rw [hk, hl]
      exact ⟨rfl, rfl, rfl, rfl⟩
    | error e i =>
      rw [hi] at hm hn
      obtain ⟨k, hmk⟩ := hm
      obtain ⟨l, hnl⟩ := hn
      exact Or.inl ⟨e, k, l, i, hmk, hnl, rfl⟩
  · rw [operate_map ctx m hv, operate_map ctx n hv]
    exact Control.mapBlock_independent parse maxDepth rounds levels v body d _ _ hbelow

/-- A machine at the start of an evaluation agrees with one in which a value is protected. -/
theorem agree_called :
    Machine.Agree 0 (start .empty []) ((start .empty [.int 7]).called (utf8 "f") 0) :=
  ⟨⟨_, _, rfl, rfl⟩, ⟨_, _, rfl, rfl⟩, rfl, rfl, rfl, rfl, rfl⟩

/-- `(1 2) {+} /` leaves the same from two frames, above different values. -/
theorem protected_independent_called :
    let ctx := (Evaluator.builtin parser 5 5).context 5
    let m := start .empty []
    let n := (start .empty [.int 7]).called (utf8 "f") 0
    let v := Value.tuple [.int 1, .int 2]
    let body : Program := [.operator (utf8 "+") ⟨1, 2⟩]
    Machine.Agree 0 m n ∧ Operand.iterable.accepts v = true ∧
      Outcome.SameAbove 0 (m.withVisible []) (n.withVisible [.bool true])
        (operate .builtin ctx (utf8 "/") (m.withVisible [.block body, v]))
        (operate .builtin ctx (utf8 "/") (n.withVisible [.block body, v, .bool true])) :=
  ⟨agree_called, rfl, (protected_independent parser 5 5 5 agree_called _ _ _ _).2.1 rfl⟩

end Evaluator

end StackLang
