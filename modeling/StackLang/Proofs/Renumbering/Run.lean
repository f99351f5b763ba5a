import StackLang.Proofs.Renumbering.Basic
import StackLang.Proofs.Simulation.Callers

namespace StackLang

/-!
# Programs under other numbers for lists

* `Context.Follows` — a context in which programs under other numbers follow the programs
  themselves;
* `Action.Follows` — an operator that follows itself, applied to operands under other numbers;
* `Evaluator.operate_follows`, `Evaluator.steps_follows` — all operators of the language do, and
  so do the symbols of a program, one after the other;
* `Evaluator.run_follows` — and whole programs.
-/

open Eval (Follows)

variable {ν : Renumbering} {ctx : Context}

/-! ### Evaluating code -/

/-- Programs under other numbers follow the programs themselves, and those that are read from text
    have no lists that get other numbers. -/
structure Context.Follows (ν : Renumbering) (ctx : Context) : Prop where
  run : ∀ p, Eval.Follows ν id (ctx.run p) (ctx.run (Program.renumbered ν p))
  parse : ∀ source p, ctx.parse source = .ok p → Program.renumbered ν p = p

namespace Context.Follows

variable (hc : ctx.Follows ν)

include hc

/-- Source text read as programs without renumbered lists is followed by itself. -/
theorem evalSource (source : Bytes) :
    Eval.Follows ν id (ctx.evalSource source) (ctx.evalSource source) := by
  refine Eval.Follows.mapIssue _ ?_
  cases hparse : ctx.parse source with
  | error i => exact .throw _
  | ok p =>
    have hrun := hc.run p
    rwa [hc.parse source p hparse] at hrun

/-- An invocation follows with its block and arguments under other numbers. -/
theorem invoke (name : Bytes) (body : Program) (args : List Value) :
    Eval.Follows ν id (ctx.invoke name body args)
      (ctx.invoke name (Program.renumbered ν body) (args.map (Value.renumbered ν))) :=
  .bracketedIn name name ((Eval.Follows.pushAll args).bind fun _ => hc.run body)

/-- The one value that a block leaves follows with its block and arguments under other numbers. -/
theorem single (what scopeName : Bytes) (body : Program) (args : List Value) :
    Eval.Follows ν (Value.renumbered ν) (ctx.single what scopeName body args)
      (ctx.single what scopeName (Program.renumbered ν body) (args.map (Value.renumbered ν))) :=
  .bracketedIn what scopeName ((Eval.Follows.pushAll args).bind fun _ =>
    (hc.run body).bind fun _ => .oneValue what)

/-- The values that a group collects follow with its symbols under other numbers. -/
theorem collect (name : Bytes) (body : Program) :
    Eval.Follows ν (List.map (Value.renumbered ν)) (ctx.collect name body)
      (ctx.collect name (Program.renumbered ν body)) :=
  .bracketedIn name name ((hc.run body).bind fun _ => .takeAll)

/-- The value of a condition follows with the condition under other numbers. -/
theorem condition (what : Bytes) (v : Value) :
    Eval.Follows ν (Value.renumbered ν) (ctx.condition what v)
      (ctx.condition what (v.renumbered ν)) := by
  cases v with
  | block body =>
    rw [Value.renumbered_block]
    exact .bracketed what ((hc.run body).bind fun _ => .oneValue what)
  | _ => exact .pure _

/-- Performing a value follows with the value under other numbers. -/
theorem perform (v : Value) :
    Eval.Follows ν id (Control.perform ctx v) (Control.perform ctx (v.renumbered ν)) := by
  cases v with
  | block body =>
    rw [Value.renumbered_block]
    exact hc.run body
  | _ => exact .push _

end Context.Follows

/-! ### Loops -/

namespace Control

variable {x y : Eval Unit}

/-- A fold follows with its elements under other numbers. -/
theorem foldEach_follows (hx : Follows ν id x y) (vs : List Value) :
    Follows ν id (foldEach x vs) (foldEach y (vs.map (Value.renumbered ν))) := by
  induction vs with
  | nil => exact .pure ()
  | cons v vs ih => exact (Follows.push v).bind fun _ => hx.bind fun _ => ih

/-- Results collected for elements follow with the elements under other numbers. -/
theorem mapEach_follows {f g : Value → Eval Value}
    (hf : ∀ v, Follows ν (Value.renumbered ν) (f v) (g (v.renumbered ν)))
    (vs results : List Value) :
    Follows ν (List.map (Value.renumbered ν)) (mapEach f results vs)
      (mapEach g (results.map (Value.renumbered ν)) (vs.map (Value.renumbered ν))) := by
  induction vs generalizing results with
  | nil =>
    rw [List.map_nil, mapEach, mapEach, ← List.map_reverse]
    exact .pure results.reverse
  | cons v vs ih => exact (hf v).bind fun r => ih (r :: results)

/-- Repetitions follow if what is repeated does. -/
theorem times_follows (hx : Follows ν id x y) (n : Nat) :
    Follows ν id (times x n) (times y n) := by
  induction n with
  | zero => exact .pure ()
  | succ n ih => exact hx.bind fun _ => ih

/-- `while` follows if its condition and its body do. -/
theorem loopWhile_follows {cond cond' : Eval Value}
    (hcond : Follows ν (Value.renumbered ν) cond cond') (hx : Follows ν id x y) (n : Nat) :
    Follows ν id (loopWhile cond x n) (loopWhile cond' y n) := by
  induction n with
  | zero => exact .throw _
  | succ n ih =>
    refine hcond.bind fun v => ?_
    rw [Value.truthy_recast]
    split
    · exact hx.bind fun _ => ih
    · exact .pure ()

/-- `do` follows if its body does. -/
theorem loopDo_follows (hx : Follows ν id x y) (n : Nat) :
    Follows ν id (loopDo x n) (loopDo y n) := by
  induction n with
  | zero => exact .throw _
  | succ n ih =>
    refine hx.bind fun _ => Follows.pop.bind fun v => ?_
    rw [Value.truthy_recast]
    split
    · exact ih
    · exact .pure ()

end Control

/-! ### Operators -/

/-- An action follows itself, applied to operands under other numbers. -/
def Action.Follows (ν : Renumbering) (ctx : Context) (signature : List Operand) (action : Action) :
    Prop :=
  ∀ args, Operand.Fit signature args →
    Eval.Follows ν id (action ctx args) (action ctx (args.map (Value.renumbered ν)))

/-- What an operator without code does follows with the operands under other numbers. -/
theorem Effect.perform_follows (e : Effect) :
    Follows ν id e.perform (e.recast ν.recast).perform := by
  cases e with
  | push vs => exact .pushAll vs
  | pushList es => exact .pushList es
  | clear => exact .clear
  | fail c => exact .throw _

/-- Operators without code follow. -/
theorem OperatorTable.plain_follows (ctx : Context) {a : String × List Operand × Action}
    (ha : a ∈ plainActions) : Action.Follows ν ctx a.2.1 a.2.2 := by
  intro args hfit
  obtain ⟨e, he, hrecast⟩ := commutes ha ν.recast args hfit
  rw [he, hrecast]
  exact e.perform_follows

namespace Control

variable (hc : ctx.Follows ν)

include hc

/-- `!` with a block follows itself. -/
theorem invoke_follows : Action.Follows ν ctx [.any, .block] invoke
  | [v, _], .cons _ (.cons hbody .nil) => by
    obtain ⟨body, rfl⟩ := Operand.exists_block hbody
    have harguments : (v.renumbered ν).arguments = v.arguments.map (Value.renumbered ν) := by
      rw [Value.arguments_eq, Value.arguments_eq, Value.kind_recast, Value.elements_recast]
      split <;> rfl
    rw [List.map_cons, List.map_cons, List.map_nil, Value.renumbered_block, invoke_eq, invoke_eq,
      harguments]
    exact hc.invoke _ body _

/-- `%` of something iterable and a block follows itself. -/
theorem fold_follows : Action.Follows ν ctx [.iterable, .block] fold
  | [v, _], .cons _ (.cons hbody .nil) => by
    obtain ⟨body, rfl⟩ := Operand.exists_block hbody
    rw [List.map_cons, List.map_cons, List.map_nil, Value.renumbered_block, fold, fold,
      Value.elements_recast]
    exact foldEach_follows (hc.run body) v.elements

/-- `/` of something iterable and a block follows itself. -/
theorem mapBlock_follows : Action.Follows ν ctx [.iterable, .block] mapBlock
  | [v, _], .cons _ (.cons hbody .nil) => by
    obtain ⟨body, rfl⟩ := Operand.exists_block hbody
    rw [List.map_cons, List.map_cons, List.map_nil, Value.renumbered_block, mapBlock, mapBlock,
      Value.elements_recast]
    exact (mapEach_follows (fun e => hc.single _ _ body [e]) v.elements []).bind fun es =>
      .pushList es

/-- Repeating a block follows with the block under other numbers. -/
theorem repeatCode_follows (n : Int64) (body : Program) :
    Eval.Follows ν id (repeatCode ctx n body) (repeatCode ctx n (Program.renumbered ν body)) := by
  unfold repeatCode
  cases Arithmetic.count "repeat count" n with
  | ok k => exact times_follows (hc.run body) k
  | error c => exact .throw _

/-- `if` follows itself. -/
theorem choose_follows : Action.Follows ν ctx [.any, .any, .any] choose
  | [v, a, b], .cons _ (.cons _ (.cons _ .nil)) => by
    refine (hc.condition _ v).bind fun c => ?_
    rw [Value.truthy_recast]
    split
    · exact hc.perform a
    · exact hc.perform b

theorem conjunction_follows : Action.Follows ν ctx [.any, .any] conjunction
  | [a, b], .cons _ (.cons _ .nil) => by
    refine (hc.condition _ a).bind fun c => ?_
    rw [Value.truthy_recast]
    split
    · exact (hc.condition _ b).bind fun v => .push v
    · exact .push c

theorem disjunction_follows : Action.Follows ν ctx [.any, .any] disjunction
  | [a, b], .cons _ (.cons _ .nil) => by
    refine (hc.condition _ a).bind fun c => ?_
    rw [Value.truthy_recast]
    split
    · exact .push c
    · exact (hc.condition _ b).bind fun v => .push v

/-- `while` follows itself as an operator on two blocks. -/
theorem whileLoop_follows : Action.Follows ν ctx [.block, .block] whileLoop
  | [_, _], .cons hcond (.cons hbody .nil) => by
    obtain ⟨cond, rfl⟩ := Operand.exists_block hcond
    obtain ⟨body, rfl⟩ := Operand.exists_block hbody
    rw [List.map_cons, List.map_cons, List.map_nil, Value.renumbered_block, Value.renumbered_block]
    exact loopWhile_follows (hc.single _ _ cond []) (hc.run body) ctx.rounds

/-- Operators that evaluate code follow. -/
theorem follows {a : String × List Operand × Action} (ha : a ∈ actions) :
    Action.Follows ν ctx a.2.1 a.2.2 := by
  simp only [actions, List.mem_cons, List.not_mem_nil, or_false] at ha
  rcases ha with rfl | rfl | rfl | rfl | rfl | rfl | rfl | rfl | rfl | rfl | rfl | rfl
  · exact invoke_follows hc
  · exact fold_follows hc
  · -- A block with `%`.
    rintro _ (_ | ⟨hbody, _ | _⟩)
    obtain ⟨body, rfl⟩ := Operand.exists_block hbody
    rw [List.map_cons, List.map_nil, Value.renumbered_block]
    exact hc.run body
  · -- A string with `%`.
    rintro _ (_ | ⟨htext, _ | _⟩)
    obtain ⟨text, rfl⟩ := Operand.exists_str htext
    exact hc.evalSource text
  · exact mapBlock_follows hc
  · -- A count and a block, in either order, are the same repetition.
    rintro _ (_ | ⟨hn, _ | ⟨hbody, _ | _⟩⟩)
    obtain ⟨n, rfl⟩ := Operand.exists_int hn
    obtain ⟨body, rfl⟩ := Operand.exists_block hbody
    rw [List.map_cons, List.map_cons, List.map_nil, Value.renumbered_block]
    exact repeatCode_follows hc n body
  · rintro _ (_ | ⟨hbody, _ | ⟨hn, _ | _⟩⟩)
    obtain ⟨n, rfl⟩ := Operand.exists_int hn
    obtain ⟨body, rfl⟩ := Operand.exists_block hbody
    rw [List.map_cons, List.map_cons, List.map_nil, Value.renumbered_block]
    exact repeatCode_follows hc n body
  · exact choose_follows hc
  · exact conjunction_follows hc
  · exact disjunction_follows hc
  · exact whileLoop_follows hc
  · -- A block with `do`.
    rintro _ (_ | ⟨hbody, _ | _⟩)
    obtain ⟨body, rfl⟩ := Operand.exists_block hbody
    rw [List.map_cons, List.map_nil, Value.renumbered_block]
    exact loopDo_follows (hc.run body) ctx.rounds

end Control

namespace Evaluator

/-- **The operators of the language** follow. -/
theorem operate_follows (hc : ctx.Follows ν) (op : Bytes) :
    Follows ν id (operate .builtin ctx op) (operate .builtin ctx op) := by
  intro m
  have hkinds : List.Forall₂ (fun v u : Value => v.kind = u.kind) m.stack.visible
      (m.renumbered ν).stack.visible :=
    List.forall₂_map_right_iff.mpr (List.forall₂_same.mpr fun v _ => (v.kind_recast _).symm)
  have hres := OperatorTable.resolve_congr .builtin op hkinds
  rcases operate_cases .builtin ctx op m with
    ⟨f, hf, hop⟩ | ⟨ov, hov, args, rest, hr, hvis, hfit, hop⟩
  · rcases operate_cases .builtin ctx op (m.renumbered ν) with ⟨g, hg, hop'⟩ | ⟨_, _, _, _, hr', _⟩
    · obtain rfl : f = g := by
        rw [hf, hg] at hres
        exact Except.error.inj hres
      rw [hop, hop']
      exact ⟨Nat.le_refl _, fun _ => rfl⟩
    · rw [hf, hr'] at hres
      cases hres
  · rcases operate_cases .builtin ctx op (m.renumbered ν) with
      ⟨g, hg, _⟩ | ⟨ov', _, args', rest', hr', hvis', hfit', hop'⟩
    · rw [hr, hg] at hres
      cases hres
    · obtain rfl : ov = ov' := by
        rw [hr, hr'] at hres
        exact Except.ok.inj hres
      -- Both sides take equally many values.
      have hsplit : (args.map (Value.renumbered ν)).reverse ++ rest.map (Value.renumbered ν)
          = args'.reverse ++ rest' := by
        rw [← hvis', ← List.map_reverse, ← List.map_append, ← hvis]
        rfl
      have hlength : (args.map (Value.renumbered ν)).reverse.length = args'.reverse.length := by
        rw [List.length_reverse, List.length_reverse, List.length_map, ← hfit.length_eq,
          hfit'.length_eq]
      obtain ⟨hargs, rfl⟩ := List.append_inj hsplit hlength
      obtain rfl := List.reverse_injective hargs
      have hfollows : Follows ν id (ov.action ctx args)
          (ov.action ctx (args.map (Value.renumbered ν))) := by
        obtain ⟨a, ha, _, hsig, hact⟩ := OperatorTable.exists_action_of_mem_builtin hov
        rw [hsig] at hfit
        rw [hact]
        rcases List.mem_append.mp ha with ha | ha
        · exact OperatorTable.plain_follows ctx ha args hfit
        · exact Control.follows hc ha args hfit
      rw [hop, hop']
      exact hfollows (m.withVisible rest)

/-! ### Assignment -/

/-- Binding names one by one follows with the values under other numbers. -/
theorem bindAll_follows (names : List Bytes) (vs : List Value) :
    Follows ν id (bindAll (names.zip vs)) (bindAll (names.zip (vs.map (Value.renumbered ν)))) := by
  induction names generalizing vs with
  | nil => exact .pure ()
  | cons name names ih =>
    cases vs with
    | nil => exact .pure ()
    | cons v vs => exact (Follows.bindName name v).bind fun _ => ih vs

/-- Targets under other numbers are the same names, or are refused at the same target. -/
theorem targetNames_renumbered (p : Program) :
    targetNames (Program.renumbered ν p) = (targetNames p).mapError (Symbol.renumbered ν) := by
  induction p with
  | nil => rfl
  | cons s p ih =>
    cases s with
    | name a _ =>
      show targetNames (.name a _ :: Program.renumbered ν p) = _
      rw [targetNames, targetNames, ih]
      cases targetNames p <;> rfl
    | _ => rfl

/-- Assigning elements one by one follows with the value under other numbers. -/
theorem assignEach_follows (targets : Program) (v : Value) :
    Follows ν id (assignEach targets v)
      (assignEach (Program.renumbered ν targets) (v.renumbered ν)) := by
  unfold assignEach
  rw [targetNames_renumbered]
  cases targetNames targets with
  | error t =>
    simp only [Except.mapError, Symbol.text_recast]
    exact .throw _
  | ok names =>
    simp only [Except.mapError, Operand.accepts, Value.kindNames, List.map_cons, List.map_nil,
      Value.kind_recast, Value.elements_recast, List.length_map]
    split
    · exact .throw _
    · split
      · exact .throw _
      · exact bindAll_follows names v.elements

/-- Binding a target follows with the target and the value under other numbers. -/
theorem bindTarget_follows (target : Symbol) (v : Value) :
    Follows ν id (Simulation.bindTarget target v)
      (Simulation.bindTarget (target.renumbered ν) (v.renumbered ν)) := by
  have hbad : Follows ν id (Eval.fail (.badTarget target.text) : Eval Unit)
      (Eval.fail (.badTarget (target.renumbered ν).text)) := by
    rw [Symbol.text_recast]
    exact .throw _
  cases target with
  | name a _ => exact .bindName a v
  | literal u _ =>
    cases u with
    | block targets =>
      rw [Symbol.renumbered, Symbol.recast, Value.recast_block]
      exact assignEach_follows targets v
    | _ => exact hbad
  | _ => exact hbad

/-- An assignment follows with its target under other numbers. -/
theorem assign_follows (target : Symbol) :
    Follows ν id (assign target) (assign (target.renumbered ν)) := by
  intro m
  have hvisible : (m.renumbered ν).stack.visible = m.stack.visible.map (Value.renumbered ν) := rfl
  cases hm : m.stack.visible with
  | nil =>
    rw [hm, List.map_nil] at hvisible
    rw [Simulation.assign_of_nil target hm, Simulation.assign_of_nil _ hvisible]
    exact Follows.throw _ m
  | cons v vs =>
    rw [hm, List.map_cons] at hvisible
    rw [Simulation.assign_of_cons target hm, Simulation.assign_of_cons _ hvisible]
    exact bindTarget_follows target v m

/-! ### Symbols -/

variable (hc : ctx.Follows ν)

include hc

/-- A group follows with its symbols under other numbers. -/
theorem group_follows (kind : Group) (body : Program) :
    Follows ν id (group ctx kind body) (group ctx kind (Program.renumbered ν body)) := by
  cases kind with
  | tuple =>
    refine (hc.collect _ body).bind fun vs => ?_
    have hpush := Follows.push (ν := ν) (.tuple vs)
    rwa [Value.renumbered, Value.recast_tuple] at hpush
  | _ => exact (hc.collect _ body).bind fun vs => .pushList vs

/-- One symbol other than the sign of assignment. -/
theorem step_follows (s : Symbol) :
    Follows ν id (step .builtin ctx s) (step .builtin ctx (s.renumbered ν)) := by
  cases s with
  | literal v _ => exact .push v
  | name a _ => exact (Follows.lookup a).bind fun v => .push v
  | operator op _ => exact operate_follows hc op
  | group kind body _ =>
    rw [Symbol.renumbered, Symbol.recast, Symbol.recastAll_eq]
    exact group_follows hc kind body
  | blank _ => exact .throw _

omit hc in
/-- What is reported for a symbol does not depend on numbers. -/
theorem annotate_renumbered (s : Symbol) : annotate (s.renumbered ν) = annotate s := by
  funext f
  cases s <;> rfl

omit hc in
/-- Whether a symbol is a sign of assignment does not depend on numbers. -/
theorem isAssign_renumbered (s : Symbol) : isAssign (s.renumbered ν) = isAssign s := by
  cases s <;> rfl

/-- **The symbols of a program**, one after the other, follow. -/
theorem steps_follows : ∀ p : Program,
    Follows ν id (steps .builtin ctx p) (steps .builtin ctx (Program.renumbered ν p))
  | [] => .pure ()
  | [s] => by
    rw [Program.renumbered, List.map_cons, steps.eq_def, steps.eq_def]
    simp only [isAssign_renumbered, annotate_renumbered]
    split
    · exact .mapIssue _ (.throw _)
    · exact (Follows.mapIssue _ (step_follows hc s)).bind fun _ => .pure ()
  | s :: target :: p => by
    rw [Program.renumbered, List.map_cons, steps.eq_def, steps.eq_def]
    simp only [isAssign_renumbered, annotate_renumbered]
    split
    · exact (Follows.mapIssue _ (assign_follows target)).bind fun _ => steps_follows p
    · exact (Follows.mapIssue _ (step_follows hc s)).bind fun _ => steps_follows (target :: p)

omit hc in
/-- **Whole programs** follow, if those that are read from text have no lists that get other
    numbers. -/
theorem run_follows {parse : Parser} (maxDepth rounds : Nat)
    (hparse : ∀ source p, parse source = .ok p → Program.renumbered ν p = p) :
    ∀ levels p, Follows ν id ((Evaluator.builtin parse maxDepth rounds).run levels p)
      ((Evaluator.builtin parse maxDepth rounds).run levels (Program.renumbered ν p))
  | 0, _ => .throw _
  | levels + 1, p =>
    .nested maxDepth (steps_follows ⟨run_follows maxDepth rounds hparse levels, hparse⟩ p)

omit hc in
/-- The context of a program follows if the programs read from text have no renumbered lists. -/
theorem context_follows {parse : Parser} (maxDepth rounds levels : Nat)
    (hparse : ∀ source p, parse source = .ok p → Program.renumbered ν p = p) :
    ((Evaluator.builtin parse maxDepth rounds).context levels).Follows ν :=
  ⟨run_follows maxDepth rounds hparse levels, hparse⟩

end Evaluator

end StackLang
