import StackLang.Proofs.Renumbering.Settled

namespace StackLang

/-!
# Loops that end

The condition of a loop is evaluated behind a boundary and in a scope of its own.  Whatever it does,
nothing is left of it, and evaluated once more it gives the same answer.

* `Control.exists_last_condition` — a loop that ends has last evaluated its condition, in a machine
  that has what all rounds preserve, and found it false;
* `Evaluator.while_idempotent` — so the condition is false at the end, and the loop, run once more,
  changes nothing.
-/

namespace Control

variable {cond : Eval Value} {body : Eval Unit}

/-- The rounds of a loop: none where the condition is false, or one and then the others. -/
theorem loopWhile_succ (rounds : Nat) {m k : Machine} {v : Value} (hc : cond m = .ok v k) :
    loopWhile cond body (rounds + 1) m =
      if v.truthy then (do body; loopWhile cond body rounds) k else .ok () k := by
  show EStateM.bind cond (fun v => if v.truthy then (do body; loopWhile cond body rounds)
    else pure ()) m = _
  simp only [EStateM.bind, hc]
  split <;> rfl

/-- A loop that ends has last found its condition false, in a machine with every property that the
    condition and the body preserve. -/
theorem exists_last_condition {P : Machine → Prop}
    (hcond : ∀ m v k, P m → cond m = .ok v k → P k) (hbody : ∀ m k, P m → body m = .ok () k → P k)
    (rounds : Nat) {m s : Machine} (hm : P m) (h : loopWhile cond body rounds m = .ok () s) :
    ∃ t v, P t ∧ cond t = .ok v s ∧ v.truthy = false := by
  induction rounds generalizing m with
  | zero => exact absurd h nofun
  | succ rounds ih =>
    obtain ⟨v, k, hc, hround⟩ := Evaluator.exists_of_bind_ok h
    rw [loopWhile_succ rounds hc] at h
    -- The condition is false at last, or the loop goes on in a machine that has the property again.
    cases hv : v.truthy with
    | false =>
      rw [if_neg (by simp [hv])] at h
      injection h with _ hk
      exact ⟨m, v, hm, hk ▸ hc, hv⟩
    | true =>
      rw [if_pos hv] at h
      obtain ⟨_, l, hb, hrest⟩ := Evaluator.exists_of_bind_ok h
      exact ih (hbody k l (hcond m v k hm hc) hb) hrest

end Control

namespace Evaluator

/-- **A loop that ends has made its condition false, and is idempotent.**  Let `while` end
    successfully in a machine, on a state in which all lists there are have been made.  Then the
    condition, evaluated once more, leaves exactly one value, which counts as false; and the same
    `while`, once more, ends successfully and leaves the stack and all bindings as they are. -/
theorem while_idempotent (parse : Parser) (maxDepth rounds levels : Nat) {m : Machine}
    (hcoherent : m.Coherent) (hparse : parse.Older m.nextList) (cond body : Program)
    (below : List Value) :
    let ctx := (Evaluator.builtin parse maxDepth rounds).context levels
    let loop := operate .builtin ctx (utf8 "while")
    (m.withVisible (.block body :: .block cond :: below)).Settled →
    ∀ s, loop (m.withVisible (.block body :: .block cond :: below)) = .ok () s →
      ∃ v k, ctx.single (utf8 "while condition") (utf8 "while") cond [] s = .ok v k ∧
        v.truthy = false ∧
        loop (s.withVisible (.block body :: .block cond :: s.stack.visible)) = .ok () k ∧
        k.stack = s.stack ∧ k.scopes = s.scopes ∧ k.frames = s.frames ∧ k.depth = s.depth := by
  intro ctx loop hsettled s hs
  obtain ⟨hbody, hsettled⟩ := Machine.settled_cons hsettled
  obtain ⟨hcond, hsettled⟩ := Machine.settled_cons hsettled
  have hquiet := Context.single_quiet maxDepth rounds levels hparse (utf8 "while condition")
    (utf8 "while") hcond.block fun v (hv : v ∈ []) => absurd hv List.not_mem_nil
  have hrun := run_uniform maxDepth rounds levels hparse hbody.block
  have hloop : Control.loopWhile (ctx.single (utf8 "while condition") (utf8 "while") cond [])
      (ctx.run body) rounds (m.withVisible below) = .ok () s := hs
  -- All rounds begin in machines in which all lists there are have been made.
  have hlast : ∃ t v, (t.Coherent ∧ t.Settled ∧ m.nextList ≤ t.nextList) ∧
      ctx.single (utf8 "while condition") (utf8 "while") cond [] t = .ok v s ∧
      v.truthy = false := by
    refine Control.exists_last_condition (fun t v k ht hk => ?_) (fun t k ht hk => ?_) rounds
      (m := m.withVisible below) ⟨hcoherent, hsettled, Nat.le_refl _⟩ hloop
    · obtain ⟨frames, gap, rfl⟩ := hquiet.ahead ht.1 hk
      have hend := hquiet.uniform.settled ht.2.1 ht.2.2
      rw [hk] at hend
      exact ⟨ht.1, hend, Nat.le_trans ht.2.2 (Nat.le_add_right ..)⟩
    · have hwithin : t.Within (Outcome.machine (ctx.run body t)) := run_within ht.1 levels body
      have hend : (Outcome.machine (ctx.run body t)).Settled := hrun.settled ht.2.1 ht.2.2
      rw [hk] at hwithin hend
      exact ⟨hwithin.coherent ht.1, hend, Nat.le_trans ht.2.2 (hrun.le_of_ok hk)⟩
  obtain ⟨t, v, ⟨htcoherent, htsettled, hle⟩, hv, hfalse⟩ := hlast
  -- The end differs from the start of the last round in the numbers given out only.
  obtain ⟨frames, gap, rfl⟩ := hquiet.ahead htcoherent hv
  obtain ⟨frames', hagain⟩ := (hquiet.again htcoherent htsettled hle frames gap).1 v _ hv
  have hfalse' : (v.renumbered (.later t.nextList gap)).truthy = false := by
    rwa [Value.truthy_recast]
  refine ⟨_, _, hagain, hfalse', ?_, rfl, rfl, rfl, rfl⟩
  cases rounds with
  | zero => exact absurd hloop nofun
  | succ rounds =>
    refine (Control.loopWhile_succ rounds hagain).trans (if_neg ?_)
    rw [hfalse']
    exact Bool.false_ne_true

/-- The memory in which `n` is bound to `1`. -/
def oneRound : Memory := ⟨Table.empty.bind (utf8 "n") (.int 1), 0⟩

/-- The first element of a new list of `n`. -/
def firstOfList : Program :=
  [.group .list [.name (utf8 "n") .none] .none, .literal (.int 1) .none,
    .operator (utf8 "$") .none]

/-- Binds `n` to `0`. -/
def bindZero : Program :=
  [.literal (.int 0) .none, .operator (utf8 ":") .none, .name (utf8 "n") .none,
    .operator (utf8 ",") .none]

/-- A loop that runs for one round leaves its condition false, and then nothing is left to be
    done. -/
theorem while_idempotent_once :
    let loop := operate .builtin ((Evaluator.builtin parser 5 5).context 5) (utf8 "while")
    let m := (start oneRound []).withVisible [.block bindZero, .block firstOfList]
    ∃ s, m.Settled ∧ loop m = .ok () s ∧
      ∃ k, loop (s.withVisible (.block bindZero :: .block firstOfList :: s.stack.visible))
          = .ok () k ∧
        k.stack = s.stack ∧ k.scopes = s.scopes := by
  intro loop m
  have holder : ∀ v ∈ [Value.block firstOfList, .block bindZero], v.Older oneRound.lists := by
    simp only [List.mem_cons, List.not_mem_nil, or_false, forall_eq_or_imp, forall_eq]
    exact ⟨fun _ _ => rfl, fun _ _ => rfl⟩
  have hsettled : m.Settled := Machine.settled_start (fun _ _ => rfl) holder
  obtain ⟨_, s, hs⟩ := Outcome.exists_of_isOk (o := loop m) (by decide +kernel)
  obtain ⟨_, k, -, -, hk, hstack, hscopes, -⟩ := while_idempotent parser 5 5 5
    (m := start oneRound []) ⟨_, _, rfl, rfl⟩ (parser_older _) firstOfList bindZero [] hsettled s
    hs
  exact ⟨s, hsettled, hs, k, hk, hstack, hscopes⟩

end Evaluator

end StackLang
