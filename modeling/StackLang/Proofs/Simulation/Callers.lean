import StackLang.Proofs.Simulation.Exact

namespace StackLang

/-!
# Evaluations for different callers

Two calls of one program are compared that find the same scopes and the same visible values,
but may have been made from different frames, above different protected values.

* `Machine.Agree` — machines that differ at most in their stacks and frames;
* `Callers` — the two machines in which the calls begin;
* `Callers.Same` — the machines met during the two calls: each is within its own call, and
  they differ in nothing that the calls can see;
* `Simulation.callers` — all steps of evaluations keep the two calls together;
* `Evaluator.run_same` — and so do whole programs.

For one machine on both sides, this says what a call leaves alone.
-/

/-- Machines at one depth that differ at most in their stacks and frames: they have the same
    scopes, and the same one is active. -/
structure Machine.Agree (depth : Nat) (m n : Machine) : Prop where
  first_coherent : m.Coherent
  second_coherent : n.Coherent
  first_depth : m.depth = depth
  second_depth : n.depth = depth
  active_eq : m.active = n.active
  scopes : m.scopes = n.scopes
  nextList : m.nextList = n.nextList

/-- The machines in which two calls begin, at one depth. -/
structure Callers (depth : Nat) where
  first : Machine
  second : Machine
  first_coherent : first.Coherent
  second_coherent : second.Coherent
  first_depth : first.depth = depth
  second_depth : second.depth = depth
  active_eq : first.active = second.active

namespace Callers

variable {d : Nat}

/-- Machines that are met at the same time during the two calls. -/
structure Same (w : Callers d) (m n : Machine) : Prop where
  first : w.first.Within m
  second : w.second.Within n
  scopes : m.scopes = n.scopes
  visible : m.stack.visible = n.stack.visible
  nextList : m.nextList = n.nextList
  /-- Both calls have made the same number of frames. -/
  nextFrame : m.nextFrame + w.second.nextFrame = n.nextFrame + w.first.nextFrame

/-- The callers of one call. -/
def one (m : Machine) (h : m.Coherent) : Callers m.depth := ⟨m, m, h, h, rfl, rfl, rfl⟩

/-- A machine is met at the same time as itself in calls that begin in it. -/
theorem same_one (m : Machine) (h : m.Coherent) : (one m h).Same m m :=
  ⟨.refl m, .refl m, rfl, rfl, rfl, rfl⟩

/-! ### Invocations -/

/-- The callers of invocations in the active scopes. -/
def calling {m n : Machine} (h : Machine.Agree d m n) (name : Bytes) : Callers d where
  first := m.called name m.active
  second := n.called name n.active
  first_coherent := m.coherent_called ..
  second_coherent := n.coherent_called ..
  first_depth := h.first_depth
  second_depth := h.second_depth
  active_eq := h.active_eq

/-- The callers of invocations in new scopes. -/
def callingIn {m n : Machine} (h : Machine.Agree d m n) (name scopeName : Bytes) : Callers d where
  first := m.callee name scopeName
  second := n.callee name scopeName
  first_coherent := Machine.coherent_called ..
  second_coherent := Machine.coherent_called ..
  first_depth := h.first_depth
  second_depth := h.second_depth
  active_eq := congrArg Scopes.size h.scopes

/-- Invocations in the active scope begin in machines that are met at the same time. -/
theorem calling_same {m n : Machine} (h : Machine.Agree d m n) (name : Bytes) :
    (calling h name).Same (m.called name m.active) (n.called name n.active) :=
  ⟨.refl _, .refl _, h.scopes, rfl, h.nextList, Nat.add_comm ..⟩

theorem callingIn_same {m n : Machine} (h : Machine.Agree d m n) (name scopeName : Bytes) :
    (callingIn h name scopeName).Same (m.callee name scopeName) (n.callee name scopeName) where
  first := .refl _
  second := .refl _
  scopes := by
    show m.scopes.add scopeName (some m.active) = n.scopes.add scopeName (some n.active)
    rw [h.scopes, h.active_eq]
  visible := rfl
  nextList := h.nextList
  nextFrame := Nat.add_comm ..

namespace Same

variable {w : Callers d} {m n : Machine}

/-- Machines met at the same time differ at most in their stacks and frames. -/
theorem agree (h : w.Same m n) : Machine.Agree d m n where
  first_coherent := h.first.coherent w.first_coherent
  second_coherent := h.second.coherent w.second_coherent
  first_depth := h.first.depth.trans w.first_depth
  second_depth := h.second.depth.trans w.second_depth
  active_eq := by rw [h.first.active_eq, h.second.active_eq, w.active_eq]
  scopes := h.scopes
  nextList := h.nextList

/-- The same values may be left visible in both machines. -/
theorem withVisible (vs : List Value) (h : w.Same m n) :
    w.Same (m.withVisible vs) (n.withVisible vs) where
  first := h.first.trans ⟨rfl, rfl, rfl, rfl, fun _ _ => rfl, rfl⟩
  second := h.second.trans ⟨rfl, rfl, rfl, rfl, fun _ _ => rfl, rfl⟩
  scopes := h.scopes
  visible := rfl
  nextList := h.nextList
  nextFrame := h.nextFrame

/-- The same list may be made in both machines. -/
theorem newList (h : w.Same m n) :
    w.Same { m with nextList := m.nextList + 1 } { n with nextList := n.nextList + 1 } where
  first := h.first.trans ⟨rfl, rfl, rfl, rfl, fun _ _ => rfl, rfl⟩
  second := h.second.trans ⟨rfl, rfl, rfl, rfl, fun _ _ => rfl, rfl⟩
  scopes := h.scopes
  visible := h.visible
  nextList := by rw [h.nextList]
  nextFrame := h.nextFrame

/-- The same name may be bound to the same value in both machines. -/
theorem bind (h : w.Same m n) (name : Bytes) (v : Value) :
    w.Same (m.bind m.active name v) (n.bind n.active name v) where
  first := h.first.bind name v
  second := h.second.bind name v
  scopes := by
    show m.scopes.bind m.active name v = n.scopes.bind n.active name v
    rw [h.scopes, h.agree.active_eq]
  visible := h.visible
  nextList := h.nextList
  nextFrame := h.nextFrame

/-- The same machines at the ends of calls that began in them are the same machines. -/
theorem eq_of_one {h : m.Coherent} {k l : Machine} (hkl : (one m h).Same k l) : k = l := by
  have hframes : k.frames = l.frames := hkl.first.frames.trans hkl.second.frames.symm
  have hhidden : k.stack.hidden = l.stack.hidden :=
    hkl.first.hidden.trans hkl.second.hidden.symm
  have hstack : k.stack = l.stack := Stack.ext_of_values hkl.visible hhidden
  have hnext : k.nextFrame = l.nextFrame := Nat.add_right_cancel hkl.nextFrame
  have hscopes := hkl.scopes
  have hlist := hkl.nextList
  have hdepth : k.depth = l.depth :=
    hkl.agree.first_depth.trans hkl.agree.second_depth.symm
  cases k
  cases l
  simp_all

/-- Behind invocations that have ended together, the calls go on together, if each is still
    within its own call and the scopes are the same. -/
theorem resumed (h : w.Same m n) {c : Callers d} {r q : Machine} (hr : c.Same r q)
    (hm : c.first.nextFrame = m.nextFrame + 1) (hn : c.second.nextFrame = n.nextFrame + 1)
    (hfirst : w.first.Within (m.resumed r)) (hsecond : w.second.Within (n.resumed q)) :
    w.Same (m.resumed r) (n.resumed q) where
  first := hfirst
  second := hsecond
  scopes := by
    show r.scopes.truncate m.scopes.size = q.scopes.truncate n.scopes.size
    rw [hr.scopes, h.scopes]
  visible := by
    show r.stack.visible ++ m.stack.visible = q.stack.visible ++ n.stack.visible
    rw [hr.visible, h.visible]
  nextList := hr.nextList
  nextFrame := by
    have hout := h.nextFrame
    have hin := hr.nextFrame
    show r.nextFrame + w.second.nextFrame = q.nextFrame + w.first.nextFrame
    omega

/-- Behind invocations in the active scopes, the calls go on together. -/
theorem resumed_calling (h : w.Same m n) {name : Bytes} {r q : Machine}
    (hr : (calling h.agree name).Same r q) : w.Same (m.resumed r) (n.resumed q) :=
  h.resumed hr rfl rfl (h.first.resumed_called hr.first) (h.second.resumed_called hr.second)

theorem resumed_callingIn (h : w.Same m n) {name scopeName : Bytes} {r q : Machine}
    (hr : (callingIn h.agree name scopeName).Same r q) : w.Same (m.resumed r) (n.resumed q) :=
  h.resumed hr rfl rfl (h.first.resumed_callee hr.first) (h.second.resumed_callee hr.second)

/-- The machines one level deeper. -/
def deeper (h : w.Same m n) : Callers (d + 1) where
  first := { m with depth := m.depth + 1 }
  second := { n with depth := n.depth + 1 }
  first_coherent := h.agree.first_coherent
  second_coherent := h.agree.second_coherent
  first_depth := congrArg (· + 1) h.agree.first_depth
  second_depth := congrArg (· + 1) h.agree.second_depth
  active_eq := h.agree.active_eq

/-- One level deeper, calls begin in machines that are met at the same time. -/
theorem deeper_same (h : w.Same m n) :
    h.deeper.Same { m with depth := m.depth + 1 } { n with depth := n.depth + 1 } :=
  ⟨.refl _, .refl _, h.scopes, h.visible, h.nextList, Nat.add_comm ..⟩

/-- Back from one level deeper, the calls go on together. -/
theorem risen (h : w.Same m n) {r q : Machine} (hr : h.deeper.Same r q) :
    w.Same { r with depth := r.depth - 1 } { q with depth := q.depth - 1 } where
  first := h.first.trans ⟨hr.first.frames, hr.first.hidden, congrArg (· - 1) hr.first.depth,
    hr.first.scopes_size, hr.first.scopes_get, hr.first.scopes_active⟩
  second := h.second.trans ⟨hr.second.frames, hr.second.hidden,
    congrArg (· - 1) hr.second.depth, hr.second.scopes_size, hr.second.scopes_get,
    hr.second.scopes_active⟩
  scopes := hr.scopes
  visible := hr.visible
  nextList := hr.nextList
  nextFrame := by
    have hout := h.nextFrame
    have hin : r.nextFrame + n.nextFrame = q.nextFrame + m.nextFrame := hr.nextFrame
    show r.nextFrame + w.second.nextFrame = q.nextFrame + w.first.nextFrame
    omega

end Same

/-! ### The simulation -/

/-- The comparison of two calls at some depth. -/
abbrev comparison (d : Nat) : Comparison := .exact (Callers d) Same

variable {α β : Type} {A : α → β → Prop} {w : Callers d}

/-- Calls that end alike end in the same machines. -/
theorem same_of_alike {r : Outcome α} {q : Outcome β} (h : (comparison d).Alike A w r q) :
    w.Same (Outcome.machine r) (Outcome.machine q) := by
  cases r with
  | ok a m =>
    cases q with
    | ok b n => exact h.2
    | error g n => exact h.elim
  | error g m =>
    cases q with
    | ok b n => exact h.elim
    | error f n => exact (h.resolve_left id).2

/-- What a step leaves alone that keeps a call together with itself. -/
theorem within_of_respects {B : α → α → Prop} {x : Eval α} {m : Machine} (h : m.Coherent)
    (hx : ∀ w, (comparison m.depth).Respects B w x x) : m.Within (Outcome.machine (x m)) :=
  (same_of_alike (hx (one m h) m m (same_one m h))).first

/-- Outcomes stay alike when their machines are changed and stay the same. -/
theorem alike_onMachine {e : Nat} {c : Callers e} {r : Outcome α} {q : Outcome β}
    {f g : Machine → Machine} (h : (comparison e).Alike A c r q)
    (hfg : ∀ m n, c.Same m n → w.Same (f m) (g n)) :
    (comparison d).Alike A w (Outcome.onMachine f r) (Outcome.onMachine g q) :=
  h.onMachine (fun _ hl => hl) (fun _ _ hk => hk) hfg

/-- Both calls find the same value for a name, as they have the same scopes and the same active
    one. -/
theorem lookup_respects (w : Callers d) (name : Bytes) :
    (comparison d).Respects Eq w (Eval.lookup name) (Eval.lookup name) := by
  intro m n h
  have heq : m.lookup m.active name = n.lookup n.active name := by
    unfold Machine.lookup
    rw [h.scopes, h.agree.active_eq]
  rw [Eval.lookup_eq h.agree.first_coherent, Eval.lookup_eq h.agree.second_coherent, heq]
  cases n.lookup n.active name with
  | ok v => exact ⟨rfl, h⟩
  | error f => exact Or.inr ⟨rfl, h⟩

/-- Both calls bind a name in the same scope. -/
theorem bind_respects (w : Callers d) (name : Bytes) (v : Value) :
    (comparison d).Respects Eq w (Eval.bind name v) (Eval.bind name v) := by
  intro m n h
  rw [Eval.bind_eq h.agree.first_coherent, Eval.bind_eq h.agree.second_coherent]
  exact ⟨rfl, h.bind name v⟩

/-- A step in a call of its own corresponds if it does so for all callers at this depth. -/
theorem bracketed_respects {x : Eval α} {y : Eval β} (w : Callers d) (name : Bytes)
    (hx : ∀ w, (comparison d).Respects A w x y) :
    (comparison d).Respects A w (Eval.bracketed name x) (Eval.bracketed name y) := by
  intro m n h
  have hin := hx (calling h.agree name) _ _ (calling_same h.agree name)
  have hsame := same_of_alike hin
  rw [Eval.bracketed_eq h.agree.first_coherent name x hsame.first,
    Eval.bracketed_eq h.agree.second_coherent name y hsame.second]
  exact alike_onMachine hin fun _ _ => h.resumed_calling

/-- A step in a call with a scope of its own corresponds if it does so for all callers at this
    depth. -/
theorem bracketedIn_respects {x : Eval α} {y : Eval β} (w : Callers d) (name scopeName : Bytes)
    (hx : ∀ w, (comparison d).Respects A w x y) :
    (comparison d).Respects A w (Eval.bracketedIn name scopeName x)
      (Eval.bracketedIn name scopeName y) := by
  intro m n h
  have hin := hx (callingIn h.agree name scopeName) _ _
    (callingIn_same h.agree name scopeName)
  have hsame := same_of_alike hin
  rw [Eval.bracketedIn_eq h.agree.first_coherent name scopeName x hsame.first,
    Eval.bracketedIn_eq h.agree.second_coherent name scopeName y hsame.second]
  exact alike_onMachine hin fun _ _ => h.resumed_callingIn

end Callers

/-- **Evaluations for different callers**, at some depth. -/
def Simulation.callers (d : Nat) : Simulation :=
  .exact (Callers d) Callers.Same
    (fun h => h.visible)
    (fun vs h => h.withVisible vs)
    (fun h => ⟨h.nextList, h.newList⟩)
    Callers.lookup_respects
    Callers.bind_respects
    Callers.bracketed_respects
    Callers.bracketedIn_respects

namespace Callers

variable {d : Nat}

/-- The nesting of calls is limited on both sides alike, one level deeper at a time. -/
theorem nests (limit : Nat) : (Simulation.callers d).Nests (Simulation.callers (d + 1)) limit where
  symbol h := h
  nested := by
    intro x y hx w m n h
    rw [Eval.nested_eq, Eval.nested_eq, h.agree.first_depth, h.agree.second_depth]
    by_cases hdeep : limit ≤ d
    · rw [if_pos hdeep, if_pos hdeep]
      exact Or.inr ⟨rfl, h⟩
    · rw [if_neg hdeep, if_neg hdeep]
      have hin := hx h.deeper _ _ h.deeper_same
      rw [h.agree.first_depth, h.agree.second_depth] at hin
      exact alike_onMachine hin fun _ _ => h.risen

/-- Programs correspond to themselves. -/
theorem program_refl (p : Program) : (Simulation.callers d).program p p :=
  List.forall₂_same.mpr fun _ _ => rfl

/-- The same source text is parsed to one program on both sides. -/
theorem parses (parse : Parser) : (Simulation.callers d).Parses parse := by
  intro source
  cases parse source with
  | ok p => exact Or.inl ⟨p, rfl, program_refl p⟩
  | error i => exact Or.inr ⟨i, rfl, rfl⟩

/-- The built-in operators see only what both callers have in common, so that they are respected. -/
theorem keepsTable : (Simulation.callers d).KeepsTable .builtin :=
  Simulation.keepsTable_builtin _ rfl

end Callers

/-- The evaluator with the operators of the language, for some parser and limits. -/
def Evaluator.builtin (parse : Parser) (maxDepth rounds : Nat) : Evaluator :=
  ⟨.builtin, parse, maxDepth, rounds⟩

/-- **Two calls of one program** that begin in the same machines, but for what belongs to
    the callers, end alike. -/
theorem Evaluator.run_same (parse : Parser) (maxDepth rounds levels : Nat) (p : Program)
    {d : Nat} (w : Callers d) :
    (Callers.comparison d).Respects Eq w ((Evaluator.builtin parse maxDepth rounds).run levels p)
      ((Evaluator.builtin parse maxDepth rounds).run levels p) :=
  Simulation.run_respects (Evaluator.builtin parse maxDepth rounds) Simulation.callers
    (fun _ => rfl) (fun _ => Callers.keepsTable) (fun _ => Callers.parses parse)
    (fun _ => Callers.nests maxDepth) levels d w p p (Callers.program_refl p)

/-- The context of a program is the same for both callers. -/
theorem Evaluator.context_same (parse : Parser) (maxDepth rounds levels : Nat) {d : Nat} :
    (Simulation.callers d).Contexts ((Evaluator.builtin parse maxDepth rounds).context levels)
      ((Evaluator.builtin parse maxDepth rounds).context levels) := by
  refine Simulation.contexts_refl (Callers.parses parse) fun w p q hpq => ?_
  obtain rfl : p = q := List.forall₂_eq_eq_eq ▸ hpq
  exact run_same parse maxDepth rounds levels p w

/-! ### Code behind a boundary -/

namespace Context

variable (parse : Parser) (maxDepth rounds levels : Nat) {d : Nat} (w : Callers d)

/-- What an invocation does behind its boundary. -/
theorem invoke_inner (body : Program) (args : List Value) :
    (Callers.comparison d).Respects Eq w
      (do Eval.pushAll args; ((Evaluator.builtin parse maxDepth rounds).context levels).run body)
      (do Eval.pushAll args; ((Evaluator.builtin parse maxDepth rounds).context levels).run body) :=
  ((Simulation.callers d).pushAll_respects (List.forall₂_same.mpr fun _ _ => rfl)).bind
    fun _ _ _ => Evaluator.run_same parse maxDepth rounds levels body w

/-- What the evaluation of a condition does behind its boundary. -/
theorem condition_inner (what : Bytes) (body : Program) :
    (Callers.comparison d).Respects Eq w
      (do ((Evaluator.builtin parse maxDepth rounds).context levels).run body; oneValue what)
      (do ((Evaluator.builtin parse maxDepth rounds).context levels).run body; oneValue what) :=
  Comparison.Respects.bind (Evaluator.run_same parse maxDepth rounds levels body w)
    fun _ _ _ => (Simulation.callers d).oneValue_respects what

/-- What is done inside a block that is to leave one value is the same for both callers. -/
theorem single_inner (what : Bytes) (body : Program) (args : List Value) :
    (Callers.comparison d).Respects Eq w
      (do
        Eval.pushAll args
        ((Evaluator.builtin parse maxDepth rounds).context levels).run body
        oneValue what)
      (do
        Eval.pushAll args
        ((Evaluator.builtin parse maxDepth rounds).context levels).run body
        oneValue what) :=
  ((Simulation.callers d).pushAll_respects (List.forall₂_same.mpr fun _ _ => rfl)).bind
    fun _ _ _ => condition_inner parse maxDepth rounds levels w what body

/-- What the evaluation of a group does behind its boundary. -/
theorem collect_inner (body : Program) :
    (Callers.comparison d).Respects Eq w
      (do ((Evaluator.builtin parse maxDepth rounds).context levels).run body; Eval.takeAll)
      (do ((Evaluator.builtin parse maxDepth rounds).context levels).run body; Eval.takeAll) := by
  refine Comparison.Respects.bind (Evaluator.run_same parse maxDepth rounds levels body w)
    fun _ _ _ => Comparison.Respects.mono (Simulation.callers d).takeAll_respects ?_
  intro vs us h
  exact List.forall₂_eq_eq_eq ▸ h

end Context

end StackLang
