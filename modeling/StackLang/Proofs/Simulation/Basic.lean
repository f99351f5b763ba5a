import StackLang.Proofs.Machine.Invocation
import StackLang.Proofs.Operator.Resolution

namespace StackLang

/-!
# Comparing two evaluations

Two evaluations are compared step by step: what they have on their stacks, the machines
they are in, and how they end.

* `Comparison` — which values, symbols, halts and machines are to correspond.  Machines
  correspond in a *world*, which stands for what a call leaves alone: each call of a block
  has a world of its own;
* `Comparison.Alike` — outcomes that correspond;
* `Comparison.Respects` — steps that lead from machines that correspond to outcomes that
  correspond;
* `Simulation` — a comparison that is kept by the steps on which all others are built:
  moving values, making lists, looking up and binding names, and invocations.

A property of all states of one evaluation is a comparison of the evaluation with itself.
-/

/-- The machine with other visible values. -/
def Machine.withVisible (m : Machine) (vs : List Value) : Machine :=
  { m with stack := { m.stack with visible := vs } }

/-- Changes the failure in a halt. -/
def Halt.map (g : Failure → Failure) : Halt → Halt
  | .issue i => .issue (i.map g)
  | h => h

/-- Changing the failure of a step is changing the halt in its outcome. -/
theorem Eval.mapIssue_eq {α : Type} (g : Failure → Failure) (x : Eval α) (m : Machine) :
    mapIssue (Issue.map g) x m = Outcome.mapHalt (Halt.map g) (x m) := by
  unfold mapIssue
  cases x m with
  | ok a m => rfl
  | error h m => cases h <;> rfl

/-- The halt of a failure that has no position yet. -/
def Halt.ofCause (c : Cause) (op : Bytes) : Halt := .issue (.failure { cause := c, op := op })

/-! ### Comparisons -/

/-- What is to correspond in two evaluations. -/
structure Comparison where
  /-- What a call leaves alone. -/
  World : Type
  value : Value → Value → Prop
  symbol : Symbol → Symbol → Prop
  halt : Halt → Halt → Prop
  /-- The halts of the first evaluation after which nothing is compared any more. -/
  lost : Halt → Prop
  machine : World → Machine → Machine → Prop

namespace Comparison

variable (c : Comparison) {α β γ δ : Type}

/-- Programs correspond symbol by symbol. -/
abbrev program : Program → Program → Prop := List.Forall₂ c.symbol

/-- Sequences of values correspond value by value. -/
abbrev values : List Value → List Value → Prop := List.Forall₂ c.value

/-- Outcomes correspond: both evaluations end in the same way, unless the first one is
    lost. -/
def Alike (A : α → β → Prop) (w : c.World) : Outcome α → Outcome β → Prop
  | .ok a m, .ok b n => A a b ∧ c.machine w m n
  | .error h m, .error g n => c.lost h ∨ c.halt h g ∧ c.machine w m n
  | .error h _, .ok _ _ => c.lost h
  | .ok _ _, .error _ _ => False

/-- Two steps lead from machines that correspond to outcomes that correspond. -/
def Respects (A : α → β → Prop) (w : c.World) (x : Eval α) (y : Eval β) : Prop :=
  ∀ m n, c.machine w m n → c.Alike A w (x m) (y n)

variable {c} {A : α → β → Prop} {B : γ → δ → Prop} {w : c.World}

/-- Results that correspond may be returned. -/
theorem Respects.pure {a : α} {b : β} (h : A a b) :
    c.Respects A w (Pure.pure a) (Pure.pure b) :=
  fun _ _ hm => ⟨h, hm⟩

/-- **Sequencing.** Steps that correspond, one behind the other, correspond. -/
theorem Respects.bind {x : Eval α} {y : Eval β} {f : α → Eval γ} {g : β → Eval δ}
    (hx : c.Respects A w x y) (hf : ∀ a b, A a b → c.Respects B w (f a) (g b)) :
    c.Respects B w (x >>= f) (y >>= g) := by
  intro m n hm
  have h := hx m n hm
  show c.Alike B w (EStateM.bind x f m) (EStateM.bind y g n)
  unfold EStateM.bind
  cases hxm : x m with
  | ok a m' =>
    cases hyn : y n with
    | ok b n' =>
      rw [hxm, hyn] at h
      exact hf a b h.1 m' n' h.2
    | error g' n' => rw [hxm, hyn] at h; exact h.elim
  | error h' m' =>
    cases hyn : y n with
    | ok b n' =>
      rw [hxm, hyn] at h
      -- The first evaluation is lost, and so is all that follows.
      show c.Alike B w (.error h' m') (g b n')
      cases g b n' with
      | ok d k => exact h
      | error k l => exact Or.inl h
    | error g' n' => rw [hxm, hyn] at h; exact h

/-- Halts that correspond may be raised. -/
theorem Respects.throw {h g : Halt} (hg : c.halt h g) :
    c.Respects A w (MonadExcept.throw h) (MonadExcept.throw g) :=
  fun _ _ hm => Or.inr ⟨hg, hm⟩

/-- Where the first evaluation is lost, the second one may do anything. -/
theorem Respects.lost {h : Halt} (hl : c.lost h) (y : Eval β) :
    c.Respects A w (MonadExcept.throw h) y := by
  intro m n _
  show c.Alike A w (.error h m) (y n)
  cases y n with
  | ok b k => exact hl
  | error g k => exact Or.inl hl

/-- Results may be compared in a weaker way. -/
theorem Respects.mono {A' : α → β → Prop} {x : Eval α} {y : Eval β}
    (hx : c.Respects A w x y) (hA : ∀ a b, A a b → A' a b) : c.Respects A' w x y := by
  intro m n hm
  have h := hx m n hm
  cases hxm : x m <;> cases hyn : y n <;> rw [hxm, hyn] at h
  · exact ⟨hA _ _ h.1, h.2⟩
  · exact h
  · exact h
  · exact h

/-- Changing the failures of both steps keeps them alike if it keeps the halts alike. -/
theorem Respects.mapIssue {x : Eval α} {y : Eval β} {f g : Failure → Failure}
    (hx : c.Respects A w x y) (hl : ∀ h, c.lost h → c.lost (h.map f))
    (hh : ∀ h k, c.halt h k → c.halt (h.map f) (k.map g)) :
    c.Respects A w (Eval.mapIssue (Issue.map f) x) (Eval.mapIssue (Issue.map g) y) := by
  intro m n hm
  have h := hx m n hm
  rw [Eval.mapIssue_eq, Eval.mapIssue_eq]
  cases hxm : x m with
  | ok a m' =>
    cases hyn : y n with
    | ok b n' => rw [hxm, hyn] at h; exact h
    | error g' n' => rw [hxm, hyn] at h; exact h.elim
  | error h' m' =>
    cases hyn : y n with
    | ok b n' => rw [hxm, hyn] at h; exact hl h' h
    | error g' n' =>
      rw [hxm, hyn] at h
      exact h.imp (hl h') (fun hk => ⟨hh h' g' hk.1, hk.2⟩)

/-- Steps that are followed by others however they end, if no evaluation is ever lost. -/
theorem Respects.ensuring (hlost : ∀ h, ¬ c.lost h) {x : Eval α} {y : Eval β}
    {after after' : Eval Unit} (hx : c.Respects A w x y) (hafter : c.Respects Eq w after after') :
    c.Respects A w (Eval.ensuring x after) (Eval.ensuring y after') := by
  intro m n hm
  have h := hx m n hm
  unfold Eval.ensuring
  cases hxm : x m with
  | ok a k =>
    cases hyn : y n with
    | ok b l =>
      rw [hxm, hyn] at h
      have hend := hafter k l h.2
      cases hk : after k <;> cases hl : after' l <;> rw [hk, hl] at hend <;> simp only [hk, hl]
      · exact ⟨h.1, hend.2⟩
      · exact hend
      · exact hend
      · exact hend
    | error g l => rw [hxm, hyn] at h; exact h.elim
  | error f k =>
    cases hyn : y n with
    | ok b l => rw [hxm, hyn] at h; exact absurd h (hlost f)
    | error g l =>
      rw [hxm, hyn] at h
      obtain ⟨hfg, hkl⟩ := h.resolve_left (hlost f)
      -- What comes after the halts decides, if it halts itself.
      have hend := hafter k l hkl
      cases hk : after k <;> cases hl : after' l <;> rw [hk, hl] at hend <;> simp only [hk, hl]
      · exact Or.inr ⟨hfg, hend.2⟩
      · exact hend.elim
      · exact absurd hend (hlost _)
      · exact hend

/-- Outcomes stay alike when their machines are changed and come to correspond in another
    comparison of the same halts. -/
theorem Alike.onMachine {c d : Comparison} {w : c.World} {u : d.World} {r : Outcome α}
    {q : Outcome β} {f g : Machine → Machine} (h : c.Alike A w r q)
    (hlost : ∀ h, c.lost h → d.lost h) (hhalt : ∀ h k, c.halt h k → d.halt h k)
    (hfg : ∀ m n, c.machine w m n → d.machine u (f m) (g n)) :
    d.Alike A u (Outcome.onMachine f r) (Outcome.onMachine g q) := by
  cases r with
  | ok a m =>
    cases q with
    | ok b n => exact ⟨h.1, hfg m n h.2⟩
    | error k n => exact h.elim
  | error k m =>
    cases q with
    | ok b n => exact hlost k h
    | error l n => exact h.imp (hlost k) fun hkl => ⟨hhalt k l hkl.1, hfg m n hkl.2⟩

end Comparison

/-! ### What operators without code do -/

/-- What an operator does that evaluates no code. -/
inductive Effect where
  /-- Pushes values, the last one becoming the topmost. -/
  | push (vs : List Value)
  /-- Pushes a new list. -/
  | pushList (elems : List Value)
  /-- Clears the visible stack. -/
  | clear
  /-- Fails. -/
  | fail (c : Cause)

namespace Effect

/-- The step of an effect. -/
def perform : Effect → Eval Unit
  | push vs => Eval.pushAll vs
  | pushList elems => Eval.pushList elems
  | clear => modify fun m => { m with stack := m.stack.clear }
  | fail c => Eval.fail c

/-- Effects correspond: they do the same with values or causes that correspond. -/
def Alike (c : Comparison) : Effect → Effect → Prop
  | push vs, push ws => c.values vs ws
  | pushList es, pushList fs => c.values es fs
  | clear, clear => True
  | fail a, fail b => c.halt (.ofCause a []) (.ofCause b [])
  | _, _ => False

end Effect

/-- An operator without code, applied to operands that correspond, has effects that
    correspond. -/
def Comparison.Plain (c : Comparison) (signature : List Operand) (action : Action) : Prop :=
  ∀ args brgs, c.values args brgs → Operand.Fit signature args →
    ∃ e f : Effect, (∀ ctx, action ctx args = e.perform) ∧ (∀ ctx, action ctx brgs = f.perform) ∧
      e.Alike c f

/-! ### Simulations -/

/-- Symbols correspond in shape: they are of one type, and their parts correspond. -/
def Comparison.Shape (c : Comparison) : Symbol → Symbol → Prop
  | .literal v _, .literal u _ => c.value v u
  | .name a _, .name b _ => a = b
  | .operator a _, .operator b _ => a = b
  | .group k p _, .group l q _ => k = l ∧ c.program p q
  | .blank _, .blank _ => True
  | _, _ => False

/-- A comparison that the elementary steps of evaluations keep. -/
structure Simulation extends Comparison where
  -- Values that correspond are told apart by no operator that evaluates code.
  kind : ∀ {v u}, value v u → v.kind = u.kind
  truthy : ∀ {v u}, value v u → v.truthy = u.truthy
  elements : ∀ {v u}, value v u → List.Forall₂ value v.elements u.elements
  int : ∀ {n u}, value (.int n) u → u = .int n
  str : ∀ {s u}, value (.str s) u → u = .str s
  block : ∀ {p u}, value (.block p) u → ∃ q, u = .block q ∧ List.Forall₂ symbol p q
  tuple : ∀ {es fs}, List.Forall₂ value es fs → value (.tuple es) (.tuple fs)
  plain : ∀ a ∈ OperatorTable.plainActions, toComparison.Plain a.2.1 a.2.2
  shape : ∀ {s t}, symbol s t → toComparison.Shape s t
  -- Failures correspond from where they arise to where they are reported.
  halt_ofCause : ∀ {a : Cause} op, a.Classed → halt (.ofCause a op) (.ofCause a op)
  halt_badTarget : ∀ {s t}, symbol s t →
    halt (.ofCause (.badTarget s.text) []) (.ofCause (.badTarget t.text) [])
  halt_unexpected : ∀ {s t}, symbol s t →
    halt (.ofCause (.unexpectedSymbol s.text) []) (.ofCause (.unexpectedSymbol t.text) [])
  halt_annotate : ∀ {s t h g}, symbol s t → halt h g →
    halt (h.map (Evaluator.annotate s)) (g.map (Evaluator.annotate t))
  halt_relocated : ∀ {h g}, halt h g → halt (h.map Failure.relocated) (g.map Failure.relocated)
  lost_annotate : ∀ {h} s, lost h → lost (h.map (Evaluator.annotate s))
  lost_relocated : ∀ {h}, lost h → lost (h.map Failure.relocated)
  -- Machines keep corresponding when their visible values are replaced, when a list is
  -- made, when a name is bound, and behind an invocation, whatever its world.
  visible : ∀ {w m n}, machine w m n → List.Forall₂ value m.stack.visible n.stack.visible
  withVisible : ∀ {w m n vs us}, machine w m n → List.Forall₂ value vs us →
    machine w (m.withVisible vs) (n.withVisible us)
  newList : ∀ {w m n es fs}, machine w m n → List.Forall₂ value es fs →
    value (.list m.nextList es) (.list n.nextList fs) ∧
      machine w { m with nextList := m.nextList + 1 } { n with nextList := n.nextList + 1 }
  lookup : ∀ w name, toComparison.Respects value w (Eval.lookup name) (Eval.lookup name)
  bind : ∀ w name {v u}, value v u →
    toComparison.Respects Eq w (Eval.bind name v) (Eval.bind name u)
  bracketed : ∀ {α β : Type} {A : α → β → Prop} {x y} w name,
    (∀ w, toComparison.Respects A w x y) →
      toComparison.Respects A w (Eval.bracketed name x) (Eval.bracketed name y)
  bracketedIn : ∀ {α β : Type} {A : α → β → Prop} {x y} w name scopeName,
    (∀ w, toComparison.Respects A w x y) →
      toComparison.Respects A w (Eval.bracketedIn name scopeName x)
        (Eval.bracketedIn name scopeName y)

end StackLang
