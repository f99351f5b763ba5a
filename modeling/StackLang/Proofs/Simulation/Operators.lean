import StackLang.Proofs.Simulation.Basic

namespace StackLang

/-!
# Operators respect simulations

Every operator of the language leads from machines that correspond to outcomes that
correspond, given that the evaluation of programs does.

* `Simulation.Contexts` — contexts that operators cannot tell apart;
* `Simulation.Kept` — an action that respects a simulation, whatever its operands;
* `Simulation.plain_kept` — the actions that evaluate no code;
* `Simulation.control_kept` — those that do, one lemma for each.
-/

namespace Simulation

variable (s : Simulation) {α β : Type} {A : α → β → Prop} {w : s.World}

/-! ### Values on the stack -/

/-- Values that correspond may be put on the stacks. -/
theorem pushAll_respects {vs us : List Value} (h : s.values vs us) :
    s.Respects Eq w (Eval.pushAll vs) (Eval.pushAll us) := by
  intro m n hm
  refine ⟨rfl, s.withVisible hm ?_⟩
  rw [List.reverseAux_eq, List.reverseAux_eq]
  exact List.rel_append (List.rel_reverse h) (s.visible hm)

/-- One pair of values that correspond may be put on the stacks. -/
theorem push_respects {v u : Value} (h : s.value v u) :
    s.Respects Eq w (Eval.push v) (Eval.push u) :=
  s.pushAll_respects (.cons h .nil)

/-- New lists of values that correspond may be put on the stacks; their identities then
    correspond. -/
theorem pushList_respects {es fs : List Value} (h : s.values es fs) :
    s.Respects Eq w (Eval.pushList es) (Eval.pushList fs) := by
  intro m n hm
  obtain ⟨hl, hm'⟩ := s.newList hm h
  exact ⟨rfl, s.withVisible hm' (.cons hl (s.visible hm))⟩

/-- Stacks that correspond may be emptied. -/
theorem clear_respects :
    s.Respects Eq w (modify fun m => { m with stack := m.stack.clear })
      (modify fun m => { m with stack := m.stack.clear }) :=
  fun _ _ hm => ⟨rfl, s.withVisible hm .nil⟩

/-- All that is taken off stacks that correspond is value by value in correspondence. -/
theorem takeAll_respects : s.Respects s.values w Eval.takeAll Eval.takeAll :=
  fun _ _ hm => ⟨List.rel_reverse (s.visible hm), s.withVisible hm .nil⟩

/-- A failure with a cause of one of the eight classes corresponds to itself. -/
theorem fail_respects {c : Cause} (hc : c.Classed) :
    s.Respects A w (Eval.fail c) (Eval.fail c) :=
  .throw (s.halt_ofCause [] hc)

/-- The topmost values of stacks that correspond correspond, and both stacks may lack one. -/
theorem pop_respects : s.Respects s.value w Eval.pop Eval.pop := by
  intro m n hm
  have hv := s.visible hm
  unfold Eval.pop Stack.pop
  cases hmv : m.stack.visible with
  | nil =>
    rw [hmv, List.forall₂_nil_left_iff] at hv
    rw [hv]
    exact Or.inr ⟨s.halt_ofCause [] nofun, hm⟩
  | cons v vs =>
    rw [hmv] at hv
    obtain ⟨u, us, hvu, hus, hnv⟩ := List.forall₂_cons_left_iff.mp hv
    rw [hnv]
    exact ⟨hvu, s.withVisible hm hus⟩

/-- `Context.oneValue` with its case split on the number of visible values made explicit. -/
theorem oneValue_eq (what : Bytes) (k : Machine) :
    Context.oneValue what k =
      if k.stack.visible.length = 1 then Eval.pop k
      else Eval.fail (.notOneValue what k.stack.visible.length) k := by
  unfold Context.oneValue
  simp only [Bind.bind, EStateM.bind, show (get : Eval Machine) k = .ok k k from rfl]
  rcases k.stack.visible with _ | ⟨a, _ | ⟨b, rest⟩⟩
  · rfl
  · rfl
  · simp

/-- Stacks that correspond hold the same number of values, so that one value is left on both or a
    failure with the same number is raised on both. -/
theorem oneValue_respects (what : Bytes) :
    s.Respects s.value w (Context.oneValue what) (Context.oneValue what) := by
  intro m n hm
  have hv := s.visible hm
  have hlen := hv.length_eq
  rw [oneValue_eq, oneValue_eq, hlen]
  by_cases h : n.stack.visible.length = 1
  · rw [if_pos h, if_pos h]
    exact s.pop_respects m n hm
  · rw [if_neg h, if_neg h]
    refine s.fail_respects ?_ m n hm
    exact nofun

/-! ### Evaluating code -/

/-- Loops that may take so many rounds stay together, or the first one is lost before. -/
def Rounds (n k : Nat) : Prop := n = k ∨ s.lost .exhausted ∧ n ≤ k

/-- Contexts that operators cannot tell apart. -/
structure Contexts (ctx dtx : Context) : Prop where
  source : ∀ w text, s.Respects Eq w (ctx.evalSource text) (dtx.evalSource text)
  run : ∀ w p q, s.program p q → s.Respects Eq w (ctx.run p) (dtx.run q)
  /-- Loops may take the same number of rounds, or more of them on the second side if the
      comparison ends where the first one runs out of rounds.  The numbers do not matter where
      no loop may do so. -/
  rounds : s.halt .exhausted .exhausted → s.Rounds ctx.rounds dtx.rounds

variable {s} {ctx dtx : Context}

/-- Contexts in which source text is parsed to programs that correspond, unless the first side is
    lost there. -/
theorem Contexts.of_parse
    (hparse : ∀ source,
      (∃ p q, ctx.parse source = .ok p ∧ dtx.parse source = .ok q ∧ s.program p q) ∨
      (∃ i j, ctx.parse source = .error i ∧ dtx.parse source = .error j ∧
        s.halt (.issue i) (.issue j)) ∨
      (∃ i, ctx.parse source = .error i ∧ s.lost (.issue i)))
    (hrun : ∀ w p q, s.program p q → s.Respects Eq w (ctx.run p) (dtx.run q))
    (hrounds : s.halt .exhausted .exhausted → s.Rounds ctx.rounds dtx.rounds) :
    s.Contexts ctx dtx := by
  refine ⟨fun w source => ?_, hrun, hrounds⟩
  refine Comparison.Respects.mapIssue ?_ (fun _ => s.lost_relocated) (fun _ _ => s.halt_relocated)
  rcases hparse source with ⟨p, q, hp, hq, hpq⟩ | ⟨i, j, hi, hj, hij⟩ | ⟨i, hi, hlost⟩
  · rw [hp, hq]
    exact hrun w p q hpq
  · rw [hi, hj]
    exact .throw hij
  · rw [hi]
    exact .lost hlost _

variable (hc : s.Contexts ctx dtx)

include hc

/-- A block invoked with values that correspond respects the simulation if running its symbols
    does. -/
theorem invoke_respects (name : Bytes) {p q : Program} {vs us : List Value}
    (hp : s.program p q) (hv : s.values vs us) :
    s.Respects Eq w (ctx.invoke name p vs) (dtx.invoke name q us) := by
  apply s.bracketedIn
  intro w'
  exact (s.pushAll_respects hv).bind fun _ _ _ => hc.run w' p q hp

/-- A block that is to leave one value leaves values that correspond. -/
theorem single_respects (what scopeName : Bytes) {p q : Program} {vs us : List Value}
    (hp : s.program p q) (hv : s.values vs us) :
    s.Respects s.value w (ctx.single what scopeName p vs) (dtx.single what scopeName q us) := by
  apply s.bracketedIn
  intro w'
  refine (s.pushAll_respects hv).bind fun _ _ _ => ?_
  exact (hc.run w' p q hp).bind fun _ _ _ => s.oneValue_respects what

/-- What a group leaves on its own part of the stacks corresponds. -/
theorem collect_respects (name : Bytes) {p q : Program} (hp : s.program p q) :
    s.Respects s.values w (ctx.collect name p) (dtx.collect name q) := by
  apply s.bracketedIn
  intro w'
  exact (hc.run w' p q hp).bind fun _ _ _ => s.takeAll_respects

omit hc in
/-- A value that is no block corresponds to none. -/
theorem not_block {v u : Value} (hv : s.value v u) (h : ∀ p, v ≠ .block p) (q : Program) :
    u ≠ .block q := by
  rintro rfl
  have hk := s.kind hv
  cases v with
  | block p => exact h p rfl
  | _ => exact absurd hk (by simp [Value.kind])

/-- A condition that is a block is evaluated, and any other one is taken as it stands; both respect
    the simulation. -/
theorem condition_respects (what : Bytes) {v u : Value} (hv : s.value v u) :
    s.Respects s.value w (ctx.condition what v) (dtx.condition what u) := by
  by_cases hb : ∃ p, v = .block p
  · obtain ⟨p, rfl⟩ := hb
    obtain ⟨q, rfl, hp⟩ := s.block hv
    apply s.bracketed
    intro w'
    exact (hc.run w' p q hp).bind fun _ _ _ => s.oneValue_respects what
  · have hpure : ∀ (ctx : Context) (v : Value), (∀ p, v ≠ .block p) →
        ctx.condition what v = pure v := by
      intro ctx v hv
      cases v with
      | block p => exact absurd rfl (hv p)
      | _ => rfl
    have hv' : ∀ p, v ≠ .block p := fun p h => hb ⟨p, h⟩
    rw [hpure ctx v hv', hpure dtx u (not_block hv hv')]
    exact .pure hv

/-- Performing values — a block runs in place, any other value is pushed — respects the
    simulation. -/
theorem perform_respects {v u : Value} (hv : s.value v u) :
    s.Respects Eq w (Control.perform ctx v) (Control.perform dtx u) := by
  by_cases hb : ∃ p, v = .block p
  · obtain ⟨p, rfl⟩ := hb
    obtain ⟨q, rfl, hp⟩ := s.block hv
    exact hc.run w p q hp
  · have hpush : ∀ (ctx : Context) (v : Value), (∀ p, v ≠ .block p) →
        Control.perform ctx v = Eval.push v := by
      intro ctx v hv
      cases v with
      | block p => exact absurd rfl (hv p)
      | _ => rfl
    have hv' : ∀ p, v ≠ .block p := fun p h => hb ⟨p, h⟩
    rw [hpush ctx v hv', hpush dtx u (not_block hv hv')]
    exact s.push_respects hv

/-! ### Loops -/

omit hc in
/-- The steps of a fold, one behind each element, correspond if they run through elements that
    correspond. -/
theorem foldEach_respects {x y : Eval Unit} (hx : s.Respects Eq w x y) {vs us : List Value}
    (hv : s.values vs us) :
    s.Respects Eq w (Control.foldEach x vs) (Control.foldEach y us) := by
  induction hv with
  | nil => exact .pure rfl
  | cons h _ ih => exact (s.push_respects h).bind fun _ _ _ => hx.bind fun _ _ _ => ih

omit hc in
/-- The results collected before an element correspond, and so do those collected behind it. -/
theorem mapEach_respects {f g : Value → Eval Value}
    (hf : ∀ v u, s.value v u → s.Respects s.value w (f v) (g u)) {vs us : List Value}
    (hv : s.values vs us) : ∀ {rs ts : List Value}, s.values rs ts →
    s.Respects s.values w (Control.mapEach f rs vs) (Control.mapEach g ts us) := by
  induction hv with
  | nil => exact fun hr => .pure (List.rel_reverse hr)
  | cons h _ ih => exact fun hr => (hf _ _ h).bind fun _ _ hab => ih (.cons hab hr)

omit hc in
/-- Steps that correspond may be repeated a fixed number of times. -/
theorem times_respects {x y : Eval Unit} (hx : s.Respects Eq w x y) (n : Nat) :
    s.Respects Eq w (Control.times x n) (Control.times y n) := by
  induction n with
  | zero => exact .pure rfl
  | succ n ih => exact hx.bind fun _ _ _ => ih

omit hc in
/-- One more round on both sides, or none on the first one, where it is lost. -/
theorem Rounds.cases {n k : Nat} (h : s.Rounds n k) :
    (n = 0 ∧ k = 0) ∨ (n = 0 ∧ s.lost .exhausted) ∨
      ∃ n' k', n = n' + 1 ∧ k = k' + 1 ∧ s.Rounds n' k' := by
  cases n with
  | zero => exact h.elim (fun h => Or.inl ⟨rfl, h.symm⟩) fun h => Or.inr (Or.inl ⟨rfl, h.1⟩)
  | succ n =>
    obtain ⟨k, rfl⟩ : ∃ l, k = l + 1 := by
      rcases h with rfl | ⟨-, hle⟩
      · exact ⟨n, rfl⟩
      · exact ⟨k - 1, by omega⟩
    refine Or.inr (Or.inr ⟨n, k, rfl, rfl, h.imp ?_ fun h => ⟨h.1, by omega⟩⟩)
    exact fun h => by omega

omit hc in
/-- `while` runs in step on both sides until its condition fails, unless one side is out of
    rounds. -/
theorem loopWhile_respects (he : s.halt .exhausted .exhausted) {x y : Eval Value}
    {f g : Eval Unit} (hx : s.Respects s.value w x y) (hf : s.Respects Eq w f g) {n k : Nat}
    (h : s.Rounds n k) :
    s.Respects Eq w (Control.loopWhile x f n) (Control.loopWhile y g k) := by
  induction n generalizing k with
  | zero =>
    rcases h.cases with ⟨-, rfl⟩ | ⟨-, hl⟩ | ⟨_, _, hn, -⟩
    · exact .throw he
    · exact .lost hl _
    · exact absurd hn (by simp)
  | succ n ih =>
    rcases h.cases with ⟨hn, -⟩ | ⟨hn, -⟩ | ⟨n', k', hn, rfl, h'⟩
    · exact absurd hn (by simp)
    · exact absurd hn (by simp)
    · obtain rfl := Nat.succ.inj hn
      refine hx.bind fun a b hab => ?_
      rw [s.truthy hab]
      split
      · exact hf.bind fun _ _ _ => ih h'
      · exact .pure rfl

omit hc in
/-- `do` runs in step on both sides until its block leaves a false value, unless one side is out of
    rounds. -/
theorem loopDo_respects (he : s.halt .exhausted .exhausted) {f g : Eval Unit}
    (hf : s.Respects Eq w f g) {n k : Nat} (h : s.Rounds n k) :
    s.Respects Eq w (Control.loopDo f n) (Control.loopDo g k) := by
  induction n generalizing k with
  | zero =>
    rcases h.cases with ⟨-, rfl⟩ | ⟨-, hl⟩ | ⟨_, _, hn, -⟩
    · exact .throw he
    · exact .lost hl _
    · exact absurd hn (by simp)
  | succ n ih =>
    rcases h.cases with ⟨hn, -⟩ | ⟨hn, -⟩ | ⟨n', k', hn, rfl, h'⟩
    · exact absurd hn (by simp)
    · exact absurd hn (by simp)
    · obtain rfl := Nat.succ.inj hn
      refine hf.bind fun _ _ _ => s.pop_respects.bind fun a b hab => ?_
      rw [s.truthy hab]
      split
      · exact ih h'
      · exact .pure rfl

end Simulation

/-! ### Operands -/

namespace Operand

/-- An operand that fits `block` is a block. -/
theorem exists_block {v : Value} (h : block.accepts v = true) : ∃ p, v = .block p := by
  cases v with
  | block p => exact ⟨p, rfl⟩
  | _ => exact absurd h (by simp [accepts, acceptsKind, Value.kind])

theorem exists_bool {v : Value} (h : bool.accepts v = true) : ∃ b, v = .bool b := by
  cases v with
  | bool b => exact ⟨b, rfl⟩
  | _ => exact absurd h (by simp [accepts, acceptsKind, Value.kind])

theorem exists_int {v : Value} (h : int.accepts v = true) : ∃ n, v = .int n := by
  cases v with
  | int n => exact ⟨n, rfl⟩
  | _ => exact absurd h (by simp [accepts, acceptsKind, Value.kind])

theorem exists_str {v : Value} (h : str.accepts v = true) : ∃ s, v = .str s := by
  cases v with
  | str s => exact ⟨s, rfl⟩
  | _ => exact absurd h (by simp [accepts, acceptsKind, Value.kind])

end Operand

/-- The arguments that a value stands for: those in a tuple, or else the value alone. -/
def Value.arguments : Value → List Value
  | .tuple es => es
  | v => [v]

/-- A tuple stands for its elements as arguments, and any other value for itself. -/
theorem Value.arguments_eq (v : Value) :
    v.arguments = if v.kind = .tuple then v.elements else [v] := by
  cases v <;> rfl

/-- `!` invokes its block with the arguments that its other operand stands for. -/
theorem Control.invoke_eq (ctx : Context) (v : Value) (p : Program) :
    Control.invoke ctx [v, .block p] = ctx.invoke (utf8 "invoke") p v.arguments := by
  cases v <;> rfl

/-- Only a negative number is no count. -/
theorem Arithmetic.classed_of_count {what : String} {n : Int64} {c : Cause}
    (h : Arithmetic.count what n = .error c) : c.Classed := by
  unfold Arithmetic.count at h
  split at h
  · obtain rfl := Except.error.inj h
    exact nofun
  · exact absurd h (by simp)

/-- The operators that loop as long as a condition holds. -/
def Control.loops : List String := ["while", "do"]

/-! ### Overloads -/

namespace Simulation

variable (s : Simulation)

/-- An action, applied in contexts that cannot be told apart to operands that correspond
    and fit the signature, is respected. -/
def Kept (signature : List Operand) (action : Action) : Prop :=
  ∀ {ctx dtx : Context}, s.Contexts ctx dtx → ∀ {w : s.World} {args brgs : List Value},
    s.values args brgs → Operand.Fit signature args →
      s.Respects Eq w (action ctx args) (action dtx brgs)

variable {s}

/-- Effects that correspond are performed alike. -/
theorem effect_respects {w : s.World} {e f : Effect} (h : e.Alike s.toComparison f) :
    s.Respects Eq w e.perform f.perform := by
  cases e <;> cases f <;> try exact h.elim
  case push.push vs us => exact s.pushAll_respects h
  case pushList.pushList es fs => exact s.pushList_respects h
  case clear.clear => exact s.clear_respects
  case fail.fail a b => exact .throw h

/-- Operators without code are respected. -/
theorem plain_kept {a : String × List Operand × Action} (ha : a ∈ OperatorTable.plainActions) :
    s.Kept a.2.1 a.2.2 := by
  intro ctx dtx _ w args brgs hv hfit
  obtain ⟨e, f, he, hf, hef⟩ := s.plain a ha args brgs hv hfit
  rw [he ctx, hf dtx]
  exact effect_respects hef

/-- Values that correspond stand for arguments that correspond. -/
theorem arguments_alike {v u : Value} (h : s.value v u) : s.values v.arguments u.arguments := by
  rw [Value.arguments_eq, Value.arguments_eq, s.kind h]
  split
  · exact s.elements h
  · exact .cons h .nil

/-- `!` with a block. -/
theorem invoke_kept : s.Kept [.any, .block] Control.invoke := by
  rintro ctx dtx hc w args brgs hv (_ | ⟨_, _ | ⟨hb, _ | _⟩⟩)
  obtain ⟨p, rfl⟩ := Operand.exists_block hb
  obtain _ | ⟨hvu, _ | ⟨hpq, _ | _⟩⟩ := hv
  obtain ⟨q, rfl, hp⟩ := s.block hpq
  rw [Control.invoke_eq, Control.invoke_eq]
  exact invoke_respects hc _ hp (arguments_alike hvu)

/-- `%` of something iterable and a block: the elements are pushed one by one, each followed by the
    block. -/
theorem fold_kept : s.Kept [.iterable, .block] Control.fold := by
  rintro ctx dtx hc w args brgs hv (_ | ⟨_, _ | ⟨hb, _ | _⟩⟩)
  obtain ⟨p, rfl⟩ := Operand.exists_block hb
  obtain _ | ⟨hvu, _ | ⟨hpq, _ | _⟩⟩ := hv
  obtain ⟨q, rfl, hp⟩ := s.block hpq
  exact foldEach_respects (hc.run w p q hp) (s.elements hvu)

/-- `%` with a block: its symbols run in place. -/
theorem evalBlock_kept : s.Kept [.block] Control.evalBlock := by
  rintro ctx dtx hc w args brgs hv (_ | ⟨hb, _ | _⟩)
  obtain ⟨p, rfl⟩ := Operand.exists_block hb
  obtain _ | ⟨hpq, _ | _⟩ := hv
  obtain ⟨q, rfl, hp⟩ := s.block hpq
  exact hc.run w p q hp

/-- `%` with a string: its text is parsed, and its symbols run in place. -/
theorem evalString_kept : s.Kept [.str] Control.evalString := by
  rintro ctx dtx hc w args brgs hv (_ | ⟨hb, _ | _⟩)
  obtain ⟨t, rfl⟩ := Operand.exists_str hb
  obtain _ | ⟨htu, _ | _⟩ := hv
  rw [s.str htu]
  exact hc.source w t

/-- `/` of something iterable and a block: the block is invoked with each element. -/
theorem mapBlock_kept : s.Kept [.iterable, .block] Control.mapBlock := by
  rintro ctx dtx hc w args brgs hv (_ | ⟨_, _ | ⟨hb, _ | _⟩⟩)
  obtain ⟨p, rfl⟩ := Operand.exists_block hb
  obtain _ | ⟨hvu, _ | ⟨hpq, _ | _⟩⟩ := hv
  obtain ⟨q, rfl, hp⟩ := s.block hpq
  refine (mapEach_respects (fun a b hab => ?_) (s.elements hvu) .nil).bind
    fun _ _ h => s.pushList_respects h
  exact single_respects hc _ _ hp (.cons hab .nil)

/-- Repeating a block respects the simulation, a negative count failing on both sides. -/
theorem repeatCode_respects {ctx dtx : Context} (hc : s.Contexts ctx dtx) {w : s.World} (n : Int64)
    {p q : Program} (hp : s.program p q) :
    s.Respects Eq w (Control.repeatCode ctx n p) (Control.repeatCode dtx n q) := by
  unfold Control.repeatCode
  cases hn : Arithmetic.count "repeat count" n with
  | ok k => exact times_respects (hc.run w p q hp) k
  | error c => exact s.fail_respects (Arithmetic.classed_of_count hn)

/-- `*` of a count and a block. -/
theorem repeatBlock_kept_left : s.Kept [.int, .block] Control.repeatBlock := by
  rintro ctx dtx hc w args brgs hv (_ | ⟨hn, _ | ⟨hb, _ | _⟩⟩)
  obtain ⟨n, rfl⟩ := Operand.exists_int hn
  obtain ⟨p, rfl⟩ := Operand.exists_block hb
  obtain _ | ⟨hnu, _ | ⟨hpq, _ | _⟩⟩ := hv
  obtain ⟨q, rfl, hp⟩ := s.block hpq
  rw [s.int hnu]
  exact repeatCode_respects hc n hp

/-- `*` of a block and a count. -/
theorem repeatBlock_kept_right : s.Kept [.block, .int] Control.repeatBlock := by
  rintro ctx dtx hc w args brgs hv (_ | ⟨hb, _ | ⟨hn, _ | _⟩⟩)
  obtain ⟨n, rfl⟩ := Operand.exists_int hn
  obtain ⟨p, rfl⟩ := Operand.exists_block hb
  obtain _ | ⟨hpq, _ | ⟨hnu, _ | _⟩⟩ := hv
  obtain ⟨q, rfl, hp⟩ := s.block hpq
  rw [s.int hnu]
  exact repeatCode_respects hc n hp

/-- `if`, whose branches are performed only when they are chosen. -/
theorem choose_kept : s.Kept [.any, .any, .any] Control.choose := by
  rintro ctx dtx hc w args brgs hv (_ | ⟨_, _ | ⟨_, _ | ⟨_, _ | _⟩⟩⟩)
  obtain _ | ⟨hcd, _ | ⟨ha, _ | ⟨hb, _ | _⟩⟩⟩ := hv
  refine (condition_respects hc _ hcd).bind fun x y hxy => ?_
  rw [s.truthy hxy]
  split
  · exact perform_respects hc ha
  · exact perform_respects hc hb

/-- `and`, whose second operand is evaluated only if the first is true. -/
theorem conjunction_kept : s.Kept [.any, .any] Control.conjunction := by
  rintro ctx dtx hc w args brgs hv (_ | ⟨_, _ | ⟨_, _ | _⟩⟩)
  obtain _ | ⟨ha, _ | ⟨hb, _ | _⟩⟩ := hv
  refine (condition_respects hc _ ha).bind fun x y hxy => ?_
  rw [s.truthy hxy]
  split
  · exact (condition_respects hc _ hb).bind fun _ _ h => s.push_respects h
  · exact s.push_respects hxy

/-- `or`, whose second operand is evaluated only if the first is false. -/
theorem disjunction_kept : s.Kept [.any, .any] Control.disjunction := by
  rintro ctx dtx hc w args brgs hv (_ | ⟨_, _ | ⟨_, _ | _⟩⟩)
  obtain _ | ⟨ha, _ | ⟨hb, _ | _⟩⟩ := hv
  refine (condition_respects hc _ ha).bind fun x y hxy => ?_
  rw [s.truthy hxy]
  split
  · exact s.push_respects hxy
  · exact (condition_respects hc _ hb).bind fun _ _ h => s.push_respects h

/-- `while`, given that running out of rounds on both sides corresponds. -/
theorem whileLoop_kept (he : s.halt .exhausted .exhausted) :
    s.Kept [.block, .block] Control.whileLoop := by
  rintro ctx dtx hc w args brgs hv (_ | ⟨ha, _ | ⟨hb, _ | _⟩⟩)
  obtain ⟨p, rfl⟩ := Operand.exists_block ha
  obtain ⟨p', rfl⟩ := Operand.exists_block hb
  obtain _ | ⟨hpq, _ | ⟨hpq', _ | _⟩⟩ := hv
  obtain ⟨q, rfl, hp⟩ := s.block hpq
  obtain ⟨q', rfl, hp'⟩ := s.block hpq'
  exact loopWhile_respects he (single_respects hc _ _ hp .nil) (hc.run w p' q' hp') (hc.rounds he)

/-- `do`, given that running out of rounds on both sides corresponds. -/
theorem doLoop_kept (he : s.halt .exhausted .exhausted) : s.Kept [.block] Control.doLoop := by
  rintro ctx dtx hc w args brgs hv (_ | ⟨hb, _ | _⟩)
  obtain ⟨p, rfl⟩ := Operand.exists_block hb
  obtain _ | ⟨hpq, _ | _⟩ := hv
  obtain ⟨q, rfl, hp⟩ := s.block hpq
  exact loopDo_respects he (hc.run w p q hp) (hc.rounds he)

/-- Operators that evaluate code are respected; those that loop without bound may run out of
    rounds. -/
theorem control_kept {a : String × List Operand × Action} (ha : a ∈ Control.actions)
    (he : a.1 ∈ Control.loops → s.halt .exhausted .exhausted) : s.Kept a.2.1 a.2.2 := by
  simp only [Control.actions, List.mem_cons, List.not_mem_nil, or_false] at ha
  rcases ha with rfl | rfl | rfl | rfl | rfl | rfl | rfl | rfl | rfl | rfl | rfl | rfl
  · exact invoke_kept
  · exact fold_kept
  · exact evalBlock_kept
  · exact evalString_kept
  · exact mapBlock_kept
  · exact repeatBlock_kept_left
  · exact repeatBlock_kept_right
  · exact choose_kept
  · exact conjunction_kept
  · exact disjunction_kept
  · exact whileLoop_kept (he (by decide))
  · exact doLoop_kept (he (by decide))

end Simulation

end StackLang
