import StackLang.Proofs.Simulation.Run

namespace StackLang

/-!
# Exact simulations

Evaluations that handle the very same values, symbols and halts, and differ at most in their
machines.

* `Value.Made` — the values that operators without code can make of their operands;
* `OperatorTable.exists_made_effect` — an operator without code, applied to operands that fit
  its signature, pushes such values, pushes a new list of them, clears the visible stack or
  fails, whatever the context;
* `Simulation.same` — the simulation given by a relation between machines and by which halts
  correspond; `Simulation.exact` — by a relation between machines alone.
-/

/-- The values that operators without code can make of some operands.  New code is made by
    joining blocks only. -/
inductive Value.Made (args : List Value) : Value → Prop
  | operand {v : Value} : v ∈ args → Made args v
  | bool (b : Bool) : Made args (.bool b)
  | int (n : Int64) : Made args (.int n)
  | float (x : Float) : Made args (.float x)
  | str (s : Bytes) : Made args (.str s)
  | element {v e : Value} : Made args v → e ∈ v.elements → Made args e
  | tuple {es : List Value} : (∀ e ∈ es, Made args e) → Made args (.tuple es)
  | join {p q : Program} : Made args (.block p) → Made args (.block q) →
      Made args (.block (p ++ q))

/-- What an effect pushes is made of some operands, and it fails for no cause of a client. -/
def Effect.MadeOf (args : List Value) : Effect → Prop
  | push vs => ∀ v ∈ vs, v.Made args
  | pushList es => ∀ e ∈ es, e.Made args
  | clear => True
  | fail c => c.Classed

/-- One pushed value that is made of the operands is an effect that is made of them. -/
theorem Effect.madeOf_one {args : List Value} {v : Value} (h : v.Made args) :
    (Effect.push [v]).MadeOf args := by
  intro u hu
  obtain rfl := List.mem_singleton.mp hu
  exact h

/-! ### Elements of sequences -/

namespace Sequence

/-- Adding an element that is new brings in no other one. -/
theorem mem_of_mem_addNew {vs : List Value} {v e : Value} (h : e ∈ addNew vs v) :
    e ∈ vs ∨ e = v := by
  unfold addNew at h
  split at h
  · exact Or.inl h
  · simpa using h

/-- A fold that adds at most the values it goes over has no others. -/
theorem mem_of_mem_foldl {step : List Value → Value → List Value} {e : Value}
    (hstep : ∀ acc v, e ∈ step acc v → e ∈ acc ∨ e = v) (vs : List Value) :
    ∀ acc, e ∈ vs.foldl step acc → e ∈ acc ∨ e ∈ vs := by
  induction vs with
  | nil => exact fun _ h => Or.inl h
  | cons v vs ih =>
    intro acc h
    rcases ih _ h with h | h
    · rcases hstep acc v h with h | rfl
      · exact Or.inl h
      · exact Or.inr List.mem_cons_self
    · exact Or.inr (List.mem_cons_of_mem v h)

theorem mem_of_mem_union {a b : List Value} {e : Value} (h : e ∈ union a b) :
    e ∈ a ∨ e ∈ b := by
  have hfold := mem_of_mem_foldl (fun _ _ => mem_of_mem_addNew) _ _ h
  exact List.mem_append.mp (hfold.resolve_left List.not_mem_nil)

/-- The elements of a difference are elements of the first operand. -/
theorem mem_of_mem_difference {a b : List Value} {e : Value} (h : e ∈ difference a b) : e ∈ a :=
  List.mem_of_mem_filter h

theorem mem_of_mem_intersection {a b : List Value} {e : Value} (h : e ∈ intersection a b) :
    e ∈ a := by
  refine (mem_of_mem_foldl (fun acc v hv => ?_) _ _ h).resolve_left List.not_mem_nil
  split at hv
  · exact mem_of_mem_addNew hv
  · exact Or.inl hv

/-- The elements of a symmetric difference are elements of its operands. -/
theorem mem_of_mem_symmetricDifference {a b : List Value} {e : Value}
    (h : e ∈ symmetricDifference a b) : e ∈ a ∨ e ∈ b :=
  (mem_of_mem_union h).imp mem_of_mem_difference mem_of_mem_difference

/-- The elements of repeated copies are elements of the original. -/
theorem mem_of_mem_copies {α : Type} {n : Nat} {as : List α} {a : α} (h : a ∈ copies n as) :
    a ∈ as := by
  obtain ⟨bs, hbs, ha⟩ := List.mem_flatten.mp h
  rwa [List.eq_of_mem_replicate hbs] at ha

end Sequence

/-- What an index selects is an element. -/
theorem Value.mem_elements_of_index? {v e : Value} {i : Int} (h : v.index? i = some e) :
    e ∈ v.elements := by
  unfold index? at h
  split at h
  · exact absurd h (by simp)
  · cases v with
    | list id vs => exact List.mem_of_getElem? h
    | tuple vs => exact List.mem_of_getElem? h
    | str s =>
      have hget : (characters s)[(i - 1).toNat]? = some e := List.getElem?_map.trans h
      exact List.mem_of_getElem? hget
    | _ => exact absurd h (by simp)

/-! ### Causes of failures -/

namespace Arithmetic

/-- A quotient fails with a cause of one of the eight classes. -/
theorem classed_of_quotient {a b : Int64} {c : Cause} (h : quotient a b = .error c) :
    c.Classed := by
  unfold quotient at h
  split at h
  · obtain rfl := Except.error.inj h
    exact nofun
  · exact absurd h (by simp)

/-- A modulus fails with a cause of one of the eight classes. -/
theorem classed_of_modulus {a b : Int64} {c : Cause} (h : modulus a b = .error c) :
    c.Classed := by
  unfold modulus at h
  split at h
  · obtain rfl := Except.error.inj h
    exact nofun
  · exact absurd h (by simp)

/-- A quotient of floats fails with a cause of one of the eight classes. -/
theorem classed_of_floatQuotient {x y : Float} {c : Cause} (h : floatQuotient x y = .error c) :
    c.Classed := by
  unfold floatQuotient at h
  split at h
  · obtain rfl := Except.error.inj h
    exact nofun
  · exact absurd h (by simp)

/-- What is made of a count fails as the count does. -/
theorem classed_of_count_bind {α : Type} {what : String} {n : Int64} {f : Nat → Except Cause α}
    (hf : ∀ k c, f k = .error c → c.Classed) {c : Cause}
    (h : (count what n >>= f) = .error c) : c.Classed := by
  cases hn : count what n with
  | error b =>
    rw [hn] at h
    obtain rfl := Except.error.inj h
    exact classed_of_count hn
  | ok k =>
    rw [hn] at h
    exact hf k c h

/-- A shift to the left fails with a cause of one of the eight classes. -/
theorem classed_of_shiftLeft {a n : Int64} {c : Cause} (h : shiftLeft a n = .error c) :
    c.Classed := by
  refine classed_of_count_bind (fun k b hk => ?_) h
  exact absurd hk (by simp [pure, Except.pure])

theorem classed_of_shiftRight {a n : Int64} {c : Cause} (h : shiftRight a n = .error c) :
    c.Classed := by
  refine classed_of_count_bind (fun k b hk => ?_) h
  exact absurd hk (by simp [pure, Except.pure])

end Arithmetic

/-- A number of copies is refused with a cause of one of the eight classes. -/
theorem Sequence.classed_of_repeatCount {length : Nat} {n : Int64} {c : Cause}
    (h : repeatCount length n = .error c) : c.Classed := by
  refine Arithmetic.classed_of_count_bind (fun k c hk => ?_) h
  split at hk
  · obtain rfl := Except.error.inj hk
    exact nofun
  · exact absurd hk (by simp [pure, Except.pure])

namespace OperatorTable

/-- An action that does no more than an effect to operands that fit, and makes of them what it
    pushes. -/
def Performs (signature : List Operand) (action : Action) : Prop :=
  ∀ args, Operand.Fit signature args →
    ∃ e : Effect, (∀ ctx, action ctx args = e.perform) ∧ e.MadeOf args

/-! ### Shapes of actions -/

/-- A result that is a value or a cause is an effect: the value is pushed, or the cause is
    raised. -/
theorem result_performs {α : Type} {make : α → Value} {args : List Value}
    (hmake : ∀ a, (make a).Made args) (r : Except Cause α)
    (herror : ∀ c, r = .error c → c.Classed) :
    ∃ e : Effect, Arithmetic.result make r = e.perform ∧ e.MadeOf args := by
  cases r with
  | ok a => exact ⟨.push [make a], rfl, Effect.madeOf_one (hmake a)⟩
  | error c => exact ⟨.fail c, rfl, herror c rfl⟩

/-- An operator on two integers does no more than push an integer or fail. -/
theorem ints_performs {f : Int64 → Int64 → Except Cause Int64}
    (hf : ∀ a b c, f a b = .error c → c.Classed) :
    Performs [.int, .int] (Arithmetic.ints f)
  | [_, _], .cons ha (.cons hb .nil) => by
    obtain ⟨a, rfl⟩ := Operand.exists_int ha
    obtain ⟨b, rfl⟩ := Operand.exists_int hb
    obtain ⟨e, he, hmade⟩ := result_performs .int (f a b) (hf a b)
    exact ⟨e, fun _ => he, hmade⟩

/-- An operator on two numbers as floats does no more than push a float or fail. -/
theorem floats_performs {f : Float → Float → Except Cause Float}
    (hf : ∀ x y c, f x y = .error c → c.Classed) :
    Performs [.number, .number] (Arithmetic.floats f)
  | [a, b], .cons _ (.cons _ .nil) => by
    obtain ⟨e, he, hmade⟩ := result_performs .float (f a.asFloat b.asFloat) (hf _ _)
    exact ⟨e, fun _ => he, hmade⟩

/-- An operator on two truth values pushes a truth value. -/
theorem bools_performs (f : Bool → Bool → Bool) :
    Performs [.bool, .bool] (Arithmetic.bools f)
  | [_, _], .cons ha (.cons hb .nil) => by
    obtain ⟨a, rfl⟩ := Operand.exists_bool ha
    obtain ⟨b, rfl⟩ := Operand.exists_bool hb
    exact ⟨.push [.bool (f a b)], fun _ => rfl, Effect.madeOf_one (.bool _)⟩

/-- Numbers have an order, and a pair with any other value is refused as not being numbers. -/
theorem compare_cases (a b : Value) :
    (∃ o, a.compare b = .ok o) ∨
      a.compare b = .error { cause := .notNumbers (Value.kindNames [a, b]) } := by
  unfold Value.compare
  split
  · exact Or.inl ⟨_, rfl⟩
  · split
    · exact Or.inl ⟨_, rfl⟩
    · exact Or.inr rfl

/-- A comparison pushes a truth value or fails. -/
theorem comparison_performs (test : Ordering → Bool) :
    Performs [.number, .number] (Arithmetic.comparison test)
  | [a, b], .cons _ (.cons _ .nil) => by
    rcases compare_cases a b with ⟨o, ho⟩ | he
    · refine ⟨.push [.bool (test o)], fun _ => ?_, Effect.madeOf_one (.bool _)⟩
      simp only [Arithmetic.comparison, ho]
      rfl
    · refine ⟨.fail (.notNumbers (Value.kindNames [a, b])), fun _ => ?_, nofun⟩
      simp only [Arithmetic.comparison, he]
      rfl

/-- Exponentiation of integers pushes an integer or fails. -/
theorem power_performs : Performs [.int, .int] Arithmetic.power
  | [_, _], .cons ha (.cons hb .nil) => by
    obtain ⟨a, rfl⟩ := Operand.exists_int ha
    obtain ⟨b, rfl⟩ := Operand.exists_int hb
    by_cases h : b < 0
    · exact ⟨.push [_], fun _ => if_pos h, Effect.madeOf_one (.float _)⟩
    · exact ⟨.push [_], fun _ => if_neg h, Effect.madeOf_one (.int _)⟩

/-- A sequence of the kind of its sources is one that its elements are made of. -/
theorem pushLike_performs (sources : List Value) {args elems : List Value}
    (helems : ∀ e ∈ elems, e.Made args) :
    ∃ e : Effect, Sequence.pushLike sources elems = e.perform ∧ e.MadeOf args := by
  unfold Sequence.pushLike
  split
  · exact ⟨.pushList elems, rfl, helems⟩
  · exact ⟨.push [.tuple elems], rfl, Effect.madeOf_one (.tuple helems)⟩

/-- An operator on the elements of two sequences pushes some of these elements as a sequence. -/
theorem onElements_performs {f : List Value → List Value → List Value}
    (hf : ∀ {a b e}, e ∈ f a b → e ∈ a ∨ e ∈ b) :
    Performs [.sequence, .sequence] (Sequence.onElements f)
  | [a, b], .cons _ (.cons _ .nil) => by
    have helems : ∀ e ∈ f a.elements b.elements, e.Made [a, b] := by
      intro e he
      rcases hf he with he | he
      · exact .element (.operand (by simp)) he
      · exact .element (.operand (by simp)) he
    obtain ⟨e, he, hmade⟩ := pushLike_performs [a, b] helems
    exact ⟨e, fun _ => he, hmade⟩

/-- Copies of a sequence, of a string or of another value are made of it. -/
theorem repeatValue_performs (n : Int64) {args : List Value} {v : Value} (hv : v ∈ args) :
    ∃ e : Effect, Sequence.repeatValue n v = e.perform ∧ e.MadeOf args := by
  unfold Sequence.repeatValue
  split
  · split
    · exact ⟨.push [_], rfl, Effect.madeOf_one (.str _)⟩
    · exact ⟨.fail _, rfl, Sequence.classed_of_repeatCount ‹_›⟩
  · split
    · exact pushLike_performs _ fun e he =>
        .element (.operand hv) (Sequence.mem_of_mem_copies he)
    · exact ⟨.fail _, rfl, Sequence.classed_of_repeatCount ‹_›⟩

/-- Repetition with the count in front pushes copies or fails. -/
theorem repetition_performs_left {o : Operand} : Performs [.int, o] Sequence.repetition
  | [_, v], .cons ha (.cons _ .nil) => by
    obtain ⟨n, rfl⟩ := Operand.exists_int ha
    have hv : v ∈ [Value.int n, v] := by simp
    obtain ⟨e, he, hmade⟩ := repeatValue_performs n hv
    exact ⟨e, fun _ => he, hmade⟩

theorem repetition_performs_right {o : Operand} : Performs [o, .int] Sequence.repetition
  | [v, _], .cons _ (.cons hb .nil) => by
    obtain ⟨n, rfl⟩ := Operand.exists_int hb
    -- A first operand that is an integer too is the count.
    by_cases hv : ∃ k, v = .int k
    · obtain ⟨k, rfl⟩ := hv
      have hn : Value.int n ∈ [Value.int k, .int n] := by simp
      obtain ⟨e, he, hmade⟩ := repeatValue_performs k hn
      exact ⟨e, fun _ => he, hmade⟩
    · obtain ⟨e, he, hmade⟩ := repeatValue_performs n List.mem_cons_self
      refine ⟨e, fun _ => ?_, hmade⟩
      rw [← he]
      cases v with
      | int k => exact absurd ⟨k, rfl⟩ hv
      | _ => rfl

/-! ### All actions without code -/

/-- The general operators that evaluate no code do no more than an effect. -/
theorem general_performs {a : String × List Operand × Action} (ha : a ∈ General.actions) :
    Performs a.2.1 a.2.2 := by
  simp only [General.actions, List.mem_cons, List.not_mem_nil, or_false] at ha
  rcases ha with rfl | rfl | rfl | rfl | rfl | rfl | rfl | rfl | rfl | rfl | rfl
  · -- A value is pushed twice or dropped, or all are cleared.
    rintro args (_ | ⟨_, _ | _⟩)
    exact ⟨.push [_, _], fun _ => rfl, fun _ h => .operand (by simpa using h)⟩
  · exact fun | [_], .cons _ .nil => ⟨.push [], fun _ => rfl, by simp [Effect.MadeOf]⟩
  · exact fun _ _ => ⟨.clear, fun _ => rfl, trivial⟩
  · -- The text of a value is pushed, or whether two values are equal.
    exact fun | [_], .cons _ .nil => ⟨.push [_], fun _ => rfl, Effect.madeOf_one (.str _)⟩
  · rintro args (_ | ⟨_, _ | ⟨_, _ | _⟩⟩)
    exact ⟨.push [_], fun _ => rfl, Effect.madeOf_one (.bool _)⟩
  · rintro args (_ | ⟨_, _ | ⟨_, _ | _⟩⟩)
    exact ⟨.push [_], fun _ => rfl, Effect.madeOf_one (.bool _)⟩
  · exact fun | [_], .cons _ .nil => ⟨.push [_], fun _ => rfl, Effect.madeOf_one (.bool _)⟩
  · exact fun | [_], .cons _ .nil => ⟨.push [_], fun _ => rfl, Effect.madeOf_one (.int _)⟩
  · -- An index selects an element, or the failure names it.
    rintro args (_ | ⟨_, _ | ⟨hb, _ | _⟩⟩)
    obtain ⟨i, rfl⟩ := Operand.exists_int hb
    simp only [General.index]
    split
    · rename_i e he
      refine ⟨.push [e], fun _ => rfl, Effect.madeOf_one ?_⟩
      exact .element (.operand List.mem_cons_self) (Value.mem_elements_of_index? he)
    · exact ⟨.fail _, fun _ => rfl, nofun⟩
  · -- `~` is the complement of an integer, and takes other values apart.
    rintro args (_ | ⟨ha, _ | _⟩)
    obtain ⟨n, rfl⟩ := Operand.exists_int ha
    exact ⟨.push [_], fun _ => rfl, Effect.madeOf_one (.int _)⟩
  · rintro args (_ | ⟨_, _ | _⟩)
    exact ⟨.push _, fun _ => rfl, fun _ => .element (.operand List.mem_cons_self)⟩

/-- The operators on numbers and truth values do no more than an effect. -/
theorem arithmetic_performs {a : String × List Operand × Action}
    (ha : a ∈ Arithmetic.actions) : Performs a.2.1 a.2.2 := by
  simp only [Arithmetic.actions, List.mem_cons, List.not_mem_nil, or_false] at ha
  rcases ha with rfl | rfl | rfl | rfl | rfl | rfl | rfl | rfl | rfl | rfl | rfl | rfl | rfl |
    rfl | rfl | rfl | rfl | rfl | rfl | rfl | rfl | rfl | rfl
  all_goals dsimp only
  all_goals first
    | exact ints_performs fun _ _ _ h => absurd h (by simp)
    | exact floats_performs fun _ _ _ h => absurd h (by simp)
    | exact ints_performs fun _ _ _ => Arithmetic.classed_of_quotient
    | exact ints_performs fun _ _ _ => Arithmetic.classed_of_modulus
    | exact ints_performs fun _ _ _ => Arithmetic.classed_of_shiftLeft
    | exact ints_performs fun _ _ _ => Arithmetic.classed_of_shiftRight
    | exact floats_performs fun _ _ _ => Arithmetic.classed_of_floatQuotient
    | exact bools_performs _
    | exact comparison_performs _
    | exact power_performs

/-- The operators on sequences that evaluate no code do no more than an effect. -/
theorem sequence_performs {a : String × List Operand × Action} (ha : a ∈ Sequence.actions) :
    Performs a.2.1 a.2.2 := by
  simp only [Sequence.actions, List.mem_cons, List.not_mem_nil, or_false] at ha
  rcases ha with rfl | rfl | rfl | rfl | rfl | rfl | rfl | rfl | rfl | rfl | rfl
  · rintro args (_ | ⟨ha, _ | ⟨hb, _ | _⟩⟩)
    obtain ⟨a, rfl⟩ := Operand.exists_str ha
    obtain ⟨b, rfl⟩ := Operand.exists_str hb
    exact ⟨.push [.str (a ++ b)], fun _ => rfl, Effect.madeOf_one (.str _)⟩
  · exact onElements_performs List.mem_append.mp
  · rintro args (_ | ⟨ha, _ | ⟨hb, _ | _⟩⟩)
    obtain ⟨a, rfl⟩ := Operand.exists_block ha
    obtain ⟨b, rfl⟩ := Operand.exists_block hb
    refine ⟨.push [.block (a ++ b)], fun _ => rfl, Effect.madeOf_one (.join ?_ ?_)⟩
    · exact .operand (by simp)
    · exact .operand (by simp)
  · exact onElements_performs fun h => Or.inl (Sequence.mem_of_mem_difference h)
  · exact repetition_performs_left
  · exact repetition_performs_right
  · exact repetition_performs_left
  · exact repetition_performs_right
  · exact onElements_performs Sequence.mem_of_mem_union
  · exact onElements_performs fun h => Or.inl (Sequence.mem_of_mem_intersection h)
  · exact onElements_performs Sequence.mem_of_mem_symmetricDifference

/-- **Operators without code have effects**, and push what they make of their operands. -/
theorem exists_made_effect {a : String × List Operand × Action} (ha : a ∈ plainActions) :
    Performs a.2.1 a.2.2 := by
  rcases List.mem_append.mp ha with ha | ha
  · rcases List.mem_append.mp ha with ha | ha
    · exact general_performs ha
    · exact arithmetic_performs ha
  · exact sequence_performs ha

/-- An operator that evaluates no code has one effect on operands that fit, in every context. -/
theorem exists_effect {a : String × List Operand × Action} (ha : a ∈ plainActions)
    (args : List Value) (hfit : Operand.Fit a.2.1 args) :
    ∃ e : Effect, ∀ ctx, a.2.2 ctx args = e.perform := by
  obtain ⟨e, he, -⟩ := exists_made_effect ha args hfit
  exact ⟨e, he⟩

end OperatorTable

/-! ### Simulations between machines alone -/

/-- Which halts correspond, and which ones end the comparison, if failures may be reported for
    symbols and moved out of strings on the way. -/
structure Halts where
  halt : Halt → Halt → Prop
  lost : Halt → Prop
  ofCause : ∀ {a : Cause} op, a.Classed → halt (.ofCause a op) (.ofCause a op)
  annotate : ∀ {h g} s, halt h g →
    halt (h.map (Evaluator.annotate s)) (g.map (Evaluator.annotate s))
  relocated : ∀ {h g}, halt h g → halt (h.map Failure.relocated) (g.map Failure.relocated)
  lost_annotate : ∀ {h} s, lost h → lost (h.map (Evaluator.annotate s))
  lost_relocated : ∀ {h}, lost h → lost (h.map Failure.relocated)

/-- The very same halts correspond, and none ends the comparison. -/
def Halts.exact : Halts where
  halt := Eq
  lost := fun _ => False
  ofCause := fun _ _ => rfl
  annotate := by rintro h _ s rfl; rfl
  relocated := by rintro h _ rfl; rfl
  lost_annotate := fun _ h => h
  lost_relocated := fun h => h

/-- The comparison of evaluations that handle the very same values and symbols. -/
def Comparison.same (World : Type) (halts : Halts) (machine : World → Machine → Machine → Prop) :
    Comparison where
  World := World
  value := Eq
  symbol := Eq
  halt := halts.halt
  lost := halts.lost
  machine := machine

/-- The comparison of evaluations that handle the very same values, symbols and halts. -/
def Comparison.exact (World : Type) (machine : World → Machine → Machine → Prop) :
    Comparison where
  World := World
  value := Eq
  symbol := Eq
  halt := Eq
  lost := fun _ => False
  machine := machine

namespace Simulation

/-- An operator that evaluates no code does the same on both sides of a comparison of equals. -/
theorem plain_same {World : Type} {halts : Halts} {machine : World → Machine → Machine → Prop}
    {a : String × List Operand × Action} (ha : a ∈ OperatorTable.plainActions) :
    (Comparison.same World halts machine).Plain a.2.1 a.2.2 := by
  intro args brgs hv hfit
  obtain rfl : args = brgs := List.forall₂_eq_eq_eq ▸ hv
  obtain ⟨e, he, hmade⟩ := OperatorTable.exists_made_effect ha args hfit
  refine ⟨e, e, he, he, ?_⟩
  cases e with
  | push vs => exact List.forall₂_same.mpr fun _ _ => rfl
  | pushList es => exact List.forall₂_same.mpr fun _ _ => rfl
  | clear => trivial
  | fail c => exact halts.ofCause [] hmade

/-- A relation between machines that the elementary steps keep makes a simulation of evaluations
    that handle the same values. -/
def same (World : Type) (halts : Halts) (machine : World → Machine → Machine → Prop)
    (visible : ∀ {w m n}, machine w m n → m.stack.visible = n.stack.visible)
    (withVisible : ∀ {w m n} vs, machine w m n → machine w (m.withVisible vs) (n.withVisible vs))
    (newList : ∀ {w m n}, machine w m n → m.nextList = n.nextList ∧
      machine w { m with nextList := m.nextList + 1 } { n with nextList := n.nextList + 1 })
    (lookup : ∀ w name,
      (Comparison.same World halts machine).Respects Eq w (Eval.lookup name) (Eval.lookup name))
    (bind : ∀ w name v,
      (Comparison.same World halts machine).Respects Eq w (Eval.bind name v) (Eval.bind name v))
    (bracketed : ∀ {α β : Type} {A : α → β → Prop} {x y} w name,
      (∀ w, (Comparison.same World halts machine).Respects A w x y) →
        (Comparison.same World halts machine).Respects A w (Eval.bracketed name x)
          (Eval.bracketed name y))
    (bracketedIn : ∀ {α β : Type} {A : α → β → Prop} {x y} w name scopeName,
      (∀ w, (Comparison.same World halts machine).Respects A w x y) →
        (Comparison.same World halts machine).Respects A w (Eval.bracketedIn name scopeName x)
          (Eval.bracketedIn name scopeName y)) : Simulation where
  toComparison := .same World halts machine
  kind := by rintro v _ rfl; rfl
  truthy := by rintro v _ rfl; rfl
  elements := by rintro v _ rfl; exact List.forall₂_same.mpr fun _ _ => rfl
  int := fun h => h.symm
  str := fun h => h.symm
  block := by rintro p _ rfl; exact ⟨p, rfl, List.forall₂_same.mpr fun _ _ => rfl⟩
  tuple := by
    intro es fs h
    obtain rfl : es = fs := List.forall₂_eq_eq_eq ▸ h
    rfl
  plain := fun _ ha => plain_same ha
  shape := by
    rintro a _ rfl
    cases a with
    | group k p _ => exact ⟨rfl, List.forall₂_same.mpr fun _ _ => rfl⟩
    | blank _ => trivial
    | _ => rfl
  halt_ofCause := halts.ofCause
  halt_badTarget := by rintro a _ rfl; exact halts.ofCause _ nofun
  halt_unexpected := by rintro a _ rfl; exact halts.ofCause _ nofun
  halt_annotate := by rintro a _ h g rfl hk; exact halts.annotate a hk
  halt_relocated := halts.relocated
  lost_annotate := halts.lost_annotate
  lost_relocated := halts.lost_relocated
  visible := by
    intro w m n hm
    rw [visible hm]
    exact List.forall₂_same.mpr fun _ _ => rfl
  withVisible := by
    intro w m n vs us hm hv
    obtain rfl : vs = us := List.forall₂_eq_eq_eq ▸ hv
    exact withVisible vs hm
  newList := by
    intro w m n es fs hm h
    obtain rfl : es = fs := List.forall₂_eq_eq_eq ▸ h
    obtain ⟨hnext, hm'⟩ := newList hm
    exact ⟨by rw [hnext]; rfl, hm'⟩
  lookup := lookup
  bind := by rintro w name v _ rfl; exact bind w name v
  bracketed := bracketed
  bracketedIn := bracketedIn

/-- **Exact simulations.** A relation between machines that the elementary steps keep makes
    a simulation of evaluations that handle the same values and halt in the same way. -/
def exact (World : Type) (machine : World → Machine → Machine → Prop)
    (visible : ∀ {w m n}, machine w m n → m.stack.visible = n.stack.visible)
    (withVisible : ∀ {w m n} vs, machine w m n → machine w (m.withVisible vs) (n.withVisible vs))
    (newList : ∀ {w m n}, machine w m n → m.nextList = n.nextList ∧
      machine w { m with nextList := m.nextList + 1 } { n with nextList := n.nextList + 1 })
    (lookup : ∀ w name,
      (Comparison.exact World machine).Respects Eq w (Eval.lookup name) (Eval.lookup name))
    (bind : ∀ w name v,
      (Comparison.exact World machine).Respects Eq w (Eval.bind name v) (Eval.bind name v))
    (bracketed : ∀ {α β : Type} {A : α → β → Prop} {x y} w name,
      (∀ w, (Comparison.exact World machine).Respects A w x y) →
        (Comparison.exact World machine).Respects A w (Eval.bracketed name x)
          (Eval.bracketed name y))
    (bracketedIn : ∀ {α β : Type} {A : α → β → Prop} {x y} w name scopeName,
      (∀ w, (Comparison.exact World machine).Respects A w x y) →
        (Comparison.exact World machine).Respects A w (Eval.bracketedIn name scopeName x)
          (Eval.bracketedIn name scopeName y)) : Simulation :=
  same World .exact machine visible withVisible newList lookup bind bracketed bracketedIn

end Simulation

end StackLang
