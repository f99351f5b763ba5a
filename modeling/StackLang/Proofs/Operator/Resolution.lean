import StackLang.Evaluation.Run
import Mathlib.Data.List.Forall2

namespace StackLang

/-!
# Overloads and their operands

* `OperatorTable.exists_action_of_mem_builtin` — the overloads of the language are those of
  its lists of actions, and no others;
* `OperatorTable.resolve_congr` — an overload is selected by the kinds of the visible
  values alone;
* `Cause.Classed` — a cause of one of the eight classes that failures of the language have;
* `Evaluator.operate_cases` — an operator fails and leaves all as it was, or takes operands
  that fit the signature of one of its overloads and applies the overload to them.
-/

/-- Values meet the demands of a signature. -/
abbrev Operand.Fit (signature : List Operand) (args : List Value) : Prop :=
  List.Forall₂ (fun o v => o.accepts v = true) signature args

/-- A cause of one of the eight classes. -/
def Cause.Classed (c : Cause) : Prop := ∀ code, c.kind ≠ .other code

/-! ### The overloads of the language -/

namespace OperatorTable

variable {t : OperatorTable} {op name : Bytes} {ov : Overload}

/-- Putting an overload in its place adds it to the others. -/
theorem perm_place (ov : Overload) (ovs : List Overload) : (place ov ovs).Perm (ov :: ovs) := by
  induction ovs with
  | nil => exact .refl _
  | cons o rest ih =>
    rw [place]
    split
    · exact .refl _
    · exact (ih.cons o).trans (.swap ov o rest)

/-- Putting an overload in its place adds nothing else. -/
theorem mem_place {a b : Overload} {ovs : List Overload} (h : a ∈ place b ovs) : a = b ∨ a ∈ ovs :=
  List.mem_cons.mp ((perm_place b ovs).mem_iff.mp h)

/-- A registration leaves the overloads of other operators as they are. -/
theorem get_register_of_ne (signature : List Operand) (action : Action) (h : name ≠ op) :
    (t.register op signature action).get name = t.get name := by
  unfold get register
  rw [Table.get?_insert, if_neg h]

/-- Registering adds at most the one overload. -/
theorem mem_get_register {signature : List Operand} {action : Action}
    (h : ov ∈ (t.register op signature action).get name) :
    ov ∈ t.get name ∨ name = op ∧ ov.signature = signature ∧ ov.action = action := by
  unfold get register at h
  rw [Table.get?_insert] at h
  by_cases hn : name = op
  · rw [if_pos hn] at h
    subst hn
    rcases mem_place h with rfl | h
    · exact Or.inr ⟨rfl, rfl, rfl⟩
    · exact Or.inl h
  · rw [if_neg hn] at h
    exact Or.inl h

/-- Registrations add the overloads that are given, for their operators. -/
theorem mem_get_registerAll {actions : List (String × List Operand × Action)}
    (h : ov ∈ (t.registerAll actions).get name) :
    ov ∈ t.get name ∨
      ∃ a ∈ actions, name = utf8 a.1 ∧ ov.signature = a.2.1 ∧ ov.action = a.2.2 := by
  induction actions generalizing t with
  | nil => exact Or.inl h
  | cons a rest ih =>
    rcases ih h with h | ⟨b, hb, hob⟩
    · rcases mem_get_register h with h | h
      · exact Or.inl h
      · exact Or.inr ⟨a, List.mem_cons_self .., h⟩
    · exact Or.inr ⟨b, List.mem_cons_of_mem a hb, hob⟩

/-- The overloads that evaluate no code. -/
def plainActions : List (String × List Operand × Action) :=
  General.actions ++ Arithmetic.actions ++ Sequence.actions

/-- Each overload of the language is in one of its lists of actions. -/
theorem exists_action_of_mem_builtin (h : ov ∈ builtin.get name) :
    ∃ a ∈ plainActions ++ Control.actions,
      name = utf8 a.1 ∧ ov.signature = a.2.1 ∧ ov.action = a.2.2 := by
  unfold plainActions
  rcases mem_get_registerAll h with h | ⟨a, ha, hov⟩
  · rcases mem_get_registerAll h with h | ⟨a, ha, hov⟩
    · rcases mem_get_registerAll h with h | ⟨a, ha, hov⟩
      · rcases mem_get_registerAll h with h | ⟨a, ha, hov⟩
        · exact absurd h (by simp [get, empty, Table.get?, Table.empty])
        · exact ⟨a, by simp [ha], hov⟩
      · exact ⟨a, by simp [ha], hov⟩
    · exact ⟨a, by simp [ha], hov⟩
  · exact ⟨a, by simp [ha], hov⟩

end OperatorTable

/-! ### Selecting an overload -/

namespace Overload

/-- A signature accepts the values on top that fit it. -/
theorem exists_of_meets {os : List Operand} {vs : List Value} (h : meets os vs = true) :
    ∃ top rest, vs = top ++ rest ∧ Operand.Fit os top := by
  induction os generalizing vs with
  | nil => exact ⟨[], vs, rfl, .nil⟩
  | cons o os ih =>
    cases vs with
    | nil => exact absurd h (by simp [meets])
    | cons v vs =>
      simp only [meets, Bool.and_eq_true] at h
      obtain ⟨top, rest, rfl, hfit⟩ := ih h.2
      exact ⟨v :: top, rest, rfl, .cons h.1 hfit⟩

/-- Whether values meet the demands of a signature depends on their kinds only. -/
theorem meets_congr {os : List Operand} {vs us : List Value}
    (h : List.Forall₂ (fun v u => v.kind = u.kind) vs us) : meets os vs = meets os us := by
  induction os generalizing vs us with
  | nil => cases h <;> rfl
  | cons o os ih =>
    cases h with
    | nil => rfl
    | cons hk ht => simp only [meets, Operand.accepts, hk, ih ht]

end Overload

namespace OperatorTable

/-- The names of kinds depend on the kinds only. -/
theorem kindNames_congr {vs us : List Value}
    (h : List.Forall₂ (fun v u => v.kind = u.kind) vs us) :
    Value.kindNames vs = Value.kindNames us := by
  induction h with
  | nil => rfl
  | cons hk _ ih => simpa [Value.kindNames, hk] using ih

/-- What is reported where no overload fits depends on the kinds of the operands only. -/
theorem mismatch_congr (op : Bytes) (arity : Nat) {vs us : List Value}
    (h : List.Forall₂ (fun v u => v.kind = u.kind) vs us) :
    mismatch op arity vs = mismatch op arity us := by
  have htop := List.forall₂_take arity h
  simp only [mismatch, htop.length_eq, h.length_eq, kindNames_congr (List.rel_reverse htop)]

/-- **Kinds decide.** Which overload is selected, or how that fails, depends on the kinds of
    the visible values alone. -/
theorem resolve_congr (t : OperatorTable) (op : Bytes) {vs us : List Value}
    (h : List.Forall₂ (fun v u => v.kind = u.kind) vs us) :
    t.resolve op vs = t.resolve op us := by
  have hacc : (fun ov : Overload => ov.accepts vs) = fun ov => ov.accepts us := by
    funext ov
    exact Overload.meets_congr h
  unfold resolve
  cases t.get op with
  | nil => rfl
  | cons first rest => simp only [hacc, mismatch_congr op first.arity h]

/-- A failure to select an overload names the operator and has no position. -/
theorem exists_cause_of_resolve {t : OperatorTable} {op : Bytes} {vs : List Value} {f : Failure}
    (h : t.resolve op vs = .error f) : ∃ c : Cause, f = { cause := c, op := op } ∧ c.Classed := by
  unfold resolve at h
  split at h
  · cases h
    exact ⟨_, rfl, nofun⟩
  · split at h
    · cases h
    · cases h
      simp only [mismatch]
      split
      · exact ⟨_, rfl, nofun⟩
      · exact ⟨_, rfl, nofun⟩

/-- The overload that is found is one of the operator, and fits what lies on top of the stack. -/
theorem mem_and_fit_of_resolve {t : OperatorTable} {op : Bytes} {vs : List Value} {ov : Overload}
    (h : t.resolve op vs = .ok ov) :
    ov ∈ t.get op ∧ ∃ args rest, vs = args.reverse ++ rest ∧ Operand.Fit ov.signature args := by
  unfold resolve at h
  split at h
  · cases h
  · rename_i first more hget
    split at h
    · rename_i found hfind
      cases h
      refine ⟨hget ▸ List.mem_of_find?_eq_some hfind, ?_⟩
      have hacc : ov.accepts vs = true := List.find?_some (p := fun o : Overload => o.accepts vs) hfind
      obtain ⟨top, rest, rfl, hfit⟩ := Overload.exists_of_meets hacc
      refine ⟨top.reverse, rest, by rw [List.reverse_reverse], ?_⟩
      rw [← List.reverse_reverse ov.signature]
      exact List.rel_reverse hfit
    · cases h

end OperatorTable

/-! ### Applying an operator -/

namespace Evaluator

/-- Operands on top of a stack are taken off it. -/
theorem take_of_fit {st : Stack} {args rest : List Value} (h : st.visible = args.reverse ++ rest) :
    st.take args.length = .ok (args, { st with visible := rest }) := by
  have hlen : args.reverse.length = args.length := List.length_reverse
  have htake : st.visible.take args.length = args.reverse := by
    rw [h, ← hlen]
    exact List.take_left
  have hdrop : st.visible.drop args.length = rest := by
    rw [h, ← hlen]
    exact List.drop_left
  unfold Stack.take
  simp [htake, hdrop]

/-- What applying an operator can do. -/
theorem operate_cases (t : OperatorTable) (ctx : Context) (op : Bytes) (m : Machine) :
    (∃ f, t.resolve op m.stack.visible = .error f ∧
      operate t ctx op m = .error (.issue (.failure f)) m) ∨
    (∃ ov ∈ t.get op, ∃ args rest, t.resolve op m.stack.visible = .ok ov ∧
      m.stack.visible = args.reverse ++ rest ∧ Operand.Fit ov.signature args ∧
      operate t ctx op m = ov.action ctx args
        { m with stack := { m.stack with visible := rest } }) := by
  unfold operate
  cases hr : t.resolve op m.stack.visible with
  | error f => exact Or.inl ⟨f, rfl, rfl⟩
  | ok ov =>
    obtain ⟨hmem, args, rest, hvis, hfit⟩ := OperatorTable.mem_and_fit_of_resolve hr
    refine Or.inr ⟨ov, hmem, args, rest, rfl, hvis, hfit, ?_⟩
    have harity : ov.arity = args.length := hfit.length_eq
    simp only [harity, take_of_fit hvis]

end Evaluator

end StackLang
