import StackLang.Proofs.Simulation.Exact
import StackLang.Proofs.Value.Recast

namespace StackLang

/-!
# Operators on values in another guise

* `Effect.recast` — what an operator without code does, with values in another guise;
* `OperatorTable.Commutes` — an operator that does the same to operands in another guise, and
  makes of them what it makes of the operands themselves, in that guise;
* `OperatorTable.commutes` — every operator without code does;
* `Effect.perform_injective` — different effects are different steps.
-/

/-- Values of the same kinds fit the same signatures. -/
theorem Operand.fit_congr {signature : List Operand} {args brgs : List Value}
    (hkinds : List.Forall₂ (fun v u => v.kind = u.kind) args brgs)
    (h : Operand.Fit signature args) : Operand.Fit signature brgs := by
  induction hkinds generalizing signature with
  | nil => exact h
  | cons hkind _ ih =>
    cases h with
    | cons hacc hfit => exact .cons (by rwa [accepts, ← hkind]) (ih hfit)

namespace Effect

/-- The effect with values in another guise. -/
def recast (c : Recast) : Effect → Effect
  | push vs => push (vs.map (Value.recast c))
  | pushList es => pushList (es.map (Value.recast c))
  | clear => clear
  | fail cause => fail cause

/-- Different effects are different steps. -/
theorem perform_injective : Function.Injective perform := by
  -- The machines with no values and with one value on their stacks tell the effects apart.
  let m := Machine.start .empty 0
  intro e f h
  have hnone : e.perform m = f.perform m := congrFun h m
  have hone : e.perform (m.withVisible [.bool true]) = f.perform (m.withVisible [.bool true]) :=
    congrFun h _
  have hlength : ∀ vs : List Value, vs.reverseAux [Value.bool true] ≠ [] := by
    intro vs
    rw [List.reverseAux_eq]
    simp
  cases e with
  | push vs =>
    cases f with
    | push us =>
      injection hnone with _ hmachine
      have hvisible : vs.reverseAux [] = us.reverseAux [] :=
        congrArg (fun k => k.stack.visible) hmachine
      rw [List.reverseAux_eq, List.reverseAux_eq, List.append_nil, List.append_nil,
        List.reverse_inj] at hvisible
      rw [hvisible]
    | pushList es =>
      injection hnone with _ hmachine
      exact absurd (congrArg Machine.nextList hmachine) (by simp [m, Machine.start])
    | clear =>
      injection hone with _ hmachine
      exact absurd (congrArg (fun k => k.stack.visible) hmachine) (hlength vs)
    | fail c => exact absurd hnone nofun
  | pushList es =>
    cases f with
    | push us =>
      injection hnone with _ hmachine
      exact absurd (congrArg Machine.nextList hmachine) (by simp [m, Machine.start])
    | pushList us =>
      injection hnone with _ hmachine
      have hvisible : [Value.list 0 es] = [Value.list 0 us] :=
        congrArg (fun k => k.stack.visible) hmachine
      simpa using hvisible
    | clear =>
      injection hone with _ hmachine
      exact absurd (congrArg Machine.nextList hmachine) (by simp [m, Machine.start])
    | fail c => exact absurd hnone nofun
  | clear =>
    cases f with
    | push us =>
      injection hone with _ hmachine
      exact absurd (congrArg (fun k => k.stack.visible) hmachine).symm (hlength us)
    | pushList us =>
      injection hone with _ hmachine
      exact absurd (congrArg Machine.nextList hmachine) (by simp [m, Machine.start])
    | clear => rfl
    | fail c => exact absurd hnone nofun
  | fail c =>
    cases f with
    | fail d =>
      injection hnone with hhalt _
      injection hhalt with hissue
      injection hissue with hfailure
      injection hfailure with hcause
      rw [hcause]
    | _ => exact absurd hnone nofun

end Effect

namespace OperatorTable

variable {c : Recast}

/-- An action that does the same to operands in another guise. -/
def Commutes (signature : List Operand) (action : Action) : Prop :=
  ∀ (c : Recast) args, Operand.Fit signature args → ∃ e : Effect,
    (∀ ctx, action ctx args = e.perform) ∧
      ∀ ctx, action ctx (args.map (Value.recast c)) = (e.recast c).perform

/-! ### Operands that have one guise only -/

/-- What is made of operands that have no other guise has none. -/
theorem recast_of_made {args : List Value} (hargs : ∀ v ∈ args, v.recast c = v) {v : Value}
    (h : v.Made args) : v.recast c = v := by
  induction h with
  | operand hv => exact hargs _ hv
  | bool b => rfl
  | int n => rfl
  | float x => rfl
  | str s => rfl
  | @element v e _ he ih =>
    have helems : v.elements.map (Value.recast c) = v.elements := by
      rw [← Value.elements_recast, ih]
    exact map_eq_self_iff.mp helems e he
  | tuple _ ih =>
    rw [Value.recast_tuple, map_eq_self_iff.mpr ih]
  | join _ _ ihp ihq =>
    rw [Value.recast_block] at ihp ihq ⊢
    rw [List.map_append, Value.block.inj ihp, Value.block.inj ihq]

/-- Demands that only values without another guise meet. -/
def Flat (o : Operand) : Prop := ∀ v : Value, o.accepts v = true →
  v.kind = .bool ∨ v.kind = .int ∨ v.kind = .float ∨ v.kind = .str

/-- Truth values, numbers and strings have no other guise. -/
theorem flat_of_mem {o : Operand} (ho : o ∈ [Operand.bool, .int, .number, .str]) : Flat o := by
  intro v h
  simp only [List.mem_cons, List.not_mem_nil, or_false] at ho
  rcases ho with rfl | rfl | rfl | rfl <;> cases v <;>
    simp_all [Operand.accepts, Operand.acceptsKind, Value.kind]

/-- Operands that are truth values, numbers and strings are the same in any guise. -/
theorem recast_of_flat : ∀ {signature : List Operand} {args : List Value},
    (∀ o ∈ signature, Flat o) → Operand.Fit signature args → ∀ v ∈ args, v.recast c = v
  | [], [], _, .nil => by simp
  | o :: os, v :: vs, hflat, .cons hacc hfit => by
    intro u hu
    rcases List.mem_cons.mp hu with rfl | hu
    · exact Value.recast_of_flat c (hflat o List.mem_cons_self u hacc)
    · exact recast_of_flat (fun o ho => hflat o (List.mem_cons_of_mem _ ho)) hfit u hu

/-- An operator that demands truth values, numbers and strings only does the same in any guise. -/
theorem commutes_of_flat {a : String × List Operand × Action} (ha : a ∈ plainActions)
    (hflat : ∀ o ∈ a.2.1, Flat o) : Commutes a.2.1 a.2.2 := by
  intro c args hfit
  have hargs := recast_of_flat (c := c) hflat hfit
  obtain ⟨e, he, hmade⟩ := exists_made_effect ha args hfit
  have hsame : e.recast c = e := by
    cases e with
    | push vs =>
      exact congrArg Effect.push (map_eq_self_iff.mpr fun v hv => recast_of_made hargs (hmade v hv))
    | pushList es =>
      exact congrArg Effect.pushList
        (map_eq_self_iff.mpr fun v hv => recast_of_made hargs (hmade v hv))
    | _ => rfl
  refine ⟨e, he, ?_⟩
  rw [map_eq_self_iff.mpr hargs, hsame]
  exact he

/-! ### Shapes of actions -/

/-- Operators with one operand that push values. -/
theorem push_commutes {o : Operand} {action : Action} {f : Value → List Value}
    (haction : ∀ ctx v, action ctx [v] = Eval.pushAll (f v))
    (hf : ∀ (c : Recast) v, f (v.recast c) = (f v).map (Value.recast c)) : Commutes [o] action
  | c, [v], .cons _ .nil => by
    refine ⟨.push (f v), fun _ => haction _ v, fun ctx => ?_⟩
    rw [Effect.recast, ← hf]
    exact haction ctx (v.recast c)

/-- An operator that pushes whether its operands are equal does so in any guise. -/
theorem equal_commutes {action : Action} {f : Bool → Bool}
    (haction : ∀ ctx v u, action ctx [v, u] = Eval.push (.bool (f (v.equals u)))) :
    Commutes [.any, .any] action
  | c, [v, u], .cons _ (.cons _ .nil) => by
    refine ⟨.push [.bool (f (v.equals u))], fun ctx => haction ctx v u, fun ctx => ?_⟩
    have hrecast := haction ctx (v.recast c) (u.recast c)
    rwa [Value.equals_recast] at hrecast

/-- `$` with an index selects the same element in any guise. -/
theorem index_commutes : Commutes [.iterable, .int] General.index
  | c, [v, _], .cons _ (.cons hint .nil) => by
    obtain ⟨i, rfl⟩ := Operand.exists_int hint
    simp only [General.index, List.map_cons, List.map_nil, Value.recast, Value.index?_recast,
      Value.length_recast]
    -- The value has an element at the position in both guises, or in neither.
    cases v.index? i.toInt with
    | none => exact ⟨.fail _, fun _ => rfl, fun _ => rfl⟩
    | some e => exact ⟨.push [e], fun _ => rfl, fun _ => rfl⟩

/-- A sequence like its sources has its elements in another guise if they are. -/
theorem pushLike_commutes (c : Recast) (sources elems : List Value) :
    ∃ e : Effect, Sequence.pushLike sources elems = e.perform ∧
      Sequence.pushLike (sources.map (Value.recast c)) (elems.map (Value.recast c))
        = (e.recast c).perform := by
  have hkinds : (sources.map (Value.recast c)).any (·.kind == .list)
      = sources.any (·.kind == .list) := by
    rw [List.any_map]
    simp [Function.comp_def]
  unfold Sequence.pushLike
  rw [hkinds]
  split
  · exact ⟨.pushList elems, rfl, rfl⟩
  · refine ⟨.push [.tuple elems], rfl, ?_⟩
    rw [Effect.recast, List.map_cons, Value.recast_tuple]
    rfl

/-- An operator on elements that is natural does the same in any guise. -/
theorem onElements_commutes {f : List Value → List Value → List Value}
    (hf : Sequence.Natural f) : Commutes [.sequence, .sequence] (Sequence.onElements f)
  | c, [v, u], .cons _ (.cons _ .nil) => by
    obtain ⟨e, he, hrecast⟩ := pushLike_commutes c [v, u] (f v.elements u.elements)
    refine ⟨e, fun _ => he, fun _ => ?_⟩
    rw [← hrecast, ← hf, ← Value.elements_recast, ← Value.elements_recast]
    rfl

/-- Blocks in another guise are joined as they are. -/
theorem joinBlocks_commutes : Commutes [.block, .block] Sequence.joinBlocks
  | c, [_, _], .cons hp (.cons hq .nil) => by
    obtain ⟨p, rfl⟩ := Operand.exists_block hp
    obtain ⟨q, rfl⟩ := Operand.exists_block hq
    refine ⟨.push [.block (p ++ q)], fun _ => rfl, fun _ => ?_⟩
    simp only [List.map_cons, List.map_nil, Value.recast_block, Effect.recast, List.map_append]
    rfl

/-- Copies in another guise are the same number of copies, or refused alike. -/
theorem repeatValue_commutes (c : Recast) (n : Int64) (v : Value) :
    ∃ e : Effect, Sequence.repeatValue n v = e.perform ∧
      Sequence.repeatValue n (v.recast c) = (e.recast c).perform := by
  by_cases hstr : v.kind = .str
  · -- A string has no other guise, and neither have its copies.
    obtain ⟨s, rfl⟩ := Operand.exists_str (show Operand.str.accepts v = true by
      simp [Operand.accepts, Operand.acceptsKind, hstr])
    cases hcount : Sequence.repeatCount s.length n with
    | error cause =>
      exact ⟨.fail cause, by simp only [Sequence.repeatValue, hcount]; rfl,
        by simp only [Sequence.repeatValue, Value.recast, hcount]; rfl⟩
    | ok k =>
      exact ⟨.push [.str (Sequence.copies k s)], by simp only [Sequence.repeatValue, hcount]; rfl,
        by simp only [Sequence.repeatValue, Value.recast, hcount]; rfl⟩
  · have hrepeat : ∀ w : Value, w.kind ≠ .str → w.elements.length = v.elements.length →
        (∀ cause, Sequence.repeatCount v.elements.length n = .error cause →
          Sequence.repeatValue n w = Eval.fail cause) ∧
        ∀ k, Sequence.repeatCount v.elements.length n = .ok k →
          Sequence.repeatValue n w = Sequence.pushLike [w] (Sequence.copies k w.elements) := by
      intro w hw hlength
      rw [← hlength]
      cases w with
      | str s => exact absurd rfl hw
      | _ => exact ⟨fun _ h => by simp only [Sequence.repeatValue, h],
          fun _ h => by simp only [Sequence.repeatValue, h]⟩
    have hsame := hrepeat v hstr rfl
    have hother := hrepeat (v.recast c) (by rwa [Value.kind_recast]) (by
      rw [Value.elements_recast, List.length_map])
    cases hcount : Sequence.repeatCount v.elements.length n with
    | error cause => exact ⟨.fail cause, hsame.1 cause hcount, hother.1 cause hcount⟩
    | ok k =>
      rw [hsame.2 k hcount, hother.2 k hcount, Value.elements_recast, Sequence.copies_map]
      exact pushLike_commutes c [v] (Sequence.copies k v.elements)

/-- Repetition with the count in front does the same in any guise. -/
theorem repetition_commutes_left {o : Operand} : Commutes [.int, o] Sequence.repetition
  | c, [_, v], .cons hint (.cons _ .nil) => by
    obtain ⟨n, rfl⟩ := Operand.exists_int hint
    obtain ⟨e, he, hrecast⟩ := repeatValue_commutes c n v
    exact ⟨e, fun _ => he, fun _ => hrecast⟩

theorem repetition_commutes_right {o : Operand} (ho : ∀ k, o.accepts (.int k) = false) :
    Commutes [o, .int] Sequence.repetition
  | c, [v, _], .cons hacc (.cons hint .nil) => by
    obtain ⟨n, rfl⟩ := Operand.exists_int hint
    have hswap : ∀ w : Value, w.kind ≠ .int → ∀ ctx,
        Sequence.repetition ctx [w, .int n] = Sequence.repeatValue n w := by
      intro w hw ctx
      cases w with
      | int k => exact absurd rfl hw
      | _ => rfl
    have hkind : v.kind ≠ .int := by
      intro hv
      have hint : o.accepts v = o.accepts (.int 0) := by
        rw [Operand.accepts, Operand.accepts, hv]
        rfl
      rw [ho] at hint
      exact absurd hacc (by simp [hint])
    obtain ⟨e, he, hrecast⟩ := repeatValue_commutes c n v
    refine ⟨e, fun ctx => (hswap v hkind ctx).trans he, fun ctx => ?_⟩
    rw [← hrecast]
    exact hswap (v.recast c) (by rwa [Value.kind_recast]) ctx

/-! ### All actions without code -/

/-- The general operators that evaluate no code do the same in any guise. -/
theorem general_commutes {a : String × List Operand × Action} (ha : a ∈ General.actions) :
    Commutes a.2.1 a.2.2 := by
  have hplain : a ∈ plainActions := List.mem_append_left _ (List.mem_append_left _ ha)
  simp only [General.actions, List.mem_cons, List.not_mem_nil, or_false] at ha
  rcases ha with rfl | rfl | rfl | rfl | rfl | rfl | rfl | rfl | rfl | rfl | rfl
  · exact push_commutes (f := fun v => [v, v]) (fun _ _ => rfl) fun _ _ => rfl
  · exact push_commutes (f := fun _ => []) (fun _ _ => rfl) fun _ _ => rfl
  · exact fun _ _ _ => ⟨.clear, fun _ => rfl, fun _ => rfl⟩
  · exact push_commutes (f := fun v => [.str v.text]) (fun _ _ => rfl) fun c v => by
      rw [Value.text_recast]; rfl
  · exact equal_commutes (f := id) fun _ _ _ => rfl
  · exact equal_commutes (f := not) fun _ _ _ => rfl
  · exact push_commutes (f := fun v => [.bool (!v.truthy)]) (fun _ _ => rfl) fun c v => by
      rw [Value.truthy_recast]; rfl
  · exact push_commutes (f := fun v => [.int (Int64.ofNat v.length)]) (fun _ _ => rfl) fun c v => by
      rw [Value.length_recast]; rfl
  · exact index_commutes
  · exact commutes_of_flat hplain (by simpa using flat_of_mem (o := .int) (by decide))
  · exact push_commutes (fun _ _ => rfl) Value.elements_recast

/-- The operators on numbers and truth values do the same in any guise. -/
theorem arithmetic_commutes {a : String × List Operand × Action} (ha : a ∈ Arithmetic.actions) :
    Commutes a.2.1 a.2.2 := by
  have hnumbers : ∀ a ∈ Arithmetic.actions, ∀ o ∈ a.2.1,
      o ∈ [Operand.bool, .int, .number, .str] := by
    decide
  apply commutes_of_flat (List.mem_append_left _ (List.mem_append_right _ ha))
  intro o ho
  exact flat_of_mem (hnumbers a ha o ho)

/-- The operators on sequences that evaluate no code do the same in any guise. -/
theorem sequence_commutes {a : String × List Operand × Action} (ha : a ∈ Sequence.actions) :
    Commutes a.2.1 a.2.2 := by
  have hplain : a ∈ plainActions := List.mem_append_right _ ha
  simp only [Sequence.actions, List.mem_cons, List.not_mem_nil, or_false] at ha
  rcases ha with rfl | rfl | rfl | rfl | rfl | rfl | rfl | rfl | rfl | rfl | rfl
  · exact commutes_of_flat hplain (by simpa using flat_of_mem (o := .str) (by decide))
  · exact onElements_commutes Sequence.append_natural
  · exact joinBlocks_commutes
  · exact onElements_commutes Sequence.difference_natural
  · exact repetition_commutes_left
  · exact repetition_commutes_right fun _ => rfl
  · exact repetition_commutes_left
  · exact repetition_commutes_right fun _ => rfl
  · exact onElements_commutes Sequence.union_natural
  · exact onElements_commutes Sequence.intersection_natural
  · exact onElements_commutes Sequence.symmetricDifference_natural

/-- **Operators without code** do the same to values in any guise. -/
theorem commutes {a : String × List Operand × Action} (ha : a ∈ plainActions) :
    Commutes a.2.1 a.2.2 := by
  rcases List.mem_append.mp ha with ha | ha
  · rcases List.mem_append.mp ha with ha | ha
    · exact general_commutes ha
    · exact arithmetic_commutes ha
  · exact sequence_commutes ha

end OperatorTable

end StackLang
