import StackLang.Proofs.Value.Source
import StackLang.Proofs.Simulation.Depth
import StackLang.Proofs.Simulation.Invariant
import StackLang.Proofs.Evaluation.Sequencing
import StackLang.Proofs.Evaluation.Protection

namespace StackLang

/-!
# Inspection

The text of a value that an evaluation leaves evaluates to a value of the same structure.

* `Evaluator.sourced_of_evaluateText` — all values that an evaluation leaves or binds have blocks
  that source text can denote;
* `Value.Renewed` — a value of the same structure, in which all lists are new;
* `Machine.Gains` — a machine to which some values were added, and nothing else that a program
  could notice;
* `Evaluator.Pushes`, `Evaluator.PushesAll` — a symbol or a program adds values of the same
  structure as given ones, with one rule for each way in which values are put together;
* `Evaluator.pushes_source` — the symbol that stands for a value does so;
* `Evaluator.inspection_evaluates` — the text of a value evaluates to a value of the same
  structure.
-/

/-! ### The values of an evaluation -/

/-- The elements of a value whose blocks have source text are such values. -/
theorem Value.sourced_elements {v : Value} (h : v.isSourced = true) :
    ∀ e ∈ v.elements, e.isSourced = true := by
  cases v with
  | list _ vs => exact Value.areSourced_iff.mp h
  | tuple vs => exact Value.areSourced_iff.mp h
  | str s =>
    intro e he
    obtain ⟨c, -, rfl⟩ := List.mem_map.mp he
    rfl
  | _ => exact fun e he => absurd he List.not_mem_nil

/-- Values have blocks that source text can denote, if all symbols are such. -/
def Invariant.sourced : Invariant where
  value v := v.isSourced = true
  symbol s := s.isWellFormed = true
  bool _ := rfl
  int _ := rfl
  float _ := rfl
  str _ := rfl
  list := Value.areSourced_iff.mpr
  tuple := Value.areSourced_iff.mpr
  elements := Value.sourced_elements
  join := by
    -- Joined blocks are all the code that operators make.
    intro p q hp hq
    rw [Value.isSourced, Symbol.areWellFormed_iff] at *
    intro s hs
    exact (List.mem_append.mp hs).elim (hp s) (hq s)
  block := Symbol.areWellFormed_iff.mp
  literal := by
    intro v span h
    cases v with
    | block body => exact h
    | list _ _ => exact absurd h (by simp [Symbol.isWellFormed, Value.isWellFormed])
    | tuple _ => exact absurd h (by simp [Symbol.isWellFormed, Value.isWellFormed])
    | _ => rfl
  group := by
    intro k p span h
    cases k with
    | unspecified => exact absurd h (by simp [Symbol.isWellFormed])
    | _ => exact Symbol.areWellFormed_iff.mp h

namespace Evaluator

/-- The parser used in evaluations gives the program of a text whenever there is one. -/
theorem parser_eq_ok {source : Bytes} {p : Program} :
    parser source = .ok p ↔ Program.parse source = .ok p := by
  unfold parser
  cases Program.parse source with
  | ok q => simp
  | error f => simp

/-- A text is evaluated successfully if its program runs so, and the values and the memory are those
    behind it. -/
theorem evaluateText_eq_ok {ev : Evaluator} {source : Bytes} {before after : Memory}
    {initial vs : List Value} :
    ev.evaluateText source before initial = (.ok vs, after) ↔
      ∃ p k, ev.parse source = .ok p ∧
        ev.run (ev.maxDepth + 1) p (start before initial) = .ok () k ∧
        k.stack.values = vs ∧ memoryOf k = after := by
  unfold evaluateText
  cases hp : ev.parse source with
  | error i => simp
  | ok p =>
    simp only [evaluate]
    cases hrun : ev.run (ev.maxDepth + 1) p (start before initial) with
    | error h k => simp [hrun]
    | ok _ k => simp [hrun]

/-- Parsed programs have source text. -/
theorem parsed_sourced : Invariant.sourced.Parsed parser := fun _ _ hp =>
  Symbol.areWellFormed_iff.mp (Program.parse_wellFormed (parser_eq_ok.mp hp))

/-- **The values of an evaluation.** If the values bound before an evaluation have blocks that
    source text can denote, then so have those that it leaves and those bound afterwards. -/
theorem sourced_of_evaluateText {maxDepth rounds : Nat} {source : Bytes} {before after : Memory}
    {vs : List Value}
    (hbefore : ∀ name v, before.globals.get? name = some v → v.isSourced = true)
    (h : (Evaluator.builtin parser maxDepth rounds).evaluateText source before []
      = (.ok vs, after)) :
    (∀ v ∈ vs, v.isSourced = true) ∧
      ∀ name v, after.globals.get? name = some v → v.isSourced = true := by
  obtain ⟨p, k, hp, hrun, rfl, rfl⟩ := evaluateText_eq_ok.mp h
  have hstart : Invariant.sourced.Holds (start before []) :=
    ⟨by simp [start, Machine.start, Stack.empty, Stack.pushAll], .root hbefore⟩
  have hend := run_holds parsed_sourced (fun _ => trivial) maxDepth rounds (maxDepth + 1)
    (parsed_sourced source p hp) hstart
  rw [show (Evaluator.builtin parser maxDepth rounds).run (maxDepth + 1) p (start before [])
    = .ok () k from hrun] at hend
  refine ⟨fun v hv => hend.stack v (Or.inl (List.mem_reverse.mp hv)), fun name v hv => ?_⟩
  exact hend.bound.tableOf hv

end Evaluator

/-! ### Values of the same structure -/

mutual

/-- A value of the same structure, in which all lists have been made after a given number of
    lists. -/
def Value.Renewed (since : Nat) : Value → Value → Prop
  | .bool a, .bool b => a = b
  | .int a, .int b => a = b
  | .float x, .float y => x = y
  | .str a, .str b => a = b
  | .list _ vs, .list j us => since ≤ j ∧ Value.AllRenewed since vs us
  | .tuple vs, .tuple us => Value.AllRenewed since vs us
  | .block p, .block q => Symbol.equalsAll p q = true
  | _, _ => False

/-- Values of the same structure, one by one. -/
def Value.AllRenewed (since : Nat) : List Value → List Value → Prop
  | [], [] => True
  | v :: vs, u :: us => v.Renewed since u ∧ Value.AllRenewed since vs us
  | _, _ => False

end

mutual

/-- What is renewed since some number of lists is so since any smaller number. -/
theorem Value.Renewed.mono {since later : Nat} (hle : since ≤ later) : ∀ {v u : Value},
    v.Renewed later u → v.Renewed since u
  | .bool _, u, h => by cases u <;> exact h
  | .int _, u, h => by cases u <;> exact h
  | .float _, u, h => by cases u <;> exact h
  | .str _, u, h => by cases u <;> exact h
  | .list _ vs, u, h => by
    cases u with
    | list j us => exact ⟨hle.trans h.1, Value.AllRenewed.mono hle h.2⟩
    | _ => exact h
  | .tuple vs, u, h => by
    cases u with
    | tuple us =>
      have hall : Value.AllRenewed later vs us := h
      exact Value.AllRenewed.mono hle hall
    | _ => exact h
  | .block _, u, h => by cases u <;> exact h

/-- Values renewed since some number of lists are so since any smaller number. -/
theorem Value.AllRenewed.mono {since later : Nat} (hle : since ≤ later) : ∀ {vs us : List Value},
    Value.AllRenewed later vs us → Value.AllRenewed since vs us
  | [], us, h => by cases us <;> exact h
  | v :: vs, us, h => by
    cases us with
    | nil => exact h
    | cons u us => exact ⟨Value.Renewed.mono hle h.1, Value.AllRenewed.mono hle h.2⟩

end

/-- A value without elements has the structure of any that differs from it in positions alone. -/
theorem Value.renewed_of_unspanned {v u : Value} (h : v.isSourced = true)
    (hatom : v.nesting = 0) (hu : u.unspanned = v.unspanned) (since : Nat) :
    v.Renewed since u := by
  cases v with
  | list _ _ => exact absurd hatom (by simp [Value.nesting])
  | tuple _ => exact absurd hatom (by simp [Value.nesting])
  | block p =>
    cases u with
    | block q =>
      have hq : Symbol.unspannedAll q = Symbol.unspannedAll p := by
        simpa [Value.unspanned] using hu
      exact Symbol.equalsAll_of_unspanned p q h hq.symm
    | _ => exact absurd hu (by simp [Value.unspanned])
  | _ =>
    -- The other values have no positions in them.
    cases u <;> simp [Value.unspanned] at hu
    exact hu.symm

/-! ### Symbols that stand for values -/

/-- A machine to which values were added on top of the stack; lists and frames may have been made
    meanwhile. -/
structure Machine.Gains (m : Machine) (us : List Value) (k : Machine) : Prop where
  visible : k.stack.visible = us.reverse ++ m.stack.visible
  hidden : k.stack.hidden = m.stack.hidden
  frames : k.frames = m.frames
  scopes : k.scopes = m.scopes
  depth : k.depth = m.depth
  nextList : m.nextList ≤ k.nextList

namespace Machine.Gains

variable {m k l : Machine} {us ws : List Value}

theorem refl (m : Machine) : m.Gains [] m := ⟨rfl, rfl, rfl, rfl, rfl, le_refl _⟩

/-- Values added one time after another are added together. -/
theorem trans (h : m.Gains us k) (hk : k.Gains ws l) : m.Gains (us ++ ws) l where
  visible := by rw [hk.visible, h.visible, List.reverse_append, List.append_assoc]
  hidden := hk.hidden.trans h.hidden
  frames := hk.frames.trans h.frames
  scopes := hk.scopes.trans h.scopes
  depth := hk.depth.trans h.depth
  nextList := h.nextList.trans hk.nextList

/-- A machine that gains values stays within its call. -/
theorem within (h : m.Gains us k) : m.Within k where
  frames := h.frames
  hidden := h.hidden
  depth := h.depth
  scopes_size := by rw [h.scopes]
  scopes_get := fun _ _ => by rw [h.scopes]
  scopes_active := by rw [h.scopes]

/-- A value pushed is a value gained. -/
theorem push (m : Machine) (v : Value) : m.Gains [v] (m.withVisible (v :: m.stack.visible)) :=
  ⟨rfl, rfl, rfl, rfl, rfl, le_refl _⟩

end Machine.Gains

namespace Symbol

/-- A symbol that is a literal up to positions is a literal. -/
theorem exists_literal {s : Symbol} {v : Value} {span : Span}
    (h : s.unspanned = (Symbol.literal v span).unspanned) :
    ∃ u place, s = .literal u place ∧ u.unspanned = v.unspanned := by
  cases s with
  | literal u place => exact ⟨u, place, rfl, (Symbol.literal.inj h).1⟩
  | _ => exact absurd h (by simp [Symbol.unspanned])

/-- A symbol that is a group up to positions is a group of the same kind with the same symbols. -/
theorem exists_group {s : Symbol} {k : Group} {p : Program} {span : Span}
    (h : s.unspanned = (Symbol.group k p span).unspanned) :
    ∃ q place, s = .group k q place ∧ Symbol.unspannedAll q = Symbol.unspannedAll p := by
  cases s with
  | group l q place =>
    obtain ⟨rfl, hq, -⟩ := Symbol.group.inj h
    exact ⟨q, place, rfl, hq⟩
  | _ => exact absurd h (by simp [Symbol.unspanned])

end Symbol

namespace Evaluator

variable {parse : Parser} {maxDepth rounds : Nat}

/-- If the symbols of a program add some values one level deeper, then so does the program. -/
theorem run_gains {levels : Nat} {m k : Machine} (hlow : m.depth < maxDepth) {p : Program}
    {us : List Value}
    (hsteps : steps .builtin ((Evaluator.builtin parse maxDepth rounds).context levels) p
      (m.atDepth (m.depth + 1)) = .ok () k)
    (hk : (m.atDepth (m.depth + 1)).Gains us k) :
    ∃ r, (Evaluator.builtin parse maxDepth rounds).run (levels + 1) p m = .ok () r ∧
      m.Gains us r := by
  refine ⟨k.atDepth (k.depth - 1), ?_, ?_⟩
  · rw [run_succ, if_neg (Nat.not_le.mpr hlow), hsteps]
    rfl
  · have hdepth : k.depth - 1 = m.depth := by
      rw [hk.depth]
      rfl
    exact ⟨hk.visible, hk.hidden, hk.frames, hk.scopes, hdepth, hk.nextList⟩

/-- If a program adds some values to a stack of its own, then these are collected, and nothing else
    has changed. -/
theorem collect_gains {levels : Nat} {m r : Machine} (hm : m.Coherent) {name : Bytes}
    {body : Program} {us : List Value}
    (hrun : (Evaluator.builtin parse maxDepth rounds).run levels body (m.callee name name)
      = .ok () r)
    (hr : (m.callee name name).Gains us r) :
    ∃ k, ((Evaluator.builtin parse maxDepth rounds).context levels).collect name body m
      = .ok us k ∧ m.Gains [] k := by
  have hvalues : r.stack.values = us := by
    have hvisible : r.stack.visible = us.reverse ++ [] := hr.visible
    rw [Stack.values, hvisible, List.append_nil, List.reverse_reverse]
  -- What is taken off at the end of the group is what its symbols have pushed.
  have hinner : (do
      ((Evaluator.builtin parse maxDepth rounds).context levels).run body
      Eval.takeAll) (m.callee name name) = .ok us (r.withVisible []) := by
    show EStateM.bind ((Evaluator.builtin parse maxDepth rounds).run levels body) _ _ = _
    simp only [EStateM.bind, hrun]
    rw [← hvalues]
    rfl
  have hwithin : (m.callee name name).Within (r.withVisible []) :=
    hr.within.trans ⟨rfl, rfl, rfl, rfl, fun _ _ => rfl, rfl⟩
  refine ⟨m.resumed (r.withVisible []), ?_,
    rfl, rfl, rfl, hwithin.resumed_scopes, hr.depth, hr.nextList⟩
  unfold Context.collect
  rw [Eval.bracketedIn_eq hm name name _ (by rw [hinner]; exact hwithin), hinner]
  rfl

/-- A symbol puts a value of the same structure as a given one on the stack, and nothing else,
    wherever there are levels enough for the lists and tuples in it. -/
structure Pushes (ev : Evaluator) (s : Symbol) (v : Value) : Prop where
  isAssign_eq : isAssign s = false
  step_eq : ∀ (levels : Nat) (m : Machine), m.Coherent → v.nesting ≤ levels →
    v.nesting + m.depth ≤ ev.maxDepth →
    ∃ u k, step ev.table (ev.context levels) s m = .ok () k ∧ m.Gains [u] k ∧
      v.Renewed m.nextList u

/-- A program puts values of the same structure as given ones on the stack, and nothing else,
    wherever there are levels enough for the lists and tuples in them. -/
def PushesAll (ev : Evaluator) (p : Program) (vs : List Value) : Prop :=
  ∀ (levels : Nat) (m : Machine), m.Coherent → Value.nestings vs ≤ levels →
    Value.nestings vs + m.depth ≤ ev.maxDepth →
    ∃ us k, steps ev.table (ev.context levels) p m = .ok () k ∧ m.Gains us k ∧
      Value.AllRenewed m.nextList vs us

theorem pushesAll_nil (ev : Evaluator) : ev.PushesAll [] [] := fun _ m _ _ _ =>
  ⟨[], m, rfl, .refl m, trivial⟩

/-- A symbol that pushes a value, in front of a program that pushes values, pushes all of them. -/
theorem pushesAll_cons {ev : Evaluator} {s : Symbol} {p : Program} {v : Value} {vs : List Value}
    (hs : ev.Pushes s v) (hp : ev.PushesAll p vs) : ev.PushesAll (s :: p) (v :: vs) := by
  intro levels m hm hlevels hdepth
  rw [Value.nestings] at hlevels hdepth
  -- The first symbol makes lists, so that those of the others are newer still.
  obtain ⟨u, k, hstep, hk, hu⟩ := hs.step_eq levels m hm (by omega) (by omega)
  have hcoherent : k.Coherent := hk.within.coherent hm
  have hroom : Value.nestings vs + k.depth ≤ ev.maxDepth := by
    rw [hk.depth]
    omega
  obtain ⟨us, l, hsteps, hl, hus⟩ := hp levels k hcoherent (by omega) hroom
  refine ⟨u :: us, l, ?_, hk.trans hl, hu, hus.mono hk.nextList⟩
  have hmapped : Eval.mapIssue (Issue.map (annotate s)) (step ev.table (ev.context levels) s) m
      = .ok () k := by
    rw [Eval.mapIssue_eq, hstep]
    rfl
  rw [steps_cons hs.isAssign_eq, bind_of_ok hmapped, hsteps]

/-- A literal of a sourced value. -/
theorem pushes_literal {ev : Evaluator} {v : Value} {s : Symbol}
    (hs : s.unspanned = (Symbol.literal v .none).unspanned) (hv : v.isSourced = true)
    (hatom : v.nesting = 0) : ev.Pushes s v := by
  obtain ⟨u, place, rfl, hu⟩ := Symbol.exists_literal hs
  refine ⟨rfl, fun levels m _ _ _ => ⟨u, _, rfl, .push m u, ?_⟩⟩
  exact Value.renewed_of_unspanned hv hatom hu _

/-- The values of a group are collected one level deeper. -/
theorem collect_of_pushesAll {p : Program} {vs : List Value}
    (hp : (Evaluator.builtin parse maxDepth rounds).PushesAll p vs) {levels : Nat} {m : Machine}
    (hm : m.Coherent) (hlevels : Value.nestings vs + 1 ≤ levels)
    (hdepth : Value.nestings vs + 1 + m.depth ≤ maxDepth) (name : Bytes) :
    ∃ us k, ((Evaluator.builtin parse maxDepth rounds).context levels).collect name p m
      = .ok us k ∧ m.Gains [] k ∧ Value.AllRenewed m.nextList vs us := by
  obtain ⟨l, rfl⟩ : ∃ l, levels = l + 1 := ⟨levels - 1, by omega⟩
  have hinner : ((m.callee name name).atDepth (m.depth + 1)).Coherent :=
    Machine.coherent_called ..
  have hroom : Value.nestings vs + (m.depth + 1) ≤ maxDepth := by omega
  obtain ⟨us, k, hsteps, hk, hus⟩ := hp l _ hinner (by omega) hroom
  have hlow : (m.callee name name).depth < maxDepth := by
    show m.depth < maxDepth
    omega
  obtain ⟨r, hrun, hr⟩ := run_gains hlow hsteps hk
  obtain ⟨r', hcollect, hr'⟩ := collect_gains hm hrun hr
  exact ⟨us, r', hcollect, hr', hus⟩

/-- The brackets of a list around a program that pushes its elements push a new list of them. -/
theorem pushes_list {p : Program} {vs : List Value}
    (hp : (Evaluator.builtin parse maxDepth rounds).PushesAll p vs) (id : Nat) (span : Span) :
    (Evaluator.builtin parse maxDepth rounds).Pushes (.group .list p span) (.list id vs) := by
  refine ⟨rfl, fun levels m hm hlevels hdepth => ?_⟩
  obtain ⟨us, k, hcollect, hk, hus⟩ := collect_of_pushesAll hp hm hlevels hdepth (utf8 "list")
  -- The list is made after those in it.
  refine ⟨.list k.nextList us, { k with
    stack := k.stack.push (.list k.nextList us), nextList := k.nextList + 1 }, ?_, ?_, ?_⟩
  · show EStateM.bind _ _ m = _
    simp only [EStateM.bind, hcollect]
    rfl
  · exact ⟨congrArg (_ :: ·) hk.visible, hk.hidden, hk.frames, hk.scopes, hk.depth,
      hk.nextList.trans (Nat.le_succ _)⟩
  · exact ⟨hk.nextList, hus⟩

/-- The parentheses of a tuple around a program that pushes its elements push the tuple. -/
theorem pushes_tuple {p : Program} {vs : List Value}
    (hp : (Evaluator.builtin parse maxDepth rounds).PushesAll p vs) (span : Span) :
    (Evaluator.builtin parse maxDepth rounds).Pushes (.group .tuple p span) (.tuple vs) := by
  refine ⟨rfl, fun levels m hm hlevels hdepth => ?_⟩
  obtain ⟨us, k, hcollect, hk, hus⟩ := collect_of_pushesAll hp hm hlevels hdepth (utf8 "tuple")
  refine ⟨.tuple us, _, ?_, hk.trans (.push k (.tuple us)), hus⟩
  show EStateM.bind _ _ m = _
  simp only [EStateM.bind, hcollect]
  rfl

mutual

/-- **The symbol that stands for a value** puts a value of the same structure on the stack. -/
theorem pushes_source : ∀ (v : Value) {s : Symbol}, s.unspanned = v.source.unspanned →
    v.isSourced = true → (Evaluator.builtin parse maxDepth rounds).Pushes s v
  | .bool _, _, hs, hv => pushes_literal hs hv rfl
  | .int _, _, hs, hv => pushes_literal hs hv rfl
  | .float _, _, hs, hv => pushes_literal hs hv rfl
  | .str _, _, hs, hv => pushes_literal hs hv rfl
  | .list id vs, s, hs, hv => by
    obtain ⟨p, span, rfl, hp⟩ := Symbol.exists_group hs
    exact pushes_list (pushesAll_sources vs hp hv) id span
  | .tuple vs, s, hs, hv => by
    obtain ⟨p, span, rfl, hp⟩ := Symbol.exists_group hs
    exact pushes_tuple (pushesAll_sources vs hp hv) span
  | .block _, _, hs, hv => pushes_literal hs hv rfl

/-- The symbols that stand for some values push these values. -/
theorem pushesAll_sources : ∀ (vs : List Value) {p : Program},
    Symbol.unspannedAll p = Symbol.unspannedAll (Value.sources vs) → Value.areSourced vs = true →
    (Evaluator.builtin parse maxDepth rounds).PushesAll p vs
  | [], [], _, _ => pushesAll_nil _
  | [], _ :: _, hp, _ => absurd hp (by simp [Symbol.unspannedAll, Value.sources])
  | _ :: _, [], hp, _ => absurd hp (by simp [Symbol.unspannedAll, Value.sources])
  | v :: vs, s :: p, hp, hv => by
    obtain ⟨hs, hrest⟩ := List.cons.inj hp
    obtain ⟨hv, hvs⟩ := Bool.and_eq_true_iff.mp hv
    exact pushesAll_cons (pushes_source v hs hv) (pushesAll_sources vs hrest hvs)

end

/-! ### Inspection texts -/

/-- What is evaluated in any scope from the symbol that stands for a value. -/
theorem run_source (parse : Parser) (rounds : Nat) {v : Value} {s : Symbol}
    (hs : s.unspanned = v.source.unspanned) (hv : v.isSourced = true)
    (hdepth : v.nesting < maxDepth) (scopes : Scopes Value) (root lists : Nat) :
    ∃ u k, (Evaluator.builtin parse maxDepth rounds).run (maxDepth + 1) [s]
        (.opening scopes root lists []) = .ok () k ∧
      k.stack.values = [u] ∧ k.scopes = scopes ∧ v.Renewed lists u := by
  have hone : (Evaluator.builtin parse maxDepth rounds).PushesAll [s] [v] :=
    pushesAll_cons (pushes_source v hs hv) (pushesAll_nil _)
  have hnesting : Value.nestings [v] = v.nesting := Nat.max_zero _
  let m := Machine.opening scopes root lists []
  have hm : (m.atDepth (m.depth + 1)).Coherent := Machine.coherent_opening scopes root lists []
  have hroom : Value.nestings [v] + (0 + 1) ≤ maxDepth := by omega
  obtain ⟨us, k, hsteps, hk, hus⟩ := hone maxDepth _ hm (by omega) hroom
  obtain ⟨r, hrun, hr⟩ := run_gains (show m.depth < maxDepth from Nat.zero_lt_of_lt hdepth) hsteps hk
  match us, hus with
  | [u], ⟨hu, _⟩ =>
    refine ⟨u, r, hrun, ?_, hr.scopes, hu⟩
    rw [Stack.values, hr.visible]
    rfl

/-- **Inspection text evaluates back.**  Let a value be left on the stack or bound in the root
    scope by a source text that is evaluated in a fresh root scope, let it contain no float that
    is not a number, and let its lists and tuples be nested less deeply than evaluations may be.
    Then its text is accepted, and evaluating it succeeds whatever scope names are looked up and
    bound in: it leaves one value, of the same structure, and changes no binding. -/
theorem inspection_evaluates (maxDepth rounds lists : Nat) {source : Bytes} {vs : List Value}
    {memory : Memory}
    (heval : (Evaluator.builtin parser maxDepth rounds).evaluateText source ⟨.empty, lists⟩ []
      = (.ok vs, memory))
    {v : Value} (hv : v ∈ vs ∨ ∃ name, memory.globals.get? name = some v)
    (hnan : v.containsNaN = false) (hdepth : v.nesting < maxDepth) :
    (∀ other : Memory, ∃ u made,
      (Evaluator.builtin parser maxDepth rounds).evaluateText v.text other []
          = (.ok [u], ⟨other.globals, made⟩) ∧
        v.Renewed other.lists u) ∧
    ∃ p, parser v.text = .ok p ∧ ∀ (scopes : Scopes Value) (root lists : Nat), ∃ u k,
      (Evaluator.builtin parser maxDepth rounds).run (maxDepth + 1) p
          (.opening scopes root lists []) = .ok () k ∧
        k.stack.values = [u] ∧ k.scopes = scopes ∧ v.Renewed lists u := by
  have hfresh : ∀ name u, (Table.empty : Table Value).get? name = some u → u.isSourced = true :=
    fun _ _ h => absurd h (by simp [Table.get?, Table.empty])
  obtain ⟨hstack, hbound⟩ := sourced_of_evaluateText hfresh heval
  have hsourced : v.isSourced = true := by
    rcases hv with hv | ⟨name, hv⟩
    · exact hstack v hv
    · exact hbound name v hv
  obtain ⟨s, hparse, hs⟩ := Value.parse_inspection hsourced hnan
  have hparser : parser v.text = .ok [s] := parser_eq_ok.mpr hparse
  refine ⟨fun other => ?_, [s], hparser, run_source parser rounds hs hsourced hdepth⟩
  -- A root scope alone is one of the scopes that names can be looked up in.
  obtain ⟨u, k, hrun, hvalues, hscopes, hu⟩ := run_source parser rounds hs hsourced hdepth
    (.root other.globals) Machine.globals other.lists
  refine ⟨u, k.nextList, evaluateText_eq_ok.mpr ⟨[s], k, hparser, hrun, hvalues, ?_⟩, hu⟩
  unfold memoryOf
  rw [hscopes]
  rfl

/-- A list with a number and a block in it. -/
def inspected : Value := .list 0 [.int 1, .block [.name (utf8 "x") ⟨4, 5⟩]]

/-- The text of `[1 {x}]` evaluates to a list of its own with the same elements. -/
theorem inspection_evaluates_inspected :
    (Evaluator.builtin parser 5 5).evaluateText (utf8 "[1 \x7bx\x7d]") ⟨.empty, 0⟩ []
        = (.ok [inspected], ⟨.empty, 1⟩) ∧
      ∃ u made, (Evaluator.builtin parser 5 5).evaluateText inspected.text ⟨.empty, 7⟩ []
          = (.ok [u], ⟨.empty, made⟩) ∧
        inspected.Renewed 7 u := by
  have heval : (Evaluator.builtin parser 5 5).evaluateText (utf8 "[1 \x7bx\x7d]") ⟨.empty, 0⟩ []
      = (.ok [inspected], ⟨.empty, 1⟩) := rfl
  exact ⟨heval, (inspection_evaluates 5 5 0 heval (Or.inl List.mem_cons_self) rfl (by decide)).1
    ⟨.empty, 7⟩⟩

end Evaluator

end StackLang
