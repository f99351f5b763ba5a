import StackLang.Proofs.Simulation.Callers
import StackLang.Proofs.Machine.Positions
import StackLang.Proofs.Operator.Recast
import StackLang.Proofs.Value.Positions

namespace StackLang

/-!
# Evaluations of programs that differ in positions

Two evaluations are compared that begin with the same program and the same values, but for the
positions of symbols, also inside blocks.  Positions show up in reports on failures and nowhere
else.

* `Halt.bare` — a halt without what tells where it happened;
* `Simulation.positions` — all steps of evaluations keep the two together;
* `Evaluator.run_positions` — and so do whole programs.
-/

/-! ### Halts without positions -/

/-- A failure without what tells where it happened. -/
def Failure.bare (f : Failure) : Failure := { cause := f.cause }

/-- A halt without what tells where it happened. -/
def Halt.bare (h : Halt) : Halt := h.map Failure.bare

/-- Changing failures in anything but their causes does not change the bare halt. -/
theorem Halt.bare_map {g : Failure → Failure} (hg : ∀ f, (g f).cause = f.cause) (h : Halt) :
    (h.map g).bare = h.bare := by
  cases h with
  | issue i => cases i <;> simp [bare, map, Issue.map, Failure.bare, hg]
  | _ => rfl

/-- Reporting a failure for a symbol keeps its cause. -/
theorem Evaluator.annotate_cause (s : Symbol) (f : Failure) : (annotate s f).cause = f.cause := by
  unfold annotate
  split
  · split
    · unfold Failure.withOp
      split <;> rfl
    · rfl
  · rfl

/-- Moving a failure out of a string keeps its cause. -/
theorem Failure.relocated_cause (f : Failure) : f.relocated.cause = f.cause := by
  unfold relocated
  split <;> rfl

/-! ### The comparison -/

/-- Evaluations that agree up to positions. -/
def Comparison.positions : Comparison where
  World := Unit
  value v u := v.unspanned = u.unspanned
  symbol s t := s.unspanned = t.unspanned
  halt h g := h.bare = g.bare
  lost _ := False
  machine _ m n := m.unspanned = n.unspanned

namespace Positions

open Comparison (positions)

/-- Values correspond one by one if they are the same up to positions. -/
theorem values_iff {vs us : List Value} :
    positions.values vs us ↔ vs.map Value.unspanned = us.map Value.unspanned := by
  rw [← List.forall₂_eq_eq_eq, List.forall₂_map_left_iff, List.forall₂_map_right_iff]
  rfl

/-- Programs correspond symbol by symbol if they are the same up to positions. -/
theorem program_iff {p q : Program} :
    positions.program p q ↔ Symbol.unspannedAll p = Symbol.unspannedAll q := by
  rw [Symbol.unspannedAll_eq, Symbol.unspannedAll_eq, ← List.forall₂_eq_eq_eq,
    List.forall₂_map_left_iff, List.forall₂_map_right_iff]
  rfl

/-- A block corresponds to blocks only. -/
theorem exists_block {p : Program} {u : Value}
    (h : positions.value (.block p) u) : ∃ q, u = .block q ∧ positions.program p q := by
  have h : Value.unspanned (.block p) = u.unspanned := h
  cases u with
  | block q => exact ⟨q, rfl, program_iff.mpr (Value.block.inj h)⟩
  | _ => exact absurd h (by simp [Value.unspanned])

/-- Symbols that are the same up to positions are of the same shape, part by part. -/
theorem shape_of_unspanned {s t : Symbol} (h : positions.symbol s t) : positions.Shape s t := by
  have h : s.unspanned = t.unspanned := h
  cases s with
  | literal v _ =>
    cases t with
    | literal u _ => exact (Symbol.literal.inj h).1
    | _ => exact absurd h (by simp [Symbol.unspanned])
  | name a _ =>
    cases t with
    | name b _ => exact (Symbol.name.inj h).1
    | _ => exact absurd h (by simp [Symbol.unspanned])
  | operator a _ =>
    cases t with
    | operator b _ => exact (Symbol.operator.inj h).1
    | _ => exact absurd h (by simp [Symbol.unspanned])
  | group k p _ =>
    cases t with
    | group l q _ =>
      obtain ⟨hk, hpq, -⟩ := Symbol.group.inj h
      exact ⟨hk, program_iff.mpr hpq⟩
    | _ => exact absurd h (by simp [Symbol.unspanned])
  | blank _ =>
    cases t with
    | blank _ => trivial
    | _ => exact absurd h (by simp [Symbol.unspanned])

/-! ### Operators without code -/

/-- Effects correspond if they are the same without positions. -/
theorem alike_of_recast {e f : Effect} (h : e.recast .unspanned = f.recast .unspanned) :
    e.Alike positions f := by
  cases e <;> cases f <;> simp only [Effect.recast, reduceCtorEq, Effect.push.injEq,
    Effect.pushList.injEq, Effect.fail.injEq] at h
  · exact values_iff.mpr (Value.unspanned_funext ▸ h)
  · exact values_iff.mpr (Value.unspanned_funext ▸ h)
  · trivial
  · rw [h]
    rfl

/-- **Operators without code** do not look at positions. -/
theorem plain {a : String × List Operand × Action} (ha : a ∈ OperatorTable.plainActions) :
    positions.Plain a.2.1 a.2.2 := by
  intro args brgs hv hfit
  have hsame : args.map (Value.recast .unspanned) = brgs.map (Value.recast .unspanned) :=
    Value.unspanned_funext ▸ values_iff.mp hv
  have hfit' : Operand.Fit a.2.1 brgs := Operand.fit_congr (hv.imp fun v u h => by
    rw [← v.kind_unspanned, show v.unspanned = u.unspanned from h, u.kind_unspanned]) hfit
  obtain ⟨e, he, hrecast⟩ := OperatorTable.commutes ha .unspanned args hfit
  obtain ⟨f, hf, hrecast'⟩ := OperatorTable.commutes ha .unspanned brgs hfit'
  refine ⟨e, f, he, hf, alike_of_recast (Effect.perform_injective ?_)⟩
  let ctx : Context := ⟨fun _ => .ok [], fun _ => pure (), 0⟩
  rw [← hrecast ctx, ← hrecast' ctx, hsame]

/-! ### Elementary steps -/

variable {α β : Type} {A : α → β → Prop} {w : Unit} {m n : Machine}

/-- Machines correspond if they are the same up to positions, in every world. -/
theorem machine_of (h : positions.machine w m n) : m.unspanned = n.unspanned := h

theorem frames_eq (h : m.unspanned = n.unspanned) : m.frames = n.frames := by
  have hframes := congrArg Machine.frames h
  exact hframes

theorem nextList_eq (h : m.unspanned = n.unspanned) : m.nextList = n.nextList := by
  have hnext := congrArg Machine.nextList h
  exact hnext

theorem depth_eq (h : m.unspanned = n.unspanned) : m.depth = n.depth := by
  have hdepth := congrArg Machine.depth h
  exact hdepth

theorem scopes_size (h : m.unspanned = n.unspanned) : m.scopes.size = n.scopes.size := by
  have hsize := congrArg (fun k => k.scopes.size) h
  simpa only [Machine.unspanned, Scopes.size_map] using hsize

/-- Reading machines that are the same up to positions gives such machines. -/
theorem get_respects :
    positions.Respects (fun m n => m.unspanned = n.unspanned) w (get : Eval Machine) get :=
  fun _ _ hm => ⟨hm, hm⟩

/-- The same scope is active in machines that are the same up to positions. -/
theorem activeScope_respects : positions.Respects Eq w Eval.activeScope Eval.activeScope := by
  intro m n hm
  unfold Eval.activeScope Machine.current
  rw [frames_eq hm]
  cases n.frames with
  | nil => exact Or.inr ⟨rfl, hm⟩
  | cons f rest => exact ⟨rfl, hm⟩

/-- A change that goes through taking positions away keeps machines alike. -/
theorem modify_respects {g : Machine → Machine}
    (hg : ∀ m n, m.unspanned = n.unspanned → (g m).unspanned = (g n).unspanned) :
    positions.Respects Eq w (modify g) (modify g) :=
  fun m n hm => ⟨rfl, hg m n hm⟩

/-- A name is bound in both machines or in neither, to values that are the same up to positions. -/
theorem lookup_respects (name : Bytes) :
    positions.Respects positions.value w (Eval.lookup name) (Eval.lookup name) := by
  refine activeScope_respects.bind ?_
  rintro scope _ rfl
  refine get_respects.bind fun m n hm => ?_
  have hscopes : m.scopes.map Value.unspanned = n.scopes.map Value.unspanned :=
    congrArg Machine.scopes hm
  have hfind : (m.scopes.find? scope name).map (fun r => (r.1, r.2.unspanned))
      = (n.scopes.find? scope name).map fun r => (r.1, r.2.unspanned) := by
    unfold Scopes.find?
    rw [← Scopes.findFrom_map, hscopes, Scopes.findFrom_map]
  unfold Machine.lookup
  cases hm : m.scopes.find? scope name with
  | none =>
    cases hn : n.scopes.find? scope name with
    | none => exact .throw rfl
    | some r => simp [hm, hn] at hfind
  | some r =>
    cases hn : n.scopes.find? scope name with
    | none => simp [hm, hn] at hfind
    | some q =>
      rw [hm, hn] at hfind
      exact .pure (congrArg Prod.snd (Option.some.inj hfind))

/-- Values that are the same up to positions may be bound to the same name. -/
theorem bind_respects (name : Bytes) {v u : Value} (hvu : v.unspanned = u.unspanned) :
    positions.Respects Eq w (Eval.bind name v) (Eval.bind name u) := by
  refine activeScope_respects.bind ?_
  rintro scope _ rfl m n hm
  refine ⟨rfl, ?_⟩
  have hbind : ∀ (k : Machine) (x : Value), (k.bind scope name x).unspanned
      = k.unspanned.bind scope name x.unspanned := by
    intro k x
    simp only [Machine.bind, Machine.unspanned, Scopes.bind_map]
  show (m.bind scope name v).unspanned = (n.bind scope name u).unspanned
  rw [hbind, hbind, machine_of hm, hvu]

/-! ### Invocations -/

/-- Calls are entered alike, with the same frame. -/
theorem enter_respects (name : Bytes) (scope : Nat) :
    positions.Respects Eq w (Eval.enter name scope) (Eval.enter name scope) := by
  intro m n hm
  have henter : (m.enter name scope).map (fun r => (r.1, r.2.unspanned))
      = (n.enter name scope).map fun r => (r.1, r.2.unspanned) := by
    rw [← Machine.enter_unspanned, machine_of hm, Machine.enter_unspanned]
  unfold Eval.enter
  cases hmk : m.enter name scope with
  | error e =>
    cases hnk : n.enter name scope with
    | error g =>
      simp only [hmk, hnk, Except.map, Except.error.injEq] at henter
      exact Or.inr ⟨congrArg (fun e => (Halt.fault e).bare) henter, hm⟩
    | ok r => simp [hmk, hnk, Except.map] at henter
  | ok r =>
    cases hnk : n.enter name scope with
    | error g => simp [hmk, hnk, Except.map] at henter
    | ok q =>
      simp only [hmk, hnk, Except.map, Except.ok.injEq, Prod.mk.injEq] at henter
      exact ⟨henter.1, henter.2⟩

/-- Calls are left alike. -/
theorem leave_respects (f : Frame) (keep : Nat) :
    positions.Respects Eq w (Eval.leave f keep) (Eval.leave f keep) := by
  intro m n hm
  have hleave : (m.leave f).map Machine.unspanned = (n.leave f).map Machine.unspanned := by
    rw [← Machine.leave_unspanned, machine_of hm, Machine.leave_unspanned]
  unfold Eval.leave
  cases hmk : m.leave f with
  | error e =>
    cases hnk : n.leave f with
    | error g =>
      simp only [hmk, hnk, Except.map, Except.error.injEq] at hleave
      exact Or.inr ⟨congrArg (fun e => (Halt.fault e).bare) hleave, hm⟩
    | ok r => simp [hmk, hnk, Except.map] at hleave
  | ok r =>
    cases hnk : n.leave f with
    | error g => simp [hmk, hnk, Except.map] at hleave
    | ok q =>
      simp only [hmk, hnk, Except.map, Except.ok.injEq] at hleave
      refine ⟨rfl, ?_⟩
      have htruncate : ∀ k : Machine, { k with scopes := k.scopes.truncate keep }.unspanned
          = { k.unspanned with scopes := k.unspanned.scopes.truncate keep } := by
        intro k
        simp only [Machine.unspanned, Scopes.truncate_map]
      show { r with scopes := r.scopes.truncate keep }.unspanned
        = { q with scopes := q.scopes.truncate keep }.unspanned
      rw [htruncate, htruncate, hleave]

/-- Steps that correspond may be cleaned up behind alike. -/
theorem ensuring_respects {x : Eval α} {y : Eval β} {after : Eval Unit}
    (hx : positions.Respects A w x y) (hafter : positions.Respects Eq w after after) :
    positions.Respects A w (Eval.ensuring x after) (Eval.ensuring y after) :=
  .ensuring (fun _ h => h) hx hafter

/-- A step in a call of its own corresponds if it does so in every world. -/
theorem bracketed_respects {x : Eval α} {y : Eval β} (name : Bytes)
    (hx : ∀ w, positions.Respects A w x y) :
    positions.Respects A w (Eval.bracketed name x) (Eval.bracketed name y) := by
  refine activeScope_respects.bind ?_
  rintro scope _ rfl
  refine get_respects.bind fun m n hm => ?_
  rw [scopes_size hm]
  refine (enter_respects name scope).bind ?_
  rintro f _ rfl
  exact ensuring_respects (hx w) (leave_respects f n.scopes.size)

/-- A step in a call with a scope of its own corresponds if it does so in every world. -/
theorem bracketedIn_respects {x : Eval α} {y : Eval β} (name scopeName : Bytes)
    (hx : ∀ w, positions.Respects A w x y) :
    positions.Respects A w (Eval.bracketedIn name scopeName x)
      (Eval.bracketedIn name scopeName y) := by
  refine activeScope_respects.bind ?_
  rintro scope _ rfl
  refine get_respects.bind fun m n hm => ?_
  rw [scopes_size hm]
  have hadd : ∀ k : Machine, { k with scopes := k.scopes.add scopeName (some scope) }.unspanned
      = { k.unspanned with scopes := k.unspanned.scopes.add scopeName (some scope) } := by
    intro k
    simp only [Machine.unspanned, Scopes.add_map]
  refine (modify_respects fun k l hkl => ?_).bind fun _ _ _ => ?_
  · rw [hadd, hadd, hkl]
  · refine (enter_respects name n.scopes.size).bind ?_
    rintro f _ rfl
    exact ensuring_respects (hx w) (leave_respects f n.scopes.size)

end Positions

/-! ### The simulation -/

open Positions in
/-- **Evaluations up to positions.** -/
def Simulation.positions : Simulation where
  toComparison := .positions
  kind := by
    intro v u h
    rw [← v.kind_unspanned, show v.unspanned = u.unspanned from h, u.kind_unspanned]
  truthy := by
    intro v u h
    rw [← v.truthy_unspanned, show v.unspanned = u.unspanned from h, u.truthy_unspanned]
  elements := by
    intro v u h
    refine values_iff.mpr ?_
    rw [← v.elements_unspanned, show v.unspanned = u.unspanned from h, u.elements_unspanned]
  int := fun h => (Value.eq_of_unspanned h (Or.inr (Or.inl rfl))).symm
  str := fun h => (Value.eq_of_unspanned h (Or.inr (Or.inr (Or.inr rfl)))).symm
  block := exists_block
  tuple := by
    intro es fs h
    show Value.unspanned (.tuple es) = Value.unspanned (.tuple fs)
    rw [Value.unspanned, Value.unspanned, Value.unspannedAll_eq, Value.unspannedAll_eq,
      values_iff.mp h]
  plain := fun _ ha => Positions.plain ha
  shape := shape_of_unspanned
  halt_ofCause := fun _ _ => rfl
  halt_badTarget := by
    intro s t h
    show Halt.bare _ = Halt.bare _
    rw [← s.text_unspanned, show s.unspanned = t.unspanned from h, t.text_unspanned]
  halt_unexpected := by
    intro s t h
    show Halt.bare _ = Halt.bare _
    rw [← s.text_unspanned, show s.unspanned = t.unspanned from h, t.text_unspanned]
  halt_annotate := by
    intro s t h g _ hh
    show Halt.bare _ = Halt.bare _
    rw [Halt.bare_map (Evaluator.annotate_cause s), Halt.bare_map (Evaluator.annotate_cause t)]
    exact hh
  halt_relocated := by
    intro h g hh
    show Halt.bare _ = Halt.bare _
    rw [Halt.bare_map Failure.relocated_cause, Halt.bare_map Failure.relocated_cause]
    exact hh
  lost_annotate := fun _ h => h
  lost_relocated := fun h => h
  visible := fun h => values_iff.mpr (congrArg (fun m => m.stack.visible) (machine_of h))
  withVisible := by
    intro w m n vs us hm hv
    have hvisible : ∀ (k : Machine) (xs : List Value), (k.withVisible xs).unspanned
        = k.unspanned.withVisible (xs.map Value.unspanned) := fun _ _ => rfl
    show (m.withVisible vs).unspanned = (n.withVisible us).unspanned
    rw [hvisible, hvisible, machine_of hm, values_iff.mp hv]
  newList := by
    intro w m n es fs hm h
    refine ⟨?_, ?_⟩
    · show Value.unspanned (.list m.nextList es) = Value.unspanned (.list n.nextList fs)
      rw [Value.unspanned, Value.unspanned, Value.unspannedAll_eq, Value.unspannedAll_eq,
        values_iff.mp h, nextList_eq hm]
    · exact congrArg (fun k : Machine => { k with nextList := k.nextList + 1 }) (machine_of hm)
  lookup := fun _ => lookup_respects
  bind := fun _ name _ _ h => bind_respects name h
  bracketed := fun _ => bracketed_respects
  bracketedIn := fun _ => bracketedIn_respects

namespace Positions

/-- The nesting of calls is limited on both sides alike. -/
theorem nests (limit : Nat) : Simulation.positions.Nests Simulation.positions limit where
  symbol h := h
  nested := by
    intro x y hx w
    refine get_respects.bind fun m n hm => ?_
    rw [depth_eq hm]
    split
    · exact .throw rfl
    · refine (modify_respects fun k l hkl => ?_).bind fun _ _ _ => ?_
      · exact congrArg (fun k : Machine => { k with depth := k.depth + 1 }) hkl
      · refine ensuring_respects (hx w) (modify_respects fun k l hkl => ?_)
        exact congrArg (fun k : Machine => { k with depth := k.depth - 1 }) hkl

/-- The same source text is parsed to one program on both sides. -/
theorem parses (parse : Parser) : Simulation.positions.Parses parse := by
  intro source
  cases parse source with
  | ok p => exact Or.inl ⟨p, rfl, program_iff.mpr rfl⟩
  | error i => exact Or.inr ⟨i, rfl, rfl⟩

end Positions

/-- **Two evaluations that agree up to positions** at their start agree up to positions at their
    end. -/
theorem Evaluator.run_positions (parse : Parser) (maxDepth rounds levels : Nat) {p q : Program}
    (hpq : Symbol.unspannedAll p = Symbol.unspannedAll q) {m n : Machine}
    (hm : m.unspanned = n.unspanned) :
    Comparison.positions.Alike Eq () ((Evaluator.builtin parse maxDepth rounds).run levels p m)
      ((Evaluator.builtin parse maxDepth rounds).run levels q n) :=
  Simulation.run_respects (Evaluator.builtin parse maxDepth rounds)
    (fun _ => Simulation.positions) (fun _ => rfl) (fun _ => Simulation.keepsTable_builtin _ rfl)
    (fun _ => Positions.parses parse) (fun _ => Positions.nests maxDepth) levels 0 () p q
    (Positions.program_iff.mpr hpq) m n hm

end StackLang
