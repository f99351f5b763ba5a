import StackLang.Proofs.Simulation.Callers

namespace StackLang

/-!
# Properties that evaluations keep

A property of values that operators without code hand on from operands to results holds of all
values that an evaluation handles, if it holds of those at its start and of all literals.

* `Invariant` — such a property of values, and what it demands of symbols;
* `Invariant.Holds` — it holds of all values in a machine, on the stack and bound to names;
* `Simulation.invariant` — all steps of evaluations keep it: the comparison of an evaluation
  with itself;
* `Evaluator.run_holds` — and so do whole programs.
-/

/-- A property of values and symbols that is handed on from operands to results, and from
    programs to their parts; and one of halts, from where they arise to where they are reported. -/
structure Invariant where
  value : Value → Prop
  symbol : Symbol → Prop
  halt : Halt → Prop := fun _ => True
  bool : ∀ b, value (.bool b)
  int : ∀ n, value (.int n)
  float : ∀ x, value (.float x)
  str : ∀ s, value (.str s)
  list : ∀ {id es}, (∀ e ∈ es, value e) → value (.list id es)
  tuple : ∀ {es}, (∀ e ∈ es, value e) → value (.tuple es)
  elements : ∀ {v}, value v → ∀ e ∈ v.elements, value e
  join : ∀ {p q}, value (.block p) → value (.block q) → value (.block (p ++ q))
  block : ∀ {p}, value (.block p) → ∀ s ∈ p, symbol s
  literal : ∀ {v span}, symbol (.literal v span) → value v
  group : ∀ {k p span}, symbol (.group k p span) → ∀ s ∈ p, symbol s
  fault : ∀ f, halt (.fault f) := by intros; trivial
  exhausted : halt .exhausted := by trivial
  ofCause : ∀ c op, halt (.ofCause c op) := by intros; trivial
  annotate : ∀ {s h}, symbol s → halt h → halt (h.map (Evaluator.annotate s)) := by
    intros; trivial
  relocated : ∀ {h}, halt h → halt (h.map Failure.relocated) := by intros; trivial

/-! ### Machines -/

namespace Scopes

variable {α : Type}

/-- The scopes that are not discarded are as before. -/
theorem get?_truncate {s : Scopes α} {n id : Nat} {sc : Scope α}
    (h : (s.truncate n).get? id = some sc) : s.get? id = some sc := by
  have hshrink : (s.all.shrink n)[id]? = some sc := h
  obtain ⟨hid, hget⟩ := Array.getElem?_eq_some_iff.mp hshrink
  rw [Array.getElem_shrink] at hget
  exact Array.getElem?_eq_some_iff.mpr ⟨_, hget⟩

/-- A name that is found in a chain of scopes is bound in one of them. -/
theorem exists_of_findFrom {s : Scopes α} {name : Bytes} {fuel id found : Nat} {a : α}
    (h : s.findFrom name fuel id = some (found, a)) :
    ∃ sc, s.get? found = some sc ∧ sc.table.get? name = some a := by
  induction fuel generalizing id with
  | zero => exact absurd h (by simp [findFrom])
  | succ fuel ih =>
    rw [findFrom] at h
    split at h
    · exact absurd h (by simp)
    · rename_i sc hsc
      split at h
      · rename_i b hb
        obtain ⟨rfl, rfl⟩ := Prod.mk.inj (Option.some.inj h)
        exact ⟨sc, hsc, hb⟩
      · split at h
        · exact absurd h (by simp)
        · exact ih h

end Scopes

/-- After one more binding a value is the new one or was bound before. -/
theorem Table.get?_bind {α : Type} {t : Table α} {name other : Bytes} {a b : α}
    (h : (t.bind name a).get? other = some b) : b = a ∨ t.get? other = some b := by
  unfold bind at h
  split at h
  · exact Or.inr h
  · rw [get?_insert] at h
    split at h
    · exact Or.inl (Option.some.inj h).symm
    · exact Or.inr h

/-- Moving the boundary makes no values. -/
theorem Stack.mem_protect {s : Stack} {boundary : Nat} {v : Value}
    (h : v ∈ (s.protect boundary).visible ∨ v ∈ (s.protect boundary).hidden) :
    v ∈ s.visible ∨ v ∈ s.hidden := by
  unfold protect at h
  split at h
  · -- More values are protected, but no others.
    rcases h with h | h
    · exact Or.inl (List.mem_of_mem_take h)
    · exact (List.mem_append.mp h).imp_left List.mem_of_mem_drop
  · rcases h with h | h
    · exact (List.mem_append.mp h).imp_right List.mem_of_mem_take
    · exact Or.inr (List.mem_of_mem_drop h)

namespace Invariant

variable (inv : Invariant)

/-- All values in some scopes have the property. -/
def Binds (scopes : Scopes Value) : Prop :=
  ∀ id sc, scopes.get? id = some sc → ∀ name v, sc.table.get? name = some v → inv.value v

/-- All values in a machine have the property. -/
structure Holds (m : Machine) : Prop where
  stack : ∀ v, v ∈ m.stack.visible ∨ v ∈ m.stack.hidden → inv.value v
  bound : inv.Binds m.scopes

variable {inv} {m : Machine}

/-- The global scope has the property if the global table has it. -/
theorem Binds.root {globals : Table Value}
    (h : ∀ name v, globals.get? name = some v → inv.value v) : inv.Binds (.root globals) := by
  intro id sc hsc name v hv
  have hone : (#[⟨Scopes.rootName, none, globals⟩] : Array (Scope Value))[id]? = some sc := hsc
  obtain ⟨hid, rfl⟩ := Array.getElem?_eq_some_iff.mp hone
  obtain rfl : id = 0 := by simpa using hid
  exact h name v hv

/-- What is read from a table of scopes with the property has it. -/
theorem Binds.tableOf {scopes : Scopes Value} (h : inv.Binds scopes) {id : Nat} {name : Bytes}
    {v : Value} (hv : (scopes.tableOf id).get? name = some v) : inv.value v := by
  unfold Scopes.tableOf at hv
  cases hsc : scopes.get? id with
  | none =>
    rw [hsc] at hv
    exact absurd hv (by simp [Table.get?, Table.empty])
  | some sc =>
    rw [hsc] at hv
    exact h id sc hsc name v hv

/-- Binding a value with the property keeps the property of all bindings. -/
theorem Binds.bind {scopes : Scopes Value} (h : inv.Binds scopes) (scope : Nat) (name : Bytes)
    {v : Value} (hv : inv.value v) : inv.Binds (scopes.bind scope name v) := by
  intro id sc hsc other u hu
  have hmodify : (scopes.all.modify scope fun sc => { sc with table := sc.table.bind name v })[id]?
      = some sc := hsc
  rw [Array.getElem?_modify] at hmodify
  split at hmodify
  · obtain ⟨old, hold, rfl⟩ := Option.map_eq_some_iff.mp hmodify
    rcases Table.get?_bind hu with rfl | hu
    · exact hv
    · exact h id old hold other u hu
  · exact h id sc hmodify other u hu

/-- A new scope binds nothing, and so it keeps the property. -/
theorem Binds.add {scopes : Scopes Value} (h : inv.Binds scopes) (name : Bytes)
    (parent? : Option Nat) : inv.Binds (scopes.add name parent?) := by
  intro id sc hsc other u hu
  by_cases hid : id = scopes.size
  · -- A new scope binds nothing.
    have hpush : (scopes.all.push ⟨name, parent?, .empty⟩)[id]? = some sc := hsc
    rw [Array.getElem?_push, if_pos (show id = scopes.all.size from hid)] at hpush
    rw [← Option.some.inj hpush] at hu
    exact absurd hu (by simp [Table.get?, Table.empty])
  · rw [Scopes.get?_add_of_ne _ _ _ hid] at hsc
    exact h id sc hsc other u hu

/-- Discarding scopes keeps the property of all bindings. -/
theorem Binds.truncate {scopes : Scopes Value} (h : inv.Binds scopes) (n : Nat) :
    inv.Binds (scopes.truncate n) := fun id sc hsc =>
  h id sc (Scopes.get?_truncate hsc)

/-- A name stands for a value with the property. -/
theorem Holds.lookup (h : inv.Holds m) {scope : Nat} {name : Bytes} {v : Value}
    (hv : m.lookup scope name = .ok v) : inv.value v := by
  unfold Machine.lookup at hv
  split at hv
  · rename_i id u hfind
    obtain rfl := Except.ok.inj hv
    obtain ⟨sc, hsc, hu⟩ := Scopes.exists_of_findFrom hfind
    exact h.bound id sc hsc name u hu
  · exact absurd hv (by simp)

/-- Moving the boundary keeps the property of a machine. -/
theorem Holds.protect (h : inv.Holds m) (boundary : Nat) :
    inv.Holds { m with stack := m.stack.protect boundary } :=
  ⟨fun v hv => h.stack v (Stack.mem_protect hv), h.bound⟩

/-- Entering a call keeps the property of a machine. -/
theorem Holds.enter (h : inv.Holds m) {name : Bytes} {scope : Nat} {f : Frame} {k : Machine}
    (hk : m.enter name scope = .ok (f, k)) : inv.Holds k := by
  unfold Machine.enter at hk
  split at hk
  · rename_i g r hpush
    obtain ⟨-, rfl⟩ := Prod.mk.inj (Except.ok.inj hk)
    -- The frame is new; the stack and the scopes are those of before.
    have hr : r.stack = m.stack ∧ r.scopes = m.scopes := by
      unfold Machine.pushFrame at hpush
      split at hpush
      · split at hpush
        · exact absurd hpush (by simp)
        · obtain ⟨-, rfl⟩ := Prod.mk.inj (Except.ok.inj hpush)
          exact ⟨rfl, rfl⟩
      · obtain ⟨-, rfl⟩ := Prod.mk.inj (Except.ok.inj hpush)
        exact ⟨rfl, rfl⟩
    have hold : inv.Holds r := ⟨by rw [hr.1]; exact h.stack, by rw [hr.2]; exact h.bound⟩
    exact hold.protect r.stack.size
  · exact absurd hk (by simp)

/-- Leaving a call keeps the property of a machine. -/
theorem Holds.leave (h : inv.Holds m) {f : Frame} {k : Machine} (hk : m.leave f = .ok k) :
    inv.Holds k := by
  unfold Machine.leave at hk
  split at hk
  · exact absurd hk (by simp)
  · split at hk
    · obtain rfl := Except.ok.inj hk
      exact ⟨fun v hv => h.stack v (Stack.mem_protect hv), h.bound⟩
    · exact absurd hk (by simp)

/-! ### The comparison -/

variable (inv)

/-- An evaluation compared with itself, where all values, symbols and halts have the property. -/
def comparison : Comparison where
  World := Unit
  value v u := inv.value v ∧ v = u
  symbol s t := inv.symbol s ∧ s = t
  halt h g := inv.halt h ∧ h = g
  lost _ := False
  machine _ m n := inv.Holds m ∧ m = n

variable {inv}

/-- Sequences correspond in the comparison of a run with itself if they are equal and have the
    property. -/
theorem values_iff {vs us : List Value} :
    inv.comparison.values vs us ↔ (∀ v ∈ vs, inv.value v) ∧ vs = us := by
  rw [← List.forall₂_eq_eq_eq]
  exact List.forall₂_and_left ..

theorem program_iff {p q : Program} :
    inv.comparison.program p q ↔ (∀ s ∈ p, inv.symbol s) ∧ p = q := by
  rw [← List.forall₂_eq_eq_eq]
  exact List.forall₂_and_left ..

/-- Values made of operands with the property have it. -/
theorem made {args : List Value} (hargs : ∀ v ∈ args, inv.value v) {v : Value} (h : v.Made args) :
    inv.value v := by
  induction h with
  | operand hv => exact hargs _ hv
  | bool b => exact inv.bool b
  | int n => exact inv.int n
  | float x => exact inv.float x
  | str s => exact inv.str s
  | element _ he ih => exact inv.elements ih _ he
  | tuple _ ih => exact inv.tuple ih
  | join _ _ ihp ihq => exact inv.join ihp ihq

/-- Operators without code make values with the property of such values. -/
theorem plain {a : String × List Operand × Action} (ha : a ∈ OperatorTable.plainActions) :
    inv.comparison.Plain a.2.1 a.2.2 := by
  intro args brgs hv hfit
  obtain ⟨hargs, rfl⟩ := values_iff.mp hv
  obtain ⟨e, he, hmade⟩ := OperatorTable.exists_made_effect ha args hfit
  refine ⟨e, e, he, he, ?_⟩
  cases e with
  | push vs => exact values_iff.mpr ⟨fun v hv => made hargs (hmade v hv), rfl⟩
  | pushList es => exact values_iff.mpr ⟨fun e he => made hargs (hmade e he), rfl⟩
  | clear => trivial
  | fail c => exact ⟨inv.ofCause c [], rfl⟩

variable {α β : Type} {A : α → β → Prop} {w : Unit}

/-- Reading the machine gives one with the property. -/
theorem get_respects :
    inv.comparison.Respects (fun m n => inv.Holds m ∧ m = n) w (get : Eval Machine) get :=
  fun _ _ hm => ⟨hm, hm⟩

/-- Asking for the active scope keeps the property. -/
theorem activeScope_respects :
    inv.comparison.Respects Eq w Eval.activeScope Eval.activeScope := by
  rintro m _ ⟨hm, rfl⟩
  unfold Eval.activeScope
  cases m.current with
  | ok f => exact ⟨rfl, hm, rfl⟩
  | error e => exact Or.inr ⟨⟨inv.fault e, rfl⟩, hm, rfl⟩

/-- Looking up a name gives a value with the property. -/
theorem lookup_respects (name : Bytes) :
    inv.comparison.Respects inv.comparison.value w (Eval.lookup name) (Eval.lookup name) := by
  refine activeScope_respects.bind ?_
  rintro scope _ rfl
  refine get_respects.bind ?_
  rintro m _ ⟨hm, rfl⟩
  cases hv : m.lookup scope name with
  | ok v => exact .pure ⟨hm.lookup hv, rfl⟩
  | error f =>
    obtain rfl : { cause := .unbound name } = f := by
      unfold Machine.lookup at hv
      split at hv <;> cases hv
      rfl
    exact .throw ⟨inv.ofCause (.unbound name) [], rfl⟩

/-- Binding a value with the property keeps it. -/
theorem bind_respects (name : Bytes) {v : Value} (hv : inv.value v) :
    inv.comparison.Respects Eq w (Eval.bind name v) (Eval.bind name v) := by
  refine activeScope_respects.bind ?_
  rintro scope _ rfl m _ ⟨hm, rfl⟩
  exact ⟨rfl, ⟨hm.stack, hm.bound.bind scope name hv⟩, rfl⟩

/-- The depth of nesting is free to change, as the property does not look at it. -/
theorem atDepth_respects (f : Nat → Nat) :
    inv.comparison.Respects Eq w (modify fun m => { m with depth := f m.depth })
      (modify fun m => { m with depth := f m.depth }) := by
  rintro m _ ⟨hm, rfl⟩
  exact ⟨rfl, ⟨hm.stack, hm.bound⟩, rfl⟩

/-! ### Invocations -/

/-- Entering a call, as a step of the evaluation, keeps the property. -/
theorem enter_respects (name : Bytes) (scope : Nat) :
    inv.comparison.Respects Eq w (Eval.enter name scope) (Eval.enter name scope) := by
  rintro m _ ⟨hm, rfl⟩
  unfold Eval.enter
  cases hk : m.enter name scope with
  | ok r => exact ⟨rfl, hm.enter hk, rfl⟩
  | error e => exact Or.inr ⟨⟨inv.fault e, rfl⟩, hm, rfl⟩

/-- Leaving a call, as a step of the evaluation, keeps the property. -/
theorem leave_respects (f : Frame) (keep : Nat) :
    inv.comparison.Respects Eq w (Eval.leave f keep) (Eval.leave f keep) := by
  rintro m _ ⟨hm, rfl⟩
  unfold Eval.leave
  cases hk : m.leave f with
  | ok r => exact ⟨rfl, ⟨(hm.leave hk).stack, (hm.leave hk).bound.truncate keep⟩, rfl⟩
  | error e => exact Or.inr ⟨⟨inv.fault e, rfl⟩, hm, rfl⟩

/-- Cleaning up behind a step keeps the property, however the step ends. -/
theorem ensuring_respects {x : Eval α} {y : Eval β} {after : Eval Unit}
    (hx : inv.comparison.Respects A w x y) (hafter : inv.comparison.Respects Eq w after after) :
    inv.comparison.Respects A w (Eval.ensuring x after) (Eval.ensuring y after) :=
  .ensuring (fun _ h => h) hx hafter

/-- A step in a call of its own keeps the property if it does so in every world. -/
theorem bracketed_respects {x : Eval α} {y : Eval β} (name : Bytes)
    (hx : ∀ w, inv.comparison.Respects A w x y) :
    inv.comparison.Respects A w (Eval.bracketed name x) (Eval.bracketed name y) := by
  refine activeScope_respects.bind ?_
  rintro scope _ rfl
  refine get_respects.bind ?_
  rintro m _ ⟨-, rfl⟩
  refine (enter_respects name scope).bind ?_
  rintro f _ rfl
  exact ensuring_respects (hx w) (leave_respects f m.scopes.size)

/-- A step in a call with a scope of its own keeps the property if it does so in every world. -/
theorem bracketedIn_respects {x : Eval α} {y : Eval β} (name scopeName : Bytes)
    (hx : ∀ w, inv.comparison.Respects A w x y) :
    inv.comparison.Respects A w (Eval.bracketedIn name scopeName x)
      (Eval.bracketedIn name scopeName y) := by
  refine activeScope_respects.bind ?_
  rintro scope _ rfl
  refine get_respects.bind ?_
  rintro m _ ⟨-, rfl⟩
  have hadd : inv.comparison.Respects Eq w
      (modify fun m => { m with scopes := m.scopes.add scopeName (some scope) })
      (modify fun m => { m with scopes := m.scopes.add scopeName (some scope) }) := by
    rintro k _ ⟨hk, rfl⟩
    exact ⟨rfl, ⟨hk.stack, hk.bound.add scopeName (some scope)⟩, rfl⟩
  refine hadd.bind fun _ _ _ => (enter_respects name m.scopes.size).bind ?_
  rintro f _ rfl
  exact ensuring_respects (hx w) (leave_respects f m.scopes.size)

end Invariant

/-! ### The simulation -/

/-- **Evaluations keep invariants.** -/
def Simulation.invariant (inv : Invariant) : Simulation where
  toComparison := inv.comparison
  kind := by rintro v _ ⟨-, rfl⟩; rfl
  truthy := by rintro v _ ⟨-, rfl⟩; rfl
  elements := by
    rintro v _ ⟨hv, rfl⟩
    exact Invariant.values_iff.mpr ⟨inv.elements hv, rfl⟩
  int := fun h => h.2.symm
  str := fun h => h.2.symm
  block := by
    rintro p _ ⟨hp, rfl⟩
    exact ⟨p, rfl, Invariant.program_iff.mpr ⟨inv.block hp, rfl⟩⟩
  tuple := by
    intro es fs h
    obtain ⟨hes, rfl⟩ := Invariant.values_iff.mp h
    exact ⟨inv.tuple hes, rfl⟩
  plain := fun _ ha => Invariant.plain ha
  shape := by
    rintro s _ ⟨hs, rfl⟩
    cases s with
    | literal v _ => exact ⟨inv.literal hs, rfl⟩
    | group k p _ => exact ⟨rfl, Invariant.program_iff.mpr ⟨inv.group hs, rfl⟩⟩
    | blank _ => trivial
    | _ => rfl
  halt_ofCause := fun op _ => ⟨inv.ofCause _ op, rfl⟩
  halt_badTarget := by rintro s _ ⟨-, rfl⟩; exact ⟨inv.ofCause _ [], rfl⟩
  halt_unexpected := by rintro s _ ⟨-, rfl⟩; exact ⟨inv.ofCause _ [], rfl⟩
  halt_annotate := by rintro s _ h _ ⟨hs, rfl⟩ ⟨hh, rfl⟩; exact ⟨inv.annotate hs hh, rfl⟩
  halt_relocated := by rintro h _ ⟨hh, rfl⟩; exact ⟨inv.relocated hh, rfl⟩
  lost_annotate := fun _ h => h
  lost_relocated := fun h => h
  visible := by
    rintro w m _ ⟨hm, rfl⟩
    exact Invariant.values_iff.mpr ⟨fun v hv => hm.stack v (Or.inl hv), rfl⟩
  withVisible := by
    rintro w m _ vs us ⟨hm, rfl⟩ hv
    obtain ⟨hvs, rfl⟩ := Invariant.values_iff.mp hv
    refine ⟨⟨fun v hv => ?_, hm.bound⟩, rfl⟩
    exact hv.elim (hvs v) fun hv => hm.stack v (Or.inr hv)
  newList := by
    rintro w m _ es fs ⟨hm, rfl⟩ h
    obtain ⟨hes, rfl⟩ := Invariant.values_iff.mp h
    exact ⟨⟨inv.list hes, rfl⟩, ⟨hm.stack, hm.bound⟩, rfl⟩
  lookup := fun _ => Invariant.lookup_respects
  bind := by
    rintro w name v _ ⟨hv, rfl⟩
    exact Invariant.bind_respects name hv
  bracketed := fun _ => Invariant.bracketed_respects
  bracketedIn := fun _ => Invariant.bracketedIn_respects

namespace Invariant

variable {inv : Invariant}

/-- The nesting of calls is limited on both sides alike, as both are one run. -/
theorem nests (limit : Nat) : (Simulation.invariant inv).Nests (Simulation.invariant inv) limit where
  symbol h := h
  nested := by
    intro x y hx w
    refine get_respects.bind ?_
    rintro m _ ⟨-, rfl⟩
    split
    · exact .throw ⟨inv.ofCause (.tooDeep limit) [], rfl⟩
    · refine (atDepth_respects (· + 1)).bind fun _ _ _ => ?_
      exact ensuring_respects (hx w) (atDepth_respects (· - 1))

/-- All symbols of the programs that a parser makes have the property. -/
def Parsed (inv : Invariant) (parse : Parser) : Prop :=
  ∀ source p, parse source = .ok p → ∀ s ∈ p, inv.symbol s

/-- A parser whose programs have the property is respected, given that all issues are allowed
    for. -/
theorem parses {parse : Parser} (h : inv.Parsed parse) (hhalt : ∀ i, inv.halt (.issue i)) :
    (Simulation.invariant inv).Parses parse := by
  intro source
  cases hp : parse source with
  | ok p => exact Or.inl ⟨p, rfl, program_iff.mpr ⟨h source p hp, rfl⟩⟩
  | error i => exact Or.inr ⟨i, rfl, hhalt i, rfl⟩

end Invariant

/-- **Programs keep invariants** that do not restrict issues, however they end. -/
theorem Evaluator.run_holds {inv : Invariant} {parse : Parser} (hparse : inv.Parsed parse)
    (hhalt : ∀ i, inv.halt (.issue i)) (maxDepth rounds levels : Nat) {p : Program}
    (hp : ∀ s ∈ p, inv.symbol s) {m : Machine} (hm : inv.Holds m) :
    inv.Holds (Outcome.machine ((Evaluator.builtin parse maxDepth rounds).run levels p m)) := by
  have hexhausted : inv.halt .exhausted ∧ Halt.exhausted = .exhausted := ⟨inv.exhausted, rfl⟩
  have halike := Simulation.run_respects (Evaluator.builtin parse maxDepth rounds)
    (fun _ => Simulation.invariant inv) (fun _ => hexhausted)
    (fun _ => Simulation.keepsTable_builtin _ hexhausted) (fun _ => Invariant.parses hparse hhalt)
    (fun _ => Invariant.nests maxDepth) levels 0 () p p (Invariant.program_iff.mpr ⟨hp, rfl⟩)
    m m ⟨hm, rfl⟩
  cases hrun : (Evaluator.builtin parse maxDepth rounds).run levels p m with
  | ok a k => rw [hrun] at halike; exact halike.2.1
  | error h k => rw [hrun] at halike; exact (halike.resolve_left id).2.1

end StackLang
