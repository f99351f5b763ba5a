import StackLang.Proofs.Evaluation.Sequencing
import StackLang.Proofs.Scope.Chain
import Mathlib.Data.List.Induction

namespace StackLang

/-!
# Assignments

An assignment checks its target and its value before it binds the first name, so that it either
binds all names or none.

* `Scopes.Rebound` — some names are bound anew in one scope, and nothing else is different;
* `Scopes.Rebound.concat`, `Evaluator.rebound_bindEach` — one more binding, and the loop over all of
  them;
* `Evaluator.namesOf`, `Evaluator.bindingsOf` — the names of a target, and the bindings that it
  makes of a value;
* `Evaluator.Obstacle` — what stands in the way of an assignment;
* `Evaluator.assign_of_obstacle`, `Evaluator.assign_of_not_obstacle` — with an obstacle no name is
  bound, and without one all of them are;
* `Evaluator.assignment_atomic` — an assignment changes nothing, or binds exactly its names.
-/

/-! ### Bindings -/

namespace Scopes

variable {α : Type} {s t : Scopes α} {scope : Nat}

/-- Some names are bound anew in one scope, the last binding of a name being the one that counts,
    and nothing else is different. -/
structure Rebound (s : Scopes α) (scope : Nat) (bindings : List (Bytes × α)) (t : Scopes α) :
    Prop where
  size : t.size = s.size
  others : ∀ id ≠ scope, t.get? id = s.get? id
  place : (t.get? scope).map Scope.place = (s.get? scope).map Scope.place
  bound : ∀ (i : Nat) (name : Bytes) (a : α), bindings[i]? = some (name, a) →
    (∀ j > i, ∀ b, bindings[j]? = some b → b.1 ≠ name) → (t.tableOf scope).get? name = some a
  unbound : ∀ name, (∀ b ∈ bindings, b.1 ≠ name) →
    (t.tableOf scope).get? name = (s.tableOf scope).get? name

/-- Without bindings nothing is bound anew. -/
theorem Rebound.refl (s : Scopes α) (scope : Nat) : s.Rebound scope [] s :=
  ⟨rfl, fun _ _ => rfl, rfl, nofun, fun _ _ => rfl⟩

/-- **One more binding.** -/
theorem Rebound.concat {bindings : List (Bytes × α)} (h : s.Rebound scope bindings t)
    (hscope : scope < s.size) {name : Bytes} (hname : name ≠ []) (a : α) :
    s.Rebound scope (bindings ++ [(name, a)]) (t.bind scope name a) where
  size := (size_bind ..).trans h.size
  others id hid := (get?_bind_of_ne _ _ _ _ hid).trans (h.others id hid)
  place := (place_bind ..).trans h.place
  bound i other b hi hlast := by
    have hnew : (bindings ++ [(name, a)])[bindings.length]? = some (name, a) :=
      List.getElem?_concat_length
    rw [tableOf_bind (by rwa [h.size]), Table.get?_bind_ite _ hname]
    rcases Nat.lt_trichotomy i bindings.length with hlt | rfl | hgt
    · -- An earlier binding counts only for another name.
      rw [if_neg fun heq => hlast _ hlt _ hnew heq.symm]
      refine h.bound i other b ?_ fun j hj c hc => hlast j hj c ?_
      · rwa [List.getElem?_append_left hlt] at hi
      · rwa [List.getElem?_append_left (List.getElem?_eq_some_iff.mp hc).1]
    · -- The new binding is the last one of its name.
      obtain ⟨rfl, rfl⟩ : name = other ∧ a = b := by simpa using hnew.symm.trans hi
      rw [if_pos rfl]
    · rw [List.getElem?_eq_none (by rw [List.length_append, List.length_singleton]; omega)] at hi
      cases hi
  unbound other hother := by
    rw [tableOf_bind (by rwa [h.size]), Table.get?_bind_ite _ hname,
      if_neg fun heq => hother (name, a) (by simp) heq.symm]
    exact h.unbound other fun b hb => hother b (List.mem_append_left _ hb)

end Scopes

namespace Evaluator

/-- The machine with some names bound in its active scope, from left to right. -/
def bindEach (m : Machine) (bindings : List (Bytes × Value)) : Machine :=
  bindings.foldl (fun k b => k.bind m.active b.1 b.2) m

variable {m : Machine}

/-- Pairs of names and values are bound in the active scope, one by one. -/
theorem bindAll_eq (h : m.Coherent) (bindings : List (Bytes × Value)) :
    bindAll bindings m = .ok () (bindEach m bindings) := by
  induction bindings generalizing m with
  | nil => rfl
  | cons b rest ih =>
    have hbound : (m.bind m.active b.1 b.2).Coherent := h
    show (Eval.bind b.1 b.2 >>= fun _ => bindAll rest) m = _
    rw [bind_of_ok (Eval.bind_eq h b.1 b.2), ih hbound]
    rfl

/-- **All bindings.**  Nothing but the active scope is different. -/
theorem rebound_bindEach (hactive : m.active < m.scopes.size) {bindings : List (Bytes × Value)}
    (hnames : ∀ b ∈ bindings, b.1 ≠ []) :
    bindEach m bindings = { m with scopes := (bindEach m bindings).scopes } ∧
      m.scopes.Rebound m.active bindings (bindEach m bindings).scopes := by
  -- From the last binding on, as `Rebound` speaks of the last binding of a name.
  induction bindings using List.reverseRecOn with
  | nil => exact ⟨rfl, .refl _ _⟩
  | append_singleton bindings b ih =>
    obtain ⟨hrest, hrebound⟩ := ih fun b hb => hnames b (List.mem_append_left _ hb)
    have hconcat : bindEach m (bindings ++ [b]) =
        (bindEach m bindings).bind m.active b.1 b.2 := by
      rw [bindEach, List.foldl_append, List.foldl_cons, List.foldl_nil, bindEach]
    rw [hconcat]
    refine ⟨?_, hrebound.concat hactive (hnames b (by simp)) b.2⟩
    rw [hrest]
    rfl

/-! ### Targets -/

/-- The name that a symbol is. -/
def name? : Symbol → Option Bytes
  | .name s _ => some s
  | _ => none

/-- The names in a target. -/
def namesOf : Symbol → List Bytes
  | .name s _ => [s]
  | .literal (.block targets) _ => targets.filterMap name?
  | _ => []

/-- The bindings that a target makes of a value: a name is bound to the value itself, the names of a
    block to its elements. -/
def bindingsOf : Symbol → Value → List (Bytes × Value)
  | .name s _, v => [(s, v)]
  | target, v => (namesOf target).zip v.elements

/-- A target of several names: a block of nothing else. -/
def IsNames (target : Symbol) : Prop :=
  ∃ targets span, target = .literal (.block targets) span ∧ ∀ t ∈ targets, (name? t).isSome = true

/-- What stands in the way of an assignment to what may be a target, given the visible values. -/
inductive Obstacle : Option Symbol → List Value → Prop
  /-- Nothing stands behind the sign of assignment. -/
  | noTarget {visible : List Value} : Obstacle none visible
  /-- There is no value to be assigned. -/
  | noValue {target? : Option Symbol} : Obstacle target? []
  /-- The target is neither a name nor a block of names only. -/
  | noNames {target : Symbol} {visible : List Value} (hname : name? target = none)
    (hblock : ¬ IsNames target) : Obstacle (some target) visible
  /-- The value for several names is not a list or tuple. -/
  | noSequence {target : Symbol} {v : Value} {below : List Value} (hblock : IsNames target)
    (hv : v.kind ≠ .list ∧ v.kind ≠ .tuple) : Obstacle (some target) (v :: below)
  /-- A list or tuple has another number of elements than there are names. -/
  | otherCount {target : Symbol} {v : Value} {below : List Value} (hblock : IsNames target)
    (hv : v.kind = .list ∨ v.kind = .tuple)
    (hcount : v.elements.length ≠ (namesOf target).length) : Obstacle (some target) (v :: below)

/-- Targets that are all names are read as these names. -/
theorem targetNames_eq_ok {targets : List Symbol} (h : ∀ t ∈ targets, (name? t).isSome = true) :
    targetNames targets = .ok (targets.filterMap name?) := by
  induction targets with
  | nil => rfl
  | cons t rest ih =>
    cases t with
    | name s span => rw [targetNames, ih fun t ht => h t (List.mem_cons_of_mem _ ht)]; rfl
    | _ => exact absurd (h _ (List.mem_cons_self ..)) (by simp [name?])

/-- Targets that are not all names are refused at one of them. -/
theorem targetNames_eq_error {targets : List Symbol}
    (h : ¬ ∀ t ∈ targets, (name? t).isSome = true) : ∃ t, targetNames targets = .error t := by
  induction targets with
  | nil => exact absurd nofun h
  | cons t rest ih =>
    cases t with
    | name s span =>
      obtain ⟨t, ht⟩ := ih fun hrest => h (List.forall_mem_cons.mpr ⟨rfl, hrest⟩)
      exact ⟨t, by rw [targetNames, ht]⟩
    | _ => exact ⟨_, rfl⟩

/-- Sequences are the lists and the tuples. -/
theorem accepts_sequence_iff {v : Value} :
    Operand.sequence.accepts v = true ↔ v.kind = .list ∨ v.kind = .tuple := by
  simp [Operand.accepts, Operand.acceptsKind]

/-! ### Outcomes -/

variable {target : Symbol}

/-- The checks on several names and their value, one after the other. -/
theorem bindTarget_of_isNames (h : IsNames target) (v : Value) :
    Simulation.bindTarget target v =
      if ¬ (v.kind = .list ∨ v.kind = .tuple) then Eval.fail (.notASequence (Value.kindNames [v]))
      else if v.elements.length ≠ (namesOf target).length then
        Eval.fail (.assignmentCount v.elements.length (namesOf target).length)
      else bindAll (bindingsOf target v) := by
  obtain ⟨targets, span, rfl, htargets⟩ := h
  show assignEach targets v = _
  rw [assignEach, targetNames_eq_ok htargets]
  refine if_congr ?_ rfl (if_congr bne_iff_ne rfl rfl)
  rw [← accepts_sequence_iff, Bool.not_eq_true', Bool.not_eq_true]

/-- What is neither a name nor a block of names is no target of any value. -/
theorem bindTarget_of_not_names (hname : name? target = none) (hblock : ¬ IsNames target)
    (v : Value) : ∃ c, Simulation.bindTarget target v = Eval.fail c := by
  cases target with
  | name s span => cases hname
  | literal x span =>
    cases x with
    | block targets =>
      obtain ⟨t, ht⟩ := targetNames_eq_error fun htargets => hblock ⟨targets, span, rfl, htargets⟩
      refine ⟨.badTarget t.text, ?_⟩
      show assignEach targets v = _
      rw [assignEach, ht]
    | _ => exact ⟨_, rfl⟩
  | _ => exact ⟨_, rfl⟩

/-- What stands in the way of an assignment makes it fail and leaves the machine as it is. -/
theorem assign_of_obstacle (h : Obstacle (some target) m.stack.visible) :
    ∃ c, assign target m = Eval.fail c m := by
  cases hvisible : m.stack.visible with
  | nil => exact ⟨_, Simulation.assign_of_nil target hvisible⟩
  | cons v below =>
    rw [hvisible] at h
    rw [Simulation.assign_of_cons target hvisible]
    cases h with
    | noNames hname hblock =>
      obtain ⟨c, hc⟩ := bindTarget_of_not_names hname hblock v
      exact ⟨c, by rw [hc]⟩
    | noSequence hblock hv =>
      rw [bindTarget_of_isNames hblock, if_pos (not_or.mpr hv)]
      exact ⟨_, rfl⟩
    | otherCount hblock hv hcount =>
      rw [bindTarget_of_isNames hblock, if_neg (not_not.mpr hv), if_pos hcount]
      exact ⟨_, rfl⟩

/-- With nothing in its way an assignment takes the topmost value and makes its bindings. -/
theorem assign_of_not_obstacle (hm : m.Coherent)
    (h : ¬ Obstacle (some target) m.stack.visible) :
    ∃ v below, m.stack.visible = v :: below ∧
      assign target m = .ok () (bindEach m (bindingsOf target v)) := by
  cases hvisible : m.stack.visible with
  | nil => exact absurd (hvisible ▸ .noValue) h
  | cons v below =>
    rw [hvisible] at h
    refine ⟨v, below, rfl, ?_⟩
    rw [Simulation.assign_of_cons target hvisible]
    by_cases hname : name? target = none
    · -- Each check that might fail would be an obstacle.
      have hblock : IsNames target := by_contra fun hblock => h (.noNames hname hblock)
      have hv : v.kind = .list ∨ v.kind = .tuple :=
        by_contra fun hv => h (.noSequence hblock (not_or.mp hv))
      have hcount : v.elements.length = (namesOf target).length :=
        by_contra fun hcount => h (.otherCount hblock hv hcount)
      rw [bindTarget_of_isNames hblock, if_neg (not_not.mpr hv), if_neg (not_not.mpr hcount)]
      exact bindAll_eq hm _
    · cases target with
      | name s span => exact Eval.bind_eq hm s v
      | _ => exact absurd rfl hname

/-- Only names of the target are bound. -/
theorem mem_namesOf_of_mem_bindingsOf {v : Value} {b : Bytes × Value}
    (h : b ∈ bindingsOf target v) : b.1 ∈ namesOf target := by
  cases target with
  | name s span =>
    obtain rfl := List.mem_singleton.mp h
    exact List.mem_singleton.mpr rfl
  | _ => exact (List.of_mem_zip h).1

/-- **Assignments are all or nothing.**  In any machine that has a current frame and an active
    scope: if there is an obstacle, the sign of assignment fails, and the machine is as it was.
    Otherwise all of the machine but the active scope is as it was; in this scope exactly the names
    of the target are bound anew, each to what its last place in the target stands for, and the
    program goes on behind the target. -/
theorem assignment_atomic (table : OperatorTable) (ctx : Context) (span : Span) (behind : Program)
    (hm : m.Coherent) (hactive : m.active < m.scopes.size)
    (hnames : ∀ target ∈ behind.head?, ∀ name ∈ namesOf target, name ≠ []) :
    (Obstacle behind.head? m.stack.visible →
      ∃ i, steps table ctx (.operator assignSign span :: behind) m = .error (.issue i) m) ∧
    (¬ Obstacle behind.head? m.stack.visible →
      ∃ target v below r, behind.head? = some target ∧ m.stack.visible = v :: below ∧
        r = { m with scopes := r.scopes } ∧
        m.scopes.Rebound m.active (bindingsOf target v) r.scopes ∧
        steps table ctx (.operator assignSign span :: behind) m =
          steps table ctx behind.tail r) := by
  have hsign : isAssign (.operator assignSign span) = true := beq_self_eq_true assignSign
  cases behind with
  | nil => exact ⟨fun _ => ⟨_, steps_of_assign hsign m⟩, fun h => absurd .noTarget h⟩
  | cons target rest =>
    have hsteps : steps table ctx (.operator assignSign span :: target :: rest) =
        Eval.mapIssue (Issue.map (annotate (.operator assignSign span))) (assign target) >>=
          fun _ => steps table ctx rest := by
      rw [steps]
      simp only [hsign, if_true]
    rw [hsteps]
    refine ⟨fun h => ?_, fun h => ?_⟩
    · -- The failure is reported for the sign of assignment, with the machine unchanged.
      obtain ⟨c, hc⟩ := assign_of_obstacle h
      have hfail : Eval.mapIssue (Issue.map (annotate (.operator assignSign span)))
          (assign target) m =
          .error (.issue (.failure (annotate (.operator assignSign span) { cause := c }))) m := by
        rw [Eval.mapIssue, hc]
        rfl
      exact ⟨_, bind_of_error hfail⟩
    · -- Nothing is in the way: the bindings are made, and the program goes on behind the target.
      obtain ⟨v, below, hvisible, hassign⟩ := assign_of_not_obstacle hm h
      have hbindings : ∀ b ∈ bindingsOf target v, b.1 ≠ [] := fun b hb =>
        hnames target rfl b.1 (mem_namesOf_of_mem_bindingsOf hb)
      obtain ⟨hrest, hrebound⟩ := rebound_bindEach hactive hbindings
      have hok : Eval.mapIssue (Issue.map (annotate (.operator assignSign span)))
          (assign target) m = .ok () (bindEach m (bindingsOf target v)) := by
        rw [Eval.mapIssue, hassign]
      exact ⟨target, v, below, _, rfl, hvisible, hrest, hrebound, bind_of_ok hok⟩

/-- The machine with the tuple `(1 2 3)` on its stack, where `b` is bound. -/
def threeOnTop : Machine :=
  start ⟨.ofList [(utf8 "b", .bool true)], 0⟩ [.tuple [.int 1, .int 2, .int 3]]

/-- The target `{a b a}`. -/
def twiceTarget : Symbol :=
  .literal
    (.block [.name (utf8 "a") ⟨3, 4⟩, .name (utf8 "b") ⟨5, 6⟩, .name (utf8 "a") ⟨7, 8⟩]) ⟨2, 9⟩

/-- The assignment of `(1 2 3)` to `{a b a}` binds `a` to its last element. -/
theorem assignment_atomic_twice :
    (threeOnTop.Coherent ∧ threeOnTop.active < threeOnTop.scopes.size ∧
      ∀ name ∈ namesOf twiceTarget, name ≠ []) ∧
    ¬ Obstacle (some twiceTarget) threeOnTop.stack.visible ∧
    ∀ (table : OperatorTable) (ctx : Context),
      ∃ r : Machine,
        steps table ctx [.operator assignSign ⟨1, 2⟩, twiceTarget] threeOnTop = .ok () r ∧
        (r.scopes.tableOf 0).get? (utf8 "a") = some (.int 3) ∧
        (r.scopes.tableOf 0).get? (utf8 "b") = some (.int 2) := by
  have hm : threeOnTop.Coherent := ⟨_, _, rfl, rfl⟩
  have hactive : threeOnTop.active < threeOnTop.scopes.size := by decide
  have hnames : ∀ name ∈ namesOf twiceTarget, name ≠ [] := by decide
  have hclear : ¬ Obstacle (some twiceTarget) threeOnTop.stack.visible := by
    intro h
    obtain ⟨c, hc⟩ := assign_of_obstacle h
    cases hc
  refine ⟨⟨hm, hactive, hnames⟩, hclear, fun table ctx => ?_⟩
  obtain ⟨target, v, below, r, htarget, hvisible, -, hrebound, hsteps⟩ :=
    (assignment_atomic table ctx ⟨1, 2⟩ [twiceTarget] hm hactive
      (by rintro target ⟨⟩; exact hnames)).2 hclear
  cases htarget
  cases hvisible
  have hend : ∀ j > 2, ∀ b,
      (bindingsOf twiceTarget (.tuple [.int 1, .int 2, .int 3]))[j]? ≠ some b := by
    intro j hj b hb
    exact absurd (List.getElem?_eq_some_iff.mp hb).1 (Nat.not_lt.mpr hj)
  refine ⟨r, hsteps, ?_, ?_⟩
  · exact hrebound.bound 2 _ _ rfl fun j hj b hb => absurd hb (hend j hj b)
  · refine hrebound.bound 1 _ _ rfl fun j hj b hb => ?_
    rcases Nat.eq_or_lt_of_le hj with rfl | hj
    · cases hb
      decide
    · exact absurd hb (hend j hj b)

end Evaluator

end StackLang
