import StackLang.Proofs.Machine.Positions
import StackLang.Proofs.Operator.Recast

namespace StackLang

/-!
# Evaluations with other numbers for lists

The numbers of lists tell lists apart, and a new list gets the next one.  Two evaluations are
compared of which the second one finds the values of the first one under other numbers, and has
given out more numbers before.

* `Renumbering` — other numbers for lists, and by how much the second evaluation is ahead;
* `Machine.renumbered` — the machine of the second evaluation;
* `Renumbering.Tracks` — the lists of a range get the numbers that the second evaluation gives
  them;
* `Eval.Follows` — the second step ends as the first one does, under other numbers, if these
  track the lists that the first step makes.

Only the lists that are really made must be tracked.  So a renumbering may be chosen by what an
evaluation has made at its end, which tells as well what it cannot have on its stack then; a
simulation, which relates values whatever the machine they are in, cannot tell that.
-/

/-! ### Renumberings -/

/-- Other numbers for lists, different ones for different lists, and by how much the numbers
    that are given out next are greater. -/
structure Renumbering where
  number : Nat → Nat
  injective : Function.Injective number
  gap : Nat

namespace Renumbering

/-- Values under other numbers keep their positions. -/
def recast (ν : Renumbering) : Recast := ⟨ν.number, id, ν.injective⟩

/-- The lists from one number up to another one are ahead by the gap. -/
def Tracks (ν : Renumbering) (low high : Nat) : Prop :=
  ∀ i, low ≤ i → i < high → ν.number i = i + ν.gap

/-- Numbers that are tracked over a range are tracked over any smaller one. -/
theorem Tracks.mono {ν : Renumbering} {low high low' high' : Nat} (h : ν.Tracks low high)
    (hlow : low ≤ low') (hhigh : high' ≤ high) : ν.Tracks low' high' :=
  fun i hi hi' => h i (Nat.le_trans hlow hi) (Nat.lt_of_lt_of_le hi' hhigh)

end Renumbering

/-- The value under other numbers. -/
abbrev Value.renumbered (ν : Renumbering) (v : Value) : Value := v.recast ν.recast

/-- The symbol with the values inside it under other numbers. -/
abbrev Symbol.renumbered (ν : Renumbering) (s : Symbol) : Symbol := s.recast ν.recast

/-- The program with the values inside it under other numbers. -/
abbrev Program.renumbered (ν : Renumbering) (p : Program) : Program :=
  p.map (Symbol.renumbered ν)

/-- A block under other numbers is made of its symbols under these numbers. -/
theorem Value.renumbered_block (ν : Renumbering) (p : Program) :
    (Value.block p).renumbered ν = .block (Program.renumbered ν p) := Value.recast_block ν.recast p

/-- A list under other numbers has another number itself, and so have the lists in it. -/
theorem Value.renumbered_list (ν : Renumbering) (id : Nat) (vs : List Value) :
    (Value.list id vs).renumbered ν = .list (ν.number id) (vs.map (Value.renumbered ν)) :=
  Value.recast_list ν.recast id vs

/-- The machine with its values under other numbers. -/
def Machine.renumbered (ν : Renumbering) (m : Machine) : Machine :=
  m.map (Value.renumbered ν) ν.gap

/-- The outcome with its machine and its result under other numbers. -/
def Outcome.renumbered {α β : Type} (ν : Renumbering) (f : α → β) : Outcome α → Outcome β
  | .ok a m => .ok (f a) (m.renumbered ν)
  | .error h m => .error h (m.renumbered ν)

namespace Eval

variable {α β γ δ : Type}

/-- No numbers are taken back, and the second step ends as the first one does, under numbers that
    track the lists that the first step makes. -/
def Follows (ν : Renumbering) (f : α → β) (x : Eval α) (y : Eval β) : Prop :=
  ∀ m, m.nextList ≤ (Outcome.machine (x m)).nextList ∧
    (ν.Tracks m.nextList (Outcome.machine (x m)).nextList →
      y (m.renumbered ν) = Outcome.renumbered ν f (x m))

namespace Follows

variable {ν : Renumbering} {f : α → β} {g : γ → δ} {x : Eval α} {y : Eval β}

/-- Steps that make no list. -/
theorem of_same (hnext : ∀ m, (Outcome.machine (x m)).nextList = m.nextList)
    (h : ∀ m, y (m.renumbered ν) = Outcome.renumbered ν f (x m)) : Follows ν f x y :=
  fun m => ⟨Nat.le_of_eq (hnext m).symm, fun _ => h m⟩

/-- A step without an effect is followed by itself, with its result under other numbers. -/
theorem pure (a : α) : Follows ν f (Pure.pure a) (Pure.pure (f a)) :=
  .of_same (fun _ => rfl) fun _ => rfl

theorem throw (h : Halt) : Follows ν f (MonadExcept.throw h) (MonadExcept.throw h) :=
  .of_same (fun _ => rfl) fun _ => rfl

/-- **Sequencing.** What the first of two steps makes is made on the way to the end of both. -/
theorem bind {k : α → Eval γ} {l : β → Eval δ} (hx : Follows ν f x y)
    (hk : ∀ a, Follows ν g (k a) (l (f a))) : Follows ν g (x >>= k) (y >>= l) := by
  intro m
  obtain ⟨hle, hxy⟩ := hx m
  show _ ≤ (Outcome.machine (EStateM.bind x k m)).nextList ∧
    (ν.Tracks _ (Outcome.machine (EStateM.bind x k m)).nextList →
      EStateM.bind y l _ = Outcome.renumbered ν g (EStateM.bind x k m))
  unfold EStateM.bind
  cases hxm : x m with
  | ok a m' =>
    rw [hxm] at hle hxy
    obtain ⟨hle', hkl⟩ := hk a m'
    refine ⟨Nat.le_trans hle hle', fun htracks => ?_⟩
    rw [hxy (htracks.mono (Nat.le_refl _) hle')]
    exact hkl (htracks.mono hle (Nat.le_refl _))
  | error h m' =>
    rw [hxm] at hle hxy
    refine ⟨hle, fun htracks => ?_⟩
    rw [hxy htracks]
    rfl

/-- What is reported of a failure does not depend on numbers. -/
theorem mapIssue (report : Failure → Failure) (hx : Follows ν f x y) :
    Follows ν f (Eval.mapIssue (Issue.map report) x) (Eval.mapIssue (Issue.map report) y) := by
  intro m
  obtain ⟨hle, hxy⟩ := hx m
  simp only [Eval.mapIssue_eq]
  cases hxm : x m with
  | ok a m' =>
    rw [hxm] at hle hxy
    exact ⟨hle, fun htracks => by rw [hxy htracks]; rfl⟩
  | error h m' =>
    rw [hxm] at hle hxy
    exact ⟨hle, fun htracks => by rw [hxy htracks]; rfl⟩

/-- Cleaning up is followed by cleaning up behind what follows. -/
theorem ensuring {after after' : Eval Unit} (hx : Follows ν f x y)
    (hafter : Follows ν id after after') :
    Follows ν f (Eval.ensuring x after) (Eval.ensuring y after') := by
  intro m
  obtain ⟨hle, hxy⟩ := hx m
  unfold Eval.ensuring
  cases hxm : x m
  all_goals
    rename_i k
    rw [hxm] at hle hxy
    obtain ⟨hle', hend⟩ := hafter k
    cases hk : after k
    all_goals
      rw [hk] at hle' hend
      simp only [hk]
      refine ⟨Nat.le_trans hle hle', fun htracks => ?_⟩
      rw [hxy (htracks.mono (Nat.le_refl _) hle')]
      simp only [Outcome.renumbered, hend (htracks.mono hle (Nat.le_refl _))]

/-- Reading the machine gives the machine under other numbers. -/
theorem read : Follows ν (Machine.renumbered ν) (get : Eval Machine) get :=
  .of_same (fun _ => rfl) fun _ => rfl

/-- A change that neither makes lists nor looks at numbers is followed by itself. -/
theorem change {g : Machine → Machine} (hnext : ∀ m, (g m).nextList = m.nextList)
    (h : ∀ m, g (m.renumbered ν) = (g m).renumbered ν) :
    Follows ν id (modify g : Eval Unit) (modify g) :=
  .of_same hnext fun m => congrArg (EStateM.Result.ok ()) (h m)

/-! ### The stack -/

/-- Pushed values are followed by these values under other numbers. -/
theorem pushAll (vs : List Value) :
    Follows ν id (Eval.pushAll vs) (Eval.pushAll (vs.map (Value.renumbered ν))) := by
  refine .of_same (fun _ => rfl) fun m => ?_
  have hvisible : (vs.map (Value.renumbered ν)).reverseAux (m.renumbered ν).stack.visible
      = (vs.reverseAux m.stack.visible).map (Value.renumbered ν) := by
    simp [List.reverseAux_eq, Machine.renumbered, Machine.map, Stack.map]
  exact congrArg (fun us => EStateM.Result.ok () ((m.renumbered ν).withVisible us)) hvisible

theorem push (v : Value) : Follows ν id (Eval.push v) (Eval.push (v.renumbered ν)) :=
  pushAll [v]

/-- A new list gets the next number on both sides. -/
theorem pushList (es : List Value) :
    Follows ν id (Eval.pushList es) (Eval.pushList (es.map (Value.renumbered ν))) := by
  refine fun m => ⟨Nat.le_succ _, fun htracks => ?_⟩
  have hnumber : ν.number m.nextList = m.nextList + ν.gap :=
    htracks m.nextList (Nat.le_refl _) (Nat.lt_succ_self _)
  have hlist : (Value.list m.nextList es).renumbered ν
      = .list (m.nextList + ν.gap) (es.map (Value.renumbered ν)) := by
    rw [Value.renumbered_list, hnumber]
  have hnext : m.nextList + ν.gap + 1 = m.nextList + 1 + ν.gap := Nat.add_right_comm ..
  show EStateM.Result.ok () { (m.renumbered ν).withVisible
      (.list (m.nextList + ν.gap) (es.map (Value.renumbered ν)) :: (m.renumbered ν).stack.visible)
      with nextList := m.nextList + ν.gap + 1 } = _
  rw [← hlist, hnext]
  rfl

/-- Clearing the stack is followed by itself. -/
theorem clear :
    Follows ν id (modify fun m => { m with stack := m.stack.clear } : Eval Unit)
      (modify fun m => { m with stack := m.stack.clear }) :=
  change (fun _ => rfl) fun _ => rfl

/-- Taking all values gives these values under other numbers. -/
theorem takeAll : Follows ν (List.map (Value.renumbered ν)) Eval.takeAll Eval.takeAll := by
  refine .of_same (fun _ => rfl) fun m => ?_
  have hvalues : (m.renumbered ν).stack.values = m.stack.values.map (Value.renumbered ν) :=
    List.map_reverse.symm
  exact congrArg (fun us => EStateM.Result.ok us ((m.renumbered ν).withVisible [])) hvalues

/-- Popping gives the value under its other numbers, and fails alike. -/
theorem pop : Follows ν (Value.renumbered ν) Eval.pop Eval.pop := by
  refine .of_same (fun m => ?_) fun m => ?_
  · unfold Eval.pop
    cases m.stack.pop <;> rfl
  · unfold Eval.pop Stack.pop
    rw [show (m.renumbered ν).stack.visible = m.stack.visible.map (Value.renumbered ν) from rfl]
    cases m.stack.visible <;> rfl

/-- The one value that is left is followed by this value under other numbers. -/
theorem oneValue (what : Bytes) :
    Follows ν (Value.renumbered ν) (Context.oneValue what) (Context.oneValue what) := by
  intro m
  have hlength : (m.renumbered ν).stack.visible.length = m.stack.visible.length :=
    List.length_map ..
  rw [Simulation.oneValue_eq, Simulation.oneValue_eq, hlength]
  split
  · exact pop m
  · exact throw _ m

/-! ### Scopes -/

/-- The active scope does not depend on numbers. -/
theorem activeScope : Follows ν id Eval.activeScope Eval.activeScope := by
  refine .of_same (fun m => ?_) fun m => ?_
  all_goals
    unfold Eval.activeScope Machine.current
  · cases m.frames <;> rfl
  · rw [show (m.renumbered ν).frames = m.frames from rfl]
    cases m.frames <;> rfl

/-- Looking up a name gives its value under other numbers. -/
theorem lookup (name : Bytes) :
    Follows ν (Value.renumbered ν) (Eval.lookup name) (Eval.lookup name) := by
  refine activeScope.bind fun scope => read.bind fun m => ?_
  have hfind : (m.renumbered ν).scopes.find? scope name
      = (m.scopes.find? scope name).map fun r => (r.1, r.2.renumbered ν) := by
    unfold Scopes.find?
    exact Scopes.findFrom_map (Value.renumbered ν) m.scopes name _ scope
  unfold Machine.lookup
  rw [show id scope = scope from rfl, hfind]
  cases m.scopes.find? scope name with
  | none => exact throw _
  | some r => exact pure r.2

/-- Binding a name is followed by binding it to the value under other numbers. -/
theorem bindName (name : Bytes) (v : Value) :
    Follows ν id (Eval.bind name v) (Eval.bind name (v.renumbered ν)) := by
  refine activeScope.bind fun scope => .of_same (fun _ => rfl) fun m => ?_
  have hscopes : (m.renumbered ν).scopes.bind scope name (v.renumbered ν)
      = (m.scopes.bind scope name v).map (Value.renumbered ν) :=
    Scopes.bind_map (Value.renumbered ν) m.scopes scope name v
  exact congrArg (fun s => EStateM.Result.ok () { m.renumbered ν with scopes := s }) hscopes

/-! ### Invocations -/

/-- Entering a call does not depend on numbers. -/
theorem enter (name : Bytes) (scope : Nat) :
    Follows ν id (Eval.enter name scope) (Eval.enter name scope) := by
  refine .of_same (fun m => ?_) fun m => ?_
  · unfold Eval.enter Machine.enter Machine.pushFrame
    cases m.frames with
    | nil => rfl
    | cons e rest => by_cases hlow : (m.stack.size : Int) < e.boundary <;>
        simp [hlow, Outcome.machine]
  · unfold Eval.enter
    rw [Machine.renumbered, Machine.enter_map]
    cases m.enter name scope <;> rfl

/-- Leaving a call does not depend on numbers. -/
theorem leave (f : Frame) (keep : Nat) :
    Follows ν id (Eval.leave f keep) (Eval.leave f keep) := by
  refine .of_same (fun m => ?_) fun m => ?_
  · unfold Eval.leave Machine.leave
    cases m.frames with
    | nil => rfl
    | cons c rest => by_cases hserial : c.serial = f.serial <;> simp [hserial, Outcome.machine]
  · unfold Eval.leave
    rw [Machine.renumbered, Machine.leave_map]
    cases m.leave f with
    | error e => rfl
    | ok k =>
      have hscopes : (k.renumbered ν).scopes.truncate keep
          = (k.scopes.truncate keep).map (Value.renumbered ν) :=
        Scopes.truncate_map (Value.renumbered ν) k.scopes keep
      exact congrArg (fun s => EStateM.Result.ok () { k.renumbered ν with scopes := s }) hscopes

/-- There are as many scopes in the machine under other numbers. -/
theorem scopes_size (m : Machine) : (m.renumbered ν).scopes.size = m.scopes.size :=
  Scopes.size_map (Value.renumbered ν) m.scopes

/-- A step in a call of its own is followed there by what follows it. -/
theorem bracketed (name : Bytes) (hx : Follows ν f x y) :
    Follows ν f (Eval.bracketed name x) (Eval.bracketed name y) := by
  refine activeScope.bind fun scope => read.bind fun m => ?_
  rw [scopes_size]
  exact (enter name scope).bind fun frame => hx.ensuring (leave frame m.scopes.size)

/-- A step in a call with a scope of its own is followed there by what follows it. -/
theorem bracketedIn (name scopeName : Bytes) (hx : Follows ν f x y) :
    Follows ν f (Eval.bracketedIn name scopeName x) (Eval.bracketedIn name scopeName y) := by
  refine activeScope.bind fun scope => read.bind fun m => ?_
  rw [scopes_size]
  refine Follows.bind (change (fun _ => rfl) fun k => ?_) fun _ =>
    (enter name m.scopes.size).bind fun frame => hx.ensuring (leave frame m.scopes.size)
  have hscopes : (k.renumbered ν).scopes.add scopeName (some scope)
      = (k.scopes.add scopeName (some scope)).map (Value.renumbered ν) :=
    Scopes.add_map (Value.renumbered ν) k.scopes scopeName (some scope)
  exact congrArg (fun s => { k.renumbered ν with scopes := s }) hscopes

/-- A nested step is followed by what follows it, and refused at the same depth. -/
theorem nested (limit : Nat) (hx : Follows ν f x y) :
    Follows ν f (Eval.nested limit x) (Eval.nested limit y) := by
  refine read.bind fun m => ?_
  rw [show (m.renumbered ν).depth = m.depth from rfl]
  split
  · exact throw _
  · refine Follows.bind (change (fun _ => rfl) fun _ => rfl) fun _ => ?_
    exact hx.ensuring (change (fun _ => rfl) fun _ => rfl)

end Follows

end Eval

end StackLang
