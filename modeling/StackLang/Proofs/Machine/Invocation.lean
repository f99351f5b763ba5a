import StackLang.Evaluation.Basic
import Mathlib.Tactic.Common

namespace StackLang

/-!
# Invocations

What starting and ending an invocation does to a machine.

* `Machine.Coherent` — the boundary of the stack is that of the current frame, which holds
  of every machine in which a program is evaluated;
* `Machine.called`, `Machine.callee` — the machine at the start of an invocation, in a given
  scope and in a new one;
* `Machine.Within` — what a call leaves alone: the frames, the protected values, the depth,
  and all scopes but the active one;
* `Machine.resumed` — the machine of the caller behind an invocation;
* `Eval.bracketed_eq`, `Eval.bracketedIn_eq` — an invocation is the invoked step on the
  machine of the callee, and then the caller's machine with what the step left on the stack;
* `Eval.nested_eq` — a step one level deeper.
-/

/-! ### Stacks -/

namespace Stack

/-- A stack is told by its values above and below the boundary. -/
theorem ext_of_values {s t : Stack} (hv : s.visible = t.visible) (hh : s.hidden = t.hidden) :
    s = t := by
  obtain ⟨sv, sh, sb, hs⟩ := s
  obtain ⟨tv, th, tb, ht⟩ := t
  obtain rfl : sv = tv := hv
  obtain rfl : sh = th := hh
  obtain rfl : sb = tb := hs.trans ht.symm
  rfl

/-- The stack with all values protected. -/
def covered (s : Stack) : Stack where
  visible := []
  hidden := s.visible ++ s.hidden
  boundary := s.size
  boundary_eq := by simp [size, height, s.boundary_eq]

/-- The stack of a caller behind an invocation that left some values. -/
def joined (caller : Stack) (left : List Value) : Stack :=
  { caller with visible := left ++ caller.visible }

/-- A boundary above all values protects all of them. -/
theorem protect_size (s : Stack) : s.protect s.size = s.covered := by
  have hle : s.boundary ≤ s.size := Nat.le_add_left ..
  have hheight : s.size - s.boundary = s.height := by simp [size]
  unfold protect
  rw [if_pos hle, hheight]
  exact ext_of_values (by simp [cover, covered]) (by simp [cover, covered])

/-- Moving the boundary back uncovers exactly what the invocation had covered. -/
theorem protect_joined {s t : Stack} (h : t.hidden = s.visible ++ s.hidden) :
    t.protect s.boundary = s.joined t.visible := by
  have hb : t.boundary = s.height + s.boundary := by
    rw [t.boundary_eq, h, s.boundary_eq, List.length_append, height]
  unfold protect
  by_cases hle : t.boundary ≤ s.boundary
  · -- The caller had no visible value, so that the boundary stays.
    have hnil : s.visible = [] := by
      rw [← List.length_eq_zero_iff]
      show s.height = 0
      omega
    have hzero : s.boundary - t.boundary = 0 := by omega
    rw [if_pos hle, hzero]
    apply ext_of_values
    · simp [cover, joined, height, hnil]
    · simp [cover, joined, height, h, hnil]
  · have hmore : t.boundary - s.boundary = s.visible.length := by
      show _ = s.height
      omega
    rw [if_neg hle, hmore]
    apply ext_of_values
    · simp [uncover, joined, h]
    · simp [uncover, joined, h]

end Stack

/-! ### Scopes -/

/-- Where a scope stands, apart from what is bound in it. -/
def Scope.place {α : Type} (s : Scope α) : Bytes × Option Nat := (s.name, s.parent?)

namespace Scopes

variable {α : Type}

theorem size_add (s : Scopes α) (name : Bytes) (parent? : Option Nat) :
    (s.add name parent?).size = s.size + 1 :=
  Array.size_push ..

/-- A new scope leaves the others as they are. -/
theorem get?_add_of_ne (s : Scopes α) (name : Bytes) (parent? : Option Nat) {id : Nat}
    (h : id ≠ s.size) : (s.add name parent?).get? id = s.get? id := by
  show (s.all.push _)[id]? = s.all[id]?
  rw [Array.getElem?_push, if_neg (show id ≠ s.all.size from h)]

theorem get?_bind_of_ne (s : Scopes α) (scope : Nat) (name : Bytes) (a : α) {id : Nat}
    (h : id ≠ scope) : (s.bind scope name a).get? id = s.get? id := by
  show (s.all.modify scope _)[id]? = s.all[id]?
  rw [Array.getElem?_modify, if_neg (Ne.symm h)]

/-- Binding a name leaves all scopes where they are. -/
theorem place_bind (s : Scopes α) (scope : Nat) (name : Bytes) (a : α) (id : Nat) :
    ((s.bind scope name a).get? id).map Scope.place = (s.get? id).map Scope.place := by
  show ((s.all.modify scope _)[id]?).map _ = (s.all[id]?).map _
  rw [Array.getElem?_modify]
  split
  · rw [Option.map_map]
    rfl
  · rfl

theorem size_bind (s : Scopes α) (scope : Nat) (name : Bytes) (a : α) :
    (s.bind scope name a).size = s.size :=
  Array.size_modify

/-- There is nothing to discard above all scopes. -/
theorem truncate_size (s : Scopes α) : s.truncate s.size = s := by
  show Scopes.mk (s.all.shrink s.all.size) = s
  simp

/-- Forgetting all newer scopes restores the older ones, if they have not changed. -/
theorem truncate_eq {s t : Scopes α} (hsize : s.size ≤ t.size)
    (h : ∀ id < s.size, t.get? id = s.get? id) : t.truncate s.size = s := by
  have hall : t.all.shrink s.all.size = s.all := by
    apply Array.ext
    · rw [Array.size_shrink]
      exact Nat.min_eq_left hsize
    · intro i hi hi'
      have hget : t.all[i]? = s.all[i]? := h i hi'
      rw [Array.getElem_shrink]
      rw [Array.getElem?_eq_getElem hi', Array.getElem?_eq_getElem (Nat.lt_of_lt_of_le hi' hsize)] at hget
      exact Option.some.inj hget
  exact congrArg Scopes.mk hall

end Scopes

/-! ### Machines -/

namespace Machine

/-- The boundary of the stack is that of the current frame. -/
def Coherent (m : Machine) : Prop :=
  ∃ f rest, m.frames = f :: rest ∧ f.boundary = m.stack.boundary

/-- The number of the active scope. -/
def active (m : Machine) : Nat := (m.frames.head?.map Frame.scope).getD globals

/-- The frame of an invocation started now. -/
def nextFrameOf (m : Machine) (name : Bytes) (scope : Nat) : Frame :=
  ⟨name, scope, m.stack.size, m.nextFrame⟩

/-- The machine at the start of an invocation in a scope. -/
def called (m : Machine) (name : Bytes) (scope : Nat) : Machine :=
  { m with
    stack := m.stack.covered
    frames := m.nextFrameOf name scope :: m.frames
    nextFrame := m.nextFrame + 1 }

/-- The machine with a new child of the active scope. -/
def withScope (m : Machine) (scopeName : Bytes) : Machine :=
  { m with scopes := m.scopes.add scopeName (some m.active) }

/-- The machine at the start of an invocation in a new child of the active scope. -/
def callee (m : Machine) (name scopeName : Bytes) : Machine :=
  (m.withScope scopeName).called name m.scopes.size

/-- A machine that may be met during a call which began in the machine `e`: the call leaves
    alone the frames, the protected values, the depth, and all scopes but the active one, of which
    it leaves alone the name and the parent. -/
structure Within (e m : Machine) : Prop where
  frames : m.frames = e.frames
  hidden : m.stack.hidden = e.stack.hidden
  depth : m.depth = e.depth
  scopes_size : m.scopes.size = e.scopes.size
  scopes_get : ∀ id ≠ e.active, m.scopes.get? id = e.scopes.get? id
  scopes_active :
    (m.scopes.get? e.active).map Scope.place = (e.scopes.get? e.active).map Scope.place

/-- The machine of a caller behind an invocation that ended in the machine `r`. -/
def resumed (m r : Machine) : Machine :=
  { r with
    stack := m.stack.joined r.stack.visible
    frames := m.frames
    scopes := r.scopes.truncate m.scopes.size }

namespace Within

theorem refl (m : Machine) : m.Within m := ⟨rfl, rfl, rfl, rfl, fun _ _ => rfl, rfl⟩

variable {e m : Machine}

/-- The same scope is active during a call. -/
theorem active_eq (h : e.Within m) : m.active = e.active := by
  unfold active
  rw [h.frames]

/-- The boundary is the same during a call. -/
theorem boundary_eq (h : e.Within m) : m.stack.boundary = e.stack.boundary := by
  rw [m.stack.boundary_eq, e.stack.boundary_eq, h.hidden]

/-- A machine met during a call is coherent if the first one is. -/
theorem coherent (h : e.Within m) (he : e.Coherent) : m.Coherent := by
  obtain ⟨f, rest, hf, hb⟩ := he
  exact ⟨f, rest, h.frames.trans hf, by rw [hb, h.boundary_eq]⟩

/-- What is met during a call met during a call is met during the outer one. -/
theorem trans {k : Machine} (h : e.Within m) (hk : m.Within k) : e.Within k where
  frames := hk.frames.trans h.frames
  hidden := hk.hidden.trans h.hidden
  depth := hk.depth.trans h.depth
  scopes_size := hk.scopes_size.trans h.scopes_size
  scopes_get id hid := by rw [hk.scopes_get id (by rwa [h.active_eq]), h.scopes_get id hid]
  scopes_active := by
    have hactive := hk.scopes_active
    rw [h.active_eq] at hactive
    exact hactive.trans h.scopes_active

/-- Binding a name in the active scope stays within the call. -/
theorem bind (h : e.Within m) (name : Bytes) (v : Value) :
    e.Within (m.bind m.active name v) where
  frames := h.frames
  hidden := h.hidden
  depth := h.depth
  scopes_size := (Scopes.size_bind ..).trans h.scopes_size
  scopes_get id hid := by
    rw [← h.active_eq] at hid
    exact (Scopes.get?_bind_of_ne _ _ _ _ hid).trans (h.scopes_get id (by rwa [← h.active_eq]))
  scopes_active := (Scopes.place_bind ..).trans h.scopes_active

/-- Behind an invocation in the active scope, the caller is still within its own call. -/
theorem resumed_called {r : Machine} {name : Bytes} (h : e.Within m)
    (hr : (m.called name m.active).Within r) : e.Within (m.resumed r) := by
  have hsize : r.scopes.size = m.scopes.size := hr.scopes_size
  have hscopes : (m.resumed r).scopes = r.scopes := by
    show r.scopes.truncate m.scopes.size = r.scopes
    rw [← hsize, r.scopes.truncate_size]
  refine h.trans ⟨rfl, rfl, hr.depth, ?_, fun id hid => ?_, ?_⟩
  · rw [hscopes, hsize]
  · rw [hscopes]
    exact hr.scopes_get id hid
  · rw [hscopes]
    exact hr.scopes_active

/-- An invocation in a new scope changes none of the scopes there were. -/
theorem resumed_scopes {r : Machine} {name scopeName : Bytes}
    (hr : (m.callee name scopeName).Within r) : (m.resumed r).scopes = m.scopes := by
  have hsize : r.scopes.size = m.scopes.size + 1 := hr.scopes_size.trans (Scopes.size_add ..)
  refine Scopes.truncate_eq (by omega) fun id hid => ?_
  have hne : id ≠ m.scopes.size := by omega
  exact (hr.scopes_get id hne).trans (Scopes.get?_add_of_ne _ _ _ hne)

/-- Behind an invocation in a new scope, the caller is still within its own call. -/
theorem resumed_callee {r : Machine} {name scopeName : Bytes} (h : e.Within m)
    (hr : (m.callee name scopeName).Within r) : e.Within (m.resumed r) := by
  refine h.trans ⟨rfl, rfl, hr.depth, ?_, fun id _ => ?_, ?_⟩
  · rw [hr.resumed_scopes]
  · rw [hr.resumed_scopes]
  · rw [hr.resumed_scopes]

end Within

/-- The machine at the start of an invocation is coherent. -/
theorem coherent_called (m : Machine) (name : Bytes) (scope : Nat) :
    (m.called name scope).Coherent :=
  ⟨_, _, rfl, rfl⟩

/-- A coherent machine enters an invocation without fail. -/
theorem enter_eq {m : Machine} (h : m.Coherent) (name : Bytes) (scope : Nat) :
    m.enter name scope = .ok (m.nextFrameOf name scope, m.called name scope) := by
  obtain ⟨f, rest, hf, hb⟩ := h
  have hlow : ¬ (m.stack.size : Int) < f.boundary := by
    rw [hb]
    have : m.stack.boundary ≤ m.stack.size := Nat.le_add_left ..
    omega
  unfold enter pushFrame
  simp only [hf, if_neg hlow, m.stack.protect_size, called, nextFrameOf]

/-- Behind what stays within an invocation its frame is left without fail, and the values of the
    caller are back below. -/
theorem leave_eq {m r : Machine} {name : Bytes} {scope : Nat} (h : m.Coherent)
    (hr : (m.called name scope).Within r) :
    r.leave (m.nextFrameOf name scope) =
      .ok { r with stack := m.stack.joined r.stack.visible, frames := m.frames } := by
  obtain ⟨f, rest, hf, hb⟩ := h
  have hframes : r.frames = m.nextFrameOf name scope :: f :: rest := by
    rw [hr.frames, ← hf]
    rfl
  have hnat : f.boundary.toNat = m.stack.boundary := by
    rw [hb]
    exact Int.toNat_natCast _
  unfold leave
  simp only [hframes, if_true, hnat, Stack.protect_joined hr.hidden, hf]

end Machine

/-! ### Steps inside an invocation -/

/-- How a step of an evaluation ends. -/
abbrev Outcome (α : Type) := EStateM.Result Halt Machine α

namespace Outcome

variable {α : Type}

/-- The machine at the end of a step. -/
def machine : Outcome α → Machine
  | .ok _ m => m
  | .error _ m => m

/-- The step has succeeded. -/
def isOk : Outcome α → Bool
  | .ok _ _ => true
  | .error _ _ => false

/-- A step that has succeeded has a result and a last machine. -/
theorem exists_of_isOk {o : Outcome α} (h : isOk o = true) : ∃ a m, o = .ok a m := by
  cases o with
  | ok a m => exact ⟨a, m, rfl⟩
  | error _ _ => cases h

/-- An outcome with another machine at its end. -/
def onMachine (f : Machine → Machine) : Outcome α → Outcome α
  | .ok a m => .ok a (f m)
  | .error h m => .error h (f m)

/-- Two changes of the last machine that give the same machine give the same outcome. -/
theorem onMachine_congr {f g : Machine → Machine} {r : Outcome α}
    (h : f (machine r) = g (machine r)) : onMachine f r = onMachine g r := by
  cases r with
  | ok a m => exact congrArg _ h
  | error e m => exact congrArg _ h

/-- An outcome is as it was with its machine unchanged. -/
theorem onMachine_id (r : Outcome α) : onMachine (fun m => m) r = r := by
  cases r <;> rfl

/-- An outcome with another halt. -/
def mapHalt (f : Halt → Halt) : Outcome α → Outcome α
  | .ok a m => .ok a m
  | .error h m => .error (f h) m

end Outcome

namespace Eval

open Machine

variable {α : Type} {m : Machine}

/-- In a coherent machine there is an active scope. -/
theorem activeScope_eq (h : m.Coherent) : activeScope m = .ok m.active m := by
  obtain ⟨f, rest, hf, _⟩ := h
  unfold activeScope current active
  rw [hf]
  rfl

/-- In a coherent machine names are looked up from the active scope on. -/
theorem lookup_eq (h : m.Coherent) (name : Bytes) :
    lookup name m = ofExcept (m.lookup m.active name) m := by
  show EStateM.bind activeScope (fun scope => EStateM.bind get fun k =>
    ofExcept (k.lookup scope name)) m = _
  simp only [EStateM.bind, activeScope_eq h, show (get : Eval Machine) m = .ok m m from rfl]

/-- In a coherent machine names are bound in the active scope. -/
theorem bind_eq (h : m.Coherent) (name : Bytes) (v : Value) :
    bind name v m = .ok () (m.bind m.active name v) := by
  show EStateM.bind activeScope (fun scope => modify fun k => k.bind scope name v) m = _
  simp only [EStateM.bind, activeScope_eq h]
  rfl

/-- In a coherent machine a step enters an invocation without fail. -/
theorem enter_eq (h : m.Coherent) (name : Bytes) (scope : Nat) :
    enter name scope m = .ok (m.nextFrameOf name scope) (m.called name scope) := by
  unfold enter
  rw [Machine.enter_eq h]

/-- A step between entering and leaving a frame, if it is left alone in between. -/
theorem ensuring_leave_eq (h : m.Coherent) {name : Bytes} {scope : Nat} (keep : Nat) (act : Eval α)
    (hr : (m.called name scope).Within (Outcome.machine (act (m.called name scope)))) :
    ensuring act (leave (m.nextFrameOf name scope) keep) (m.called name scope) =
      Outcome.onMachine (fun r => { m.resumed r with scopes := r.scopes.truncate keep })
        (act (m.called name scope)) := by
  unfold ensuring leave
  cases hact : act (m.called name scope) with
  | ok a r =>
    have hr' : (m.called name scope).Within r := by rwa [hact] at hr
    simp only [leave_eq h hr']
    rfl
  | error e r =>
    have hr' : (m.called name scope).Within r := by rwa [hact] at hr
    simp only [leave_eq h hr']
    rfl

/-- An invocation in the active scope is a step between entering and leaving a frame. -/
theorem bracketed_start (h : m.Coherent) (name : Bytes) (act : Eval α) :
    bracketed name act m =
      ensuring act (leave (m.nextFrameOf name m.active) m.scopes.size)
        (m.called name m.active) := by
  show EStateM.bind activeScope (fun scope => EStateM.bind get fun k =>
    EStateM.bind (enter name scope) fun f => ensuring act (leave f k.scopes.size)) m = _
  simp only [EStateM.bind, activeScope_eq h, show (get : Eval Machine) m = .ok m m from rfl,
    enter_eq h]

/-- An invocation in the active scope. -/
theorem bracketed_eq (h : m.Coherent) (name : Bytes) (act : Eval α)
    (hr : (m.called name m.active).Within (Outcome.machine (act (m.called name m.active)))) :
    bracketed name act m = Outcome.onMachine m.resumed (act (m.called name m.active)) := by
  rw [bracketed_start h]
  exact ensuring_leave_eq h m.scopes.size act hr

/-- An invocation in a new child of the active scope is a step between entering and leaving a
    frame. -/
theorem bracketedIn_start (h : m.Coherent) (name scopeName : Bytes) (act : Eval α) :
    bracketedIn name scopeName act m =
      ensuring act (leave ((m.withScope scopeName).nextFrameOf name m.scopes.size) m.scopes.size)
        (m.callee name scopeName) := by
  have h' : (m.withScope scopeName).Coherent := h
  show EStateM.bind activeScope (fun scope => EStateM.bind get fun k =>
    EStateM.bind (modify fun m => { m with scopes := m.scopes.add scopeName (some scope) })
      fun _ => EStateM.bind (enter name k.scopes.size) fun f =>
        ensuring act (leave f k.scopes.size)) m = _
  simp only [EStateM.bind, activeScope_eq h, show (get : Eval Machine) m = .ok m m from rfl]
  show EStateM.bind (enter name m.scopes.size) _ (m.withScope scopeName) = _
  simp only [EStateM.bind, enter_eq h']
  rfl

/-- An invocation in a new child of the active scope. -/
theorem bracketedIn_eq (h : m.Coherent) (name scopeName : Bytes) (act : Eval α)
    (hr : (m.callee name scopeName).Within (Outcome.machine (act (m.callee name scopeName)))) :
    bracketedIn name scopeName act m =
      Outcome.onMachine m.resumed (act (m.callee name scopeName)) := by
  rw [bracketedIn_start h]
  have h' : (m.withScope scopeName).Coherent := h
  exact ensuring_leave_eq h' m.scopes.size act hr

/-- If the step in an invocation halts, then so does the invocation, or leaving its frame is a
    fault. -/
theorem ensuring_leave_of_error {k r : Machine} {act : Eval α} {h : Halt}
    (hact : act k = .error h r) (f : Frame) (keep : Nat) :
    ∃ g l, ensuring act (leave f keep) k = .error g l ∧ (g = h ∨ ∃ e, g = .fault e) := by
  unfold ensuring leave
  simp only [hact]
  cases r.leave f with
  | ok m => exact ⟨h, _, rfl, Or.inl rfl⟩
  | error e => exact ⟨.fault e, _, rfl, Or.inr ⟨e, rfl⟩⟩

/-- A step one level deeper. -/
theorem nested_eq (limit : Nat) (act : Eval α) (m : Machine) :
    nested limit act m =
      if limit ≤ m.depth then .error (.issue (.failure { cause := .tooDeep limit })) m
      else Outcome.onMachine (fun r => { r with depth := r.depth - 1 })
        (act { m with depth := m.depth + 1 }) := by
  have hstart : nested limit act m =
      (if limit ≤ m.depth then fail (.tooDeep limit)
      else
        EStateM.bind (modify fun m => { m with depth := m.depth + 1 }) fun _ =>
          ensuring act (modify fun m => { m with depth := m.depth - 1 })) m := rfl
  rw [hstart]
  by_cases hdeep : limit ≤ m.depth
  · rw [if_pos hdeep, if_pos hdeep]
    rfl
  · rw [if_neg hdeep, if_neg hdeep]
    show ensuring act (modify fun m => { m with depth := m.depth - 1 })
      { m with depth := m.depth + 1 } = _
    unfold ensuring
    cases act { m with depth := m.depth + 1 } with
    | ok a r => rfl
    | error e r => rfl

end Eval

end StackLang
