import StackLang.Proofs.Program.WellFormed
import StackLang.Machine.Basic

namespace StackLang

/-!
# Machines with other values

* `Table.map`, `Scopes.map` — other values for the same names, in scopes made in the same way;
* `Stack.map`, `Machine.map` — a stack and a machine with other values;
* `Machine.enter_map`, `Machine.leave_map` — changing values goes through the start and the end of
  an invocation;
* `Stack.unspanned`, `Machine.unspanned` — a stack and a machine without the positions inside
  their values.
-/

/-! ### Other values for the same names -/

namespace Table

variable {α β : Type} (f : α → β)

/-- The table with other values for its names. -/
def map (t : Table α) : Table β := ⟨t.entries.map fun e => (e.1, f e.2)⟩

/-- Changing all values of a table changes what is found under a name. -/
theorem get?_map (t : Table α) (name : Bytes) : (t.map f).get? name = (t.get? name).map f := by
  obtain ⟨entries⟩ := t
  unfold map get?
  induction entries with
  | nil => rfl
  | cons e rest ih =>
    obtain ⟨n, a⟩ := e
    rw [List.map_cons, lookup_cons_ite, lookup_cons_ite, ih]
    split <;> rfl

/-- Entries are put in order by their names, so that changing values commutes with inserting. -/
theorem insertEntry_map (name : Bytes) (a : α) (entries : List (Bytes × α)) :
    insertEntry name (f a) (entries.map fun e => (e.1, f e.2))
      = (insertEntry name a entries).map fun e => (e.1, f e.2) := by
  induction entries with
  | nil => rfl
  | cons e rest ih =>
    obtain ⟨n, b⟩ := e
    simp only [List.map_cons, insertEntry]
    split
    · rfl
    · split
      · rfl
      · rw [ih, List.map_cons]

/-- Changing all values commutes with binding a name. -/
theorem bind_map (t : Table α) (name : Bytes) (a : α) :
    (t.map f).bind name (f a) = (t.bind name a).map f := by
  unfold bind
  split
  · rfl
  · exact congrArg mk (insertEntry_map f name a t.entries)

end Table

namespace Scopes

variable {α β : Type} (f : α → β)

/-- A scope with other values for its names. -/
def mapScope (sc : Scope α) : Scope β := ⟨sc.name, sc.parent?, sc.table.map f⟩

/-- The scopes with other values for their names. -/
def map (s : Scopes α) : Scopes β := ⟨s.all.map (mapScope f)⟩

theorem size_map (s : Scopes α) : (s.map f).size = s.size := Array.size_map ..

/-- A scope of the changed scopes is the changed scope. -/
theorem get?_map (s : Scopes α) (id : Nat) : (s.map f).get? id = (s.get? id).map (mapScope f) :=
  Array.getElem?_map ..

/-- The table of a scope is changed along with it, a missing one staying empty. -/
theorem tableOf_map (s : Scopes α) (id : Nat) : (s.map f).tableOf id = (s.tableOf id).map f := by
  unfold tableOf
  rw [get?_map]
  cases s.get? id <;> rfl

/-- Changing all values commutes with making a scope. -/
theorem add_map (s : Scopes α) (name : Bytes) (parent? : Option Nat) :
    (s.map f).add name parent? = (s.add name parent?).map f := by
  simp [map, add, mapScope, Table.map, Table.empty]

/-- Changing all values commutes with binding a name in a scope. -/
theorem bind_map (s : Scopes α) (id : Nat) (name : Bytes) (a : α) :
    (s.map f).bind id name (f a) = (s.bind id name a).map f := by
  apply congrArg mk
  apply Array.ext_getElem?
  intro i
  simp only [map, bind, Array.getElem?_modify, Array.getElem?_map]
  split
  · cases s.all[i]? with
    | none => rfl
    | some sc => simp [mapScope, Table.bind_map]
  · rfl

/-- Changing all values commutes with discarding the newest scopes. -/
theorem truncate_map (s : Scopes α) (n : Nat) : (s.map f).truncate n = (s.truncate n).map f := by
  apply congrArg mk
  apply Array.ext'
  simp [map, truncate]

/-- A name is found in the same scope of a chain, whatever its values are changed to. -/
theorem findFrom_map (s : Scopes α) (name : Bytes) (fuel id : Nat) :
    (s.map f).findFrom name fuel id = (s.findFrom name fuel id).map fun r => (r.1, f r.2) := by
  induction fuel generalizing id with
  | zero => rfl
  | succ fuel ih =>
    rw [findFrom, findFrom,
      show (s.map f).all[id]? = s.all[id]?.map (mapScope f) from get?_map f s id]
    cases s.all[id]? with
    | none => rfl
    | some sc =>
      simp only [Option.map_some, mapScope, Table.get?_map]
      cases sc.table.get? name with
      | some a => rfl
      | none =>
        simp only [Option.map_none]
        cases sc.parent? with
        | none => rfl
        | some p => exact ih p

end Scopes

/-! ### Stacks and machines -/

namespace Stack

/-- The stack with other values. -/
def map (f : Value → Value) (s : Stack) : Stack where
  visible := s.visible.map f
  hidden := s.hidden.map f
  boundary := s.boundary
  boundary_eq := by rw [List.length_map, s.boundary_eq]

/-- Changing the values of a stack keeps their number. -/
theorem size_map (f : Value → Value) (s : Stack) : (s.map f).size = s.size := by
  simp [size, height, map]

/-- Changing the values of a stack commutes with moving its boundary. -/
theorem protect_map (f : Value → Value) (s : Stack) (boundary : Nat) :
    (s.map f).protect boundary = (s.protect boundary).map f := by
  unfold protect
  rw [show (s.map f).boundary = s.boundary from rfl]
  split
  · simp [cover, map, height, List.map_take, List.map_drop]
  · simp [uncover, map, List.map_take, List.map_drop]

/-- The stack without the positions inside its values. -/
def unspanned (s : Stack) : Stack where
  visible := s.visible.map Value.unspanned
  hidden := s.hidden.map Value.unspanned
  boundary := s.boundary
  boundary_eq := by rw [List.length_map, s.boundary_eq]

end Stack

namespace Machine

/-- The machine with other values, whose next list comes later by a gap. -/
def map (f : Value → Value) (gap : Nat) (m : Machine) : Machine :=
  { m with
    stack := m.stack.map f
    scopes := m.scopes.map f
    nextList := m.nextList + gap }

/-- Entering a call does not look at values and list identities: it fails and succeeds alike in the
    changed machine, with the same frame. -/
theorem enter_map (f : Value → Value) (gap : Nat) (m : Machine) (name : Bytes) (scope : Nat) :
    (m.map f gap).enter name scope = (m.enter name scope).map fun r => (r.1, r.2.map f gap) := by
  unfold enter pushFrame
  rw [show (m.map f gap).frames = m.frames from rfl,
    show (m.map f gap).stack.size = m.stack.size from m.stack.size_map f]
  cases m.frames with
  | nil => simp [Except.map, map, m.stack.protect_map, m.stack.size_map]
  | cons g rest =>
    by_cases hlow : (m.stack.size : Int) < g.boundary
    · simp [hlow, Except.map]
    · simp [hlow, Except.map, map, m.stack.protect_map, m.stack.size_map]

/-- Leaving a call does not look at values and list identities either. -/
theorem leave_map (f : Value → Value) (gap : Nat) (m : Machine) (g : Frame) :
    (m.map f gap).leave g = (m.leave g).map (map f gap) := by
  unfold leave
  rw [show (m.map f gap).frames = m.frames from rfl]
  cases m.frames with
  | nil => rfl
  | cons c rest =>
    simp only
    split
    · simp [Except.map, map, m.stack.protect_map]
    · rfl

/-- The machine without the positions inside its values. -/
def unspanned (m : Machine) : Machine :=
  { m with stack := m.stack.unspanned, scopes := m.scopes.map Value.unspanned }

/-- Positions do not matter where a call is entered. -/
theorem enter_unspanned (m : Machine) (name : Bytes) (scope : Nat) :
    m.unspanned.enter name scope = (m.enter name scope).map fun r => (r.1, r.2.unspanned) :=
  m.enter_map Value.unspanned 0 name scope

theorem leave_unspanned (m : Machine) (f : Frame) :
    m.unspanned.leave f = (m.leave f).map unspanned :=
  m.leave_map Value.unspanned 0 f

end Machine

end StackLang
