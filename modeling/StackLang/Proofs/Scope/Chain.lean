import StackLang.Proofs.Machine.Invocation
import Mathlib.Data.List.Basic

namespace StackLang

/-!
# Chains of scopes

Scopes are made one by one, each with a parent that is there already or with none, and names are
bound in any of them, in any order.  What a name means in a scope is said here in terms of these
calls alone, and the walk of a lookup through the tables is shown to find it.

* `Scopes.Call`, `Scopes.Built` — the calls, and the scopes that are there behind them;
* `Scopes.parents`, `Scopes.Chain` — the parents given to the scopes, and the way from a scope to
  its root;
* `Scopes.valuesOf` — all that was ever bound to a name in a scope, the latest last;
* `Scopes.Built.get?_tableOf` — a table holds the latest binding of each name;
* `Scopes.findFrom_succ`, `Scopes.findFrom_eq` — one step of a lookup, and all steps: a lookup takes
  the first table of the chain that holds the name;
* `Machine.lookup_nearest_latest` — a lookup finds the latest binding in the nearest scope.
-/

/-- Behind a binding the name has the new value, and any other name the value it had. -/
theorem Table.get?_bind_ite {α : Type} (t : Table α) {name : Bytes} (h : name ≠ []) (a : α)
    (other : Bytes) :
    (t.bind name a).get? other = if other = name then some a else t.get? other := by
  rw [Table.bind, if_neg (by simpa using h), Table.get?_insert]

/-- The empty name is never bound. -/
theorem Table.bind_nil {α : Type} (t : Table α) (a : α) : t.bind [] a = t := rfl

namespace Scopes

variable {α : Type} {s : Scopes α} {scope : Nat}

/-! ### Tables -/

/-- A binding in a scope is a binding in its table. -/
theorem tableOf_bind (h : scope < s.size) (name : Bytes) (a : α) :
    (s.bind scope name a).tableOf scope = (s.tableOf scope).bind name a := by
  unfold tableOf get? bind
  rw [Array.getElem?_modify, if_pos rfl, Array.getElem?_eq_getElem h]
  rfl

/-- A binding in another scope leaves a table as it is. -/
theorem tableOf_bind_of_ne {id : Nat} (h : id ≠ scope) (name : Bytes) (a : α) :
    (s.bind scope name a).tableOf id = s.tableOf id := by
  unfold tableOf
  rw [get?_bind_of_ne s scope name a h]

/-- Bindings leave the parents of scopes as they are. -/
theorem parent?_bind (s : Scopes α) (scope : Nat) (name : Bytes) (a : α) (id : Nat) :
    ((s.bind scope name a).get? id).map Scope.parent? = (s.get? id).map Scope.parent? := by
  have hplace := congrArg (Option.map Prod.snd) (place_bind s scope name a id)
  rw [Option.map_map, Option.map_map] at hplace
  exact hplace

/-- A scope that was never made has nothing bound in it. -/
theorem tableOf_of_size_le {id : Nat} (h : s.size ≤ id) : s.tableOf id = .empty := by
  unfold tableOf get?
  rw [Array.getElem?_eq_none h]
  rfl

/-- A new scope is as empty as one that is not there. -/
theorem tableOf_add (name : Bytes) (parent? : Option Nat) (id : Nat) :
    (s.add name parent?).tableOf id = s.tableOf id := by
  by_cases h : id = s.size
  · rw [h, tableOf_of_size_le (Nat.le_refl s.size)]
    unfold tableOf get? add size
    rw [Array.getElem?_push_size]
    rfl
  · unfold tableOf
    rw [get?_add_of_ne s name parent? h]

/-- Binding the empty name changes nothing. -/
theorem bind_nil (s : Scopes α) (id : Nat) (a : α) : s.bind id [] a = s := by
  have hall : s.all.modify id (fun sc => { sc with table := sc.table.bind [] a }) = s.all := by
    apply Array.ext
    · exact Array.size_modify
    · intro i _ _
      rw [Array.getElem_modify]
      split
      · rw [Table.bind_nil]
      · rfl
  exact congrArg Scopes.mk hall

/-! ### Calls -/

/-- A call that makes a scope or binds a name. -/
inductive Call (α : Type) where
  /-- Makes an empty scope. -/
  | new (name : Bytes) (parent? : Option Nat)
  /-- Binds a name in a scope. -/
  | bind (scope : Nat) (name : Bytes) (a : α)

/-- The scopes behind some calls, each of which was given scopes that were there. -/
inductive Built : List (Call α) → Scopes α → Prop where
  | start : Built [] ⟨#[]⟩
  | new {calls : List (Call α)} {s : Scopes α} (h : Built calls s) (name : Bytes)
      (parent? : Option Nat) (hparent : ∀ p ∈ parent?, p < s.size) :
      Built (calls ++ [.new name parent?]) (s.add name parent?)
  | bind {calls : List (Call α)} {s : Scopes α} (h : Built calls s) (scope : Nat)
      (hscope : scope < s.size) (name : Bytes) (a : α) :
      Built (calls ++ [.bind scope name a]) (s.bind scope name a)

/-- The parent given to the scope that a call makes. -/
def Call.parent? : Call α → Option (Option Nat)
  | .new _ parent? => some parent?
  | .bind .. => none

/-- The parents given to the scopes, in the order they were made. -/
def parents (calls : List (Call α)) : List (Option Nat) := calls.filterMap Call.parent?

/-- What a call binds to a name in a scope; nothing is ever bound to the empty name. -/
def Call.value? (scope : Nat) (name : Bytes) : Call α → Option α
  | .new .. => none
  | .bind id other a => if id = scope ∧ other = name ∧ name ≠ [] then some a else none

/-- All that was ever bound to a name in a scope, the latest last. -/
def valuesOf (calls : List (Call α)) (scope : Nat) (name : Bytes) : List α :=
  calls.filterMap (Call.value? scope name)

/-- The way from a scope to its root. -/
inductive Chain (parents : List (Option Nat)) : Nat → List Nat → Prop where
  | root {id : Nat} (h : parents[id]? = some none) : Chain parents id [id]
  | child {id p : Nat} {ids : List Nat} (h : parents[id]? = some (some p))
      (hp : Chain parents p ids) : Chain parents id (id :: ids)

/-! ### One more call -/

/-- A new scope adds its parent. -/
theorem parents_concat_new (calls : List (Call α)) (name : Bytes) (parent? : Option Nat) :
    parents (calls ++ [.new name parent?]) = parents calls ++ [parent?] := by
  simp [parents, Call.parent?]

/-- The last scope that was made has the parent given last. -/
theorem getElem?_parents_concat_new (calls : List (Call α)) (name : Bytes) (parent? : Option Nat)
    (id : Nat) :
    (parents (calls ++ [.new name parent?]))[id]? =
      if id = (parents calls).length then some parent? else (parents calls)[id]? := by
  rw [parents_concat_new]
  grind

theorem parents_concat_bind (calls : List (Call α)) (scope : Nat) (name : Bytes) (a : α) :
    parents (calls ++ [.bind scope name a]) = parents calls := by
  simp [parents, Call.parent?]

theorem valuesOf_concat_new (calls : List (Call α)) (name : Bytes) (parent? : Option Nat)
    (id : Nat) (other : Bytes) :
    valuesOf (calls ++ [.new name parent?]) id other = valuesOf calls id other := by
  simp [valuesOf, Call.value?]

/-- A binding adds its value to those bound to the name in the scope. -/
theorem valuesOf_concat_bind (calls : List (Call α)) (scope : Nat) (name : Bytes) (a : α)
    (id : Nat) (other : Bytes) :
    valuesOf (calls ++ [.bind scope name a]) id other =
      if scope = id ∧ name = other ∧ other ≠ [] then valuesOf calls id other ++ [a]
      else valuesOf calls id other := by
  unfold valuesOf
  rw [List.filterMap_append]
  by_cases h : scope = id ∧ name = other ∧ other ≠ []
  · have hsome : Call.value? id other (.bind scope name a) = some a := if_pos h
    rw [if_pos h, List.filterMap_cons_some hsome, List.filterMap_nil]
  · have hnone : Call.value? id other (.bind scope name a) = none := if_neg h
    rw [if_neg h, List.filterMap_cons_none hnone, List.filterMap_nil, List.append_nil]

namespace Built

variable {calls : List (Call α)}

/-- There are as many scopes as were made. -/
theorem size_eq (h : Built calls s) : s.size = (parents calls).length := by
  induction h with
  | start => rfl
  | new _ name parent? _ ih =>
    rw [size_add, parents_concat_new, ih, List.length_append, List.length_singleton]
  | bind _ scope _ name a ih => rw [size_bind, parents_concat_bind, ih]

/-- Each scope keeps the parent that it was given. -/
theorem parent?_eq (h : Built calls s) (id : Nat) :
    (s.get? id).map Scope.parent? = (parents calls)[id]? := by
  induction h with
  | start => rfl
  | @new calls s h name parent? _ ih =>
    rw [getElem?_parents_concat_new, ← h.size_eq, ← ih]
    by_cases hid : id = s.size
    · rw [if_pos hid, hid]
      unfold get? add size
      rw [Array.getElem?_push_size]
      rfl
    · rw [if_neg hid, get?_add_of_ne s name parent? hid]
  | @bind calls s _ scope _ name a ih => rw [parents_concat_bind, parent?_bind, ih]

/-- A parent is made before its children. -/
theorem parent_lt (h : Built calls s) {id p : Nat} (hp : (parents calls)[id]? = some (some p)) :
    p < id := by
  induction h with
  | start => cases hp
  | @new calls s h name parent? hparent ih =>
    rw [getElem?_parents_concat_new, ← h.size_eq] at hp
    by_cases hid : id = s.size
    · rw [if_pos hid] at hp
      rw [hid]
      exact hparent p (Option.some.inj hp)
    · rw [if_neg hid] at hp
      exact ih hp
  | bind _ scope _ name a ih =>
    rw [parents_concat_bind] at hp
    exact ih hp

/-- A table holds the latest binding of each name, and no other name. -/
theorem get?_tableOf (h : Built calls s) (id : Nat) (name : Bytes) :
    (s.tableOf id).get? name = (valuesOf calls id name).getLast? := by
  induction h with
  | start =>
    rw [tableOf_of_size_le (Nat.zero_le id)]
    rfl
  | new _ new parent? _ ih => rw [tableOf_add, ih, valuesOf_concat_new]
  | @bind calls s _ scope hscope bound a ih =>
    -- The call counts for this table and this name, unless it is one of the empty name.
    rw [valuesOf_concat_bind]
    by_cases hid : scope = id
    · subst hid
      by_cases hempty : bound = []
      · rw [hempty, bind_nil, ih, if_neg (fun hbound => hbound.2.2 hbound.2.1.symm)]
      · rw [tableOf_bind hscope, Table.get?_bind_ite _ hempty, ih]
        by_cases hname : bound = name
        · rw [if_pos hname.symm, if_pos ⟨rfl, hname, hname ▸ hempty⟩, List.getLast?_concat]
        · rw [if_neg (Ne.symm hname), if_neg (fun hbound => hname hbound.2.1)]
    · rw [tableOf_bind_of_ne (Ne.symm hid), ih, if_neg (fun hbound => hid hbound.1)]

/-- Each scope has a chain, and its number bounds the length of it. -/
theorem exists_chain (h : Built calls s) {id : Nat} (hid : id < s.size) :
    ∃ ids, Chain (parents calls) id ids ∧ ids.length ≤ id + 1 := by
  -- A parent has a smaller number than its child.
  induction id using Nat.strongRecOn with
  | ind id ih =>
    obtain ⟨sc, hsc⟩ : ∃ sc, s.get? id = some sc := ⟨_, Array.getElem?_eq_getElem hid⟩
    have hparent : (parents calls)[id]? = some sc.parent? := by
      rw [← h.parent?_eq id, hsc, Option.map_some]
    cases hp : sc.parent? with
    | none => exact ⟨[id], .root (hp ▸ hparent), Nat.le_add_left ..⟩
    | some p =>
      rw [hp] at hparent
      have hlt : p < id := h.parent_lt hparent
      obtain ⟨ids, hids, hlength⟩ := ih p hlt (Nat.lt_trans hlt hid)
      exact ⟨id :: ids, .child hparent hids, by rw [List.length_cons]; omega⟩

end Built

/-! ### The walk of a lookup -/

/-- A chain is all that its scope and the parents say. -/
theorem Chain.unique {parents : List (Option Nat)} {id : Nat} {ids others : List Nat}
    (h : Chain parents id ids) (hothers : Chain parents id others) : others = ids := by
  induction h generalizing others with
  | root h =>
    cases hothers with
    | root _ => rfl
    | child h' _ => cases h.symm.trans h'
  | child h _ ih =>
    cases hothers with
    | root h' => cases h.symm.trans h'
    | child h' hp =>
      obtain rfl : _ = _ := Option.some.inj (Option.some.inj (h.symm.trans h'))
      rw [ih hp]

/-- The walk of a lookup goes on at the parent, unless the table holds the name. -/
theorem findFrom_succ {id : Nat} {parent? : Option Nat}
    (h : (s.get? id).map Scope.parent? = some parent?) (name : Bytes) (fuel : Nat) :
    (s.findFrom name (fuel + 1) id).map Prod.snd =
      ((s.tableOf id).get? name).or
        (parent?.bind fun p => (s.findFrom name fuel p).map Prod.snd) := by
  obtain ⟨sc, hsc, rfl⟩ := Option.map_eq_some_iff.mp h
  have htable : s.tableOf id = sc.table := by
    rw [tableOf, hsc]
    rfl
  rw [htable, findFrom, show s.all[id]? = some sc from hsc]
  cases hget : sc.table.get? name with
  | some a => simp [hget]
  | none => cases hparent : sc.parent? <;> simp [hget, hparent]

/-- A lookup takes the first table of the chain that holds the name. -/
theorem findFrom_eq {parents : List (Option Nat)}
    (hs : ∀ id, (s.get? id).map Scope.parent? = parents[id]?) {id : Nat} {ids : List Nat}
    (h : Chain parents id ids) {fuel : Nat} (hfuel : ids.length ≤ fuel) (name : Bytes) :
    (s.findFrom name fuel id).map Prod.snd =
      ids.findSome? fun id => (s.tableOf id).get? name := by
  -- Each scope of the chain takes one unit of fuel.
  induction h generalizing fuel with
  | @root id h =>
    obtain ⟨fuel, rfl⟩ := Nat.exists_eq_succ_of_ne_zero (Nat.ne_of_gt hfuel)
    rw [findFrom_succ ((hs id).trans h), List.findSome?_singleton, Option.bind_none, Option.or_none]
  | @child id p ids h _ ih =>
    obtain ⟨fuel, rfl⟩ := Nat.exists_eq_succ_of_ne_zero (Nat.ne_of_gt (Nat.zero_lt_of_lt hfuel))
    rw [findFrom_succ ((hs id).trans h), List.findSome?_cons, Option.bind_some,
      ih (Nat.le_of_succ_le_succ hfuel)]
    cases (s.tableOf id).get? name <;> rfl

end Scopes

namespace Machine

open Scopes

variable {m : Machine} {parents : List (Option Nat)} {id : Nat} {ids : List Nat}

/-- A lookup gives what the first table of the chain holds that has the name. -/
theorem lookup_eq (hs : ∀ id, (m.scopes.get? id).map Scope.parent? = parents[id]?)
    (h : Chain parents id ids) (hlength : ids.length ≤ id + 1) (name : Bytes) :
    m.lookup id name =
      match ids.findSome? fun id => (m.scopes.tableOf id).get? name with
      | some v => .ok v
      | none => .error { cause := .unbound name } := by
  rw [← findFrom_eq hs h hlength]
  unfold lookup find?
  cases m.scopes.findFrom name (id + 1) id <;> rfl

/-- A binding in a scope that is not on the chain is not seen. -/
theorem lookup_bind_of_not_mem (hs : ∀ id, (m.scopes.get? id).map Scope.parent? = parents[id]?)
    (h : Chain parents id ids) (hlength : ids.length ≤ id + 1) {scope : Nat} (hscope : scope ∉ ids)
    (bound : Bytes) (v : Value) (name : Bytes) :
    (m.bind scope bound v).lookup id name = m.lookup id name := by
  have hs' : ∀ id, ((m.bind scope bound v).scopes.get? id).map Scope.parent? = parents[id]? :=
    fun id => (parent?_bind m.scopes scope bound v id).trans (hs id)
  have htables : ∀ k ∈ ids, ((m.bind scope bound v).scopes.tableOf k).get? name
      = (m.scopes.tableOf k).get? name := by
    intro k hk
    have hne : k ≠ scope := fun heq => hscope (heq ▸ hk)
    exact congrArg (Table.get? · name) (tableOf_bind_of_ne hne bound v)
  rw [lookup_eq hs' h hlength, lookup_eq hs h hlength, ← List.head?_filterMap,
    ← List.head?_filterMap, List.filterMap_congr htables]

/-- **Names resolve to the nearest, latest binding.**  Whatever scopes have been made and whatever
    has been bound in them, a scope has one chain to its root.  A lookup from it gives the value
    bound last in the nearest scope of the chain that has ever bound the name; it fails, with a
    failure that carries the name, exactly if no scope of the chain has.  A binding in any other
    scope changes no lookup from this one, and a binding of the empty name changes nothing. -/
theorem lookup_nearest_latest {m : Machine} {calls : List (Call Value)} (h : Built calls m.scopes)
    {id : Nat} (hid : id < m.scopes.size) :
    ∃ ids, (∀ others, Chain (Scopes.parents calls) id others ↔ others = ids) ∧
      (∀ name v, m.lookup id name = .ok v ↔
        ∃ nearer owner farther, ids = nearer ++ owner :: farther ∧
          (valuesOf calls owner name).getLast? = some v ∧
          ∀ k ∈ nearer, valuesOf calls k name = []) ∧
      (∀ name f, m.lookup id name = .error f ↔
        f = { cause := .unbound name } ∧ ∀ k ∈ ids, valuesOf calls k name = []) ∧
      (∀ name f, m.lookup id name = .error f → f.kind = .nameError ∧ f.cause.name = name) ∧
      (∀ scope ∉ ids, ∀ bound v name,
        (m.bind scope bound v).lookup id name = m.lookup id name) ∧
      ∀ scope v, m.bind scope [] v = m := by
  obtain ⟨ids, hids, hlength⟩ := h.exists_chain hid
  have hlookup : ∀ name, m.lookup id name =
      match ids.findSome? fun k => (valuesOf calls k name).getLast? with
      | some v => .ok v
      | none => .error { cause := .unbound name } := by
    intro name
    rw [lookup_eq h.parent?_eq hids hlength]
    simp only [h.get?_tableOf]
  have herror : ∀ name f, m.lookup id name = .error f ↔
      f = { cause := .unbound name } ∧ ∀ k ∈ ids, valuesOf calls k name = [] := by
    intro name f
    simp only [← List.getLast?_eq_none_iff]
    rw [← List.findSome?_eq_none_iff, hlookup]
    cases ids.findSome? fun k => (valuesOf calls k name).getLast? with
    | none => simp [eq_comm]
    | some v => simp
  refine ⟨ids, fun others => ⟨hids.unique, fun heq => heq ▸ hids⟩, ?_, herror, ?_, ?_, ?_⟩
  · -- In the nearer scopes nothing has been bound, so that their tables do not hold the name.
    intro name v
    simp only [← List.getLast?_eq_none_iff]
    rw [← List.findSome?_eq_some_iff, hlookup]
    cases ids.findSome? fun k => (valuesOf calls k name).getLast? with
    | none => simp
    | some w => simp
  · intro name f hf
    obtain ⟨rfl, -⟩ := (herror name f).mp hf
    exact ⟨rfl, rfl⟩
  · intro scope hscope bound v name
    exact lookup_bind_of_not_mem h.parent?_eq hids hlength hscope bound v name
  · intro scope v
    unfold bind
    rw [bind_nil]

/-- A root, a child that binds its `n` anew, a child of that, and one more child of the root. -/
def nestedCalls : List (Call Value) :=
  [.new rootName none, .bind 0 (utf8 "n") (.int 1), .new (utf8 "outer") (some 0),
    .bind 1 (utf8 "n") (.int 2), .new (utf8 "inner") (some 1), .bind 0 (utf8 "n") (.int 3),
    .bind 0 (utf8 "m") (.int 4), .bind 0 (utf8 "m") (.int 5), .new (utf8 "other") (some 0),
    .bind 3 (utf8 "n") (.int 6)]

/-- The machine with the scopes of these calls. -/
def nested : Machine :=
  { start .empty 0 with
    scopes := (Scopes.mk #[]).add rootName none
      |>.bind 0 (utf8 "n") (.int 1)
      |>.add (utf8 "outer") (some 0)
      |>.bind 1 (utf8 "n") (.int 2)
      |>.add (utf8 "inner") (some 1)
      |>.bind 0 (utf8 "n") (.int 3)
      |>.bind 0 (utf8 "m") (.int 4)
      |>.bind 0 (utf8 "m") (.int 5)
      |>.add (utf8 "other") (some 0)
      |>.bind 3 (utf8 "n") (.int 6) }

/-- In nested scopes the inner `n` hides the outer one, and the later `m` replaces the earlier
    one. -/
theorem lookup_nearest_latest_inner :
    (Built nestedCalls nested.scopes ∧ 2 < nested.scopes.size) ∧
      nested.lookup 2 (utf8 "n") = .ok (.int 2) ∧ nested.lookup 2 (utf8 "m") = .ok (.int 5) ∧
      (∀ f, nested.lookup 2 (utf8 "k") = .error f → f.kind = .nameError) ∧
      ¬ (∃ v, nested.lookup 2 (utf8 "k") = .ok v) ∧
      (∀ bound v name, (nested.bind 3 bound v).lookup 2 name = nested.lookup 2 name) ∧
      ∀ v, nested.bind 2 [] v = nested := by
  have hbuilt := (Built.start (α := Value)).new rootName none nofun
    |>.bind 0 (by decide) (utf8 "n") (.int 1)
    |>.new (utf8 "outer") (some 0) (by decide)
    |>.bind 1 (by decide) (utf8 "n") (.int 2)
    |>.new (utf8 "inner") (some 1) (by decide)
    |>.bind 0 (by decide) (utf8 "n") (.int 3)
    |>.bind 0 (by decide) (utf8 "m") (.int 4)
    |>.bind 0 (by decide) (utf8 "m") (.int 5)
    |>.new (utf8 "other") (some 0) (by decide)
    |>.bind 3 (by decide) (utf8 "n") (.int 6)
  have h : Built nestedCalls nested.scopes := hbuilt
  have hid : 2 < nested.scopes.size := by decide
  obtain ⟨ids, hchain, hok, herror, hkind, hother, hempty⟩ := lookup_nearest_latest h hid
  -- The chain of the innermost scope.
  obtain rfl : [2, 1, 0] = ids :=
    (hchain _).mp (.child (p := 1) rfl (.child (p := 0) rfl (.root rfl)))
  refine ⟨⟨h, hid⟩, ?_, ?_, fun f hf => (hkind _ f hf).1, ?_, hother 3 (by decide), hempty 2⟩
  · exact (hok _ _).mpr ⟨[2], 1, [0], rfl, rfl, by decide⟩
  · exact (hok _ _).mpr ⟨[2, 1], 0, [], rfl, rfl, by decide⟩
  · rintro ⟨v, hv⟩
    have hfail := (herror (utf8 "k") _).mpr ⟨rfl, by decide⟩
    cases hv.symm.trans hfail

end Machine

end StackLang
