import StackLang.Scope.Table

namespace StackLang

/-!
# Scopes

A scope binds names and may have a parent.  A name is looked up in a scope, then in its
parent, and so on; it is always bound in the scope itself.

* `Scope` — a named table with the number of its parent;
* `Scopes` — all scopes made so far, numbered in the order they were made, so that a
  parent always has a smaller number;
* `Scopes.bind`, `Scopes.find?` — bind and look up a name.
-/

/-- A named table with the number of its parent. -/
structure Scope (α : Type) where
  name : Bytes
  parent? : Option Nat
  table : Table α

/-- A scope in text. -/
def Scope.text {α : Type} (s : Scope α) : Bytes := utf8 "<scope " ++ s.name ++ utf8 ">"

/-- All scopes made so far. -/
structure Scopes (α : Type) where
  all : Array (Scope α)

namespace Scopes

variable {α : Type}

/-- The name of a root scope. -/
def rootName : Bytes := utf8 "globals"

/-- A root scope alone. -/
def root (globals : Table α) : Scopes α := ⟨#[⟨rootName, none, globals⟩]⟩

/-- The number of scopes, which is also the number of the next scope. -/
def size (s : Scopes α) : Nat := s.all.size

/-- A scope by its number. -/
def get? (s : Scopes α) (id : Nat) : Option (Scope α) := s.all[id]?

/-- The table of a scope; empty if there is no such scope. -/
def tableOf (s : Scopes α) (id : Nat) : Table α := ((s.get? id).map (·.table)).getD .empty

/-- Makes a new, empty scope. -/
def add (s : Scopes α) (name : Bytes) (parent? : Option Nat) : Scopes α :=
  ⟨s.all.push ⟨name, parent?, .empty⟩⟩

/-- Forgets all scopes but the first `n`. -/
def truncate (s : Scopes α) (n : Nat) : Scopes α := ⟨s.all.shrink n⟩

/-- Binds a name in a scope; the empty name is never bound. -/
def bind (s : Scopes α) (id : Nat) (name : Bytes) (a : α) : Scopes α :=
  ⟨s.all.modify id fun sc => { sc with table := sc.table.bind name a }⟩

/-- Looks a name up in a scope and at most `fuel` scopes in all towards the root. -/
def findFrom (s : Scopes α) (name : Bytes) : (fuel : Nat) → (id : Nat) → Option (Nat × α)
  | 0, _ => none
  | fuel + 1, id =>
    match s.all[id]? with
    | none => none
    | some sc =>
      match sc.table.get? name with
      | some a => some (id, a)
      | none =>
        match sc.parent? with
        | none => none
        | some p => findFrom s name fuel p

/-- The nearest scope, from a scope towards the root, that binds a name, and what it
    binds the name to.  As parents have smaller numbers, the number of the scope bounds
    the length of the way. -/
def find? (s : Scopes α) (id : Nat) (name : Bytes) : Option (Nat × α) :=
  s.findFrom name (id + 1) id

end Scopes

end StackLang
