import StackLang.Text.Bytes

namespace StackLang

/-!
# Tables of names

* `Table` — names and what they stand for, in the bytewise order of the names;
* `Table.get?`, `Table.insert` — look up and put in, replacing what was there;
* `Table.bind` — the same for a name that a program may use: the empty name is never
  bound;
* `Table.declare`, `Table.ensure` — names that stand for nothing yet.
-/

/-- Names and what they stand for, in the bytewise order of the names. -/
structure Table (α : Type) where
  entries : List (Bytes × α)

namespace Table

variable {α : Type}

/-- The table without names. -/
def empty : Table α := ⟨[]⟩

instance : Inhabited (Table α) := ⟨empty⟩

/-- The number of names. -/
def size (t : Table α) : Nat := t.entries.length

/-- What a name stands for. -/
def get? (t : Table α) (name : Bytes) : Option α := t.entries.lookup name

/-- Puts an entry into a list of entries ordered by name. -/
def insertEntry (name : Bytes) (a : α) : List (Bytes × α) → List (Bytes × α)
  | [] => [(name, a)]
  | (n, b) :: rest =>
    if name = n then (name, a) :: rest
    else if name < n then (name, a) :: (n, b) :: rest
    else (n, b) :: insertEntry name a rest

/-- Makes a name stand for something. -/
def insert (t : Table α) (name : Bytes) (a : α) : Table α := ⟨insertEntry name a t.entries⟩

/-- An entry is found under its name, and any other name is searched for behind it. -/
theorem lookup_cons_ite (name other : Bytes) (a : α) (entries : List (Bytes × α)) :
    ((name, a) :: entries).lookup other = if other = name then some a else entries.lookup other := by
  rw [List.lookup_cons]
  by_cases h : other = name
  · simp [h]
  · rw [if_neg h, beq_false_of_ne h]

/-- An inserted entry is found under its name, and all other names are found as before. -/
theorem lookup_insertEntry (name other : Bytes) (a : α) (entries : List (Bytes × α)) :
    (insertEntry name a entries).lookup other =
      if other = name then some a else entries.lookup other := by
  induction entries with
  | nil => exact lookup_cons_ite name other a []
  | cons e rest ih =>
    obtain ⟨n, b⟩ := e
    simp only [insertEntry]
    split
    · rename_i h
      rw [lookup_cons_ite, lookup_cons_ite, ← h]
      split <;> rfl
    · rename_i h
      split
      · rw [lookup_cons_ite]
      · rw [lookup_cons_ite, lookup_cons_ite, ih]
        by_cases ho : other = name
        · rw [if_pos ho, if_neg (ho ▸ h), if_pos ho]
        · rw [if_neg ho, if_neg ho]

/-- What was put in is found, and nothing else changes. -/
theorem get?_insert (t : Table α) (name other : Bytes) (a : α) :
    (t.insert name a).get? other = if other = name then some a else t.get? other :=
  lookup_insertEntry name other a t.entries

/-- Binds a name; the empty name is never bound. -/
def bind (t : Table α) (name : Bytes) (a : α) : Table α :=
  if name.isEmpty then t else t.insert name a

/-- The table with some names bound, later ones over earlier ones. -/
def ofList (bindings : List (Bytes × α)) : Table α :=
  bindings.foldl (fun t b => t.bind b.1 b.2) empty

/-! ### Names without a value -/

/-- Makes a non-empty name stand for nothing, whatever it stood for. -/
def declare (t : Table (Option α)) (name : Bytes) : Table (Option α) := t.bind name none

/-- Makes sure that a non-empty name is in the table. -/
def ensure (t : Table (Option α)) (name : Bytes) : Table (Option α) :=
  if (t.get? name).isSome then t else t.declare name

end Table

end StackLang
