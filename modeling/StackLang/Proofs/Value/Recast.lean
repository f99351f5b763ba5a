import StackLang.Operator.Sequence
import Mathlib.Logic.Function.Basic

namespace StackLang

/-!
# Values in another guise

What operators without code make of values depends neither on the positions of the symbols inside
blocks nor on the numbers by which lists are told apart.

* `Recast` — other numbers for lists, different ones for different lists, and other positions;
* `Value.recast` goes through every way in which a value is looked at or taken apart: its kind,
  truth, elements, text and equality;
* `Sequence.Natural` — it goes through the operators on sequences as well.
-/

/-- A function leaves a sequence as it is if and only if it leaves each member as it is. -/
theorem map_eq_self_iff {α : Type} {f : α → α} {as : List α} :
    as.map f = as ↔ ∀ a ∈ as, f a = a := by
  simpa using List.map_inj_left (l := as) (f := f) (g := id)

/-- Other numbers for lists, and other positions for symbols. -/
structure Recast where
  ident : Nat → Nat
  place : Span → Span
  /-- Different lists stay different. -/
  injective : Function.Injective ident

mutual

/-- A value with other numbers for its lists, and other positions inside its blocks. -/
def Value.recast (c : Recast) : Value → Value
  | .bool b => .bool b
  | .int n => .int n
  | .float x => .float x
  | .str s => .str s
  | .list id vs => .list (c.ident id) (Value.recastAll c vs)
  | .tuple vs => .tuple (Value.recastAll c vs)
  | .block p => .block (Symbol.recastAll c p)

/-- Values with other numbers for their lists, and other positions inside their blocks. -/
def Value.recastAll (c : Recast) : List Value → List Value
  | [] => []
  | v :: vs => v.recast c :: Value.recastAll c vs

/-- A symbol with other numbers for its lists, and other positions. -/
def Symbol.recast (c : Recast) : Symbol → Symbol
  | .literal v span => .literal (v.recast c) (c.place span)
  | .name s span => .name s (c.place span)
  | .operator s span => .operator s (c.place span)
  | .group k body span => .group k (Symbol.recastAll c body) (c.place span)
  | .blank span => .blank (c.place span)

/-- A program with other numbers for its lists, and other positions. -/
def Symbol.recastAll (c : Recast) : List Symbol → List Symbol
  | [] => []
  | s :: ss => s.recast c :: Symbol.recastAll c ss

end

variable (c : Recast)

/-- Values are recast one by one. -/
theorem Value.recastAll_eq (vs : List Value) : recastAll c vs = vs.map (recast c) := by
  induction vs with
  | nil => rfl
  | cons v vs ih => rw [recastAll, ih, List.map_cons]

theorem Symbol.recastAll_eq (ss : List Symbol) : recastAll c ss = ss.map (recast c) := by
  induction ss with
  | nil => rfl
  | cons s ss ih => rw [recastAll, ih, List.map_cons]

namespace Value

/-- A list is recast with another identity and with its elements recast. -/
@[simp] theorem recast_list (id : Nat) (vs : List Value) :
    (list id vs).recast c = .list (c.ident id) (vs.map (recast c)) := by
  rw [recast, recastAll_eq]

@[simp] theorem recast_tuple (vs : List Value) :
    (tuple vs).recast c = .tuple (vs.map (recast c)) := by
  rw [recast, recastAll_eq]

@[simp] theorem recast_block (p : Program) :
    (block p).recast c = .block (p.map (Symbol.recast c)) := by
  rw [recast, Symbol.recastAll_eq]

/-- A value that is no sequence and no block has no other guise. -/
theorem recast_of_flat {v : Value}
    (h : v.kind = .bool ∨ v.kind = .int ∨ v.kind = .float ∨ v.kind = .str) : v.recast c = v := by
  cases v with
  | list _ _ => simp [kind] at h
  | tuple _ => simp [kind] at h
  | block _ => simp [kind] at h
  | _ => rfl

/-- Recasting keeps the kind of a value. -/
@[simp] theorem kind_recast (v : Value) : (v.recast c).kind = v.kind := by
  cases v <;> rfl

@[simp] theorem truthy_recast (v : Value) : (v.recast c).truthy = v.truthy := by
  cases v with
  | list id vs => cases vs <;> rfl
  | tuple vs => cases vs <;> rfl
  | _ => rfl

/-! ### Elements -/

/-- The elements of a recast value are its elements recast. -/
@[simp] theorem elements_recast (v : Value) :
    (v.recast c).elements = v.elements.map (recast c) := by
  cases v with
  | list id vs => exact recastAll_eq c vs
  | tuple vs => exact recastAll_eq c vs
  | str s =>
    -- The characters of a string are strings again.
    show characters s = (characters s).map (recast c)
    simp [characters, recast]
  | _ => rfl

/-- Recasting keeps the number of elements. -/
@[simp] theorem length_recast (v : Value) : (v.recast c).length = v.length := by
  cases v with
  | list id vs => simp [length, length?]
  | tuple vs => simp [length, length?]
  | _ => rfl

/-- An index selects the same element, recast. -/
@[simp] theorem index?_recast (v : Value) (i : Int) :
    (v.recast c).index? i = (v.index? i).map (recast c) := by
  unfold index?
  split
  · rfl
  · cases v with
    | list id vs => simp
    | tuple vs => simp
    | str s => simp [recast, Function.comp_def]
    | _ => rfl

end Value

/-! ### Text -/

mutual

/-- The text of a value shows neither identities nor positions. -/
theorem Value.text_recast : ∀ v : Value, (v.recast c).text = v.text
  | .bool _ => rfl
  | .int _ => rfl
  | .float _ => rfl
  | .str _ => rfl
  | .list _ vs => by rw [Value.recast, Value.text, Value.text, Value.texts_recast vs]
  | .tuple vs => by rw [Value.recast, Value.text, Value.text, Value.texts_recast vs]
  | .block [] => rfl
  | .block (s :: ss) => by
    have h := Symbol.texts_recast (s :: ss)
    rw [Symbol.recastAll] at h
    rw [Value.recast, Symbol.recastAll, Value.text, Value.text, h]
    · simp
    · simp

theorem Value.texts_recast : ∀ vs : List Value, Value.texts (Value.recastAll c vs) = Value.texts vs
  | [] => rfl
  | v :: vs => by
    rw [Value.recastAll, Value.texts, Value.texts, Value.text_recast v, Value.texts_recast vs]

/-- The text of a symbol shows neither identities nor positions. -/
theorem Symbol.text_recast : ∀ s : Symbol, (s.recast c).text = s.text
  | .literal v _ => Value.text_recast v
  | .name _ _ => rfl
  | .operator _ _ => rfl
  | .group k body _ => by
    have h := Symbol.texts_recast body
    cases k with
    | tuple => rw [Symbol.recast, Symbol.text, Symbol.text, h]
    | _ =>
      rw [Symbol.recast, Symbol.text, Symbol.text, h]
      · simp
      · simp
  | .blank _ => rfl

theorem Symbol.texts_recast : ∀ ss : List Symbol,
    Symbol.texts (Symbol.recastAll c ss) = Symbol.texts ss
  | [] => rfl
  | s :: ss => by
    rw [Symbol.recastAll, Symbol.texts, Symbol.texts, Symbol.text_recast s, Symbol.texts_recast ss]

end

/-! ### Equality -/

mutual

/-- Values are equal or not in any guise, as different lists keep different identities. -/
theorem Value.equals_recast : ∀ v u : Value, (v.recast c).equals (u.recast c) = v.equals u
  | .tuple vs, .tuple us => by
    rw [Value.recast, Value.recast, Value.equals, Value.equals]
    exact Value.equalsAll_recast vs us
  | .block p, .block q => by
    rw [Value.recast, Value.recast, Value.equals, Value.equals]
    exact Symbol.equalsAll_recast p q
  | .list i _, .list j _ => by
    -- Lists are told apart by their numbers alone.
    rw [Value.recast, Value.recast, Value.equals, Value.equals, Bool.eq_iff_iff, beq_iff_eq,
      beq_iff_eq]
    exact c.injective.eq_iff
  | .bool _, u => by cases u <;> simp [Value.recast, Value.equals]
  | .int _, u => by cases u <;> simp [Value.recast, Value.equals]
  | .float _, u => by cases u <;> simp [Value.recast, Value.equals]
  | .str _, u => by cases u <;> simp [Value.recast, Value.equals]
  | .list _ _, .bool _ | .list _ _, .int _ | .list _ _, .float _ | .list _ _, .str _
  | .list _ _, .tuple _ | .list _ _, .block _ => by simp [Value.recast, Value.equals]
  | .tuple _, .bool _ | .tuple _, .int _ | .tuple _, .float _ | .tuple _, .str _
  | .tuple _, .list _ _ | .tuple _, .block _ => by simp [Value.recast, Value.equals]
  | .block _, .bool _ | .block _, .int _ | .block _, .float _ | .block _, .str _
  | .block _, .list _ _ | .block _, .tuple _ => by simp [Value.recast, Value.equals]

theorem Value.equalsAll_recast : ∀ vs us : List Value,
    Value.equalsAll (Value.recastAll c vs) (Value.recastAll c us) = Value.equalsAll vs us
  | [], [] => rfl
  | [], _ :: _ => by simp [Value.recastAll, Value.equalsAll]
  | _ :: _, [] => by simp [Value.recastAll, Value.equalsAll]
  | v :: vs, u :: us => by
    rw [Value.recastAll, Value.recastAll, Value.equalsAll, Value.equalsAll,
      Value.equals_recast v u, Value.equalsAll_recast vs us]

/-- Symbols are equal or not in any guise. -/
theorem Symbol.equals_recast : ∀ s t : Symbol, (s.recast c).equals (t.recast c) = s.equals t
  | .literal v _, .literal u _ => by
    rw [Symbol.recast, Symbol.recast, Symbol.equals, Symbol.equals, Value.kind_recast,
      Value.kind_recast, Value.equals_recast v u]
  | .group k p _, .group l q _ => by
    rw [Symbol.recast, Symbol.recast, Symbol.equals, Symbol.equals, Symbol.equalsAll_recast p q]
  | .name _ _, t => by cases t <;> simp [Symbol.recast, Symbol.equals]
  | .operator _ _, t => by cases t <;> simp [Symbol.recast, Symbol.equals]
  | .blank _, t => by cases t <;> simp [Symbol.recast, Symbol.equals]
  | .literal _ _, .name _ _ | .literal _ _, .operator _ _ | .literal _ _, .group _ _ _
  | .literal _ _, .blank _ => by simp [Symbol.recast, Symbol.equals]
  | .group _ _ _, .literal _ _ | .group _ _ _, .name _ _ | .group _ _ _, .operator _ _
  | .group _ _ _, .blank _ => by simp [Symbol.recast, Symbol.equals]

theorem Symbol.equalsAll_recast : ∀ p q : List Symbol,
    Symbol.equalsAll (Symbol.recastAll c p) (Symbol.recastAll c q) = Symbol.equalsAll p q
  | [], [] => rfl
  | [], _ :: _ => by simp [Symbol.recastAll, Symbol.equalsAll]
  | _ :: _, [] => by simp [Symbol.recastAll, Symbol.equalsAll]
  | s :: p, t :: q => by
    rw [Symbol.recastAll, Symbol.recastAll, Symbol.equalsAll, Symbol.equalsAll,
      Symbol.equals_recast s t, Symbol.equalsAll_recast p q]

end

/-! ### Sequences -/

namespace Sequence

/-- A function on sequences of values makes the same of them in any guise. -/
def Natural (f : List Value → List Value → List Value) : Prop :=
  ∀ (c : Recast) a b, f (a.map (Value.recast c)) (b.map (Value.recast c))
    = (f a b).map (Value.recast c)

/-- Whether a value occurs in a sequence is the same in any guise. -/
theorem contains_recast (vs : List Value) (v : Value) :
    contains (vs.map (Value.recast c)) (v.recast c) = contains vs v := by
  have hequals : (v.recast c).equals ∘ Value.recast c = v.equals := by
    ext u
    exact Value.equals_recast c v u
  rw [contains, contains, List.any_map, hequals]

/-- Adding what is new does the same in any guise. -/
theorem addNew_recast (vs : List Value) (v : Value) :
    addNew (vs.map (Value.recast c)) (v.recast c) = (addNew vs v).map (Value.recast c) := by
  unfold addNew
  rw [contains_recast]
  split
  · rfl
  · simp

/-- A fold is natural if its steps are. -/
theorem foldl_recast {step step' : List Value → Value → List Value}
    (hstep : ∀ acc v, step' (acc.map (Value.recast c)) (v.recast c)
      = (step acc v).map (Value.recast c))
    (vs : List Value) : ∀ acc, (vs.map (Value.recast c)).foldl step' (acc.map (Value.recast c))
      = (vs.foldl step acc).map (Value.recast c) := by
  induction vs with
  | nil => exact fun _ => rfl
  | cons v vs ih =>
    intro acc
    rw [List.map_cons, List.foldl_cons, List.foldl_cons, hstep, ih]

/-- Putting sequences together is natural. -/
theorem append_natural : Natural (· ++ ·) := fun _ _ _ => (List.map_append ..).symm

theorem difference_natural : Natural difference := by
  intro c a b
  have hnew : (fun v => !contains (b.map (Value.recast c)) v) ∘ Value.recast c
      = fun v => !contains b v := by
    ext v
    exact congrArg not (contains_recast c b v)
  rw [difference, difference, List.filter_map, hnew]

theorem union_natural : Natural union := by
  intro c a b
  have hfold := foldl_recast c (addNew_recast c) (a ++ b) []
  rwa [List.map_append] at hfold

theorem intersection_natural : Natural intersection := by
  intro c a b
  refine foldl_recast c (fun acc v => ?_) a []
  rw [contains_recast, addNew_recast]
  split <;> rfl

/-- The symmetric difference of sequences is natural. -/
theorem symmetricDifference_natural : Natural symmetricDifference := by
  intro c a b
  unfold symmetricDifference
  rw [difference_natural, difference_natural, union_natural]

/-- Copies of a changed sequence are changed copies. -/
theorem copies_map {α β : Type} (f : α → β) (n : Nat) (as : List α) :
    copies n (as.map f) = (copies n as).map f := by
  simp [copies, List.map_flatten]

end Sequence

end StackLang
