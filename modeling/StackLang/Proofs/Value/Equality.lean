import StackLang.Proofs.Value.Order
import StackLang.Proofs.Value.Positions

namespace StackLang

/-!
# Equality of values

Numbers are compared by their amounts, lists by their identities and all else part by part, where
literals inside blocks must be of one kind as well.

* `Value.equals_comm` — equality is symmetric, on all values;
* `Value.outline` — what equality looks at in a value without floats: neither positions nor the
  elements of lists;
* `Value.equals_iff_outline` — such values are equal if and only if their outlines are the same;
* `Value.unspanned_of_outline` — values of one heap with the same outline differ in positions alone;
* `Value.equality` — without floats equality is an equivalence relation, and equal values cannot be
  told apart by their kind, truth or text.
-/

/-! ### Symmetry -/

/-- Equality of floats is symmetric, NaN included. -/
theorem Value.float_beq_comm (x y : Float) : (x == y) = (y == x) := by
  rw [Bool.eq_iff_iff, beq_iff_orderOf?, beq_iff_orderOf?, orderOf?_swap]
  cases orderOf? x y with
  | none => simp
  | some o => cases o <;> simp

mutual

/-- Equality is symmetric. -/
theorem Value.equals_comm : ∀ a b : Value, a.equals b = b.equals a
  | .tuple as, .tuple bs => by
    rw [Value.equals, Value.equals]
    exact Value.equalsAll_comm as bs
  | .block p, .block q => by
    rw [Value.equals, Value.equals]
    exact Symbol.equalsAll_comm p q
  | .int m, b => by cases b <;> simp [Value.equals, Value.float_beq_comm, Bool.beq_comm]
  | .float x, b => by cases b <;> simp [Value.equals, Value.float_beq_comm]
  | .bool _, b => by cases b <;> simp [Value.equals, Bool.beq_comm]
  | .str _, b => by cases b <;> simp [Value.equals, Bool.beq_comm]
  | .list _ _, b => by cases b <;> simp [Value.equals, Bool.beq_comm]
  | .tuple _, .bool _ | .tuple _, .int _ | .tuple _, .float _ | .tuple _, .str _
  | .tuple _, .list _ _ | .tuple _, .block _ => by simp [Value.equals]
  | .block _, .bool _ | .block _, .int _ | .block _, .float _ | .block _, .str _
  | .block _, .list _ _ | .block _, .tuple _ => by simp [Value.equals]

theorem Value.equalsAll_comm : ∀ as bs : List Value, Value.equalsAll as bs = Value.equalsAll bs as
  | [], [] => rfl
  | [], _ :: _ => by simp [Value.equalsAll]
  | _ :: _, [] => by simp [Value.equalsAll]
  | a :: as, b :: bs => by
    rw [Value.equalsAll, Value.equalsAll, Value.equals_comm a b, Value.equalsAll_comm as bs]

/-- Equality of symbols is symmetric. -/
theorem Symbol.equals_comm : ∀ s t : Symbol, s.equals t = t.equals s
  | .literal a _, .literal b _ => by
    rw [Symbol.equals, Symbol.equals, Value.equals_comm a b, Bool.beq_comm]
  | .group k p _, .group l q _ => by
    rw [Symbol.equals, Symbol.equals, Symbol.equalsAll_comm p q, Bool.beq_comm]
  | .name _ _, t => by cases t <;> simp [Symbol.equals, Bool.beq_comm]
  | .operator _ _, t => by cases t <;> simp [Symbol.equals, Bool.beq_comm]
  | .blank _, t => by cases t <;> simp [Symbol.equals]
  | .literal _ _, .name _ _ | .literal _ _, .operator _ _ | .literal _ _, .group _ _ _
  | .literal _ _, .blank _ => by simp [Symbol.equals]
  | .group _ _ _, .literal _ _ | .group _ _ _, .name _ _ | .group _ _ _, .operator _ _
  | .group _ _ _, .blank _ => by simp [Symbol.equals]

theorem Symbol.equalsAll_comm : ∀ p q : List Symbol, Symbol.equalsAll p q = Symbol.equalsAll q p
  | [], [] => rfl
  | [], _ :: _ => by simp [Symbol.equalsAll]
  | _ :: _, [] => by simp [Symbol.equalsAll]
  | s :: p, t :: q => by
    rw [Symbol.equalsAll, Symbol.equalsAll, Symbol.equals_comm s t, Symbol.equalsAll_comm p q]

end

/-! ### Outlines -/

mutual

/-- A value that is compared exactly: there is no float in it, and no symbol of no type.  Lists are
    compared by identity, whatever is in them. -/
def Value.isExact : Value → Bool
  | .bool _ => true
  | .int _ => true
  | .float _ => false
  | .str _ => true
  | .list _ _ => true
  | .tuple vs => Value.areExact vs
  | .block p => Symbol.areExact p

/-- Values that are compared exactly. -/
def Value.areExact : List Value → Bool
  | [] => true
  | v :: vs => v.isExact && Value.areExact vs

/-- A symbol that is compared exactly. -/
def Symbol.isExact : Symbol → Bool
  | .literal v _ => v.isExact
  | .name _ _ => true
  | .operator _ _ => true
  | .group _ p _ => Symbol.areExact p
  | .blank _ => false

/-- A program that is compared exactly. -/
def Symbol.areExact : List Symbol → Bool
  | [] => true
  | s :: p => s.isExact && Symbol.areExact p

end

mutual

/-- A value without the positions inside its blocks and the elements of its lists. -/
def Value.outline : Value → Value
  | .bool b => .bool b
  | .int n => .int n
  | .float x => .float x
  | .str s => .str s
  | .list id _ => .list id []
  | .tuple vs => .tuple (Value.outlineAll vs)
  | .block p => .block (Symbol.outlineAll p)

/-- Values without positions and elements of lists. -/
def Value.outlineAll : List Value → List Value
  | [] => []
  | v :: vs => v.outline :: Value.outlineAll vs

/-- A symbol without positions and elements of lists. -/
def Symbol.outline : Symbol → Symbol
  | .literal v _ => .literal v.outline .none
  | .name s _ => .name s .none
  | .operator s _ => .operator s .none
  | .group k p _ => .group k (Symbol.outlineAll p) .none
  | .blank _ => .blank .none

/-- A program without positions and elements of lists. -/
def Symbol.outlineAll : List Symbol → List Symbol
  | [] => []
  | s :: p => s.outline :: Symbol.outlineAll p

end

/-- An outline keeps the kind of a value. -/
theorem Value.kind_outline (v : Value) : v.outline.kind = v.kind := by
  cases v <;> rfl

/-- Values with the same outline are of the same kind. -/
theorem Value.kind_eq_of_outline {a b : Value} (h : a.outline = b.outline) : a.kind = b.kind := by
  rw [← kind_outline a, h, kind_outline]

mutual

/-- **Equality is sameness of outlines** where it is exact. -/
theorem Value.equals_iff_outline : ∀ a b : Value, a.isExact = true → b.isExact = true →
    (a.equals b = true ↔ a.outline = b.outline)
  | .tuple as, .tuple bs, ha, hb => by
    rw [Value.equals, Value.outline, Value.outline, Value.tuple.injEq]
    exact Value.equalsAll_iff_outline as bs ha hb
  | .block p, .block q, ha, hb => by
    rw [Value.equals, Value.outline, Value.outline, Value.block.injEq]
    exact Symbol.equalsAll_iff_outline p q ha hb
  -- Values with floats are not compared exactly, and nor are those compared with a float below.
  | .float _, _, ha, _ => absurd ha (by simp [Value.isExact])
  | .int _, b, _, hb => by
    cases b with
    | float y => exact absurd hb (by simp [Value.isExact])
    | _ => simp [Value.equals, Value.outline]
  | .bool _, b, _, _ => by cases b <;> simp [Value.equals, Value.outline]
  | .str _, b, _, _ => by cases b <;> simp [Value.equals, Value.outline]
  | .list _ _, b, _, _ => by cases b <;> simp [Value.equals, Value.outline]
  | .tuple _, .bool _, _, _ | .tuple _, .int _, _, _ | .tuple _, .float _, _, _
  | .tuple _, .str _, _, _ | .tuple _, .list _ _, _, _ | .tuple _, .block _, _, _ => by
    simp [Value.equals, Value.outline]
  | .block _, .bool _, _, _ | .block _, .int _, _, _ | .block _, .float _, _, _
  | .block _, .str _, _, _ | .block _, .list _ _, _, _ | .block _, .tuple _, _, _ => by
    simp [Value.equals, Value.outline]

theorem Value.equalsAll_iff_outline : ∀ as bs : List Value, Value.areExact as = true →
    Value.areExact bs = true →
    (Value.equalsAll as bs = true ↔ Value.outlineAll as = Value.outlineAll bs)
  | [], [], _, _ => by simp [Value.equalsAll]
  | [], _ :: _, _, _ => by simp [Value.equalsAll, Value.outlineAll]
  | _ :: _, [], _, _ => by simp [Value.equalsAll, Value.outlineAll]
  | a :: as, b :: bs, ha, hb => by
    obtain ⟨ha, has⟩ := (Bool.and_eq_true_iff ..).mp ha
    obtain ⟨hb, hbs⟩ := (Bool.and_eq_true_iff ..).mp hb
    rw [Value.equalsAll, Value.outlineAll, Value.outlineAll, Bool.and_eq_true, List.cons.injEq,
      Value.equals_iff_outline a b ha hb, Value.equalsAll_iff_outline as bs has hbs]

/-- Symbols that are compared exactly are equal if and only if their outlines are. -/
theorem Symbol.equals_iff_outline : ∀ s t : Symbol, s.isExact = true → t.isExact = true →
    (s.equals t = true ↔ s.outline = t.outline)
  | .literal a _, .literal b _, ha, hb => by
    rw [Symbol.equals, Symbol.outline, Symbol.outline, Bool.and_eq_true,
      Value.equals_iff_outline a b ha hb, beq_iff_eq]
    -- Values with the same outline are of one kind.
    simpa using Value.kind_eq_of_outline
  | .group k p _, .group l q _, hp, hq => by
    rw [Symbol.equals, Symbol.outline, Symbol.outline, Bool.and_eq_true, beq_iff_eq,
      Symbol.equalsAll_iff_outline p q hp hq]
    simp
  | .blank _, _, hs, _ => absurd hs (by simp [Symbol.isExact])
  | .name _ _, t, _, _ => by cases t <;> simp [Symbol.equals, Symbol.outline]
  | .operator _ _, t, _, _ => by cases t <;> simp [Symbol.equals, Symbol.outline]
  | .literal _ _, .name _ _, _, _ | .literal _ _, .operator _ _, _, _
  | .literal _ _, .group _ _ _, _, _ | .literal _ _, .blank _, _, _ => by
    simp [Symbol.equals, Symbol.outline]
  | .group _ _ _, .literal _ _, _, _ | .group _ _ _, .name _ _, _, _
  | .group _ _ _, .operator _ _, _, _ | .group _ _ _, .blank _, _, _ => by
    simp [Symbol.equals, Symbol.outline]

theorem Symbol.equalsAll_iff_outline : ∀ p q : List Symbol, Symbol.areExact p = true →
    Symbol.areExact q = true →
    (Symbol.equalsAll p q = true ↔ Symbol.outlineAll p = Symbol.outlineAll q)
  | [], [], _, _ => by simp [Symbol.equalsAll]
  | [], _ :: _, _, _ => by simp [Symbol.equalsAll, Symbol.outlineAll]
  | _ :: _, [], _, _ => by simp [Symbol.equalsAll, Symbol.outlineAll]
  | s :: p, t :: q, hp, hq => by
    obtain ⟨hs, hp⟩ := (Bool.and_eq_true_iff ..).mp hp
    obtain ⟨ht, hq⟩ := (Bool.and_eq_true_iff ..).mp hq
    rw [Symbol.equalsAll, Symbol.outlineAll, Symbol.outlineAll, Bool.and_eq_true, List.cons.injEq,
      Symbol.equals_iff_outline s t hs ht, Symbol.equalsAll_iff_outline p q hp hq]

end

/-! ### Heaps

A list is a reference to its elements: lists of one identity are one list.  What a program holds at
one time lives in one heap, which has the elements of every list.
-/

mutual

/-- The lists in a value have the elements that a heap has for their identities. -/
def Value.Within (heap : Nat → List Value) : Value → Prop
  | .list id vs => heap id = vs
  | .tuple vs => Value.AllWithin heap vs
  | .block p => Symbol.AllWithin heap p
  | .bool _ | .int _ | .float _ | .str _ => True

/-- The lists in some values have the elements that a heap has for them. -/
def Value.AllWithin (heap : Nat → List Value) : List Value → Prop
  | [] => True
  | v :: vs => v.Within heap ∧ Value.AllWithin heap vs

/-- The lists in a symbol have the elements that a heap has for them. -/
def Symbol.Within (heap : Nat → List Value) : Symbol → Prop
  | .literal v _ => v.Within heap
  | .group _ p _ => Symbol.AllWithin heap p
  | .name _ _ | .operator _ _ | .blank _ => True

/-- The lists in a program have the elements that a heap has for them. -/
def Symbol.AllWithin (heap : Nat → List Value) : List Symbol → Prop
  | [] => True
  | s :: p => s.Within heap ∧ Symbol.AllWithin heap p

end

section Heap

variable {heap : Nat → List Value}

mutual

/-- **Values of one heap** with the same outline differ in positions alone. -/
theorem Value.unspanned_of_outline : ∀ a b : Value, a.Within heap → b.Within heap →
    a.outline = b.outline → a.unspanned = b.unspanned
  | .tuple as, b, ha, hb, h => by
    cases b with
    | tuple bs =>
      rw [Value.outline, Value.outline, Value.tuple.injEq] at h
      rw [Value.unspanned, Value.unspanned, Value.unspannedAll_of_outline as bs ha hb h]
    | _ => exact absurd (Value.kind_eq_of_outline h) nofun
  | .block p, b, ha, hb, h => by
    cases b with
    | block q =>
      rw [Value.outline, Value.outline, Value.block.injEq] at h
      rw [Value.unspanned, Value.unspanned, Symbol.unspannedAll_of_outline p q ha hb h]
    | _ => exact absurd (Value.kind_eq_of_outline h) nofun
  -- The heap has the same elements for the same identity.
  | .list id vs, b, ha, hb, h => by
    cases b with
    | list other us =>
      rw [Value.outline, Value.outline, Value.list.injEq] at h
      obtain ⟨rfl, -⟩ := h
      rw [show vs = us from ha.symm.trans hb]
    | _ => exact absurd (Value.kind_eq_of_outline h) nofun
  | .bool _, b, _, _, h => by cases b <;> simp_all [Value.outline]
  | .int _, b, _, _, h => by cases b <;> simp_all [Value.outline]
  | .float _, b, _, _, h => by cases b <;> simp_all [Value.outline]
  | .str _, b, _, _, h => by cases b <;> simp_all [Value.outline]

theorem Value.unspannedAll_of_outline : ∀ as bs : List Value, Value.AllWithin heap as →
    Value.AllWithin heap bs → Value.outlineAll as = Value.outlineAll bs →
    Value.unspannedAll as = Value.unspannedAll bs
  | [], bs, _, _, h => by
    cases bs with
    | nil => rfl
    | cons b bs => exact absurd h (by simp [Value.outlineAll])
  | a :: as, bs, ha, hb, h => by
    cases bs with
    | nil => exact absurd h (by simp [Value.outlineAll])
    | cons b bs =>
      rw [Value.outlineAll, Value.outlineAll, List.cons.injEq] at h
      rw [Value.unspannedAll, Value.unspannedAll, Value.unspanned_of_outline a b ha.1 hb.1 h.1,
        Value.unspannedAll_of_outline as bs ha.2 hb.2 h.2]

/-- Symbols of one heap with the same outline are the same up to positions. -/
theorem Symbol.unspanned_of_outline : ∀ s t : Symbol, s.Within heap → t.Within heap →
    s.outline = t.outline → s.unspanned = t.unspanned
  | .literal a _, t, hs, ht, h => by
    cases t with
    | literal b _ =>
      rw [Symbol.outline, Symbol.outline, Symbol.literal.injEq] at h
      rw [Symbol.unspanned, Symbol.unspanned, Value.unspanned_of_outline a b hs ht h.1]
    | _ => exact absurd h (by simp [Symbol.outline])
  | .group k p _, t, hs, ht, h => by
    cases t with
    | group l q _ =>
      rw [Symbol.outline, Symbol.outline, Symbol.group.injEq] at h
      rw [Symbol.unspanned, Symbol.unspanned, h.1, Symbol.unspannedAll_of_outline p q hs ht h.2.1]
    | _ => exact absurd h (by simp [Symbol.outline])
  | .name _ _, t, _, _, h => by cases t <;> simp_all [Symbol.outline, Symbol.unspanned]
  | .operator _ _, t, _, _, h => by cases t <;> simp_all [Symbol.outline, Symbol.unspanned]
  | .blank _, t, _, _, h => by cases t <;> simp_all [Symbol.outline, Symbol.unspanned]

theorem Symbol.unspannedAll_of_outline : ∀ p q : List Symbol, Symbol.AllWithin heap p →
    Symbol.AllWithin heap q → Symbol.outlineAll p = Symbol.outlineAll q →
    Symbol.unspannedAll p = Symbol.unspannedAll q
  | [], q, _, _, h => by
    cases q with
    | nil => rfl
    | cons t q => exact absurd h (by simp [Symbol.outlineAll])
  | s :: p, q, hp, hq, h => by
    cases q with
    | nil => exact absurd h (by simp [Symbol.outlineAll])
    | cons t q =>
      rw [Symbol.outlineAll, Symbol.outlineAll, List.cons.injEq] at h
      rw [Symbol.unspannedAll, Symbol.unspannedAll, Symbol.unspanned_of_outline s t hp.1 hq.1 h.1,
        Symbol.unspannedAll_of_outline p q hp.2 hq.2 h.2]

end

end Heap

/-! ### Equality -/

namespace Value

/-- **Equality of values.**  It is symmetric on all values.  On values without floats it is an
    equivalence relation, the one of having the same outline; and equal ones are of the same kind,
    and, where they live in one heap, of the same truth and text. -/
theorem equality :
    (∀ a b : Value, a.equals b = b.equals a) ∧
      Equivalence (fun a b : {v : Value // v.isExact = true} => a.1.equals b.1 = true) ∧
      ∀ a b : Value, a.isExact = true → b.isExact = true →
        (a.equals b = true ↔ a.outline = b.outline) ∧
          (a.equals b = true → a.kind = b.kind ∧
            ∀ heap, a.Within heap → b.Within heap →
              a.truthy = b.truthy ∧ a.text = b.text) := by
  refine ⟨equals_comm, ?_, fun a b ha hb => ⟨equals_iff_outline a b ha hb, fun h => ?_⟩⟩
  · refine ⟨fun a => ?_, fun {a b} h => ?_, fun {a b c} hab hbc => ?_⟩
    · exact (equals_iff_outline _ _ a.2 a.2).mpr rfl
    · rwa [equals_comm]
    · rw [equals_iff_outline _ _ a.2 b.2] at hab
      rw [equals_iff_outline _ _ b.2 c.2] at hbc
      exact (equals_iff_outline _ _ a.2 c.2).mpr (hab.trans hbc)
  · rw [equals_iff_outline a b ha hb] at h
    refine ⟨kind_eq_of_outline h, fun heap hina hinb => ?_⟩
    have hsame := unspanned_of_outline a b hina hinb h
    constructor
    · rw [← truthy_unspanned a, hsame, truthy_unspanned]
    · rw [← text_unspanned a, hsame, text_unspanned]

/-- A tuple of a list and a block, and the same one written at other positions. -/
theorem equality_moved :
    let a := Value.tuple [.list 0 [.int 7], .block [.literal (.int 1) ⟨0, 1⟩]]
    let b := Value.tuple [.list 0 [.int 7], .block [.literal (.int 1) ⟨5, 6⟩]]
    let heap := fun _ : Nat => [Value.int 7]
    (a.isExact = true ∧ b.isExact = true ∧ a.Within heap ∧ b.Within heap) ∧
      a.equals b = true ∧ a.kind = b.kind ∧ a.truthy = b.truthy ∧ a.text = b.text := by
  intro a b heap
  have hwithin : a.Within heap ∧ b.Within heap := ⟨⟨rfl, ⟨trivial, trivial⟩, trivial⟩,
    ⟨rfl, ⟨trivial, trivial⟩, trivial⟩⟩
  obtain ⟨-, -, hexact⟩ := equality
  obtain ⟨houtline, hcongr⟩ := hexact a b rfl rfl
  have hequals : a.equals b = true := houtline.mpr rfl
  obtain ⟨hkind, hheap⟩ := hcongr hequals
  exact ⟨⟨rfl, rfl, hwithin⟩, hequals, hkind, hheap heap hwithin.1 hwithin.2⟩

end Value

end StackLang
