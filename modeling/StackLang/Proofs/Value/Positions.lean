import StackLang.Proofs.Program.WellFormed
import StackLang.Proofs.Operator.Resolution
import StackLang.Proofs.Value.Recast

namespace StackLang

/-!
# Values without positions

* `Value.unspanned_eq` — taking the positions away shows values in another guise, so it goes
  through every way in which a value is looked at or taken apart.
-/

/-- The guise of values without positions. -/
def Recast.unspanned : Recast := ⟨id, fun _ => .none, Function.injective_id⟩

mutual

/-- Dropping positions is a recast that keeps identities. -/
theorem Value.unspanned_eq : ∀ v : Value, v.unspanned = v.recast .unspanned
  | .bool _ => rfl
  | .int _ => rfl
  | .float _ => rfl
  | .str _ => rfl
  | .list _ vs => congrArg (Value.list _) (Value.unspannedAll_eq_recastAll vs)
  | .tuple vs => congrArg Value.tuple (Value.unspannedAll_eq_recastAll vs)
  | .block p => congrArg Value.block (Symbol.unspannedAll_eq_recastAll p)

theorem Value.unspannedAll_eq_recastAll : ∀ vs : List Value,
    Value.unspannedAll vs = Value.recastAll .unspanned vs
  | [] => rfl
  | v :: vs => congrArg₂ List.cons (Value.unspanned_eq v) (Value.unspannedAll_eq_recastAll vs)

/-- Dropping the positions of a symbol is a recast that keeps identities. -/
theorem Symbol.unspanned_eq : ∀ s : Symbol, s.unspanned = s.recast .unspanned
  | .literal v _ => congrArg (Symbol.literal · _) (Value.unspanned_eq v)
  | .name _ _ => rfl
  | .operator _ _ => rfl
  | .group k p _ => congrArg (Symbol.group k · _) (Symbol.unspannedAll_eq_recastAll p)
  | .blank _ => rfl

theorem Symbol.unspannedAll_eq_recastAll : ∀ ss : List Symbol,
    Symbol.unspannedAll ss = Symbol.recastAll .unspanned ss
  | [] => rfl
  | s :: ss => congrArg₂ List.cons (Symbol.unspanned_eq s) (Symbol.unspannedAll_eq_recastAll ss)

end

namespace Value

theorem unspanned_funext : unspanned = recast .unspanned := funext unspanned_eq

/-- The positions of values are dropped one by one. -/
theorem unspannedAll_eq (vs : List Value) : unspannedAll vs = vs.map unspanned := by
  rw [unspannedAll_eq_recastAll, recastAll_eq, unspanned_funext]

@[simp] theorem kind_unspanned (v : Value) : v.unspanned.kind = v.kind := by
  rw [unspanned_eq, kind_recast]

@[simp] theorem truthy_unspanned (v : Value) : v.unspanned.truthy = v.truthy := by
  rw [unspanned_eq, truthy_recast]

@[simp] theorem elements_unspanned (v : Value) :
    v.unspanned.elements = v.elements.map unspanned := by
  rw [unspanned_funext, elements_recast]

/-- The text of a value does not depend on positions. -/
theorem text_unspanned (v : Value) : v.unspanned.text = v.text := by
  rw [unspanned_eq, text_recast]

/-- A value that is no sequence and no block has no positions inside. -/
theorem eq_of_unspanned {v u : Value} (h : v.unspanned = u.unspanned)
    (hkind : v.kind = .bool ∨ v.kind = .int ∨ v.kind = .float ∨ v.kind = .str) : v = u := by
  have hkinds : v.kind = u.kind := by rw [← v.kind_unspanned, h, u.kind_unspanned]
  have hu : u.unspanned = u := by rw [unspanned_eq, recast_of_flat _ (hkinds ▸ hkind)]
  rw [← hu, ← h, unspanned_eq, recast_of_flat _ hkind]

end Value

/-- The text of a symbol does not depend on positions. -/
theorem Symbol.text_unspanned (s : Symbol) : s.unspanned.text = s.text := by
  rw [unspanned_eq, text_recast]

end StackLang
