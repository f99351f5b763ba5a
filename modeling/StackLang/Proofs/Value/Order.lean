import StackLang.Proofs.Decimal.Rounding
import StackLang.Proofs.Value.Source
import StackLang.Proofs.Simulation.Basic

namespace StackLang

/-!
# The order of numbers and their equality

Numbers are ordered by one function and compared for equality by another one, each with its own
cases for integers, floats and mixed kinds.  They agree on all numbers but NaN, which is equal to
nothing, and which the order takes for equal to everything.

* `Parts.compare_swap`, `Parts.compare_eq_none_iff` — the order of the parts of floats: either way
  round, and none for NaN;
* `Value.compareFloats_eq` — how two floats are ordered;
* `Value.compare_numbers` — two numbers are ordered as equal if and only if they are equal, or one
  of them is NaN;
* `Evaluator.order_agrees` — so that `<=` is `<` or `=`, and `>=` is `>` or `=`, but for NaN.
-/

/-! ### Parts of floats -/

namespace Parts

open Float.Model Float.Model.UnpackedFloat

/-- The order the other way round. -/
theorem compare_swap (u v : UnpackedFloat) :
    UnpackedFloat.compare v u = (UnpackedFloat.compare u v).map Ordering.swap := by
  cases u with
  | notANumber => cases v <;> rfl
  | infinity s =>
    cases v with
    | infinity t => cases s <;> cases t <;> rfl
    | _ => cases s <;> rfl
  | zero s =>
    cases v with
    | notANumber => rfl
    | zero t => rfl
    | infinity t => cases t <;> rfl
    | finite t n f hn => cases t <;> rfl
  | finite s m e hm =>
    cases v with
    | notANumber => rfl
    | zero t => cases s <;> rfl
    | infinity t => cases s <;> cases t <;> rfl
    | finite t n f hn =>
      -- Of the same sign, exponents decide first and mantissas second.
      have hswap : (compare f e).then (compare n m)
          = ((compare e f).then (compare m n)).swap := by
        rw [Ordering.swap_then, Int.compare_swap, Nat.compare_swap]
      cases s <;> cases t <;> simp [UnpackedFloat.compare, hswap]

/-- Only NaN is in no order. -/
theorem compare_eq_none_iff {u v : UnpackedFloat} :
    UnpackedFloat.compare u v = none ↔ u.isNaN = true ∨ v.isNaN = true := by
  cases u with
  | notANumber => exact iff_of_true (by cases v <;> rfl) (Or.inl rfl)
  | infinity s =>
    cases v with
    | notANumber => exact iff_of_true rfl (Or.inr rfl)
    | _ => cases s <;> simp [UnpackedFloat.compare, UnpackedFloat.isNaN]
  | zero s =>
    cases v with
    | notANumber => exact iff_of_true rfl (Or.inr rfl)
    | zero t => simp [UnpackedFloat.compare, UnpackedFloat.isNaN]
    | infinity t => cases t <;> simp [UnpackedFloat.compare, UnpackedFloat.isNaN]
    | finite t n f hn => cases t <;> simp [UnpackedFloat.compare, UnpackedFloat.isNaN]
  | finite s m e hm =>
    cases v with
    | notANumber => exact iff_of_true rfl (Or.inr rfl)
    | zero t => cases s <;> simp [UnpackedFloat.compare, UnpackedFloat.isNaN]
    | infinity t => cases t <;> simp [UnpackedFloat.compare, UnpackedFloat.isNaN]
    | finite t n f hn =>
      cases s <;> cases t <;> simp [UnpackedFloat.compare, UnpackedFloat.isNaN]

/-- A product with a number other than zero and infinity is NaN only if the other factor is. -/
theorem isNaN_mul_finite {F : Format} {u : UnpackedFloat} (h : u.isNaN = false) (s : Sign) (m : Nat)
    (e : Int) (hm : 0 < m) : (UnpackedFloat.mul F u (.finite s m e hm)).isNaN = false := by
  cases u with
  | notANumber => exact absurd h (by decide)
  | infinity _ => rfl
  | zero _ => rfl
  | finite _ _ _ _ => exact Binary.isNaN_roundWithAccuracy ..

end Parts

namespace Value

open Float.Model (UnpackedFloat)

/-- The order of two floats; none for NaN. -/
def orderOf? (x y : Float) : Option Ordering :=
  UnpackedFloat.compare x.toModel.unpack y.toModel.unpack

/-- Turning two floats around turns their order around. -/
theorem orderOf?_swap (x y : Float) : orderOf? y x = (orderOf? x y).map Ordering.swap :=
  Parts.compare_swap ..

/-- Two floats have no order if and only if one of them is NaN. -/
theorem orderOf?_eq_none_iff {x y : Float} :
    orderOf? x y = none ↔ x.isNaN = true ∨ y.isNaN = true :=
  Parts.compare_eq_none_iff

/-- Floats are equal if and only if that is their order. -/
theorem beq_iff_orderOf? {x y : Float} : (x == y) = true ↔ orderOf? x y = some .eq :=
  show (orderOf? x y == some .eq) = true ↔ _ from beq_iff_eq

/-- A float is less than another one if and only if that is their order. -/
theorem lt_iff_orderOf? {x y : Float} : x < y ↔ orderOf? x y = some .lt := by
  show decide (x.toModel < y.toModel) = true ↔ _
  rw [decide_eq_true_iff]
  exact show (orderOf? x y == some .lt) = true ↔ _ from beq_iff_eq

/-- **Floats** are ordered as equal if they are in no order. -/
theorem compareFloats_eq (x y : Float) : compareFloats x y = (orderOf? x y).getD .eq := by
  have hgt : y < x ↔ orderOf? x y = some .gt := by
    rw [lt_iff_orderOf?, orderOf?_swap]
    cases orderOf? x y with
    | none => simp
    | some o => cases o <;> simp
  unfold compareFloats
  rw [if_congr lt_iff_orderOf? rfl rfl, if_congr hgt rfl rfl]
  cases orderOf? x y with
  | none => rfl
  | some o => cases o <;> rfl

/-- Comparing two floats the other way round gives the opposite. -/
theorem compareFloats_swap (x y : Float) : compareFloats y x = (compareFloats x y).swap := by
  rw [compareFloats_eq, compareFloats_eq, orderOf?_swap]
  cases orderOf? x y <;> rfl

/-- A comparison of floats finds no difference if they are equal or one of them is NaN. -/
theorem compareFloats_eq_eq_iff {x y : Float} :
    compareFloats x y = .eq ↔ (x == y) = true ∨ x.isNaN = true ∨ y.isNaN = true := by
  rw [compareFloats_eq, beq_iff_orderOf?, ← orderOf?_eq_none_iff]
  cases orderOf? x y with
  | none => simp
  | some o => simp

/-! ### Integers -/

/-- Words are compared as the integers they stand for. -/
theorem compareInts_eq (m n : Int64) : compareInts m n = Ord.compare m.toInt n.toInt := by
  unfold compareInts
  rw [if_congr Int64.lt_iff_toInt_lt rfl rfl, if_congr Int64.lt_iff_toInt_lt rfl rfl]
  rcases Int.lt_trichotomy m.toInt n.toInt with h | h | h
  · rw [if_pos h, Int.compare_eq_lt.mpr h]
  · rw [h, if_neg (Int.lt_irrefl _), if_neg (Int.lt_irrefl _), Int.compare_eq_eq.mpr rfl]
  · rw [if_neg (by omega), if_pos h, Int.compare_eq_gt.mpr h]

/-- Comparing two words the other way round gives the opposite. -/
theorem compareInts_swap (m n : Int64) : compareInts n m = (compareInts m n).swap := by
  rw [compareInts_eq, compareInts_eq, Int.compare_swap]

/-- A comparison of words finds no difference if and only if they are equal. -/
theorem compareInts_eq_eq_iff {m n : Int64} : compareInts m n = .eq ↔ (m == n) = true := by
  rw [compareInts_eq, Int.compare_eq_eq, Int64.toInt_inj, beq_iff_eq]

/-- No integer is NaN as a float. -/
theorem isNaN_ofUInt64 (n : UInt64) : n.toFloat.isNaN = false := by
  refine Parts.isNaN_pack ?_
  unfold UnpackedFloat.ofUInt64 UnpackedFloat.ofNat UnpackedFloat.ofInt UnpackedFloat.normalize
  split
  · exact Binary.isNaN_roundWithAccuracy ..
  · rfl
  · exact Binary.isNaN_roundWithAccuracy ..

/-- The float nearest to an integer is no NaN. -/
theorem isNaN_floatOfInt (n : Int64) : (floatOfInt n).isNaN = false := by
  have hone : (Float.exactlyRepresentablePowersOfTen[0]).toModel.unpack
      = .finite .positive (2 ^ 52) (-52) (by decide) := rfl
  have hnat : ∀ k : Nat, (Float.ofNat k).isNaN = false := by
    intro k
    show (Float.ofScientific k false 0).isNaN = false
    unfold Float.ofScientific
    split
    · -- A small number is multiplied by one.
      refine Parts.isNaN_pack (u := UnpackedFloat.mul _ k.toUInt64.toFloat.toModel.unpack _) ?_
      rw [hone]
      exact Parts.isNaN_mul_finite (isNaN_ofUInt64 _) ..
    · exact Parts.isNaN_pack (Binary.isNaN_ofScientific _ _ _)
  unfold floatOfInt Float.ofInt
  split
  · exact hnat _
  · exact Parts.isNaN_neg (hnat _)

/-! ### Numbers -/

/-- A number is an integer or a float. -/
theorem cases_number {v : Value} (h : v.isNumber = true) :
    (∃ n, v = .int n) ∨ ∃ x, v = .float x := by
  cases v with
  | int n => exact Or.inl ⟨n, rfl⟩
  | float x => exact Or.inr ⟨x, rfl⟩
  | _ => exact absurd h (by simp [isNumber])

/-- One of two numbers is NaN. -/
def Unordered (a b : Value) : Prop := a.containsNaN = true ∨ b.containsNaN = true

instance (a b : Value) : Decidable (Unordered a b) := inferInstanceAs (Decidable (_ ∨ _))

variable {a b : Value}

/-- **Two numbers** are in an order, which is the opposite one the other way round.  They are
    ordered as equal if and only if they are equal, or one of them is NaN. -/
theorem compare_numbers (ha : a.isNumber = true) (hb : b.isNumber = true) :
    ∃ o, a.compare b = .ok o ∧ b.compare a = .ok o.swap ∧
      (o = .eq ↔ a.equals b = true ∨ Unordered a b) := by
  -- Mixed kinds are compared as floats, in both functions.
  have hfloats : ∀ x y : Float, a.compare b = .ok (compareFloats x y) →
      b.compare a = .ok (compareFloats y x) → a.equals b = (x == y) →
      a.containsNaN = x.isNaN → b.containsNaN = y.isNaN →
      ∃ o, a.compare b = .ok o ∧ b.compare a = .ok o.swap ∧
        (o = .eq ↔ a.equals b = true ∨ Unordered a b) := by
    intro x y hab hba hequals hx hy
    refine ⟨_, hab, ?_, ?_⟩
    · rw [hba, compareFloats_swap]
    · rw [compareFloats_eq_eq_iff, hequals, Unordered, hx, hy]
  rcases cases_number ha with ⟨m, rfl⟩ | ⟨x, rfl⟩
  · rcases cases_number hb with ⟨n, rfl⟩ | ⟨y, rfl⟩
    · refine ⟨_, rfl, ?_, ?_⟩
      · rw [← compareInts_swap]
        rfl
      · rw [compareInts_eq_eq_iff]
        simp [equals, Unordered, containsNaN]
    · exact hfloats (floatOfInt m) y rfl rfl (by rw [equals]) (isNaN_floatOfInt m).symm rfl
  · rcases cases_number hb with ⟨n, rfl⟩ | ⟨y, rfl⟩
    · exact hfloats x (floatOfInt n) rfl rfl (by rw [equals]) rfl (isNaN_floatOfInt n).symm
    · exact hfloats x y rfl rfl (by rw [equals]) rfl rfl

end Value

/-! ### Operators -/

namespace Evaluator

/-- An operator of the language puts a truth value in the place of two operands. -/
def Yields (op : String) (a b : Value) (r : Bool) : Prop :=
  ∀ (ctx : Context) (m : Machine) (below : List Value),
    operate .builtin ctx (utf8 op) (m.withVisible (b :: a :: below))
      = .ok () (m.withVisible (.bool r :: below))

variable {a b : Value} {o : Ordering}

/-- `=` pushes whether its operands are equal. -/
theorem yields_equal (a b : Value) : Yields "=" a b (a.equals b) := fun _ _ _ => rfl

/-- A comparison operator pushes what its test makes of the order found. -/
theorem comparison_of_compare (h : a.compare b = .ok o) (test : Ordering → Bool) (ctx : Context)
    (m : Machine) (below : List Value) :
    Arithmetic.comparison test ctx [a, b] (m.withVisible below)
      = .ok () (m.withVisible (.bool (test o) :: below)) := by
  show (do Eval.push (.bool (test (← Eval.ofExcept (a.compare b)))) : Eval Unit) _ = _
  rw [h]
  rfl

/-- The four tests on the order of two numbers. -/
theorem yields_order (ha : a.isNumber = true) (hb : b.isNumber = true) (h : a.compare b = .ok o) :
    Yields "<" a b (o == .lt) ∧ Yields "<=" a b (o != .gt) ∧ Yields ">" a b (o == .gt) ∧
      Yields ">=" a b (o != .lt) := by
  have hstep := comparison_of_compare h
  -- The overload is selected by the kinds of the operands.
  rcases Value.cases_number ha with ⟨m, rfl⟩ | ⟨x, rfl⟩ <;>
    rcases Value.cases_number hb with ⟨n, rfl⟩ | ⟨y, rfl⟩ <;>
    exact ⟨hstep _, hstep _, hstep _, hstep _⟩

/-- **Order and equality of numbers agree**, but for NaN.  Two numbers are ordered as equal if and
    only if they are equal or one of them is NaN, and the other way round the order is the opposite
    one; so `<=` yields true exactly when `<` or `=` does, and `>=` when `>` or `=` does, or when
    one of the numbers is NaN. -/
theorem order_agrees (ha : a.isNumber = true) (hb : b.isNumber = true) :
    ∃ o, (a.compare b = .ok o ∧ b.compare a = .ok o.swap ∧
        (o = .eq ↔ a.equals b = true ∨ Value.Unordered a b)) ∧
      ∃ less lessEq equal greaterEq greater,
        (Yields "<" a b less ∧ Yields "<=" a b lessEq ∧ Yields "=" a b equal ∧
          Yields ">=" a b greaterEq ∧ Yields ">" a b greater) ∧
        (lessEq = true ↔ less = true ∨ equal = true ∨ Value.Unordered a b) ∧
        (greaterEq = true ↔ greater = true ∨ equal = true ∨ Value.Unordered a b) := by
  obtain ⟨o, hab, hba, heq⟩ := Value.compare_numbers ha hb
  obtain ⟨hless, hlessEq, hgreater, hgreaterEq⟩ := yields_order ha hb hab
  refine ⟨o, ⟨hab, hba, heq⟩, _, _, _, _, _,
    ⟨hless, hlessEq, yields_equal a b, hgreaterEq, hgreater⟩, ?_, ?_⟩
  · rw [← heq]
    cases o <;> decide
  · rw [← heq]
    cases o <;> decide

/-- An integer that no float represents, and the float nearest to it. -/
theorem order_agrees_mixed :
    let a := Value.int 9007199254740993
    let b := Value.float 9007199254740992
    (a.isNumber = true ∧ b.isNumber = true) ∧ ¬ Value.Unordered a b ∧
      ∃ o, (a.compare b = .ok o ∧ b.compare a = .ok o.swap ∧
          (o = .eq ↔ a.equals b = true ∨ Value.Unordered a b)) ∧
        ∃ less lessEq equal greaterEq greater,
          (Yields "<" a b less ∧ Yields "<=" a b lessEq ∧ Yields "=" a b equal ∧
            Yields ">=" a b greaterEq ∧ Yields ">" a b greater) ∧
          (lessEq = true ↔ less = true ∨ equal = true ∨ Value.Unordered a b) ∧
          (greaterEq = true ↔ greater = true ∨ equal = true ∨ Value.Unordered a b) :=
  ⟨⟨rfl, rfl⟩, by decide, order_agrees rfl rfl⟩

/-- NaN is ordered as equal to itself, so that `<=` yields true where neither `<` nor `=` does. -/
theorem nan_orders_as_equal :
    let nan := Value.float (0 / 0)
    (nan.compare nan = .ok .eq ∧ nan.equals nan = false) ∧
      Yields "<" nan nan false ∧ Yields "=" nan nan false ∧ Yields "<=" nan nan true := by
  intro nan
  have hcompare : nan.compare nan = .ok .eq := by
    show Except.ok (Value.compareFloats (0 / 0) (0 / 0)) = _
    rfl
  have hequals : nan.equals nan = false := by
    show Value.equals (.float (0 / 0)) (.float (0 / 0)) = false
    rw [Value.equals]
    decide
  obtain ⟨hless, hlessEq, -⟩ := yields_order rfl rfl hcompare
  refine ⟨⟨hcompare, hequals⟩, hless, ?_, hlessEq⟩
  rw [← hequals]
  exact yields_equal nan nan

end Evaluator

end StackLang
