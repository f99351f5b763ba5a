import Mathlib.Algebra.Group.Int.Defs
import StackLang.Proofs.Simulation.Run

namespace StackLang

/-!
# Iterating a block in place

A block that is folded over a sequence, or repeated, runs on the stack and in the scope of its
caller, and may change both in any way from one round to the next.

* `Control.foldEach_append`, `Control.times_add` — the loops of fold and repeat, cut in two;
* `Evaluator.applied` — two values pushed, and an operator applied to them;
* `Evaluator.iteration_splits` — folding over a sequence is folding over a part of it and then over
  the rest, and repeating a block is repeating it some of the times and then the others.
-/

namespace Control

/-! ### The loops -/

/-- A fold is an iteration over the elements: each one is pushed, then the action follows. -/
theorem foldEach_eq_forM (act : Eval Unit) (vs : List Value) :
    foldEach act vs = vs.forM fun v => (do Eval.push v; act) := by
  induction vs with
  | nil => rfl
  | cons v vs ih =>
    rw [foldEach, ih, List.forM_eq_forM, List.forM_cons, bind_assoc]

/-- A fold over two sequences put together is a fold over one behind a fold over the other. -/
theorem foldEach_append (act : Eval Unit) (us vs : List Value) :
    foldEach act (us ++ vs) = (do foldEach act us; foldEach act vs) := by
  induction us with
  | nil => rw [List.nil_append, foldEach, pure_bind]
  | cons u us ih =>
    rw [List.cons_append, foldEach, foldEach, ih]
    simp only [bind_assoc]

/-- Repetitions add up. -/
theorem times_add (act : Eval Unit) (m n : Nat) :
    times act (m + n) = (do times act m; times act n) := by
  induction m with
  | zero => rw [Nat.zero_add, times, pure_bind]
  | succ m ih =>
    rw [Nat.succ_add, times, times, ih, bind_assoc]

/-- A sum of counts, if it is an integer of 64 bits, is the count that it stands for. -/
theorem repeatCode_add (ctx : Context) (body : Program) {m n : Int64} (hm : 0 ≤ m) (hn : 0 ≤ n)
    (hsum : m.toInt + n.toInt < 2 ^ 63) :
    repeatCode ctx (m + n) body = (do repeatCode ctx m body; repeatCode ctx n body) := by
  have hm' : 0 ≤ m.toInt := Int64.le_iff_toInt_le.mp hm
  have hn' : 0 ≤ n.toInt := Int64.le_iff_toInt_le.mp hn
  have hadd : (m + n).toInt = m.toInt + n.toInt := by
    rw [Int64.toInt_add]
    exact Int.bmod_eq_of_le (by omega) (by omega)
  have hcount : ∀ k : Int64, 0 ≤ k.toInt →
      repeatCode ctx k body = times (ctx.run body) k.toInt.toNat := by
    intro k hk
    have hnonneg : ¬ k < 0 := fun hneg => by
      have := Int64.lt_iff_toInt_lt.mp hneg
      rw [Int64.toInt_zero] at this
      omega
    rw [repeatCode, Arithmetic.count, if_neg hnonneg]
  rw [hcount m hm', hcount n hn', hcount (m + n) (by omega), hadd, Int.toNat_add hm' hn',
    times_add]

end Control

namespace Evaluator

/-! ### The operators -/

/-- Two values pushed, and an operator applied to them. -/
def applied (ctx : Context) (op : String) (u v : Value) : Eval Unit := do
  Eval.push u
  Eval.push v
  operate .builtin ctx (utf8 op)

variable (ctx : Context) (body : Program)

/-- `v {…} %` is a fold over the elements of `v`. -/
theorem applied_fold {v : Value} (hv : Operand.iterable.accepts v = true) :
    applied ctx "%" v (.block body) = Control.foldEach (ctx.run body) v.elements := by
  funext m
  cases v with
  | str _ => rfl
  | list _ _ => rfl
  | tuple _ => rfl
  | _ => exact absurd hv (by simp [Operand.accepts, Operand.acceptsKind, Value.kind])

/-- `n {…} *` repeats the block `n` times. -/
theorem applied_repeat (n : Int64) :
    applied ctx "*" (.int n) (.block body) = Control.repeatCode ctx n body := rfl

theorem applied_repeat_swapped (n : Int64) :
    applied ctx "*" (.block body) (.int n) = Control.repeatCode ctx n body := rfl

/-- **Iterations compose.**  Folding a block over a sequence pushes the elements one by one, each
    followed by the block in place; folding it over a sequence made of two is folding it over the
    one and then over the other.  Repeating a block a sum of times is repeating it as often as the
    one summand says and then as often as the other says, in either order of the operands.  Both
    sides agree as steps: on every machine they end in the same machine, or fail alike. -/
theorem iteration_splits :
    (∀ u v w : Value, Operand.iterable.accepts u = true → Operand.iterable.accepts v = true →
      Operand.iterable.accepts w = true → w.elements = u.elements ++ v.elements →
      applied ctx "%" w (.block body) =
        (do applied ctx "%" u (.block body); applied ctx "%" v (.block body))) ∧
    (∀ v : Value, Operand.iterable.accepts v = true →
      applied ctx "%" v (.block body) =
        v.elements.forM fun e => (do Eval.push e; ctx.run body)) ∧
    ∀ m n : Int64, 0 ≤ m → 0 ≤ n → m.toInt + n.toInt < 2 ^ 63 →
      applied ctx "*" (.int (m + n)) (.block body) =
        (do applied ctx "*" (.int m) (.block body); applied ctx "*" (.int n) (.block body)) ∧
      applied ctx "*" (.block body) (.int (m + n)) =
        (do applied ctx "*" (.block body) (.int m); applied ctx "*" (.block body) (.int n)) := by
  refine ⟨fun u v w hu hv hw helems => ?_, fun v hv => ?_, fun m n hm hn hsum => ?_⟩
  · rw [applied_fold ctx body hu, applied_fold ctx body hv, applied_fold ctx body hw, helems,
      Control.foldEach_append]
  · rw [applied_fold ctx body hv, Control.foldEach_eq_forM]
  · simp only [applied_repeat, applied_repeat_swapped]
    exact ⟨Control.repeatCode_add ctx body hm hn hsum, Control.repeatCode_add ctx body hm hn hsum⟩

/-- A sum folded in two parts, and a block repeated twice and then three times. -/
theorem iteration_splits_sum :
    let ctx := standard.context 3
    let sum : Program := [.operator (utf8 "+") .none]
    applied ctx "%" (.tuple [.int 1, .int 2, .int 3]) (.block sum) =
        (do applied ctx "%" (.list 0 [.int 1]) (.block sum)
            applied ctx "%" (.tuple [.int 2, .int 3]) (.block sum)) ∧
      applied ctx "*" (.block sum) (.int 5) =
        (do applied ctx "*" (.block sum) (.int 2); applied ctx "*" (.block sum) (.int 3)) := by
  intro ctx sum
  have hsplits := iteration_splits ctx sum
  exact ⟨hsplits.1 (.list 0 [.int 1]) (.tuple [.int 2, .int 3])
      (.tuple [.int 1, .int 2, .int 3]) rfl rfl rfl rfl,
    (hsplits.2.2 2 3 (by decide) (by decide) (by decide)).2⟩

end Evaluator

end StackLang
