import StackLang.Proofs.Simulation.Basic
import Mathlib.Tactic.Ring

namespace StackLang

/-!
# Repeating strings, lists and tuples

A repetition is refused if it would become longer than `2 ^ 26`; the product of length and count is
never formed to find that out, as it might not fit into a word.

* `Sequence.IsRepetition` — a list consists of copies of another one, told by the places where they
  stand;
* `Sequence.Repeats` — the same for values of one kind;
* `Sequence.Refused` — the counts that are refused, in terms of unbounded integers;
* `Sequence.repeatCount_of_refused`, `Sequence.repeatCount_of_not_refused` — the checks refuse
  exactly these;
* `Sequence.repetition_exact` — what the operator does with every count, that 64-bit words suffice
  for it, and that repetitions add up.
-/

namespace Sequence

/-! ### Copies -/

section

variable {α : Type} {n : Nat} {as bs : List α}

/-- A list consists of `n` copies of another one: the copy with number `i` starts where `i` copies
    have come before it. -/
def IsRepetition (n : Nat) (as bs : List α) : Prop :=
  bs.length = n * as.length ∧ ∀ i < n, ∀ j < as.length, bs[i * as.length + j]? = as[j]?

theorem copies_succ (n : Nat) (as : List α) : copies (n + 1) as = as ++ copies n as := rfl

/-- Copies add up. -/
theorem copies_add (m n : Nat) (as : List α) : copies (m + n) as = copies m as ++ copies n as := by
  rw [copies, List.replicate_add, List.flatten_append]
  rfl

theorem copies_nil (n : Nat) : copies n ([] : List α) = [] := by
  simp [copies]

/-- The length of copies is that many times the length of one. -/
theorem length_copies (n : Nat) (as : List α) : (copies n as).length = n * as.length := by
  simp [copies]

/-- In copies, a place in one of them holds what this place holds in the original. -/
theorem getElem?_copies (as : List α) {i j : Nat} (hi : i < n) (hj : j < as.length) :
    (copies n as)[i * as.length + j]? = as[j]? := by
  induction n generalizing i with
  | zero => exact absurd hi (Nat.not_lt_zero i)
  | succ n ih =>
    rw [copies_succ]
    cases i with
    | zero => rw [Nat.zero_mul, Nat.zero_add, List.getElem?_append_left hj]
    | succ i =>
      have hplace : (i + 1) * as.length + j = as.length + (i * as.length + j) := by ring
      rw [hplace, List.getElem?_append_right (Nat.le_add_right ..), Nat.add_sub_cancel_left]
      exact ih (Nat.lt_of_succ_lt_succ hi)

/-- Copies are a repetition. -/
theorem isRepetition_copies (n : Nat) (as : List α) : IsRepetition n as (copies n as) :=
  ⟨length_copies n as, fun _ hi _ hj => getElem?_copies as hi hj⟩

/-- The places of the copies determine the list. -/
theorem IsRepetition.eq_copies (h : IsRepetition n as bs) : bs = copies n as := by
  refine List.ext_getElem? fun k => ?_
  -- Place `k` is in the copy with number `k / as.length`.
  by_cases hk : k < n * as.length
  · have hpos : 0 < as.length := Nat.pos_of_mul_pos_left (Nat.zero_lt_of_lt hk)
    have hi : k / as.length < n := (Nat.div_lt_iff_lt_mul hpos).mpr hk
    have hj : k % as.length < as.length := Nat.mod_lt k hpos
    rw [← Nat.div_add_mod' k as.length, h.2 _ hi _ hj, getElem?_copies as hi hj]
  · have hle : n * as.length ≤ k := Nat.le_of_not_lt hk
    rw [List.getElem?_eq_none (h.1.trans_le hle),
      List.getElem?_eq_none ((length_copies n as).trans_le hle)]

end

/-- A value of the same kind consists of `n` copies of what another value consists of: bytes of
    a string, elements of a list or tuple. -/
inductive Repeats (n : Nat) : Value → Value → Prop
  | str {s t : Bytes} (h : IsRepetition n s t) : Repeats n (.str s) (.str t)
  | list {i j : Nat} {es fs : List Value} (h : IsRepetition n es fs) :
    Repeats n (.list i es) (.list j fs)
  | tuple {es fs : List Value} (h : IsRepetition n es fs) : Repeats n (.tuple es) (.tuple fs)

/-! ### Counts -/

/-- The length of what is repeated: bytes of a string, elements of a list or tuple. -/
def extent : Value → Nat
  | .str s => s.length
  | v => v.elements.length

/-- The counts that are refused for a length. -/
def Refused (length : Nat) (n : Int64) : Prop :=
  n < 0 ∨ 0 < length ∧ 2 ^ 26 < (length : Int) * n.toInt

instance (length : Nat) (n : Int64) : Decidable (Refused length n) :=
  inferInstanceAs (Decidable (_ ∨ _))

section

variable {length : Nat} {n : Int64}

/-- A count that is not negative stands for a natural number. -/
theorem toInt_nonneg (h : ¬ n < 0) : 0 ≤ n.toInt := by
  rw [Int64.lt_iff_toInt_lt, Int64.toInt_zero] at h
  omega

/-- The division by which a count is checked misses nothing, and refuses nothing else. -/
theorem maxLength_div_lt_iff (hlength : 0 < length) (hn : 0 ≤ n.toInt) :
    maxLength / length < n.toInt.toNat ↔ 2 ^ 26 < (length : Int) * n.toInt := by
  have hcast : (length : Int) * n.toInt = (length * n.toInt.toNat : Nat) := by
    rw [Int.natCast_mul, Int.toNat_of_nonneg hn]
  have hmax : maxLength = 2 ^ 26 := rfl
  rw [Nat.div_lt_iff_lt_mul hlength, hcast, hmax, Nat.mul_comm]
  omega

/-- A negative count is refused, and reported. -/
theorem repeatCount_of_neg (length : Nat) (h : n < 0) :
    repeatCount length n = .error (.negativeCount (utf8 "repeat count") n.toInt) := by
  rw [repeatCount, Arithmetic.count, if_pos h]
  rfl

/-- A count that is not negative is refused if the result would be too long, and is ignored if
    there is nothing to be repeated. -/
theorem repeatCount_of_nonneg (length : Nat) (h : ¬ n < 0) :
    repeatCount length n =
      if 0 < length && maxLength / length < n.toInt.toNat then
        .error (.repeatTooLarge n.toInt length)
      else .ok (if length == 0 then 0 else n.toInt.toNat) := by
  rw [repeatCount, Arithmetic.count, if_neg h]
  rfl

/-- A refused count is a type error. -/
theorem repeatCount_of_refused (h : Refused length n) :
    ∃ c : Cause, c.kind = .typeError ∧ repeatCount length n = .error c := by
  by_cases hneg : n < 0
  · exact ⟨_, rfl, repeatCount_of_neg length hneg⟩
  · obtain ⟨hlength, hlarge⟩ := h.resolve_left hneg
    have hdiv := (maxLength_div_lt_iff hlength (toInt_nonneg hneg)).mpr hlarge
    refine ⟨.repeatTooLarge n.toInt length, rfl, ?_⟩
    rw [repeatCount_of_nonneg length hneg, if_pos]
    rw [Bool.and_eq_true, decide_eq_true_iff, decide_eq_true_iff]
    exact ⟨hlength, hdiv⟩

/-- Any other count is taken; of nothing, no copies are made. -/
theorem repeatCount_of_not_refused (h : ¬ Refused length n) :
    repeatCount length n = .ok (if length == 0 then 0 else n.toInt.toNat) := by
  have hneg : ¬ n < 0 := fun hneg => h (Or.inl hneg)
  rw [repeatCount_of_nonneg length hneg, if_neg]
  rw [Bool.and_eq_true, decide_eq_true_iff, decide_eq_true_iff]
  rintro ⟨hlength, hdiv⟩
  exact h (Or.inr ⟨hlength, (maxLength_div_lt_iff hlength (toInt_nonneg hneg)).mp hdiv⟩)

/-- Copies of nothing are nothing, however many they are. -/
theorem copies_taken {α : Type} (k : Nat) (as : List α) :
    copies (if as.length == 0 then 0 else k) as = copies k as := by
  by_cases h : as.length = 0
  · rw [if_pos (by simp [h]), List.length_eq_zero_iff.mp h, copies_nil, copies_nil]
  · rw [if_neg (by simp [h])]

/-- What is not refused for a sum of counts is not refused for its parts. -/
theorem not_refused_of_add {i j : Int64} (hi : 0 ≤ i.toInt) (hj : 0 ≤ j.toInt)
    (hsum : n.toInt = i.toInt + j.toInt) (h : ¬ Refused length n) : ¬ Refused length i := by
  rintro (hneg | ⟨hlength, hlarge⟩)
  · rw [Int64.lt_iff_toInt_lt, Int64.toInt_zero] at hneg
    omega
  · refine h (Or.inr ⟨hlength, hlarge.trans_le ?_⟩)
    rw [hsum, Int.mul_add]
    have : 0 ≤ (length : Int) * j.toInt := Int.mul_nonneg (Int.natCast_nonneg _) hj
    omega

end

/-! ### Words -/

section

variable {length n : Int64}

/-- The division of the check, made with words. -/
theorem word_div_lt_iff (hlength : 0 < length.toInt) :
    Int64.ofNat maxLength / length < n ↔ 2 ^ 26 < length.toInt * n.toInt := by
  have hmax : (Int64.ofNat maxLength).toInt = 2 ^ 26 := rfl
  -- A quotient that is not negative and not larger than `2 ^ 26` does not wrap around.
  have hquot : (Int64.ofNat maxLength / length).toInt = 2 ^ 26 / length.toInt := by
    have hle : (2 ^ 26 : Int) / length.toInt ≤ 2 ^ 26 := Int.ediv_le_self _ (by decide)
    have hnonneg : 0 ≤ (2 ^ 26 : Int) / length.toInt := Int.ediv_nonneg (by decide) hlength.le
    rw [Int64.toInt_div, hmax, Int.tdiv_eq_ediv_of_nonneg (by decide)]
    exact Int.bmod_eq_of_le (by omega) (by omega)
  rw [Int64.lt_iff_toInt_lt, hquot, Int.ediv_lt_iff_lt_mul hlength, mul_comm]

/-- The product of what is not refused fits into a word. -/
theorem word_mul_eq (hlength : 0 ≤ length.toInt) (hn : 0 ≤ n.toInt)
    (h : length.toInt * n.toInt ≤ 2 ^ 26) : (length * n).toInt = length.toInt * n.toInt := by
  have hnonneg := Int.mul_nonneg hlength hn
  rw [Int64.toInt_mul]
  exact Int.bmod_eq_of_le (by omega) (by omega)

end

/-! ### The operator -/

section

variable {v : Value}

/-- Strings, lists and tuples are all that is iterable. -/
theorem cases_iterable (h : Operand.iterable.accepts v = true) :
    (∃ s, v = .str s) ∨ (∃ id es, v = .list id es) ∨ ∃ es, v = .tuple es := by
  cases v with
  | str s => exact Or.inl ⟨s, rfl⟩
  | list id es => exact Or.inr (Or.inl ⟨id, es, rfl⟩)
  | tuple es => exact Or.inr (Or.inr ⟨es, rfl⟩)
  | _ => exact absurd h (by simp [Operand.accepts, Operand.acceptsKind, Value.kind])

/-- The value of the same kind that consists of copies of what a value consists of; for a list,
    the one of a given identity. -/
def copied (n id : Nat) : Value → Value
  | .str s => .str (copies n s)
  | .list _ es => .list id (copies n es)
  | .tuple es => .tuple (copies n es)
  | v => v

/-- The copied value is a repetition. -/
theorem repeats_copied (h : Operand.iterable.accepts v = true) (n id : Nat) :
    Repeats n v (copied n id v) := by
  rcases cases_iterable h with ⟨s, rfl⟩ | ⟨_, es, rfl⟩ | ⟨es, rfl⟩
  · exact .str (isRepetition_copies n s)
  · exact .list (isRepetition_copies n es)
  · exact .tuple (isRepetition_copies n es)

/-- A repetition is the copied value, for a list of some identity. -/
theorem Repeats.exists_copied {n : Nat} {w : Value} (h : Repeats n v w) :
    ∃ id, w = copied n id v := by
  cases h with
  | str h => exact ⟨0, by rw [h.eq_copies, copied]⟩
  | list h => exact ⟨_, by rw [h.eq_copies, copied]⟩
  | tuple h => exact ⟨0, by rw [h.eq_copies, copied]⟩

/-- The machine with a value on top of some others, where a list counts as a new one. -/
def withNew (m : Machine) (v : Value) (below : List Value) : Machine :=
  { m.withVisible (v :: below) with
    nextList := if v.kind = .list then m.nextList + 1 else m.nextList }

/-- The count may stand on either side. -/
theorem operate_repeat (ctx : Context) (m : Machine) (below : List Value)
    (hv : Operand.iterable.accepts v = true) (n : Int64) {operands : List Value}
    (h : operands ∈ [[.int n, v], [v, .int n]]) :
    Evaluator.operate .builtin ctx (utf8 "*") (m.withVisible (operands ++ below)) =
      repeatValue n v (m.withVisible below) := by
  simp only [List.mem_cons, List.not_mem_nil, or_false] at h
  rcases cases_iterable hv with ⟨s, rfl⟩ | ⟨id, es, rfl⟩ | ⟨es, rfl⟩ <;>
    rcases h with rfl | rfl <;> rfl

/-- Pushes copies of what a value consists of. -/
def pushCopies (k : Nat) : Value → Eval Unit
  | .str s => Eval.push (.str (copies k s))
  | v => pushLike [v] (copies k v.elements)

/-- The count is checked in the same way for all kinds of values. -/
theorem repeatValue_eq (n : Int64) (v : Value) :
    repeatValue n v =
      match repeatCount (extent v) n with
      | .ok k => pushCopies k v
      | .error c => Eval.fail c := by
  cases v <;> rfl

/-- Pushing copies puts the copied value on the stack, and counts it if it is a new list. -/
theorem pushCopies_eq (m : Machine) (below : List Value) (hv : Operand.iterable.accepts v = true)
    (k : Nat) :
    pushCopies k v (m.withVisible below) = .ok () (withNew m (copied k m.nextList v) below) := by
  rcases cases_iterable hv with ⟨s, rfl⟩ | ⟨id, es, rfl⟩ | ⟨es, rfl⟩ <;> rfl

/-- Of nothing, any number of copies is the same. -/
theorem copied_taken (k id : Nat) (v : Value) :
    copied (if extent v == 0 then 0 else k) id v = copied k id v := by
  cases v with
  | str s => exact congrArg Value.str (copies_taken k s)
  | list i es => exact congrArg (Value.list id) (copies_taken k es)
  | tuple es => exact congrArg Value.tuple (copies_taken k es)
  | _ => rfl

variable {n : Int64}

/-- A count that is refused makes the operator fail with a type error. -/
theorem repeatValue_of_refused (m : Machine) (h : Refused (extent v) n) :
    ∃ c : Cause, c.kind = .typeError ∧
      repeatValue n v m = .error (.issue (.failure { cause := c })) m := by
  obtain ⟨c, hkind, hcount⟩ := repeatCount_of_refused h
  refine ⟨c, hkind, ?_⟩
  rw [repeatValue_eq, hcount]
  rfl

/-- A count that is not refused puts the copied value on the stack. -/
theorem repeatValue_of_not_refused (m : Machine) (below : List Value)
    (hv : Operand.iterable.accepts v = true) (h : ¬ Refused (extent v) n) :
    repeatValue n v (m.withVisible below) =
      .ok () (withNew m (copied n.toInt.toNat m.nextList v) below) := by
  rw [repeatValue_eq, repeatCount_of_not_refused h]
  exact (pushCopies_eq m below hv _).trans (by rw [copied_taken])

/-- Copies put together with `+` are as many copies at once. -/
theorem operate_join_copied (ctx : Context) (m : Machine) (below : List Value)
    (hv : Operand.iterable.accepts v = true) (i j id₁ id₂ : Nat) :
    Evaluator.operate .builtin ctx (utf8 "+")
        (m.withVisible (copied j id₂ v :: copied i id₁ v :: below)) =
      .ok () (withNew m (copied (i + j) m.nextList v) below) := by
  rcases cases_iterable hv with ⟨s, rfl⟩ | ⟨id, es, rfl⟩ | ⟨es, rfl⟩ <;>
    rw [copied, copied, copied, copies_add] <;> rfl

/-- **Repetitions are exact or refused.**  Whatever the count, and on either side of the value, the
    operator fails with a type error if the count is negative or what is repeated would become
    longer than `2 ^ 26`, and else pushes a value of the same kind, a new one for a list, that
    consists of as many copies.  The check may be made with words, and the product of what it lets
    through fits into a word.  Where a sum of counts is not refused, its parts are not either, and
    repeating by the parts and joining is the same as repeating by the sum. -/
theorem repetition_exact (hv : Operand.iterable.accepts v = true) :
    (∀ (n : Int64) (ctx : Context) (m : Machine) (below : List Value),
      ∀ operands ∈ [[.int n, v], [v, .int n]],
        (Refused (extent v) n → ∃ c : Cause, c.kind = .typeError ∧
          Evaluator.operate .builtin ctx (utf8 "*") (m.withVisible (operands ++ below)) =
            .error (.issue (.failure { cause := c })) (m.withVisible below)) ∧
        (¬ Refused (extent v) n → ∃ w, Repeats n.toInt.toNat v w ∧
          (∀ id es, w = .list id es → id = m.nextList) ∧
          Evaluator.operate .builtin ctx (utf8 "*") (m.withVisible (operands ++ below)) =
            .ok () (withNew m w below))) ∧
    (∀ length n : Int64, length.toInt = extent v → 0 < length → 0 ≤ n →
      (Int64.ofNat maxLength / length < n ↔ Refused (extent v) n) ∧
      (¬ Refused (extent v) n → (length * n).toInt = extent v * n.toInt)) ∧
    ∀ i j k : Int64, 0 ≤ i → 0 ≤ j → k.toInt = i.toInt + j.toInt → ¬ Refused (extent v) k →
      ¬ Refused (extent v) i ∧ ¬ Refused (extent v) j ∧
      ∀ (ctx : Context) (m : Machine) (below : List Value) (u w : Value),
        Repeats i.toInt.toNat v u → Repeats j.toInt.toNat v w →
        Evaluator.operate .builtin ctx (utf8 "+") (m.withVisible (w :: u :: below)) =
          Evaluator.operate .builtin ctx (utf8 "*") (m.withVisible (.int k :: v :: below)) := by
  refine ⟨fun n ctx m below operands h => ⟨fun hrefused => ?_, fun haccepted => ?_⟩,
    fun length n hlength hpos hn => ?_, fun i j k hi hj hsum haccepted => ?_⟩
  · rw [operate_repeat ctx m below hv n h]
    exact repeatValue_of_refused _ hrefused
  · rw [operate_repeat ctx m below hv n h]
    refine ⟨_, repeats_copied hv _ m.nextList, ?_, repeatValue_of_not_refused m below hv haccepted⟩
    -- Only copies of a list are a new value, with the identity that is given out next.
    rcases cases_iterable hv with ⟨s, rfl⟩ | ⟨id, es, rfl⟩ | ⟨es, rfl⟩
    · exact nofun
    · rintro _ _ ⟨⟩
      rfl
    · exact nofun
  · have hpos' : 0 < length.toInt := Int64.lt_iff_toInt_lt.mp hpos
    have hn' : 0 ≤ n.toInt := Int64.le_iff_toInt_le.mp hn
    -- A count that is not negative is refused for the length only, and this is a bound on integers.
    have hrefused : Refused (extent v) n ↔ 2 ^ 26 < length.toInt * n.toInt := by
      have hneg : ¬ n < 0 := Int64.not_lt.mpr hn
      rw [Refused, ← hlength]
      simp only [hneg, false_or, and_iff_right_iff_imp]
      omega
    rw [hrefused, ← hlength]
    exact ⟨word_div_lt_iff hpos', fun h => word_mul_eq hpos'.le hn' (Int.not_lt.mp h)⟩
  · have hi' : 0 ≤ i.toInt := Int64.le_iff_toInt_le.mp hi
    have hj' : 0 ≤ j.toInt := Int64.le_iff_toInt_le.mp hj
    refine ⟨not_refused_of_add hi' hj' hsum haccepted,
      not_refused_of_add hj' hi' (by omega) haccepted, fun ctx m below u w hu hw => ?_⟩
    -- Whatever the repetitions are, they are copies, and only the identities of lists are open.
    obtain ⟨id₁, rfl⟩ := hu.exists_copied
    obtain ⟨id₂, rfl⟩ := hw.exists_copied
    have hrepeat :
        Evaluator.operate .builtin ctx (utf8 "*") (m.withVisible (.int k :: v :: below)) =
          repeatValue k v (m.withVisible below) :=
      operate_repeat ctx m below hv k (show [.int k, v] ∈ [[.int k, v], [v, .int k]] by simp)
    rw [operate_join_copied ctx m below hv, hrepeat,
      repeatValue_of_not_refused m below hv haccepted, hsum, Int.toNat_add hi' hj']

/-- A list of three elements may be repeated up to 22369621 times. -/
def threeElements : Value := .list 4 [.int 1, .bool true, .int 1]

/-- Three elements may be repeated 22369621 times and not once more. -/
theorem repetition_exact_threeElements :
    Operand.iterable.accepts threeElements = true ∧
      Refused (extent threeElements) 22369622 ∧ ¬ Refused (extent threeElements) 22369621 ∧
      ∀ (ctx : Context) (m : Machine),
        (∃ c : Cause, c.kind = .typeError ∧
          Evaluator.operate .builtin ctx (utf8 "*")
              (m.withVisible [threeElements, .int 22369622]) =
            .error (.issue (.failure { cause := c })) (m.withVisible [])) ∧
        (∃ w, Repeats 22369621 threeElements w ∧
          Evaluator.operate .builtin ctx (utf8 "*")
              (m.withVisible [.int 22369621, threeElements]) = .ok () (withNew m w [])) ∧
        Evaluator.operate .builtin ctx (utf8 "+")
            (m.withVisible [copied 2 8 threeElements, copied 1 7 threeElements]) =
          Evaluator.operate .builtin ctx (utf8 "*") (m.withVisible [.int 3, threeElements]) := by
  have hv : Operand.iterable.accepts threeElements = true := by decide
  have hrefused : Refused (extent threeElements) 22369622 := by decide
  have haccepted : ¬ Refused (extent threeElements) 22369621 := by decide
  obtain ⟨hcounts, -, hsums⟩ := repetition_exact hv
  refine ⟨hv, hrefused, haccepted, fun ctx m => ⟨?_, ?_, ?_⟩⟩
  · exact (hcounts _ ctx m [] [threeElements, .int 22369622] (by simp)).1 hrefused
  · obtain ⟨w, hw, -, hpush⟩ :=
      (hcounts _ ctx m [] [.int 22369621, threeElements] (by simp)).2 haccepted
    exact ⟨w, hw, hpush⟩
  · exact (hsums 1 2 3 (by decide) (by decide) rfl (by decide)).2.2 ctx m [] _ _
      (repeats_copied hv 1 7) (repeats_copied hv 2 8)

end

end Sequence

end StackLang
