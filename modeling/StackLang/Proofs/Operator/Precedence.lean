import StackLang.Proofs.Operator.Resolution
import Mathlib.Data.List.Induction

namespace StackLang

/-!
# The precedence of overloads

A table is made by registering overloads one after the other.

* `Overload.Before` — an overload takes precedence over another one: its signature is longer, or
  else more specific, or else it was registered earlier;
* `OperatorTable.Ordered` — the overloads of a table are those registered, in order of precedence;
  `OperatorTable.Ordered.register` — registering one more keeps that;
* `Operand.Accepted` — the values on top of the stack meet the demands of a signature;
* `OperatorTable.resolve_eq_ok_iff_least` — among the overloads that accept the visible values, the
  one is selected that takes precedence over all others;
* `OperatorTable.resolve_inserted` — one more overload that does not accept the visible values
  changes nothing in that, whenever it is registered;
* `OperatorTable.dispatch_precedence` — all this together, and which failure there is if no overload
  accepts the visible values.
-/

/-! ### Precedence -/

namespace Overload

variable {a b c : Overload}

/-- An overload takes precedence over another one. -/
def Before (a b : Overload) : Prop :=
  b.arity < a.arity ∨ a.arity = b.arity ∧
    (b.specificity < a.specificity ∨ a.specificity = b.specificity ∧ a.order < b.order)

/-- An overload is put in front of another one if and only if it takes precedence. -/
theorem precedes_iff : a.precedes b = true ↔ a.Before b := by
  unfold precedes Before
  by_cases harity : a.arity = b.arity
  · by_cases hspecific : a.specificity = b.specificity
    · simp [harity, hspecific]
    · simp [harity, hspecific]
  · simp [harity]

/-- No overload takes precedence over itself. -/
theorem Before.irrefl (a : Overload) : ¬ a.Before a := by
  unfold Before
  omega

/-- Precedence is transitive. -/
theorem Before.trans (hab : a.Before b) (hbc : b.Before c) : a.Before c := by
  unfold Before at *
  omega

/-- Of two overloads with different numbers, one takes precedence over the other. -/
theorem before_of_not_before (horder : a.order ≠ b.order) (h : ¬ a.Before b) : b.Before a := by
  unfold Before at *
  omega

end Overload

/-! ### Registered overloads -/

/-- What is registered: an overload that has no number yet. -/
structure Registration where
  op : Bytes
  signature : List Operand
  action : Action

/-- The overload with its number. -/
def Registration.overload (order : Nat) (r : Registration) : Overload :=
  ⟨r.op, r.signature, r.action, order⟩

/-- The overloads registered for an operator, numbered in the order of registration. -/
def Registration.overloads (rs : List Registration) (op : Bytes) : List Overload :=
  (rs.mapIdx Registration.overload).filter (·.op = op)

/-- One more registration adds its overload to those of its operator, with the next number. -/
theorem Registration.overloads_concat (rs : List Registration) (r : Registration) (op : Bytes) :
    overloads (rs ++ [r]) op
      = overloads rs op ++ if r.op = op then [r.overload rs.length] else [] := by
  rw [overloads, List.mapIdx_concat, List.filter_append, List.filter_singleton, Bool.cond_decide]
  rfl

/-- The overloads of an operator are those registered for it, with the numbers they were given. -/
theorem Registration.mem_overloads {rs : List Registration} {op : Bytes} {ov : Overload} :
    ov ∈ overloads rs op ↔
      ∃ r, rs[ov.order]? = some r ∧ r.op = op ∧ ov = r.overload ov.order := by
  rw [overloads, List.mem_filter, List.mem_mapIdx, decide_eq_true_eq]
  constructor
  · rintro ⟨⟨i, hi, rfl⟩, hop⟩
    exact ⟨rs[i], List.getElem?_eq_getElem hi, hop, rfl⟩
  · rintro ⟨r, hr, hop, hov⟩
    obtain ⟨hi, rfl⟩ := List.getElem?_eq_some_iff.mp hr
    refine ⟨⟨ov.order, hi, hov.symm⟩, ?_⟩
    rw [hov]
    exact hop

/-- Overloads have numbers below the number of registrations. -/
theorem Registration.order_lt_of_mem {rs : List Registration} {op : Bytes} {ov : Overload}
    (h : ov ∈ overloads rs op) : ov.order < rs.length := by
  obtain ⟨r, hr, -⟩ := mem_overloads.mp h
  exact (List.getElem?_eq_some_iff.mp hr).1

namespace OperatorTable

variable {ov : Overload} {ovs : List Overload}

/-- An overload with a number of its own is put into its place. -/
theorem pairwise_place (hovs : ovs.Pairwise Overload.Before)
    (horder : ∀ o ∈ ovs, ov.order ≠ o.order) : (place ov ovs).Pairwise Overload.Before := by
  induction ovs with
  | nil => exact List.pairwise_singleton _ _
  | cons o rest ih =>
    obtain ⟨ho, hrest⟩ := List.pairwise_cons.mp hovs
    rw [place]
    -- The overload goes in front of the first one that it precedes, and so in front of all others.
    by_cases hbefore : ov.precedes o = true
    · rw [if_pos hbefore]
      have hov := Overload.precedes_iff.mp hbefore
      refine List.pairwise_cons.mpr ⟨fun x hx => ?_, hovs⟩
      rcases List.mem_cons.mp hx with rfl | hx
      · exact hov
      · exact hov.trans (ho x hx)
    · -- It goes behind the first one, which precedes it, as their numbers are different.
      rw [if_neg hbefore]
      refine List.pairwise_cons.mpr ⟨fun x hx => ?_, ih hrest fun x hx => ?_⟩
      · rcases mem_place hx with rfl | hx
        · exact Overload.before_of_not_before (horder o List.mem_cons_self)
            (mt Overload.precedes_iff.mpr hbefore)
        · exact ho x hx
      · exact horder x (List.mem_cons_of_mem _ hx)

/-- The overloads of a table are those registered, each of them once, in order of precedence. -/
structure Ordered (t : OperatorTable) (rs : List Registration) : Prop where
  count : t.count = rs.length
  perm : ∀ op, (t.get op).Perm (Registration.overloads rs op)
  pairwise : ∀ op, (t.get op).Pairwise Overload.Before

/-- The empty table is in order. -/
theorem ordered_empty : empty.Ordered [] where
  count := rfl
  perm _ := .refl _
  pairwise _ := .nil

/-- **One more registration** keeps the overloads in order. -/
theorem Ordered.register {t : OperatorTable} {rs : List Registration} (h : t.Ordered rs)
    (r : Registration) : (t.register r.op r.signature r.action).Ordered (rs ++ [r]) := by
  have hget : (t.register r.op r.signature r.action).get r.op
      = place (r.overload rs.length) (t.get r.op) := by
    rw [Registration.overload, ← h.count]
    unfold get OperatorTable.register
    rw [Table.get?_insert, if_pos rfl]
    rfl
  refine ⟨?_, fun op => ?_, fun op => ?_⟩
  · show t.count + 1 = _
    rw [h.count, List.length_append, List.length_singleton]
  · rw [Registration.overloads_concat]
    by_cases hop : r.op = op
    · subst hop
      rw [hget, if_pos rfl]
      exact (perm_place _ _).trans (((h.perm r.op).cons _).trans (List.perm_append_singleton _ _).symm)
    · rw [get_register_of_ne _ _ (Ne.symm hop), if_neg hop, List.append_nil]
      exact h.perm op
  · by_cases hop : r.op = op
    · subst hop
      rw [hget]
      apply pairwise_place (h.pairwise r.op)
      intro o ho
      -- The number is greater than those of all overloads registered before.
      have hlt := Registration.order_lt_of_mem ((h.perm r.op).mem_iff.mp ho)
      exact Nat.ne_of_gt hlt
    · rw [get_register_of_ne _ _ (Ne.symm hop)]
      exact h.pairwise op

/-- The table made by registering overloads one after the other. -/
def ofRegistrations (rs : List Registration) : OperatorTable :=
  rs.foldl (fun t r => t.register r.op r.signature r.action) empty

/-- **All registrations** lead to a table in order. -/
theorem ordered_ofRegistrations (rs : List Registration) : (ofRegistrations rs).Ordered rs := by
  induction rs using List.reverseRecOn with
  | nil => exact ordered_empty
  | append_singleton rs r ih =>
    rw [ofRegistrations, List.foldl_concat]
    exact ih.register r

end OperatorTable

/-! ### The selected overload -/

/-- The topmost of some values, given topmost first, meet the demands of a signature. -/
def Operand.Accepted (signature : List Operand) (visible : List Value) : Prop :=
  ∃ args rest, visible = args.reverse ++ rest ∧ Operand.Fit signature args

namespace Overload

/-- Values that fit, on top of any others, meet the demands. -/
theorem meets_of_fit {os : List Operand} {top rest : List Value} (h : Operand.Fit os top) :
    meets os (top ++ rest) = true := by
  induction h with
  | nil => rfl
  | cons ho _ ih => rw [List.cons_append, meets, ho, ih, Bool.and_self]

/-- An overload accepts what lies on top of the stack if it meets the demands. -/
theorem accepts_iff {ov : Overload} {visible : List Value} :
    ov.accepts visible = true ↔ Operand.Accepted ov.signature visible := by
  constructor
  · intro h
    obtain ⟨top, rest, rfl, hfit⟩ := exists_of_meets h
    refine ⟨top.reverse, rest, by rw [List.reverse_reverse], ?_⟩
    rw [← List.reverse_reverse ov.signature]
    exact List.rel_reverse hfit
  · rintro ⟨args, rest, rfl, hfit⟩
    exact meets_of_fit (List.rel_reverse hfit)

end Overload

namespace OperatorTable

variable {t : OperatorTable} {op : Bytes} {visible : List Value} {ov : Overload}

/-- The first overload that accepts the visible values is selected. -/
theorem resolve_eq_ok_iff : t.resolve op visible = .ok ov ↔
    ∃ before after, t.get op = before ++ ov :: after ∧ Operand.Accepted ov.signature visible ∧
      ∀ o ∈ before, ¬ Operand.Accepted o.signature visible := by
  have hfind : t.resolve op visible = .ok ov ↔ (t.get op).find? (·.accepts visible) = some ov := by
    unfold resolve
    cases t.get op with
    | nil => simp
    | cons first rest =>
      dsimp only
      cases (first :: rest).find? (·.accepts visible) <;> simp
  rw [hfind, List.find?_eq_some_iff_append]
  simp only [Overload.accepts_iff, Bool.not_eq_true', ← Bool.not_eq_true]
  constructor
  · rintro ⟨hov, before, after, hget, hbefore⟩
    exact ⟨before, after, hget, hov, hbefore⟩
  · rintro ⟨before, after, hget, hov, hbefore⟩
    exact ⟨hov, before, after, hget, hbefore⟩

/-- Without an overload that accepts the operands resolving fails. -/
theorem resolve_eq_error (h : ∀ o ∈ t.get op, ¬ Operand.Accepted o.signature visible) :
    ∃ f, t.resolve op visible = .error f := by
  cases hresolve : t.resolve op visible with
  | error f => exact ⟨f, rfl⟩
  | ok ov =>
    obtain ⟨before, after, hget, hov, -⟩ := resolve_eq_ok_iff.mp hresolve
    exact absurd hov (h ov (by rw [hget]; simp))

variable {rs : List Registration}

/-- **The selected overload** accepts the visible values and takes precedence over all others that
    do. -/
theorem resolve_eq_ok_iff_least : (ofRegistrations rs).resolve op visible = .ok ov ↔
    ov ∈ Registration.overloads rs op ∧ Operand.Accepted ov.signature visible ∧
      ∀ o ∈ Registration.overloads rs op, Operand.Accepted o.signature visible →
        o = ov ∨ ov.Before o := by
  have hordered := ordered_ofRegistrations rs
  have hmem : ∀ o, o ∈ (ofRegistrations rs).get op ↔ o ∈ Registration.overloads rs op :=
    fun o => (hordered.perm op).mem_iff
  have hpairwise := hordered.pairwise op
  rw [resolve_eq_ok_iff]
  constructor
  · rintro ⟨before, after, hget, hov, hbefore⟩
    refine ⟨(hmem ov).mp (by rw [hget]; simp), hov, fun o ho hacc => ?_⟩
    rw [← hmem, hget] at ho
    rw [hget, List.pairwise_append, List.pairwise_cons] at hpairwise
    rcases List.mem_append.mp ho with ho | ho
    · exact absurd hacc (hbefore o ho)
    · rcases List.mem_cons.mp ho with rfl | ho
      · exact Or.inl rfl
      · exact Or.inr (hpairwise.2.1.1 o ho)
  · rintro ⟨hin, hov, hleast⟩
    obtain ⟨before, after, hget⟩ := List.append_of_mem ((hmem ov).mpr hin)
    refine ⟨before, after, hget, hov, fun o ho hacc => ?_⟩
    rw [hget, List.pairwise_append] at hpairwise
    have hbefore : o.Before ov := hpairwise.2.2 o ho ov List.mem_cons_self
    -- An overload in front of the least one would be less than itself.
    rcases hleast o ((hmem o).mp (by rw [hget]; simp [ho])) hacc with rfl | hafter
    · exact Overload.Before.irrefl o hbefore
    · exact Overload.Before.irrefl o (hbefore.trans hafter)

/-- What fails where no overload accepts the visible values: they are too few for the longest
    signature, or else of wrong kinds. -/
theorem kind_of_resolve (hordered : t.Ordered rs) {f : Failure}
    (h : t.resolve op visible = .error f) :
    f.kind = if ∃ o ∈ t.get op, visible.length < o.arity then .stackUnderflow else .typeError := by
  have hpairwise := hordered.pairwise op
  unfold resolve at h
  split at h
  · rename_i hget
    obtain rfl := Except.error.inj h
    simp [hget, Failure.kind, Cause.kind]
  · rename_i first rest hget
    split at h
    · cases h
    · obtain rfl := Except.error.inj h
      rw [hget, List.pairwise_cons] at hpairwise
      -- The first signature is the longest one.
      have hlongest : (∃ o ∈ t.get op, visible.length < o.arity) ↔ visible.length < first.arity := by
        rw [hget]
        constructor
        · rintro ⟨o, ho, hlt⟩
          rcases List.mem_cons.mp ho with rfl | ho
          · exact hlt
          · have hbefore := hpairwise.1 o ho
            unfold Overload.Before at hbefore
            omega
        · exact fun hlt => ⟨first, List.mem_cons_self, hlt⟩
      have hshort : (visible.take first.arity).length < first.arity ↔ visible.length < first.arity := by
        rw [List.length_take]
        omega
      simp only [hlongest, mismatch, hshort]
      split <;> rfl

/-! ### One more overload -/

/-- The number of an overload when one more with a given number is registered. -/
def shifted (number order : Nat) : Nat := if order < number then order else order + 1

/-- Making room for a number keeps the order of the others. -/
theorem shifted_lt_iff {number m n : Nat} : shifted number m < shifted number n ↔ m < n := by
  unfold shifted
  split <;> split <;> omega

/-- Making room for a number keeps the others apart. -/
theorem shifted_injective (number : Nat) : Function.Injective (shifted number) := by
  intro m n h
  unfold shifted at h
  split at h <;> split at h <;> omega

/-- All numbers but the given one are still in use. -/
theorem exists_shifted {number order : Nat} (h : order ≠ number) : ∃ n, order = shifted number n := by
  unfold shifted
  by_cases hlt : order < number
  · exact ⟨order, by rw [if_pos hlt]⟩
  · exact ⟨order - 1, by rw [if_neg (by omega)]; omega⟩

/-- With one more registration in between, the others are found at the numbers made room for. -/
theorem getElem?_shifted (before after : List Registration) (r : Registration) (n : Nat) :
    (before ++ r :: after)[shifted before.length n]? = (before ++ after)[n]? := by
  unfold shifted
  by_cases hlt : n < before.length
  · rw [if_pos hlt, List.getElem?_append_left hlt, List.getElem?_append_left hlt]
  · rw [if_neg hlt, List.getElem?_append_right (by omega), List.getElem?_append_right (by omega),
      Nat.succ_sub (by omega), List.getElem?_cons_succ]

/-- An overload when one more with a given number is registered. -/
def renumbered (number : Nat) (ov : Overload) : Overload :=
  { ov with order := shifted number ov.order }

/-- Overloads that are renumbered take precedence as before. -/
theorem renumbered_before {number : Nat} {a b : Overload} :
    (renumbered number a).Before (renumbered number b) ↔ a.Before b := by
  have horder : shifted number a.order < shifted number b.order ↔ a.order < b.order :=
    shifted_lt_iff
  unfold Overload.Before
  exact or_congr_right (and_congr_right fun _ => or_congr_right (and_congr_right fun _ => horder))

/-- Overloads that are renumbered are told apart as before. -/
theorem renumbered_injective {number : Nat} {a b : Overload}
    (h : renumbered number a = renumbered number b) : a = b := by
  obtain ⟨hop, hsignature, haction, horder⟩ := Overload.mk.inj h
  have horder : a.order = b.order := shifted_injective number horder
  cases a
  cases b
  simp_all

variable {before after : List Registration} {r : Registration}

/-- One more registration leaves the others as they are, but for their numbers. -/
theorem mem_overloads_inserted :
    ov ∈ Registration.overloads (before ++ r :: after) op ↔
      (r.op = op ∧ ov = r.overload before.length) ∨
        ∃ o ∈ Registration.overloads (before ++ after) op, ov = renumbered before.length o := by
  have hnew : (before ++ r :: after)[before.length]? = some r := by simp
  simp only [Registration.mem_overloads]
  constructor
  · rintro ⟨q, hq, hop, hov⟩
    -- The registration with the number itself is the new one; all others are those that were there.
    by_cases hnumber : ov.order = before.length
    · rw [hnumber, hnew] at hq
      obtain rfl := Option.some.inj hq
      exact Or.inl ⟨hop, hnumber ▸ hov⟩
    · obtain ⟨n, hn⟩ := exists_shifted hnumber
      rw [hn, getElem?_shifted] at hq
      refine Or.inr ⟨q.overload n, ⟨q, hq, hop, rfl⟩, ?_⟩
      rw [hov, hn]
      rfl
  · rintro (⟨hop, rfl⟩ | ⟨o, ⟨q, hq, hop, ho⟩, rfl⟩)
    · exact ⟨r, hnew, hop, rfl⟩
    · refine ⟨q, (getElem?_shifted before after r o.order).trans hq, hop, ?_⟩
      rw [ho]
      rfl

/-- **One more overload** that does not accept the visible values changes nothing in which one is
    selected, whenever it is registered. -/
theorem resolve_inserted (hr : r.op = op → ¬ Operand.Accepted r.signature visible) :
    (ofRegistrations (before ++ r :: after)).resolve op visible = .ok ov ↔
      ∃ o, (ofRegistrations (before ++ after)).resolve op visible = .ok o ∧
        ov = renumbered before.length o := by
  simp only [resolve_eq_ok_iff_least, mem_overloads_inserted]
  constructor
  · rintro ⟨⟨hop, rfl⟩ | ⟨o, ho, rfl⟩, hacc, hleast⟩
    · exact absurd hacc (hr hop)
    · refine ⟨o, ⟨ho, hacc, fun x hx hxacc => ?_⟩, rfl⟩
      rcases hleast (renumbered before.length x) (Or.inr ⟨x, hx, rfl⟩) hxacc with heq | hbefore
      · exact Or.inl (renumbered_injective heq)
      · exact Or.inr (renumbered_before.mp hbefore)
  · rintro ⟨o, ⟨ho, hacc, hleast⟩, rfl⟩
    refine ⟨Or.inr ⟨o, ho, rfl⟩, hacc, ?_⟩
    rintro x (⟨hop, rfl⟩ | ⟨y, hy, rfl⟩) hxacc
    · exact absurd hxacc (hr hop)
    · exact (hleast y hy hxacc).imp (congrArg _) renumbered_before.mpr

/-- **Dispatch follows precedence.**  Let overloads be registered one after the other.

    * The overloads of an operator are those registered for it, each of them once; those with longer
      signatures come first, then those with more specific ones, then those registered earlier.
    * On any stack, the first of them is selected whose signature the topmost visible values meet.
      This is told by the visible values alone, and leaves them where they are.
    * If there is none, that is a stack underflow if some overload takes more values than are
      visible, and an error of types otherwise.
    * One more overload that does not accept the visible values changes nothing in which one is
      selected, but for its number. -/
theorem dispatch_precedence (rs : List Registration) (op : Bytes) (st : Stack) :
    let t := ofRegistrations rs
    (t.get op).Perm (Registration.overloads rs op) ∧
    (t.get op).Pairwise Overload.Before ∧
    (∀ ov, t.resolve op st.visible = .ok ov ↔
      ∃ before after, t.get op = before ++ ov :: after ∧
        Operand.Accepted ov.signature st.visible ∧
        ∀ o ∈ before, ¬ Operand.Accepted o.signature st.visible) ∧
    ((∀ o ∈ t.get op, ¬ Operand.Accepted o.signature st.visible) →
      ∃ f, t.resolve op st.visible = .error f ∧
        f.kind = if ∃ o ∈ t.get op, st.height < o.arity then .stackUnderflow else .typeError) ∧
    ∀ before after r, rs = before ++ after →
      (r.op = op → ¬ Operand.Accepted r.signature st.visible) →
      ∀ ov, (ofRegistrations (before ++ r :: after)).resolve op st.visible = .ok ov ↔
        ∃ o, t.resolve op st.visible = .ok o ∧ ov = renumbered before.length o := by
  intro t
  have hordered := ordered_ofRegistrations rs
  refine ⟨hordered.perm op, hordered.pairwise op, fun _ => resolve_eq_ok_iff, fun hnone => ?_, ?_⟩
  · obtain ⟨f, hf⟩ := resolve_eq_error hnone
    exact ⟨f, hf, kind_of_resolve hordered hf⟩
  · rintro before after r rfl hr ov
    exact resolve_inserted hr

/-- An overload that does nothing. -/
def idle (op : Bytes) (signature : List Operand) : Registration := ⟨op, signature, fun _ _ => pure ()⟩

/-- Two equally specific overloads accept two integers, and the earlier one is selected, also if one
    for strings is registered in front of it.  On the empty stack none accepts the values. -/
theorem dispatch_precedence_tie :
    let f := utf8 "f"
    let front : List Registration := [idle f [.any], idle (utf8 "g") []]
    let back : List Registration := [idle f [.number, .number], idle f [.any, .int]]
    let st : Stack := Stack.empty.pushAll [.int 1, .int 2]
    (¬ Operand.Accepted [.str] st.visible ∧
      (ofRegistrations (front ++ back)).resolve f st.visible
        = .ok ((idle f [.number, .number]).overload 2) ∧
      (ofRegistrations (front ++ idle f [.str] :: back)).resolve f st.visible
        = .ok ((idle f [.number, .number]).overload 3)) ∧
    ∃ failure, (ofRegistrations (front ++ back)).resolve f Stack.empty.visible = .error failure ∧
      failure.kind = .stackUnderflow := by
  intro f front back st
  have hstr : ¬ Operand.Accepted [.str] st.visible := by
    show ¬ Operand.Accepted ((idle f [.str]).overload 0).signature st.visible
    rw [← Overload.accepts_iff]
    decide
  refine ⟨⟨hstr, rfl, ?_⟩, ?_⟩
  · obtain ⟨-, -, -, -, hinserted⟩ := dispatch_precedence (front ++ back) f st
    exact (hinserted front back (idle f [.str]) rfl (fun _ => hstr) _).mpr ⟨_, rfl, rfl⟩
  · obtain ⟨-, -, -, hnone, -⟩ := dispatch_precedence (front ++ back) f Stack.empty
    obtain ⟨failure, hfailure, -⟩ := hnone fun o ho => by
      rw [← Overload.accepts_iff]
      revert o
      decide
    exact ⟨failure, hfailure, by cases hfailure; rfl⟩

end OperatorTable

end StackLang
