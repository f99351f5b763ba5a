import StackLang.Proofs.Simulation.Exact
import Mathlib.Data.List.Induction
import Mathlib.Tactic.Tauto

namespace StackLang

/-!
# Sequences as sets

What the operators on lists and tuples make of their elements.  Values that are equal form a class,
wherever equality is an equivalence; it is none where a float equals two integers, or is not a
number.

* `Sequence.Occurs` — the class of a value occurs in a sequence;
* `Sequence.Picks` — a sequence consists of the members of another one at certain places, in their
  order;
* `Sequence.FirstAt` — the member at a place is the first one of its class;
* `Sequence.gather` — the loop behind union and intersection, which picks the first members of the
  classes with a property (`Sequence.picks_gather`);
* `Sequence.set_operators` — union, intersection, difference and symmetric difference, on elements
  and on the stack.
-/

namespace Sequence

/-! ### Classes of equal values -/

/-- The class of a value occurs in a sequence. -/
def Occurs (vs : List Value) (v : Value) : Prop := ∃ u ∈ vs, v.equals u = true

/-- A sequence contains a value if and only if the class of the value occurs in it. -/
theorem contains_iff {vs : List Value} {v : Value} : contains vs v = true ↔ Occurs vs v :=
  List.any_eq_true

/-- Equality is an equivalence on the members of a sequence. -/
abbrev Classed (vs : List Value) : Prop :=
  Equivalence fun u v : { v // v ∈ vs } => u.val.equals v.val = true

section

variable {us vs : List Value} {u v w : Value}

/-- On the members of a sequence with classes equality is symmetric. -/
theorem Classed.symm_iff (h : Classed us) (hu : u ∈ us) (hv : v ∈ us) :
    u.equals v = true ↔ v.equals u = true :=
  ⟨h.symm (x := ⟨u, hu⟩) (y := ⟨v, hv⟩), h.symm (x := ⟨v, hv⟩) (y := ⟨u, hu⟩)⟩

/-- On the members of a sequence with classes equality is transitive. -/
theorem Classed.trans_of (h : Classed us) (hu : u ∈ us) (hv : v ∈ us) (hw : w ∈ us)
    (huv : u.equals v = true) (hvw : v.equals w = true) : u.equals w = true :=
  h.trans (x := ⟨u, hu⟩) (y := ⟨v, hv⟩) (z := ⟨w, hw⟩) huv hvw

/-- Equal values are of one class, which occurs in a sequence or does not. -/
theorem Classed.occurs_congr (h : Classed us) (hu : u ∈ us) (hv : v ∈ us)
    (hsub : ∀ v ∈ vs, v ∈ us) (huv : u.equals v = true) : Occurs vs u ↔ Occurs vs v := by
  constructor
  · rintro ⟨w, hw, huw⟩
    exact ⟨w, hw, h.trans_of hv hu (hsub w hw) ((h.symm_iff hu hv).mp huv) huw⟩
  · rintro ⟨w, hw, hvw⟩
    exact ⟨w, hw, h.trans_of hu hv (hsub w hw) huv hvw⟩

end

/-! ### Members at certain places -/

/-- A sequence consists of the members of another one at exactly the places with a property, in
    their order. -/
def Picks (vs : List Value) (P : Nat → Prop) (picked : List Value) : Prop :=
  ∃ places : List Nat, places.Pairwise (· < ·) ∧ (∀ i, i ∈ places ↔ i < vs.length ∧ P i) ∧
    picked.map some = places.map fun i => vs[i]?

/-- The member at a place is the first one of its class. -/
def FirstAt (vs : List Value) (i : Nat) : Prop :=
  ∀ j < i, ∀ u v, vs[j]? = some u → vs[i]? = some v → u.equals v = false

/-- The class of the member at a place occurs in another sequence. -/
def OccursAt (vs us : List Value) (i : Nat) : Prop := ∃ v, vs[i]? = some v ∧ Occurs us v

section

variable {vs picked : List Value} {P Q : Nat → Prop}

theorem picks_nil (P : Nat → Prop) : Picks [] P [] := ⟨[], .nil, by simp, rfl⟩

/-- Properties that hold at the same places pick the same members. -/
theorem Picks.congr (h : Picks vs P picked) (hPQ : ∀ i < vs.length, P i ↔ Q i) :
    Picks vs Q picked := by
  obtain ⟨places, hsorted, hmem, hpicked⟩ := h
  refine ⟨places, hsorted, fun i => ?_, hpicked⟩
  rw [hmem]
  exact and_congr_right (hPQ i)

/-- One more member, which is picked or is not. -/
theorem Picks.concat (h : Picks vs P picked) (v : Value) (hkeep : Bool)
    (hP : P vs.length ↔ hkeep = true) :
    Picks (vs ++ [v]) P (if hkeep then picked ++ [v] else picked) := by
  obtain ⟨places, hsorted, hmem, hpicked⟩ := h
  have hbefore : ∀ i ∈ places, (vs ++ [v])[i]? = vs[i]? := fun i hi =>
    List.getElem?_append_left ((hmem i).mp hi).1
  have hold : picked.map some = places.map fun i => (vs ++ [v])[i]? := by
    rw [hpicked]
    exact List.map_congr_left fun i hi => (hbefore i hi).symm
  -- The places of the longer sequence are those of the other one and one more.
  have hlast : ∀ i, i < (vs ++ [v]).length ∧ P i ↔ i < vs.length ∧ P i ∨ i = vs.length ∧ P i := by
    intro i
    rw [List.length_append, List.length_singleton, ← or_and_right, Nat.lt_succ_iff_lt_or_eq]
  cases hkeep with
  -- The place behind the others has not the property.
  | false =>
    refine ⟨places, hsorted, fun i => ?_, hold⟩
    rw [hmem, hlast]
    refine (or_iff_left ?_).symm
    rintro ⟨rfl, hi⟩
    exact absurd (hP.mp hi) (by simp)
  -- The place behind the others comes last.
  | true =>
    refine ⟨places ++ [vs.length], ?_, fun i => ?_, ?_⟩
    · refine List.pairwise_append.mpr ⟨hsorted, List.pairwise_singleton .., fun i hi j hj => ?_⟩
      obtain rfl := List.mem_singleton.mp hj
      exact ((hmem i).mp hi).1
    · rw [List.mem_append, hmem, List.mem_singleton, hlast]
      refine or_congr_right (Iff.symm (and_iff_left_of_imp ?_))
      rintro rfl
      exact hP.mpr rfl
    · simp [hold]

end

/-! ### Gathering -/

/-- The members with a property, each but once. -/
def gather (p : Value → Bool) (vs : List Value) : List Value :=
  vs.foldl (fun picked v => if p v then addNew picked v else picked) []

/-- A union gathers all members of both operands. -/
theorem union_eq_gather (a b : List Value) : union a b = gather (fun _ => true) (a ++ b) := rfl

/-- An intersection gathers the members of the first operand that occur in the second one. -/
theorem intersection_eq_gather (a b : List Value) : intersection a b = gather (contains b) a := rfl

section

variable {p : Value → Bool} {us vs : List Value} {v : Value}

/-- One more member is gathered if it has the property and its class is new. -/
theorem gather_concat (p : Value → Bool) (vs : List Value) (v : Value) :
    gather p (vs ++ [v]) =
      if p v && !contains (gather p vs) v then gather p vs ++ [v] else gather p vs := by
  have hstep : gather p (vs ++ [v]) =
      if p v then addNew (gather p vs) v else gather p vs := by
    rw [gather, List.foldl_append, List.foldl_cons, List.foldl_nil, gather]
  rw [hstep, addNew]
  cases p v <;> cases contains (gather p vs) v <;> rfl

/-- What is gathered is a member with the property. -/
theorem mem_of_mem_gather (h : v ∈ gather p vs) : v ∈ vs ∧ p v = true := by
  induction vs using List.reverseRecOn with
  | nil => exact absurd h List.not_mem_nil
  | append_singleton vs w ih =>
    rw [gather_concat] at h
    split at h
    · rename_i hw
      rcases List.mem_append.mp h with h | h
      · exact ⟨List.mem_append_left _ (ih h).1, (ih h).2⟩
      · obtain rfl := List.mem_singleton.mp h
        exact ⟨by simp, (Bool.and_eq_true_iff.mp hw).1⟩
    · exact ⟨List.mem_append_left _ (ih h).1, (ih h).2⟩

/-- The classes of what is gathered are those of the members with the property. -/
theorem occurs_gather (h : Classed us) (hsub : ∀ v ∈ vs, v ∈ us) (hv : v ∈ us) :
    Occurs (gather p vs) v ↔ ∃ u ∈ vs, p u = true ∧ v.equals u = true := by
  constructor
  · rintro ⟨u, hu, hvu⟩
    exact ⟨u, (mem_of_mem_gather hu).1, (mem_of_mem_gather hu).2, hvu⟩
  · induction vs using List.reverseRecOn with
    | nil => exact fun ⟨u, hu, _⟩ => absurd hu List.not_mem_nil
    | append_singleton vs w ih =>
      have hvs : ∀ v ∈ vs, v ∈ us := fun v hv => hsub v (List.mem_append_left _ hv)
      have hw : w ∈ us := hsub w (by simp)
      -- What was gathered before still is.
      have hmore : ∀ u ∈ gather p vs, u ∈ gather p (vs ++ [w]) := by
        intro u hu
        rw [gather_concat]
        split
        · exact List.mem_append_left _ hu
        · exact hu
      rintro ⟨u, hu, hpu, hvu⟩
      rcases List.mem_append.mp hu with hu | hu
      · obtain ⟨x, hx, hvx⟩ := ih hvs ⟨u, hu, hpu, hvu⟩
        exact ⟨x, hmore x hx, hvx⟩
      · obtain rfl := List.mem_singleton.mp hu
        by_cases hfound : contains (gather p vs) u = true
        · obtain ⟨x, hx, hux⟩ := contains_iff.mp hfound
          have hxus : x ∈ us := hvs x (mem_of_mem_gather hx).1
          exact ⟨x, hmore x hx, h.trans_of hv hw hxus hvu hux⟩
        · refine ⟨u, ?_, hvu⟩
          rw [gather_concat, hpu]
          simp [hfound]

/-- Gathered members are of different classes. -/
theorem pairwise_gather (h : Classed us) (hsub : ∀ v ∈ vs, v ∈ us) :
    (gather p vs).Pairwise fun u v => u.equals v = false := by
  induction vs using List.reverseRecOn with
  | nil => exact .nil
  | append_singleton vs w ih =>
    have hvs : ∀ v ∈ vs, v ∈ us := fun v hv => hsub v (List.mem_append_left _ hv)
    rw [gather_concat]
    split
    · rename_i hw
      refine List.pairwise_append.mpr ⟨ih hvs, List.pairwise_singleton .., fun u hu v hv => ?_⟩
      obtain rfl := List.mem_singleton.mp hv
      -- A member that is taken is new among those gathered before.
      have hnew : ¬ Occurs (gather p vs) v := by
        rw [← contains_iff]
        simpa using (Bool.and_eq_true_iff.mp hw).2
      rw [← Bool.not_eq_true, h.symm_iff (hvs u (mem_of_mem_gather hu).1) (hsub v (by simp))]
      exact fun huv => hnew ⟨u, hu, huv⟩
    · exact ih hvs

/-- The last member is the first one of its class if the class does not occur before. -/
theorem firstAt_length (h : Classed us) (hsub : ∀ u ∈ vs ++ [v], u ∈ us) :
    FirstAt (vs ++ [v]) vs.length ↔ ¬ Occurs vs v := by
  have hlast : (vs ++ [v])[vs.length]? = some v := List.getElem?_concat_length
  have hv : v ∈ us := hsub v (by simp)
  constructor
  · rintro hfirst ⟨u, hu, hvu⟩
    obtain ⟨j, hj, hju⟩ := List.mem_iff_getElem.mp hu
    have hget : (vs ++ [v])[j]? = some u := by
      rw [List.getElem?_append_left hj, List.getElem?_eq_getElem hj, hju]
    have hne := hfirst j hj u v hget hlast
    have huv := (h.symm_iff hv (hsub u (List.mem_append_left _ hu))).mp hvu
    exact absurd huv (by simp [hne])
  · intro hnew j hj u w hju hw
    obtain rfl : v = w := Option.some.inj (hlast.symm.trans hw)
    rw [List.getElem?_append_left hj] at hju
    have hu : u ∈ vs := List.mem_of_getElem? hju
    rw [← Bool.not_eq_true, h.symm_iff (hsub u (List.mem_append_left _ hu)) hv]
    exact fun hvu => hnew ⟨u, hu, hvu⟩

/-- Whether a member is the first of its class does not depend on those behind it. -/
theorem firstAt_append {i : Nat} (hi : i < vs.length) (us : List Value) :
    FirstAt (vs ++ us) i ↔ FirstAt vs i := by
  unfold FirstAt
  rw [List.getElem?_append_left hi]
  refine forall₂_congr fun j hj => ?_
  rw [List.getElem?_append_left (Nat.lt_trans hj hi)]

/-- **Gathering keeps the first member of each class with the property**, where the property is one
    of classes. -/
theorem picks_gather (h : Classed us) (hsub : ∀ v ∈ vs, v ∈ us)
    (hp : ∀ u ∈ us, ∀ v ∈ us, u.equals v = true → p u = p v) :
    Picks vs (fun i => FirstAt vs i ∧ ∃ v, vs[i]? = some v ∧ p v = true) (gather p vs) := by
  induction vs using List.reverseRecOn with
  | nil => exact picks_nil _
  | append_singleton vs w ih =>
    have hvs : ∀ v ∈ vs, v ∈ us := fun v hv => hsub v (List.mem_append_left _ hv)
    have hw : w ∈ us := hsub w (by simp)
    have hbefore : Picks vs (fun i => FirstAt (vs ++ [w]) i ∧
        ∃ v, (vs ++ [w])[i]? = some v ∧ p v = true) (gather p vs) := by
      refine (ih hvs).congr fun i hi => ?_
      rw [firstAt_append hi, List.getElem?_append_left hi]
    rw [gather_concat]
    refine hbefore.concat w _ ?_
    -- An earlier member of the class has the property as well, so that one of them is gathered.
    have hfound : p w = true → (Occurs (gather p vs) w ↔ Occurs vs w) := by
      intro hpw
      rw [occurs_gather h hvs hw]
      refine ⟨fun ⟨u, hu, _, hwu⟩ => ⟨u, hu, hwu⟩, fun ⟨u, hu, hwu⟩ => ⟨u, hu, ?_, hwu⟩⟩
      rw [← hp w hw u (hvs u hu) hwu]
      exact hpw
    rw [firstAt_length h hsub, List.getElem?_concat_length, Bool.and_eq_true_iff,
      Bool.not_eq_true', ← Bool.not_eq_true, contains_iff]
    constructor
    · rintro ⟨hnew, _, hv, hpw⟩
      obtain rfl := Option.some.inj hv
      exact ⟨hpw, fun hold => hnew ((hfound hpw).mp hold)⟩
    · rintro ⟨hpw, hnew⟩
      exact ⟨fun hold => hnew ((hfound hpw).mpr hold), w, rfl, hpw⟩

end

/-! ### The operators -/

/-- A difference picks the members whose class does not occur in the second operand. -/
theorem picks_difference (a b : List Value) :
    Picks a (fun i => ¬ OccursAt a b i) (difference a b) := by
  induction a using List.reverseRecOn with
  | nil => exact picks_nil _
  | append_singleton a v ih =>
    have hbefore : Picks a (fun i => ¬ OccursAt (a ++ [v]) b i) (difference a b) := by
      refine ih.congr fun i hi => ?_
      rw [OccursAt, OccursAt, List.getElem?_append_left hi]
    have hconcat : difference (a ++ [v]) b =
        if !contains b v then difference a b ++ [v] else difference a b := by
      rw [difference, List.filter_append, difference]
      cases hv : contains b v <;> simp [hv]
    rw [hconcat]
    refine hbefore.concat v _ ?_
    rw [OccursAt, List.getElem?_concat_length, Bool.not_eq_true', ← Bool.not_eq_true, contains_iff]
    simp

section

variable {a b : List Value} {v : Value}

/-- A class occurs in sequences put together if it occurs in one of them. -/
theorem occurs_append : Occurs (a ++ b) v ↔ Occurs a v ∨ Occurs b v := by
  simp only [Occurs, List.mem_append, or_and_right, exists_or]

/-- The members of a difference are those of the first operand whose class does not occur in the
    second. -/
theorem mem_difference : v ∈ difference a b ↔ v ∈ a ∧ ¬ Occurs b v := by
  rw [difference, List.mem_filter, Bool.not_eq_true', ← Bool.not_eq_true, contains_iff]

/-- A class occurs in a union if it occurs in one of the operands. -/
theorem occurs_union (h : Classed (a ++ b)) (hv : v ∈ a ++ b) :
    Occurs (union a b) v ↔ Occurs a v ∨ Occurs b v := by
  rw [union_eq_gather, occurs_gather h (fun _ hu => hu) hv, ← occurs_append]
  simp [Occurs]

/-- A class occurs in an intersection if it occurs in both operands. -/
theorem occurs_intersection (h : Classed (a ++ b)) (hv : v ∈ a ++ b) :
    Occurs (intersection a b) v ↔ Occurs a v ∧ Occurs b v := by
  have ha : ∀ u ∈ a, u ∈ a ++ b := fun u hu => List.mem_append_left _ hu
  have hb : ∀ u ∈ b, u ∈ a ++ b := fun u hu => List.mem_append_right _ hu
  rw [intersection_eq_gather, occurs_gather h ha hv]
  simp only [contains_iff]
  constructor
  · rintro ⟨u, hu, hbu, hvu⟩
    exact ⟨⟨u, hu, hvu⟩, (h.occurs_congr hv (ha u hu) hb hvu).mpr hbu⟩
  · rintro ⟨⟨u, hu, hvu⟩, hbv⟩
    exact ⟨u, hu, (h.occurs_congr hv (ha u hu) hb hvu).mp hbv, hvu⟩

/-- The classes of a difference are those of the one sequence that do not occur in the other. -/
theorem occurs_difference {us : List Value} (h : Classed us) (ha : ∀ u ∈ a, u ∈ us)
    (hb : ∀ u ∈ b, u ∈ us) (hv : v ∈ us) :
    Occurs (difference a b) v ↔ Occurs a v ∧ ¬ Occurs b v := by
  constructor
  · rintro ⟨u, hu, hvu⟩
    obtain ⟨hau, hbu⟩ := mem_difference.mp hu
    exact ⟨⟨u, hau, hvu⟩, fun hbv => hbu ((h.occurs_congr hv (ha u hau) hb hvu).mp hbv)⟩
  · rintro ⟨⟨u, hu, hvu⟩, hbv⟩
    refine ⟨u, mem_difference.mpr ⟨hu, fun hbu => hbv ?_⟩, hvu⟩
    exact (h.occurs_congr hv (ha u hu) hb hvu).mpr hbu

/-- The members of both differences are members of the operands. -/
theorem mem_of_differences (h : v ∈ difference a b ++ difference b a) : v ∈ a ++ b := by
  rcases List.mem_append.mp h with h | h
  · exact List.mem_append_left _ (mem_difference.mp h).1
  · exact List.mem_append_right _ (mem_difference.mp h).1

/-- A class occurs in a symmetric difference if it occurs in exactly one of the operands. -/
theorem occurs_symmetricDifference (h : Classed (a ++ b)) (hv : v ∈ a ++ b) :
    Occurs (symmetricDifference a b) v ↔ Xor (Occurs a v) (Occurs b v) := by
  have ha : ∀ u ∈ a, u ∈ a ++ b := fun u hu => List.mem_append_left _ hu
  have hb : ∀ u ∈ b, u ∈ a ++ b := fun u hu => List.mem_append_right _ hu
  rw [symmetricDifference, union_eq_gather, occurs_gather h (fun _ => mem_of_differences) hv]
  simp only [true_and]
  rw [show (∃ u ∈ difference a b ++ difference b a, v.equals u = true) ↔
      Occurs (difference a b ++ difference b a) v from Iff.rfl, occurs_append,
    occurs_difference h ha hb hv, occurs_difference h hb ha hv]
  rfl

/-- A class occurs in the union without the intersection if it occurs in exactly one of the
    operands. -/
theorem occurs_union_difference (h : Classed (a ++ b)) (hv : v ∈ a ++ b) :
    Occurs (difference (union a b) (intersection a b)) v ↔ Xor (Occurs a v) (Occurs b v) := by
  have hunion : ∀ u ∈ union a b, u ∈ a ++ b := fun u hu =>
    List.mem_append.mpr (mem_of_mem_union hu)
  have hinter : ∀ u ∈ intersection a b, u ∈ a ++ b := fun u hu =>
    List.mem_append_left _ (mem_of_mem_intersection hu)
  rw [occurs_difference h hunion hinter hv, occurs_union h hv, occurs_intersection h hv]
  unfold Xor
  tauto

end

/-- The operators that make a sequence of two, and what they make of the elements. -/
def pairings : List (String × (List Value → List Value → List Value)) :=
  [("|", union), ("&", intersection), ("^", symmetricDifference), ("-", difference),
    ("+", (· ++ ·))]

/-- A sequence is a list or a tuple. -/
theorem exists_of_sequence {v : Value} (h : Operand.sequence.accepts v = true) :
    (∃ id es, v = .list id es) ∨ ∃ es, v = .tuple es := by
  cases v with
  | list id es => exact Or.inl ⟨id, es, rfl⟩
  | tuple es => exact Or.inr ⟨es, rfl⟩
  | _ => exact absurd h (by simp [Operand.accepts, Operand.acceptsKind, Value.kind])

/-- An operator on two sequences pushes one new value, and changes nothing else. -/
theorem operate_pairing (ctx : Context) (m : Machine) {u v : Value} (below : List Value)
    (hu : Operand.sequence.accepts u = true) (hv : Operand.sequence.accepts v = true)
    {op : String} {f : List Value → List Value → List Value} (hop : (op, f) ∈ pairings) :
    Evaluator.operate .builtin ctx (utf8 op) (m.withVisible (v :: u :: below)) =
      .ok () (if u.kind = .list ∨ v.kind = .list then
          { m.withVisible (.list m.nextList (f u.elements v.elements) :: below) with
            nextList := m.nextList + 1 }
        else m.withVisible (.tuple (f u.elements v.elements) :: below)) := by
  simp only [pairings, List.mem_cons, Prod.mk.injEq, List.not_mem_nil, or_false] at hop
  rcases exists_of_sequence hu with ⟨i, as, rfl⟩ | ⟨as, rfl⟩ <;>
    rcases exists_of_sequence hv with ⟨j, bs, rfl⟩ | ⟨bs, rfl⟩ <;>
    rcases hop with ⟨rfl, rfl⟩ | ⟨rfl, rfl⟩ | ⟨rfl, rfl⟩ | ⟨rfl, rfl⟩ | ⟨rfl, rfl⟩ <;>
    rfl

/-- **Sequences as sets.**  Let equality be an equivalence on the elements of two sequences.  Then
    their union keeps exactly the first member of each class, their intersection the first member
    in the one of each class that also occurs in the other, and their difference all members whose
    class does not occur in the other.  Their symmetric difference has no two equal elements; its
    classes are those that occur in one of the two but not in both, as are those of the difference
    of their union and their intersection.  On the stack, the operators push a new list if one of
    the two sequences is a list, and a tuple otherwise, and change nothing else. -/
theorem set_operators :
    (∀ a b : List Value, Classed (a ++ b) →
      Picks (a ++ b) (FirstAt (a ++ b)) (union a b) ∧
      Picks a (fun i => FirstAt a i ∧ OccursAt a b i) (intersection a b) ∧
      Picks a (fun i => ¬ OccursAt a b i) (difference a b) ∧
      (symmetricDifference a b).Pairwise (fun u v => u.equals v = false) ∧
      (∀ v ∈ symmetricDifference a b, v ∈ a ++ b) ∧
      (∀ v ∈ difference (union a b) (intersection a b), v ∈ a ++ b) ∧
      ∀ v ∈ a ++ b,
        (Occurs (symmetricDifference a b) v ↔ Xor (Occurs a v) (Occurs b v)) ∧
        (Occurs (difference (union a b) (intersection a b)) v ↔ Xor (Occurs a v) (Occurs b v))) ∧
    ∀ (ctx : Context) (m : Machine) (u v : Value) (below : List Value),
      Operand.sequence.accepts u = true → Operand.sequence.accepts v = true →
      ∀ p ∈ pairings,
        Evaluator.operate .builtin ctx (utf8 p.1) (m.withVisible (v :: u :: below)) =
          .ok () (if u.kind = .list ∨ v.kind = .list then
              { m.withVisible (.list m.nextList (p.2 u.elements v.elements) :: below) with
                nextList := m.nextList + 1 }
            else m.withVisible (.tuple (p.2 u.elements v.elements) :: below)) := by
  refine ⟨fun a b h => ?_, fun ctx m u v below hu hv p hp => operate_pairing ctx m below hu hv hp⟩
  have ha : ∀ u ∈ a, u ∈ a ++ b := fun u hu => List.mem_append_left _ hu
  have hb : ∀ u ∈ b, u ∈ a ++ b := fun u hu => List.mem_append_right _ hu
  have hsym : symmetricDifference a b = gather (fun _ => true) (difference a b ++ difference b a) :=
    rfl
  refine ⟨?_, ?_, picks_difference a b, ?_, ?_, ?_,
    fun v hv => ⟨occurs_symmetricDifference h hv, occurs_union_difference h hv⟩⟩
  · -- A union asks for no property, so that only the classes matter.
    rw [union_eq_gather]
    refine (picks_gather h (fun _ hu => hu) fun _ _ _ _ _ => rfl).congr fun i hi => ?_
    exact and_iff_left ⟨_, List.getElem?_eq_getElem hi, rfl⟩
  · -- Whether a member occurs in the second operand depends on its class only.
    have hp : ∀ u ∈ a ++ b, ∀ v ∈ a ++ b, u.equals v = true → contains b u = contains b v := by
      intro u hu v hv huv
      rw [Bool.eq_iff_iff, contains_iff, contains_iff]
      exact h.occurs_congr hu hv hb huv
    refine (picks_gather h ha hp).congr fun i _ => ?_
    simp only [OccursAt, contains_iff]
  · rw [hsym]
    exact pairwise_gather h fun _ => mem_of_differences
  · rw [hsym]
    exact fun v hv => mem_of_differences (mem_of_mem_gather hv).1
  · intro v hv
    exact List.mem_append.mpr (mem_of_mem_union (mem_difference.mp hv).1)

/-- The elements `1`, `1.0` and `"a"`. -/
def sampleElements : List Value := [.int 1, .float 1, .str (utf8 "a")]

/-- The elements `"b"`, `1.0` and `"b"`. -/
def otherElements : List Value := [.str (utf8 "b"), .float 1, .str (utf8 "b")]

/-- The numbers `1` and `1.0` are of one class, in unions and symmetric differences. -/
theorem set_operators_mixed :
    Classed (sampleElements ++ otherElements) ∧
      union sampleElements otherElements = [.int 1, .str (utf8 "a"), .str (utf8 "b")] ∧
      Picks (sampleElements ++ otherElements) (FirstAt (sampleElements ++ otherElements))
        [.int 1, .str (utf8 "a"), .str (utf8 "b")] ∧
      ∀ (ctx : Context) (m : Machine), Evaluator.operate .builtin ctx (utf8 "^")
          (m.withVisible [.list 5 otherElements, .tuple sampleElements]) =
        .ok () { m.withVisible [.list m.nextList [.str (utf8 "a"), .str (utf8 "b")]] with
          nextList := m.nextList + 1 } := by
  have hclassed : Classed (sampleElements ++ otherElements) := by
    have hsymm : ∀ u ∈ sampleElements ++ otherElements, ∀ v ∈ sampleElements ++ otherElements,
        u.equals v = true → v.equals u = true := by decide +kernel
    have htrans : ∀ u ∈ sampleElements ++ otherElements, ∀ v ∈ sampleElements ++ otherElements,
        ∀ w ∈ sampleElements ++ otherElements,
        u.equals v = true → v.equals w = true → u.equals w = true := by decide +kernel
    have hrefl : ∀ u ∈ sampleElements ++ otherElements, u.equals u = true := by decide +kernel
    exact ⟨fun u => hrefl _ u.property, fun {u v} => hsymm _ u.property _ v.property,
      fun {u v w} => htrans _ u.property _ v.property _ w.property⟩
  have hunion : union sampleElements otherElements = [.int 1, .str (utf8 "a"), .str (utf8 "b")] :=
    by with_unfolding_all rfl
  have hsym : symmetricDifference sampleElements otherElements =
      [.str (utf8 "a"), .str (utf8 "b")] := by with_unfolding_all rfl
  refine ⟨hclassed, hunion, hunion ▸ (set_operators.1 _ _ hclassed).1, fun ctx m => ?_⟩
  rw [← hsym]
  exact set_operators.2 ctx m (.tuple sampleElements) (.list 5 otherElements) [] rfl rfl
    ("^", symmetricDifference) (by simp [pairings])

end Sequence

end StackLang
