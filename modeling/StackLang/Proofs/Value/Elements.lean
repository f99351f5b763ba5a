import StackLang.Proofs.Evaluation.Safety
import StackLang.Proofs.Text.Repair
import Mathlib.Logic.Function.Iterate

namespace StackLang

/-!
# Three ways to the elements

Walking over the elements of a value, counting them and asking for one at a position are separate
functions, and for a string each of them reads the characters anew.

* `Cursor.values_eq_rest` — taking the elements of a walk one after the other yields what is before
  it;
* `Cursor.values_after` — each step takes one element off the front;
* `Value.length?_of_elements?`, `Value.index?_of_elements?` — counting and asking go by the same
  elements;
* `Value.flatten_characterTexts` — the characters of a string make up the string with its stray
  bytes replaced;
* `Value.elements_agree` — so the three agree, for lists, tuples and all strings of bytes.
-/

/-! ### Walks -/

namespace Cursor

/-- The next element is the first one not yet seen. -/
theorem next_fst (c : Cursor) : c.next.1 = c.rest.head? := by
  unfold next
  cases c.rest <;> rfl

/-- Behind a step the first element has been seen. -/
theorem rest_next (c : Cursor) : c.next.2.rest = c.rest.tail := by
  unfold next
  cases hrest : c.rest with
  | nil => exact hrest
  | cons v rest => rfl

/-- The values of a walk are the elements not yet seen. -/
theorem values_eq_rest (c : Cursor) : c.values = c.rest := by
  fun_induction values c with
  | case1 c behind hnext =>
    have hhead : c.rest.head? = none := by rw [← next_fst, hnext]
    exact (List.head?_eq_none_iff.mp hhead).symm
  | case2 c v behind hnext ih =>
    have hhead : c.rest.head? = some v := by rw [← next_fst, hnext]
    have htail : behind.rest = c.rest.tail := by rw [← rest_next, hnext]
    rw [ih, htail]
    exact List.cons_head?_tail hhead

/-- A walk after some steps. -/
def after (c : Cursor) (k : Nat) : Cursor := (fun c => c.next.2)^[k] c

/-- Behind some steps that many elements have been seen. -/
theorem rest_after (c : Cursor) (k : Nat) : (c.after k).rest = c.rest.drop k := by
  induction k with
  | zero => rfl
  | succ k ih => rw [after, Function.iterate_succ_apply', ← after, rest_next, ih, List.tail_drop]

theorem values_after (c : Cursor) (k : Nat) : (c.after k).values = c.values.drop k := by
  rw [values_eq_rest, values_eq_rest, rest_after]

/-- A step behind others gives the element at that place, and nothing behind the last one. -/
theorem next_after (c : Cursor) (k : Nat) : (c.after k).next.1 = c.values[k]? := by
  rw [next_fst, values_eq_rest, rest_after, List.head?_drop]

/-- Behind its end, a walk stays without elements. -/
theorem next_after_eq_none {c : Cursor} {k j : Nat} (h : (c.after k).next.1 = none) (hle : k ≤ j) :
    (c.after j).next.1 = none := by
  rw [next_after, List.getElem?_eq_none_iff] at h ⊢
  exact h.trans hle

end Cursor

/-! ### Counting and asking -/

namespace Value

variable {v : Value} {es : List Value}

/-- What is iterable has elements. -/
theorem exists_elements? (h : Operand.iterable.accepts v = true) : ∃ es, v.elements? = some es := by
  cases v with
  | list _ es => exact ⟨es, rfl⟩
  | tuple es => exact ⟨es, rfl⟩
  | str s => exact ⟨characters s, rfl⟩
  | _ => exact absurd h (by simp [Operand.accepts, Operand.acceptsKind, kind])

/-- The length counts the elements. -/
theorem length?_of_elements? (h : v.elements? = some es) : v.length? = some es.length := by
  cases v with
  | list | tuple =>
    cases h
    rfl
  | str s =>
    cases h
    rw [length?, characters, List.length_map]
  | _ => cases h

/-- An index from 1 on selects the element at its place. -/
theorem index?_of_elements? (h : v.elements? = some es) {i : Int} (hi : 1 ≤ i) :
    v.index? i = es[(i - 1).toNat]? := by
  have hlow : ¬ i < 1 := Int.not_lt.mpr hi
  cases v with
  | list | tuple =>
    cases h
    simp only [index?, hlow, if_false]
  | str s =>
    cases h
    simp only [index?, hlow, if_false, characters, List.getElem?_map]
  | _ => cases h

/-! ### Characters -/

/-- The bytes of each character of a string. -/
def characterTexts (s : Bytes) : List Bytes := (Utf8.chars s).map Utf8.encode

/-- The characters of a string are its elements, each as a string. -/
theorem characters_eq (s : Bytes) : characters s = (characterTexts s).map str := by
  rw [characterTexts, List.map_map]
  rfl

/-- The characters of a string put together are the string with what is no UTF-8 replaced. -/
theorem flatten_characterTexts (s : Bytes) : (characterTexts s).flatten = Utf8.mended s := by
  rw [← Utf8.repair_eq_mended, Utf8.repair, List.flatMap_def, characterTexts]

/-- An element of a string has one character. -/
theorem length?_of_mem_characterTexts {s t : Bytes} (h : t ∈ characterTexts s) :
    (str t).length? = some 1 := by
  obtain ⟨c, -, rfl⟩ := List.mem_map.mp h
  have hglyphs : Utf8.glyphs (Utf8.encode c) = [.char c] := by
    simpa using Utf8.glyphs_encode c []
  rw [length?, Utf8.chars, hglyphs]
  rfl

/-- **Counting, asking and walking agree.**  A walk over a list, tuple or string sees as many
    elements as are counted, an element is found exactly at the positions from 1 to this number and
    is the one that the walk sees there, each step of the walk leaves the elements behind it, and a
    walk that has ended stays so.  The elements of a string are strings of one character; together
    they are the string with each byte that belongs to no character replaced by U+FFFD, and this is
    the string itself exactly if it is the UTF-8 of some text. -/
theorem elements_agree (hv : Operand.iterable.accepts v = true) :
    ∃ c n, Cursor.ofValue? v = some c ∧ v.length? = some n ∧ c.values.length = n ∧
      (∀ i : Int64, ((v.index? i.toInt).isSome = true ↔ 1 ≤ i.toInt ∧ i.toInt ≤ n) ∧
        ∀ e, v.index? i.toInt = some e → c.values[(i.toInt - 1).toNat]? = some e) ∧
      (∀ k, (c.after k).values = c.values.drop k ∧ (c.after k).next.1 = c.values[k]?) ∧
      (∀ k j, (c.after k).next.1 = none → k ≤ j → (c.after j).next.1 = none) ∧
      ∀ s, v = .str s → ∃ ts : List Bytes, c.values = ts.map .str ∧
        (∀ t ∈ ts, (Value.str t).length? = some 1) ∧ ts.flatten = Utf8.mended s ∧
        (Utf8.mended s = s ↔ ∃ t : String, s = utf8 t) := by
  -- Everything is compared with the elements that are before the walk at its start.
  obtain ⟨es, hes⟩ := exists_elements? hv
  have hvalues : (Cursor.mk es).values = es := Cursor.values_eq_rest _
  have hlength := length?_of_elements? hes
  refine ⟨⟨es⟩, es.length, by rw [Cursor.ofValue?, hes]; rfl, hlength, by rw [hvalues],
    fun i => ⟨?_, fun e he => ?_⟩,
    fun k => ⟨Cursor.values_after _ k, Cursor.next_after _ k⟩,
    fun k j => Cursor.next_after_eq_none, ?_⟩
  · rw [isSome_index?, length, hlength]
    rfl
  · have hi : 1 ≤ i.toInt := ((isSome_index? v _).mp (by rw [he]; rfl)).1
    rw [hvalues, ← index?_of_elements? hes hi, he]
  · rintro s rfl
    cases hes
    exact ⟨characterTexts s, by rw [hvalues, characters_eq], fun t => length?_of_mem_characterTexts,
      flatten_characterTexts s, Utf8.mended_eq_self_iff⟩

/-- An `A`, then a truncated, an overlong and a surrogate sequence, and an `é`. -/
def broken : Bytes := [0x41, 0xE2, 0x82, 0xC0, 0x80, 0xED, 0xA0, 0x80, 0xC3, 0xA9]

/-- A string that is no UTF-8 has an element for each byte that belongs to no character. -/
theorem elements_agree_broken :
    Operand.iterable.accepts (.str broken) = true ∧
      ∃ c, Cursor.ofValue? (.str broken) = some c ∧ c.values.length = 9 ∧
        (∀ i : Int64, ((str broken).index? i.toInt).isSome = true ↔ 1 ≤ i.toInt ∧ i.toInt ≤ 9) ∧
        (∀ k, (c.after k).values = c.values.drop k) ∧
        (∃ ts : List Bytes, c.values = ts.map .str ∧ ts.flatten = [0x41] ++
          (List.replicate 7 [0xEF, 0xBF, 0xBD]).flatten ++ [0xC3, 0xA9]) ∧
        ¬ ∃ t : String, broken = utf8 t := by
  have haccepts : Operand.iterable.accepts (.str broken) = true := by decide
  have hmended : Utf8.mended broken =
      [0x41] ++ (List.replicate 7 [0xEF, 0xBF, 0xBD]).flatten ++ [0xC3, 0xA9] := by decide
  obtain ⟨c, n, hc, hn, hlength, hindex, hafter, -, hstr⟩ := elements_agree haccepts
  obtain rfl : 9 = n := Option.some.inj hn
  obtain ⟨ts, hts, -, hflatten, hself⟩ := hstr broken rfl
  refine ⟨haccepts, c, hc, hlength, fun i => (hindex i).1, fun k => (hafter k).1,
    ⟨ts, hts, hflatten.trans hmended⟩, fun htext => ?_⟩
  have hsame := hself.mpr htext
  rw [hmended] at hsame
  exact absurd hsame (by decide)

end Value

end StackLang
