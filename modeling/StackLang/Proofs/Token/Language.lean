import StackLang.Proofs.Token.Longest
import Mathlib.Computability.Language
import Mathlib.Data.List.TakeWhile

namespace StackLang

/-!
# Longest starts of a text in a language

* `Longest` — the length of the longest start of a text that is in a language;
* `Longest.cons`, `Longest.mul`, `Longest.optional`, `longest_run`, `longest_by_first` — one rule
  for each way in which the languages of lexemes are put together;
* `ExtendsBy`, `StartsOutside` — the words of a language are continued by bytes of a class only,
  or begin with none of them.  Where a part ends in front of bytes that cannot continue it, the
  longest start of a whole is made of those of its parts.
-/

open scoped Computability

/-! ### Longest starts -/

/-- `found` is the length of the longest start of a text that is in a language, if there is
    one. -/
structure Longest (L : Language UInt8) (text : Bytes) (found : Option Nat) : Prop where
  mem : ∀ n ∈ found, n ≤ text.length ∧ text.take n ∈ L
  bound : ∀ w ∈ L, w <+: text → ∃ n ∈ found, w.length ≤ n

/-- The words of a language are continued, inside the language, by bytes of a class only. -/
def ExtendsBy (p : UInt8 → Bool) (L : Language UInt8) : Prop :=
  ∀ w ∈ L, ∀ b v, w ++ b :: v ∈ L → p b = true

/-- No word of a language begins with a byte of a class. -/
def StartsOutside (p : UInt8 → Bool) (L : Language UInt8) : Prop :=
  ∀ b v, b :: v ∈ L → p b = false

/-- The texts of one byte of a class. -/
def one (p : UInt8 → Bool) : Language UInt8 := {w | ∃ b, p b = true ∧ w = [b]}

section

variable {p q : UInt8 → Bool} {A B L : Language UInt8} {text : Bytes}

/-- A text of a byte and a word begins with the byte, and the word follows. -/
theorem mem_one_mul {w : Bytes} : w ∈ one p * L ↔ ∃ b v, w = b :: v ∧ p b = true ∧ v ∈ L := by
  rw [Language.mem_mul]
  constructor
  · rintro ⟨_, ⟨b, hb, rfl⟩, v, hv, rfl⟩
    exact ⟨b, v, rfl, hb, hv⟩
  · rintro ⟨b, v, rfl, hb, hv⟩
    exact ⟨[b], ⟨b, hb, rfl⟩, v, hv, rfl⟩

/-- A text of bytes of a class has no others. -/
theorem mem_many {w : Bytes} : w ∈ (one p)∗ ↔ ∀ b ∈ w, p b = true := by
  induction w with
  | nil => simp [Language.nil_mem_kstar]
  | cons b w ih =>
    rw [← Language.one_add_self_mul_kstar_eq_kstar, Language.mem_add, mem_one_mul]
    simp [ih]

/-! ### Where words end -/

/-- A text of one byte is not continued. -/
theorem extendsBy_one : ExtendsBy (fun _ => false) (one p) := by
  rintro _ ⟨c, -, rfl⟩ b v ⟨d, -, h⟩
  simp at h

/-- No byte or one is continued by a byte of the class. -/
theorem extendsBy_optional_one : ExtendsBy p (1 + one p) := by
  intro w hw b v h
  rcases (Language.mem_add 1 (one p) _).mp h with h | ⟨d, hd, h⟩
  · simp at h
  · -- One byte extends the empty word only.
    cases w with
    | nil =>
      obtain ⟨rfl, rfl⟩ := List.cons.inj h
      exact hd
    | cons c w => simp at h

/-- Bytes of a class are continued by bytes of the class. -/
theorem extendsBy_many : ExtendsBy p (one p)∗ := by
  intro w _ b v h
  exact mem_many.mp h b (by simp)

/-- Bytes of a class, at least one, are continued by bytes of the class. -/
theorem extendsBy_some : ExtendsBy p (one p * (one p)∗) := by
  intro w _ b v h
  obtain ⟨c, u, hword, hc, hu⟩ := mem_one_mul.mp h
  have hall : ∀ d ∈ w ++ b :: v, p d = true := by
    intro d hd
    rw [hword] at hd
    rcases List.mem_cons.mp hd with rfl | hd
    · exact hc
    · exact mem_many.mp hu d hd
  exact hall b (by simp)

/-- Where the words of the first part end, words of the second part begin: both words are cut
    in the same place. -/
theorem ExtendsBy.mul (hA : ExtendsBy p A) (hB : ExtendsBy q B) (hne : [] ∉ B)
    (hstart : StartsOutside p B) : ExtendsBy q (A * B) := by
  intro w hw b v hlong
  obtain ⟨a, ha, c, hc, rfl⟩ := Language.mem_mul.mp hw
  obtain ⟨a', ha', c', hc', heq⟩ := Language.mem_mul.mp hlong
  rw [List.append_assoc] at heq
  -- Either the first parts are the same, or one of them is continued by the start of a second part,
  -- which it cannot be.
  rcases List.append_eq_append_iff.mp heq with ⟨e, rfl, hc''⟩ | ⟨e, rfl, hc''⟩
  · cases e with
    | nil =>
      rw [List.nil_append] at hc''
      rw [hc''] at hc'
      exact hB c hc b v hc'
    | cons d e =>
      rw [hc''] at hc'
      exact absurd (hA a' ha' d e ha) (by simp [hstart d _ hc'])
  · cases e with
    | nil =>
      rw [List.nil_append] at hc''
      rw [← hc''] at hc'
      exact hB c hc b v hc'
    | cons d e =>
      obtain ⟨x, c, rfl⟩ := List.exists_cons_of_ne_nil (fun h => hne (h ▸ hc))
      obtain ⟨rfl, -⟩ := List.cons.inj hc''
      exact absurd (hA a ha x e ha') (by simp [hstart x c hc])

/-- Texts that begin with a byte of another class begin outside of the class. -/
theorem startsOutside_one_mul (h : ∀ b, q b = true → p b = false) :
    StartsOutside p (one q * L) := by
  intro b v hb
  obtain ⟨c, u, hword, hc, -⟩ := mem_one_mul.mp hb
  obtain ⟨rfl, -⟩ := List.cons.inj hword
  exact h b hc

/-- An optional text begins outside of a class if the text does. -/
theorem StartsOutside.optional (h : StartsOutside p L) : StartsOutside p (1 + L) := by
  intro b v hb
  rcases (Language.mem_add 1 L _).mp hb with hb | hb
  · simp at hb
  · exact h b v hb

/-- The empty text does not begin with a byte. -/
theorem nil_notMem_one_mul : [] ∉ one p * L := by
  intro h
  obtain ⟨b, v, hword, -⟩ := mem_one_mul.mp h
  simp at hword

/-! ### The longest start of a whole -/

/-- Nothing is the longest start if no start is in the language. -/
theorem longest_none (h : ∀ w ∈ L, ¬ w <+: text) : Longest L text none :=
  ⟨by simp, fun w hw hpre => absurd hpre (h w hw)⟩

/-- If there is no longest start, then no start is in the language. -/
theorem Longest.of_none (h : Longest L text none) {w : Bytes} (hw : w ∈ L) : ¬ w <+: text := by
  intro hpre
  obtain ⟨n, hn, -⟩ := h.bound w hw hpre
  exact absurd hn (by simp)

/-- The length of a fixed text is found if the text begins with it. -/
theorem longest_exact (t text : Bytes) : Longest {t} text ((Pattern.exact t).length? text) where
  mem n hn := by
    obtain ⟨⟨rest, rfl⟩, rfl⟩ := Pattern.length?_exact.mp hn
    refine ⟨by simp, ?_⟩
    rw [List.take_left]
    exact Set.mem_singleton t
  bound w hw hpre := by
    obtain rfl : w = t := hw
    exact ⟨w.length, Pattern.length?_exact.mpr ⟨hpre, rfl⟩, Nat.le_refl _⟩

/-- A run consists of the bytes in front that have the property. -/
theorem take_run (p : UInt8 → Bool) (text : Bytes) :
    text.take (Pattern.run p text) = text.takeWhile p :=
  (List.prefix_iff_eq_take.mp (List.takeWhile_prefix p)).symm

/-- A run is not longer than the text. -/
theorem run_le (p : UInt8 → Bool) (text : Bytes) : Pattern.run p text ≤ text.length :=
  (List.takeWhile_prefix p).length_le

/-- A start with the property all along is not longer than the run. -/
theorem length_le_run {w : Bytes} (hw : ∀ b ∈ w, p b = true) (hpre : w <+: text) :
    w.length ≤ Pattern.run p text := by
  obtain ⟨rest, rfl⟩ := hpre
  unfold Pattern.run
  rw [List.takeWhile_append_of_pos hw, List.length_append]
  omega

/-- The run is the longest start of bytes of a class. -/
theorem longest_run (p : UInt8 → Bool) (text : Bytes) :
    Longest (one p)∗ text (some (Pattern.run p text)) where
  mem n hn := by
    obtain rfl : Pattern.run p text = n := Option.some.inj hn
    refine ⟨run_le p text, mem_many.mpr ?_⟩
    rw [take_run]
    exact fun b hb => List.mem_takeWhile_imp hb
  bound w hw hpre := ⟨_, rfl, length_le_run (mem_many.mp hw) hpre⟩

/-- Behind its first byte, a word goes on in another language. -/
theorem Longest.cons {b : UInt8} {found : Option Nat} (hnil : [] ∉ A)
    (hcons : ∀ v, b :: v ∈ A ↔ v ∈ B) (h : Longest B text found) :
    Longest A (b :: text) (found.map (1 + ·)) where
  mem n hn := by
    obtain ⟨k, hk, rfl⟩ := Option.mem_map.mp hn
    obtain ⟨hle, hmem⟩ := h.mem k hk
    rw [Nat.add_comm, List.length_cons, List.take_succ_cons]
    exact ⟨Nat.succ_le_succ hle, (hcons _).mpr hmem⟩
  bound w hw hpre := by
    cases w with
    | nil => exact absurd hw hnil
    | cons c v =>
      obtain ⟨rfl, hv⟩ := List.cons_prefix_cons.mp hpre
      obtain ⟨k, hk, hle⟩ := h.bound v ((hcons v).mp hw) hv
      refine ⟨1 + k, Option.mem_map_of_mem _ hk, ?_⟩
      rw [List.length_cons]
      omega

/-- A byte of the class is followed by the longest start of the rest. -/
theorem longest_one_mul {b : UInt8} (hb : p b = true) {found : Option Nat}
    (h : Longest L text found) : Longest (one p * L) (b :: text) (found.map (1 + ·)) := by
  refine h.cons nil_notMem_one_mul fun v => ?_
  rw [mem_one_mul]
  simp [hb]

/-- Without a byte of the class in front there is no start. -/
theorem longest_one_mul_none (h : ∀ b ∈ text.head?, p b = false) :
    Longest (one p * L) text none := by
  apply longest_none
  intro w hw hpre
  obtain ⟨b, v, rfl, hb, -⟩ := mem_one_mul.mp hw
  obtain ⟨rest, rfl⟩ := hpre
  exact absurd hb (by simp [h b (by simp)])

/-- A function that finds the longest start by its first byte. -/
theorem longest_by_first {f : Bytes → Option Nat} (hnil : f [] = none)
    (hneg : ∀ b rest, p b = false → f (b :: rest) = none)
    (hpos : ∀ b rest, p b = true →
      ∃ found, f (b :: rest) = found.map (1 + ·) ∧ Longest L rest found) (text : Bytes) :
    Longest (one p * L) text (f text) := by
  cases text with
  | nil =>
    rw [hnil]
    exact longest_one_mul_none (by simp)
  | cons b rest =>
    cases hb : p b with
    | false =>
      rw [hneg b rest hb]
      exact longest_one_mul_none (by simpa using hb)
    | true =>
      obtain ⟨found, hfound, h⟩ := hpos b rest hb
      rw [hfound]
      exact longest_one_mul hb h

/-- The empty text is the longest start of no bytes. -/
theorem longest_empty (text : Bytes) : Longest 1 text (some 0) where
  mem n hn := by
    obtain rfl : 0 = n := Option.some.inj hn
    exact ⟨Nat.zero_le _, rfl⟩
  bound w hw _ := by
    rw [(Language.mem_one w).mp hw]
    exact ⟨0, rfl, Nat.le_refl 0⟩

/-- A byte of the class is the longest start of one byte. -/
theorem longest_one {b : UInt8} (hb : p b = true) (text : Bytes) :
    Longest (one p) (b :: text) (some 1) := by
  rw [← mul_one (one p)]
  exact longest_one_mul hb (longest_empty text)

theorem longest_one_none (h : ∀ b ∈ text.head?, p b = false) : Longest (one p) text none := by
  rw [← mul_one (one p)]
  exact longest_one_mul_none h

/-- Without a start in the first language there is none in the two put together. -/
theorem longest_mul_none (h : Longest A text none) : Longest (A * B) text none := by
  apply longest_none
  intro w hw hpre
  obtain ⟨a, ha, b, -, rfl⟩ := Language.mem_mul.mp hw
  exact h.of_none ha ((List.prefix_append a b).trans hpre)

/-- The longest start of two parts, if the first one ends where the second one begins. -/
theorem Longest.mul {n : Nat} (hA : Longest A text (some n)) {found : Option Nat}
    (hB : Longest B (text.drop n) found) (hext : ExtendsBy p A) (hstart : StartsOutside p B) :
    Longest (A * B) text (found.map (n + ·)) where
  mem m hm := by
    obtain ⟨k, hk, rfl⟩ := Option.mem_map.mp hm
    obtain ⟨hle, hmem⟩ := hA.mem n rfl
    obtain ⟨hle', hmem'⟩ := hB.mem k hk
    rw [List.length_drop] at hle'
    refine ⟨by omega, ?_⟩
    rw [List.take_add]
    exact Language.append_mem_mul hmem hmem'
  bound w hw hpre := by
    obtain ⟨a, ha, b, hb, rfl⟩ := Language.mem_mul.mp hw
    have hpre_a : a <+: text := (List.prefix_append a b).trans hpre
    obtain ⟨m, hm, hle⟩ := hA.bound a ha hpre_a
    obtain rfl : n = m := Option.some.inj hm
    obtain ⟨hn, hmem⟩ := hA.mem n rfl
    -- The first part is as long as it can be, or nothing follows it.
    have hcut : b <+: text.drop n := by
      obtain ⟨rest, rfl⟩ := hpre
      cases b with
      | nil => exact List.nil_prefix
      | cons c b =>
        have hlen : a.length = n := by
          by_contra hne
          have hlt : 0 < n - a.length := by omega
          obtain ⟨j, hj⟩ : ∃ j, n - a.length = j + 1 := ⟨n - a.length - 1, by omega⟩
          rw [List.append_assoc, List.take_append, List.take_of_length_le hle, hj,
            List.cons_append, List.take_succ_cons] at hmem
          exact absurd (hext a ha c _ hmem) (by simp [hstart c b hb])
        rw [← hlen, List.append_assoc, List.drop_left]
        exact List.prefix_append _ _
    obtain ⟨k, hk, hle'⟩ := hB.bound b hb hcut
    refine ⟨n + k, Option.mem_map_of_mem _ hk, ?_⟩
    rw [List.length_append]
    omega

/-- What is optional has a start of no bytes at least. -/
theorem Longest.optional {found : Option Nat} (h : Longest L text found) :
    Longest (1 + L) text (some (found.getD 0)) where
  mem n hn := by
    obtain rfl : found.getD 0 = n := Option.some.inj hn
    cases found with
    | none => exact ⟨Nat.zero_le _, Or.inl rfl⟩
    | some k => exact (h.mem k rfl).imp_right Or.inr
  bound w hw hpre := by
    refine ⟨_, rfl, ?_⟩
    rcases hw with hw | hw
    · rw [(Language.mem_one w).mp hw]
      exact Nat.zero_le _
    · obtain ⟨n, hn, hle⟩ := h.bound w hw hpre
      obtain rfl : found = some n := hn
      exact hle

end

end StackLang
