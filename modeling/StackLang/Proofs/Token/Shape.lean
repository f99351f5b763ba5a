import StackLang.Proofs.Token.Language

namespace StackLang

/-!
# The shapes of lexemes as languages

Each shape is a regular language, apart from how it is matched.

* `Pattern.language` — the texts that have a shape;
* `Pattern.longest_length?` — `Pattern.length?` finds the longest start that has a shape;
* `Pattern.nil_notMem` — no shape is that of the empty text, but for the fixed text that is
  empty;
* `Pattern.exists_stringRest` — a string that is not closed can be.
-/

open Bytes (ascii isDigit isSpace)
open scoped Computability

namespace Pattern

/-- The bytes of a sign. -/
def isSign (b : UInt8) : Bool := b == ascii '+' || b == ascii '-'

/-- The bytes that stand in front of a power of ten. -/
def isPowerMark (b : UInt8) : Bool := b == ascii 'e' || b == ascii 'E'

/-- Some digits. -/
def digits : Language UInt8 := one isDigit * (one isDigit)∗

/-- Digits with an optional sign. -/
def signedDigits : Language UInt8 := (1 + one isSign) * digits

/-- A point and digits. -/
def fraction : Language UInt8 := one (· == ascii '.') * digits

/-- A power of ten. -/
def power : Language UInt8 := one isPowerMark * signedDigits

/-- What stands between the quotes of a string: a byte for itself, or a backslash and any byte. -/
def stringItem : Language UInt8 :=
  one (fun b => b != ascii '"' && b != ascii '\\') + one (· == ascii '\\') * one (fun _ => true)

/-- The texts that have a shape. -/
def language : Pattern → Language UInt8
  | exact t => {t}
  | comment => one (· == ascii '/') * (one (· == ascii '/') * (one (· != ascii '\n'))∗)
  | string => one (· == ascii '"') * (stringItem∗ * one (· == ascii '"'))
  | rawString => one (· == ascii '\'') * ((one (· != ascii '\''))∗ * one (· == ascii '\''))
  | identifier => one isIdentStart * (one isIdentPart)∗
  | decimal => signedDigits * fraction * (1 + power)
  | scientific => signedDigits * power
  | integer => signedDigits
  | space => one isSpace * (one isSpace)∗

/-! ### Numerals -/

/-- A run of at least one byte is the longest start of at least one byte of the class. -/
theorem longest_some (p : UInt8 → Bool) (text : Bytes) :
    Longest (one p * (one p)∗) text (positive? (run p text)) := by
  refine longest_by_first (f := fun text => positive? (run p text)) rfl
    (fun b rest hb => ?_) (fun b rest hb => ?_) text
  · simp [positive?, run, hb]
  · refine ⟨some (run p rest), ?_, longest_run p rest⟩
    simp [positive?, run, hb, Nat.add_comm]

/-- The length of a sign is that of the longest optional sign. -/
theorem longest_sign (text : Bytes) : Longest (1 + one isSign) text (some (sign text)) := by
  cases text with
  | nil => exact (longest_one_none (by simp)).optional
  | cons b text =>
    by_cases hb : isSign b = true
    · have hsign : sign (b :: text) = 1 := if_pos hb
      rw [hsign]
      exact (longest_one hb text).optional
    · have hsign : sign (b :: text) = 0 := if_neg hb
      rw [hsign]
      exact (longest_one_none (by simpa using hb)).optional

/-- Digits do not begin with a sign. -/
theorem startsOutside_digits : StartsOutside isSign digits := by
  apply startsOutside_one_mul
  intro b hb
  simp only [isDigit, Bool.and_eq_true, decide_eq_true_eq, UInt8.le_iff_toNat_le] at hb
  simp only [isSign, Bool.or_eq_false_iff, beq_eq_false_iff_ne]
  constructor <;> rintro rfl <;> exact absurd hb (by decide)

/-- The length found is that of the longest signed digits. -/
theorem longest_signedDigits (text : Bytes) :
    Longest signedDigits text (signedDigits? text) :=
  (longest_sign text).mul (longest_some isDigit _) extendsBy_optional_one startsOutside_digits

/-- Signed digits are continued by digits. -/
theorem extendsBy_signedDigits : ExtendsBy isDigit signedDigits :=
  extendsBy_optional_one.mul extendsBy_some nil_notMem_one_mul startsOutside_digits

/-- The length found is that of the longest fraction. -/
theorem longest_fraction (text : Bytes) : Longest fraction text (fraction? text) :=
  longest_by_first rfl (fun _ _ hb => if_neg (by simp [hb]))
    (fun _ rest hb => ⟨_, if_pos hb, longest_some isDigit rest⟩) text

theorem longest_power (text : Bytes) : Longest power text (power? text) :=
  longest_by_first rfl (fun _ _ hb => if_neg (by simpa [isPowerMark] using hb))
    (fun _ rest hb => ⟨_, if_pos hb, longest_signedDigits rest⟩) text

/-- A fraction does not begin with a digit. -/
theorem startsOutside_fraction : StartsOutside isDigit fraction := by
  apply startsOutside_one_mul
  intro b hb
  rw [beq_iff_eq.mp hb]
  decide

theorem startsOutside_power : StartsOutside isDigit power := by
  apply startsOutside_one_mul
  intro b hb
  simp only [isPowerMark, Bool.or_eq_true, beq_iff_eq] at hb
  rcases hb with rfl | rfl <;> decide

/-- The length found is that of the longest decimal. -/
theorem longest_decimal (text : Bytes) : Longest decimal.language text (decimal.length? text) := by
  show Longest (signedDigits * fraction * (1 + power)) text _
  have hwhole := longest_signedDigits text
  simp only [length?]
  cases hn : signedDigits? text with
  | none =>
    rw [hn] at hwhole
    exact longest_mul_none (longest_mul_none hwhole)
  | some n =>
    rw [hn] at hwhole
    have hpoint := hwhole.mul (longest_fraction (text.drop n)) extendsBy_signedDigits
      startsOutside_fraction
    simp only [Option.bind_eq_bind, Option.bind_some]
    cases hk : fraction? (text.drop n) with
    | none =>
      rw [hk] at hpoint
      exact longest_mul_none hpoint
    | some k =>
      rw [hk] at hpoint
      -- What may follow is a digit only, in the whole part and in the fraction, and a power of ten
      -- begins with none.
      have hfraction : ExtendsBy isDigit fraction :=
        extendsBy_one.mul extendsBy_some nil_notMem_one_mul (fun _ _ _ => rfl)
      have hext : ExtendsBy isDigit (signedDigits * fraction) :=
        extendsBy_signedDigits.mul hfraction nil_notMem_one_mul startsOutside_fraction
      exact Longest.mul hpoint (longest_power (text.drop (n + k))).optional hext
        startsOutside_power.optional

/-- The length found is that of the longest numeral with a power of ten. -/
theorem longest_scientific (text : Bytes) :
    Longest scientific.language text (scientific.length? text) := by
  show Longest (signedDigits * power) text _
  have hwhole := longest_signedDigits text
  simp only [length?]
  cases hn : signedDigits? text with
  | none =>
    rw [hn] at hwhole
    exact longest_mul_none hwhole
  | some n =>
    rw [hn] at hwhole
    have h := hwhole.mul (longest_power (text.drop n)) extendsBy_signedDigits startsOutside_power
    cases hk : power? (text.drop n) with
    | none =>
      rw [hk] at h
      simpa [hk] using h
    | some k =>
      rw [hk] at h
      simpa [hk] using h

/-! ### Strings and comments -/

/-- What follows the opening quote of a string. -/
def stringRest : Language UInt8 := stringItem∗ * one (· == ascii '"')

/-- Behind the opening quote a string closes, or goes on behind a byte or behind an escaped one. -/
theorem stringRest_eq : stringRest = one (· == ascii '"')
    + (one (fun b => b != ascii '"' && b != ascii '\\') * stringRest
      + one (· == ascii '\\') * (one (fun _ => true) * stringRest)) := by
  calc stringRest
      = (1 + stringItem * stringItem∗) * one (· == ascii '"') := by
        rw [Language.one_add_self_mul_kstar_eq_kstar, stringRest]
    _ = one (· == ascii '"') + stringItem * stringRest := by
        rw [add_mul, one_mul, mul_assoc, stringRest]
    _ = _ := by rw [stringItem, add_mul, mul_assoc]

/-- Behind the opening quote a string needs its closing quote. -/
theorem nil_notMem_stringRest : [] ∉ stringRest := by
  rw [stringRest_eq]
  rintro (⟨b, -, h⟩ | h | h)
  · simp at h
  · exact nil_notMem_one_mul h
  · exact nil_notMem_one_mul h

/-- A quote closes the string, a backslash takes any byte with it. -/
theorem cons_mem_stringRest {b : UInt8} {v : Bytes} : b :: v ∈ stringRest ↔
    v ∈ if b == ascii '"' then 1 else if b == ascii '\\' then one (fun _ => true) * stringRest
      else stringRest := by
  have hone : b :: v ∈ one (· == ascii '"') ↔ b = ascii '"' ∧ v = [] := by
    constructor
    · rintro ⟨c, hc, h⟩
      obtain ⟨rfl, rfl⟩ := List.cons.inj h
      exact ⟨beq_iff_eq.mp hc, rfl⟩
    · rintro ⟨rfl, rfl⟩
      exact ⟨_, beq_self_eq_true _, rfl⟩
  conv_lhs => rw [stringRest_eq]
  rw [Language.mem_add, Language.mem_add, mem_one_mul, mem_one_mul, hone]
  by_cases hquote : b = ascii '"'
  · have hback : ascii '"' ≠ ascii '\\' := by decide
    simp [hquote, hback]
  · by_cases hback : b = ascii '\\'
    · have hquote : ascii '\\' ≠ ascii '"' := by decide
      simp [hback, hquote]
    · simp [hquote, hback]

/-- The closing quote is found behind the items, and nowhere else. -/
theorem longest_closing (n : Nat) (text : Bytes) :
    ∃ found, closing? n text = found.map (n + ·) ∧ Longest stringRest text found := by
  -- The cases are those of the function: no more text, the closing quote, a backslash with nothing
  -- behind it, a backslash with a byte, and any other byte.
  fun_induction closing? n text with
  | case1 n =>
    refine ⟨none, rfl, longest_none fun w hw hpre => ?_⟩
    rw [List.prefix_nil.mp hpre] at hw
    exact nil_notMem_stringRest hw
  | case2 n b rest hb =>
    refine ⟨some 1, rfl, (longest_empty rest).cons nil_notMem_stringRest fun v => ?_⟩
    rw [cons_mem_stringRest, if_pos hb]
  | case3 n b hb hescape =>
    have hrest : Longest (one (fun _ => true) * stringRest) [] none :=
      longest_one_mul_none (by simp)
    refine ⟨none, rfl, hrest.cons nil_notMem_stringRest fun v => ?_⟩
    rw [cons_mem_stringRest, if_neg hb, if_pos hescape]
  | case4 n b hb hescape c rest ih =>
    obtain ⟨found, hfound, h⟩ := ih
    -- The backslash and the byte behind it are read in one step here, and by two equations of the
    -- language.
    refine ⟨(found.map (1 + ·)).map (1 + ·), ?_, Longest.cons nil_notMem_stringRest (fun v => ?_)
      (longest_one_mul (p := fun _ => true) (b := c) rfl h)⟩
    · rw [hfound, Option.map_map, Option.map_map]
      congr 1
      funext k
      simp only [Function.comp]
      omega
    · rw [cons_mem_stringRest, if_neg hb, if_pos hescape]
  | case5 n b rest hb hescape ih =>
    obtain ⟨found, hfound, h⟩ := ih
    refine ⟨found.map (1 + ·), ?_, h.cons nil_notMem_stringRest fun v => ?_⟩
    · rw [hfound, Option.map_map]
      congr 1
      funext k
      simp only [Function.comp]
      omega
    · rw [cons_mem_stringRest, if_neg hb, if_neg hescape]

/-- The length found is that of the longest string. -/
theorem longest_string (text : Bytes) : Longest string.language text (string.length? text) := by
  refine longest_by_first rfl (fun _ _ hb => if_neg (by simp [hb])) (fun b rest hb => ?_) text
  obtain ⟨found, hclosing, h⟩ := longest_closing 1 rest
  exact ⟨found, (if_pos hb).trans hclosing, h⟩

/-- Behind a run the text goes on with what is left. -/
theorem drop_run (p : UInt8 → Bool) (text : Bytes) :
    text.drop (run p text) = text.dropWhile p := by
  calc text.drop (run p text)
      = (text.takeWhile p ++ text.dropWhile p).drop (text.takeWhile p).length := by
        rw [List.takeWhile_append_dropWhile]
        rfl
    _ = text.dropWhile p := List.drop_left

/-- The quote that closes a raw string stands behind all bytes that are none. -/
theorem longest_rawRest (rest : Bytes) :
    Longest ((one (· != ascii '\''))∗ * one (· == ascii '\'')) rest
      (if run (· != ascii '\'') rest < rest.length then some (run (· != ascii '\'') rest + 1)
        else none) := by
  have hrun := longest_run (· != ascii '\'') rest
  have hstart : StartsOutside (· != ascii '\'') (one (· == ascii '\'')) := by
    rintro b v ⟨c, hc, hword⟩
    obtain ⟨rfl, -⟩ := List.cons.inj hword
    simpa using hc
  have hlen : (rest.dropWhile (· != ascii '\'')).length
      = rest.length - run (· != ascii '\'') rest := by
    rw [← drop_run, List.length_drop]
  have hhead := List.head?_dropWhile_not (· != ascii '\'') rest
  -- The rest goes on behind the run with a quote, or the text is over.
  cases hdrop : rest.dropWhile (· != ascii '\'') with
  | nil =>
    rw [hdrop] at hlen
    rw [if_neg (by simp at hlen; omega)]
    have hnone : Longest (one (· == ascii '\'')) (rest.drop (run (· != ascii '\'') rest)) none := by
      rw [drop_run, hdrop]
      exact longest_one_none (by simp)
    exact hrun.mul hnone extendsBy_many hstart
  | cons c tail =>
    rw [hdrop] at hlen hhead
    rw [if_pos (by simp at hlen; omega)]
    have hquote : Longest (one (· == ascii '\'')) (rest.drop (run (· != ascii '\'') rest))
        (some 1) := by
      rw [drop_run, hdrop]
      exact longest_one (p := (· == ascii '\'')) (by simpa using hhead) tail
    exact hrun.mul hquote extendsBy_many hstart

/-- The length found is that of the longest raw string. -/
theorem longest_rawString (text : Bytes) :
    Longest rawString.language text (rawString.length? text) := by
  refine longest_by_first rfl (fun b rest hb => ?_) (fun b rest hb => ?_) text
  · simp [length?, hb]
  · refine ⟨_, ?_, longest_rawRest rest⟩
    simp only [length?, hb, Bool.true_and, decide_eq_true_eq]
    split
    · rw [Option.map_some, Nat.add_comm 1]
    · rfl

/-- The length of a slash and the rest of its line. -/
def slashLine? (text : Bytes) : Option Nat :=
  if text.head? = some (ascii '/') then some (1 + run (· != ascii '\n') text.tail) else none

/-- The length found is that of the longest comment. -/
theorem longest_comment (text : Bytes) : Longest comment.language text (comment.length? text) := by
  refine longest_by_first rfl (fun b rest hb => ?_) (fun b rest hb => ?_) text
  · cases rest with
    | nil => rfl
    | cons c rest => simp [length?, hb]
  · -- The second slash is found in the same way as the first one.
    have hslash : ∀ {c : UInt8} {rest : Bytes}, (c == ascii '/') = true →
        slashLine? (c :: rest) = (some (run (· != ascii '\n') rest)).map (1 + ·) := by
      intro c rest hc
      exact if_pos (by simpa using hc)
    refine ⟨_, ?_, longest_by_first (f := slashLine?) rfl (fun c rest hc => ?_)
      (fun c rest hc => ⟨_, hslash hc, longest_run _ rest⟩) rest⟩
    · cases rest with
      | nil => rfl
      | cons c rest =>
        simp only [length?, slashLine?, hb, Bool.true_and, List.head?_cons, Option.some.injEq,
          beq_iff_eq, List.tail_cons]
        split
        · rw [Option.map_some, ← Nat.add_assoc]
        · rfl
    · exact if_neg (by simpa using hc)

/-- The length found is that of the longest identifier. -/
theorem longest_identifier (text : Bytes) :
    Longest identifier.language text (identifier.length? text) :=
  longest_by_first rfl (fun _ _ hb => if_neg (by simp [hb]))
    (fun _ rest hb => ⟨_, if_pos hb, longest_run isIdentPart rest⟩) text

/-- **Matching a shape** finds the longest start of a text that has the shape. -/
theorem longest_length? (p : Pattern) (text : Bytes) :
    Longest p.language text (p.length? text) := by
  cases p with
  | exact t => exact longest_exact t text
  | comment => exact longest_comment text
  | string => exact longest_string text
  | rawString => exact longest_rawString text
  | identifier => exact longest_identifier text
  | decimal => exact longest_decimal text
  | scientific => exact longest_scientific text
  | integer => exact longest_signedDigits text
  | space => exact longest_some isSpace text

/-! ### Empty and unfinished texts -/

/-- Texts put together are not empty if the second one is not. -/
theorem nil_notMem_mul {A B : Language UInt8} (h : [] ∉ B) : [] ∉ A * B := by
  intro hmem
  obtain ⟨a, -, b, hb, hab⟩ := Language.mem_mul.mp hmem
  rw [(List.append_eq_nil_iff.mp hab).2] at hb
  exact h hb

/-- Signed digits are not empty. -/
theorem nil_notMem_signedDigits : [] ∉ signedDigits := nil_notMem_mul nil_notMem_one_mul

/-- No shape but the empty fixed text is that of an empty text. -/
theorem nil_notMem {p : Pattern} (hp : p ≠ exact []) : [] ∉ p.language := by
  cases p with
  | exact t =>
    intro h
    exact hp (congrArg exact (show [] = t from h).symm)
  | decimal =>
    intro h
    obtain ⟨a, ha, b, -, hab⟩ := Language.mem_mul.mp h
    rw [(List.append_eq_nil_iff.mp hab).1] at ha
    exact nil_notMem_mul nil_notMem_one_mul ha
  | scientific => exact nil_notMem_mul nil_notMem_one_mul
  | integer => exact nil_notMem_signedDigits
  | _ => exact nil_notMem_one_mul

/-- A string that is not closed can be. -/
theorem exists_stringRest {n : Nat} {text : Bytes} (h : closing? n text = none) :
    ∃ u, text ++ u ∈ stringRest := by
  fun_induction closing? n text with
  | case1 n => exact ⟨[ascii '"'], cons_mem_stringRest.mpr rfl⟩
  | case2 n b rest hb => exact absurd h (by simp)
  | case3 n b hb hescape =>
    refine ⟨[0, ascii '"'], ?_⟩
    rw [List.singleton_append, cons_mem_stringRest, if_neg hb, if_pos hescape]
    exact mem_one_mul.mpr ⟨0, _, rfl, rfl, cons_mem_stringRest.mpr rfl⟩
  | case4 n b hb hescape c rest ih =>
    obtain ⟨u, hu⟩ := ih h
    refine ⟨u, ?_⟩
    rw [List.cons_append, cons_mem_stringRest, if_neg hb, if_pos hescape]
    exact mem_one_mul.mpr ⟨c, _, rfl, rfl, hu⟩
  | case5 n b rest hb hescape ih =>
    obtain ⟨u, hu⟩ := ih h
    refine ⟨u, ?_⟩
    rw [List.cons_append, cons_mem_stringRest, if_neg hb, if_neg hescape]
    exact hu

end Pattern

end StackLang
