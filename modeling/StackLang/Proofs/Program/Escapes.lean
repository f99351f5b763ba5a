import StackLang.Program.Parse
import StackLang.Proofs.Text.Quoted
import StackLang.Proofs.Token.Shape

namespace StackLang

/-!
# Escapes in string literals

The text between double quotes is decoded in two passes: newlines are spelled as escapes, and then
escapes are resolved.  Together they read the text once, from left to right.

* `Quoted.Escape` — what may stand behind a backslash, and what it stands for;
* `Quoted.escape?_eq_some_iff` — this is what is found behind a backslash, in full;
* `Quoted.Reads`, `Quoted.Astray` — reading from left to right, to the end or up to a backslash that
  starts no escape;
* `Quoted.reads_or_astray` — one of the two happens to every text between quotes;
* `Symbol.string_decodes` — a string literal denotes what is read, and is refused where reading goes
  astray.  The first pass adds one escape to the usual ones: a newline behind a backslash.
-/

namespace Quoted

open Bytes (ascii)

/-! ### Numerals -/

/-- A digit of a base up to sixteen, in either case. -/
def Digit (base : Nat) (b : UInt8) (d : Nat) : Prop :=
  d < base ∧ (d < 10 ∧ b.toNat = 48 + d ∨ 10 ≤ d ∧ (b.toNat = 87 + d ∨ b.toNat = 55 + d))

/-- The number that digits write, the most significant one first. -/
inductive Numeral (base : Nat) : Bytes → Nat → Prop
  | nil : Numeral base [] 0
  | snoc {ds : Bytes} {n : Nat} {b : UInt8} {d : Nat} (hds : Numeral base ds n)
    (hb : Digit base b d) : Numeral base (ds ++ [b]) (n * base + d)

/-- A byte is read as a hexadecimal digit if and only if it is one, in either case. -/
theorem hexDigit?_eq_some_iff {b : UInt8} {d : Nat} :
    Bytes.hexDigit? b = some d ↔ Digit 16 b d := by
  unfold Bytes.hexDigit? Bytes.isDigit Digit
  simp only [Bool.and_eq_true, decide_eq_true_eq, UInt8.le_iff_toNat_le, UInt8.reduceToNat]
  split
  · rw [Option.some.injEq]
    omega
  · split
    · rw [Option.some.injEq]
      omega
    · split
      · rw [Option.some.injEq]
        omega
      · simp only [reduceCtorEq, false_iff]
        omega

/-- A byte is read as an octal digit if and only if it is one. -/
theorem octalDigit?_eq_some_iff {b : UInt8} {d : Nat} :
    Bytes.octalDigit? b = some d ↔ Digit 8 b d := by
  unfold Bytes.octalDigit? Digit
  simp only [Bool.and_eq_true, decide_eq_true_eq, UInt8.le_iff_toNat_le, UInt8.reduceToNat]
  split
  · rw [Option.some.injEq]
    omega
  · simp only [reduceCtorEq, false_iff]
    omega

/-- A number is read digit by digit, given that digits are read as the digits of the base. -/
theorem number?_eq_some_iff {base : Nat} {digit? : UInt8 → Option Nat}
    (hdigit : ∀ {b d}, digit? b = some d ↔ Digit base b d) {ds : Bytes} {n : Nat} :
    Bytes.number? base digit? ds = some n ↔ Numeral base ds n := by
  -- The last digit is the last one to be read, as in the grammar.
  have hsnoc : ∀ ds b, Bytes.number? base digit? (ds ++ [b])
      = (Bytes.number? base digit? ds).bind fun m => (digit? b).map (m * base + ·) := by
    intro ds b
    unfold Bytes.number?
    rw [List.foldlM_append]
    show Option.bind _ _ = _
    simp
  constructor
  · intro h
    induction ds using List.reverseRecOn generalizing n with
    | nil =>
      obtain rfl := Option.some.inj h
      exact .nil
    | append_singleton ds b ih =>
      rw [hsnoc, Option.bind_eq_some_iff] at h
      obtain ⟨m, hm, h⟩ := h
      obtain ⟨d, hd, rfl⟩ := Option.map_eq_some_iff.mp h
      exact .snoc (ih hm) (hdigit.mp hd)
  · intro h
    induction h with
    | nil => rfl
    | snoc hds hb ih => rw [hsnoc, ih, Option.bind_some, hdigit.mpr hb, Option.map_some]

/-- Digits are read as a hexadecimal number if and only if they write it. -/
theorem hexNumber?_eq_some_iff {ds : Bytes} {n : Nat} :
    hexNumber? ds = some n ↔ Numeral 16 ds n :=
  number?_eq_some_iff hexDigit?_eq_some_iff

/-- Digits are read as an octal byte if and only if they write a number below 256. -/
theorem octalByte?_eq_some_iff {ds : Bytes} {b : UInt8} :
    octalByte? ds = some b ↔ ∃ n, Numeral 8 ds n ∧ n < 256 ∧ b = n.toUInt8 := by
  simp only [← number?_eq_some_iff octalDigit?_eq_some_iff]
  unfold octalByte?
  cases Bytes.number? 8 Bytes.octalDigit? ds with
  | none => simp
  | some n =>
    by_cases hn : n ≤ 255
    · simp [hn, Nat.lt_succ_of_le hn, eq_comm]
    · simp [hn, show ¬ n < 256 by omega]

/-- Digits are read as a code point if and only if they write that of a character, which is
    encoded. -/
theorem codePoint?_eq_some_iff {ds u : Bytes} :
    codePoint? ds = some u ↔ ∃ c : Char, Numeral 16 ds c.toNat ∧ u = Utf8.encode c := by
  simp only [← hexNumber?_eq_some_iff]
  unfold codePoint?
  cases hexNumber? ds with
  | none => simp
  | some n =>
    simp only [Option.some.injEq]
    split
    · rename_i hn
      constructor
      · rintro h
        exact ⟨Char.ofNat n, (Utf8.toNat_ofNat hn).symm, (Option.some.inj h).symm⟩
      · rintro ⟨c, rfl, rfl⟩
        rw [Char.ofNat_toNat]
    · rename_i hn
      simp only [reduceCtorEq, false_iff]
      rintro ⟨c, rfl, -⟩
      exact hn c.valid

/-! ### Escapes -/

/-- The letters of escapes, and the bytes that they stand for. -/
def letters : List (Char × UInt8) :=
  [('a', 7), ('b', 8), ('f', 12), ('n', 10), ('r', 13), ('t', 9), ('v', 11), ('\\', 92), ('"', 34)]

/-- What is written behind a backslash, and what it stands for. -/
inductive Escape : Bytes → Bytes → Prop
  | letter {l : Char} {b : UInt8} (h : (l, b) ∈ letters) : Escape [ascii l] [b]
  | byte {ds : Bytes} {n : Nat} (hlen : ds.length = 2) (h : Numeral 16 ds n) :
    Escape (ascii 'x' :: ds) [n.toUInt8]
  | octal {ds : Bytes} {n : Nat} (hlen : ds.length = 3) (h : Numeral 8 ds n) (hn : n < 256) :
    Escape ds [n.toUInt8]
  | short {ds : Bytes} {c : Char} (hlen : ds.length = 4) (h : Numeral 16 ds c.toNat) :
    Escape (ascii 'u' :: ds) (Utf8.encode c)
  | long {ds : Bytes} {c : Char} (hlen : ds.length = 8) (h : Numeral 16 ds c.toNat) :
    Escape (ascii 'U' :: ds) (Utf8.encode c)

/-- A letter is read as a byte if and only if the table of escapes has both. -/
theorem unletter?_eq_some_iff {l b : UInt8} :
    unletter? l = some b ↔ ∃ c : Char, l = ascii c ∧ (c, b) ∈ letters := by
  constructor
  · intro h
    unfold unletter? at h
    repeat' split at h
    case isFalse => cases h
    all_goals
      rename_i hl
      obtain rfl := eq_of_beq hl
      obtain rfl := Option.some.inj h
      exact ⟨_, rfl, by decide⟩
  · rintro ⟨c, rfl, h⟩
    have hall : ∀ p ∈ letters, unletter? (ascii p.1) = some p.2 := by decide
    exact hall (c, b) h

/-- A byte of an escape behind its first one is a digit. -/
theorem Digit.plain {base d : Nat} {b : UInt8} (h : Digit base b d) (hbase : base ≤ 16) :
    Plain b := by
  have hd : d < 16 := Nat.lt_of_lt_of_le h.1 hbase
  have hb : b.toNat = 48 + d ∧ d < 10 ∨ b.toNat = 87 + d ∧ 10 ≤ d ∨ b.toNat = 55 + d ∧ 10 ≤ d := by
    have hform := h.2
    omega
  have hne : ∀ c : UInt8, c.toNat < 48 ∨ 57 < c.toNat ∧ c.toNat < 65 ∨ 71 ≤ c.toNat ∧ c.toNat < 97 →
      b ≠ c := by
    rintro c hc rfl
    omega
  exact ⟨by omega, hne 10 (by decide), hne mark (by decide), hne backslash (by decide)⟩

/-- A numeral consists of digits. -/
theorem Numeral.exists_digit {base n : Nat} {ds : Bytes} (h : Numeral base ds n) {b : UInt8}
    (hb : b ∈ ds) : ∃ d, Digit base b d := by
  induction h with
  | nil => cases hb
  | snoc hds hdigit ih =>
    rcases List.mem_append.mp hb with hb | hb
    · exact ih hb
    · obtain rfl := List.mem_singleton.mp hb
      exact ⟨_, hdigit⟩

/-- The digits of a numeral are plain bytes, neither quotes nor backslashes nor newlines. -/
theorem Numeral.plain {base n : Nat} {ds : Bytes} (h : Numeral base ds n) (hbase : base ≤ 16)
    {b : UInt8} (hb : b ∈ ds) : Plain b := by
  obtain ⟨d, hd⟩ := h.exists_digit hb
  exact hd.plain hbase

/-- An escape is one byte in ASCII, but no newline, and then digits. -/
theorem Escape.exists_cons {e u : Bytes} (h : Escape e u) :
    ∃ b tail, e = b :: tail ∧ (b.toNat < 0x80 ∧ b ≠ 10) ∧ ∀ c ∈ tail, Plain c := by
  cases h with
  | @letter l b h =>
    have hall : ∀ p ∈ letters, (ascii p.1).toNat < 0x80 ∧ ascii p.1 ≠ 10 := by decide
    exact ⟨_, [], rfl, hall (l, b) h, by simp⟩
  | byte _ h => exact ⟨_, _, rfl, by decide, fun c => h.plain (by decide)⟩
  | octal hlen h _ =>
    obtain ⟨b, tail, rfl⟩ := List.exists_cons_of_length_eq_add_one hlen
    have hplain := h.plain (by decide) (b := b) List.mem_cons_self
    exact ⟨b, tail, rfl, ⟨hplain.1, hplain.2.1⟩,
      fun c hc => h.plain (by decide) (List.mem_cons_of_mem b hc)⟩
  | short _ h => exact ⟨_, _, rfl, by decide, fun c => h.plain (by decide)⟩
  | long _ h => exact ⟨_, _, rfl, by decide, fun c => h.plain (by decide)⟩

/-- A digit of an octal numeral is no letter of an escape. -/
theorem unletter?_of_octal {b : UInt8} {d : Nat} (h : Digit 8 b d) :
    unletter? b = none ∧ b ≠ ascii 'x' ∧ b ≠ ascii 'u' ∧ b ≠ ascii 'U' := by
  have hb : b.toNat = 48 + d ∧ d < 8 := by
    obtain ⟨hd, hform⟩ := h
    omega
  have hall : ∀ d : Fin 8, unletter? (48 + d.val).toUInt8 = none := by decide
  have hne : ∀ c : UInt8, 56 ≤ c.toNat → b ≠ c := by
    rintro c hc rfl
    omega
  refine ⟨?_, hne _ (by decide), hne _ (by decide), hne _ (by decide)⟩
  rw [← Utf8.toUInt8_toNat b, hb.1]
  exact hall ⟨d, hb.2⟩

/-- A code point that is read takes as many bytes as are given for it. -/
theorem codePoint?_map_eq_some {ds u : Bytes} {n k : Nat}
    (h : (codePoint? ds).map (·, n) = some (u, k)) :
    n = k ∧ ∃ c : Char, Numeral 16 ds c.toNat ∧ u = Utf8.encode c := by
  obtain ⟨v, hv, hr⟩ := Option.map_eq_some_iff.mp h
  obtain ⟨rfl, rfl⟩ := Prod.mk.inj hr
  exact ⟨rfl, codePoint?_eq_some_iff.mp hv⟩

/-- Nothing but escapes is found behind a backslash. -/
theorem exists_escape {text u : Bytes} {k : Nat} :
    escape? text = some (u, k) → ∃ e rest, text = e ++ rest ∧ e.length = k ∧ Escape e u := by
  -- One case for each form of escapes; in the others the text is too short.
  fun_cases escape? text with
  | case2 l rest v hletter =>
    intro h
    obtain ⟨c, rfl, hc⟩ := unletter?_eq_some_iff.mp hletter
    obtain ⟨rfl, rfl⟩ := Prod.mk.inj (Option.some.inj h)
    exact ⟨[ascii c], rest, rfl, rfl, .letter hc⟩
  | case3 l _ hx h₁ h₂ rest =>
    intro h
    obtain rfl := eq_of_beq hx
    obtain ⟨n, hn, hr⟩ := Option.map_eq_some_iff.mp h
    obtain ⟨rfl, rfl⟩ := Prod.mk.inj hr
    exact ⟨[_, h₁, h₂], rest, rfl, rfl, .byte rfl (hexNumber?_eq_some_iff.mp hn)⟩
  | case5 l _ _ hu h₁ h₂ h₃ h₄ rest =>
    intro h
    obtain rfl := eq_of_beq hu
    obtain ⟨rfl, c, hc, rfl⟩ := codePoint?_map_eq_some h
    exact ⟨[_, h₁, h₂, h₃, h₄], rest, rfl, rfl, .short rfl hc⟩
  | case7 l _ _ _ hu h₁ h₂ h₃ h₄ h₅ h₆ h₇ h₈ rest =>
    intro h
    obtain rfl := eq_of_beq hu
    obtain ⟨rfl, c, hc, rfl⟩ := codePoint?_map_eq_some h
    exact ⟨[_, h₁, h₂, h₃, h₄, h₅, h₆, h₇, h₈], rest, rfl, rfl, .long rfl hc⟩
  | case9 l _ _ _ _ o₂ o₃ rest =>
    intro h
    obtain ⟨v, hv, hr⟩ := Option.map_eq_some_iff.mp h
    obtain ⟨rfl, rfl⟩ := Prod.mk.inj hr
    obtain ⟨n, hn, hlt, rfl⟩ := octalByte?_eq_some_iff.mp hv
    exact ⟨[l, o₂, o₃], rest, rfl, rfl, .octal rfl hn hlt⟩
  | _ => exact nofun

theorem exists_four {ds : Bytes} (h : ds.length = 4) : ∃ a b c d, ds = [a, b, c, d] := by
  obtain ⟨a, rest, rfl⟩ := List.exists_cons_of_length_eq_add_one h
  obtain ⟨b, c, d, rfl⟩ := List.length_eq_three.mp (Nat.succ.inj h)
  exact ⟨a, b, c, d, rfl⟩

/-- Escapes are found behind a backslash, in full. -/
theorem Escape.escape?_eq {e u : Bytes} (h : Escape e u) (rest : Bytes) :
    escape? (e ++ rest) = some (u, e.length) := by
  cases h with
  | @letter l b h =>
    have hletter := unletter?_eq_some_iff.mpr ⟨l, rfl, h⟩
    simp only [List.singleton_append, escape?, hletter]
    rfl
  | @byte ds n hlen h =>
    obtain ⟨h₁, h₂, rfl⟩ := List.length_eq_two.mp hlen
    show (hexNumber? [h₁, h₂]).map (fun n => ([n.toUInt8], 3)) = _
    rw [hexNumber?_eq_some_iff.mpr h]
    rfl
  | @octal _ n hlen h hn =>
    obtain ⟨o₁, o₂, o₃, rfl⟩ := List.length_eq_three.mp hlen
    obtain ⟨d, hd⟩ := h.exists_digit List.mem_cons_self
    -- The letters of other escapes are no digits, so that three digits are left.
    obtain ⟨hletter, hx, hu, hU⟩ := unletter?_of_octal hd
    have hbyte := octalByte?_eq_some_iff.mpr ⟨n, h, hn, rfl⟩
    simp only [List.cons_append, List.nil_append, escape?, hletter, beq_eq_false_iff_ne.mpr hx,
      beq_eq_false_iff_ne.mpr hu, beq_eq_false_iff_ne.mpr hU, hbyte]
    rfl
  | @short ds c hlen h =>
    obtain ⟨h₁, h₂, h₃, h₄, rfl⟩ := exists_four hlen
    show (codePoint? [h₁, h₂, h₃, h₄]).map (·, 5) = _
    rw [codePoint?_eq_some_iff.mpr ⟨c, h, rfl⟩]
    rfl
  | @long ds c hlen h =>
    -- Eight digits are read as twice four.
    obtain ⟨h₁, h₂, h₃, h₄, hfirst⟩ := exists_four (show (ds.take 4).length = 4 by simp [hlen])
    obtain ⟨h₅, h₆, h₇, h₈, hlast⟩ := exists_four (show (ds.drop 4).length = 4 by simp [hlen])
    obtain rfl : ds = [h₁, h₂, h₃, h₄, h₅, h₆, h₇, h₈] := by
      rw [← List.take_append_drop 4 ds, hfirst, hlast]
      rfl
    show (codePoint? [h₁, h₂, h₃, h₄, h₅, h₆, h₇, h₈]).map (·, 9) = _
    rw [codePoint?_eq_some_iff.mpr ⟨c, h, rfl⟩]
    rfl

/-- **What is found** behind a backslash is an escape, and every escape is. -/
theorem escape?_eq_some_iff {text u : Bytes} {k : Nat} :
    escape? text = some (u, k) ↔ ∃ e rest, text = e ++ rest ∧ e.length = k ∧ Escape e u := by
  refine ⟨exists_escape, ?_⟩
  rintro ⟨e, rest, rfl, rfl, h⟩
  exact h.escape?_eq rest

/-! ### Texts between quotes -/

/-- What the text between two quotes stands for, read from left to right with some escapes:
    characters stand for themselves, and every backslash starts an escape. -/
inductive Reads (escape : Bytes → Bytes → Prop) : Bytes → Bytes → Prop
  | nil : Reads escape [] []
  | char {c : Char} {rest v : Bytes} (hmark : c ≠ '"') (hslash : c ≠ '\\')
    (h : Reads escape rest v) : Reads escape (Utf8.encode c ++ rest) (Utf8.encode c ++ v)
  | escape {e u rest v : Bytes} (he : escape e u) (h : Reads escape rest v) :
    Reads escape (backslash :: (e ++ rest)) (u ++ v)

/-- Reading from left to right comes to a backslash that starts no escape. -/
def Astray (escape : Bytes → Bytes → Prop) (text : Bytes) : Prop :=
  ∃ before u rest, text = before ++ backslash :: rest ∧ Reads escape before u ∧
    ∀ e w tail, rest = e ++ tail → ¬ escape e w

/-- The escapes, and a newline behind a backslash, which is spelled first and then stands for a
    backslash and a letter. -/
inductive Spelled : Bytes → Bytes → Prop
  | escape {e u : Bytes} (h : Escape e u) : Spelled e u
  | newline : Spelled [ascii '\n'] [backslash, ascii 'n']

/-- A byte below 128 in the encoding of a character is this character. -/
theorem eq_of_mem_encode {a c : Char} (ha : a.toNat < 0x80) (h : ascii a ∈ Utf8.encode c) :
    c = a := by
  by_cases hc : c.toNat < 0x80
  · rw [encode_of_lt hc, List.mem_singleton] at h
    have hnat := congrArg UInt8.toNat h
    unfold ascii at hnat
    rw [Utf8.toNat_toUInt8 (by omega), Utf8.toNat_toUInt8 (by omega)] at hnat
    exact Char.toNat_inj.mp hnat.symm
  · have hhigh := le_of_mem_encode hc h
    unfold ascii at hhigh
    rw [Utf8.toNat_toUInt8 (by omega)] at hhigh
    omega

/-- The bytes of a character other than a quote and a backslash are neither. -/
theorem ne_of_mem_encode {c : Char} (hmark : c ≠ '"') (hslash : c ≠ '\\') {b : UInt8}
    (hb : b ∈ Utf8.encode c) : b ≠ mark ∧ b ≠ backslash := by
  constructor
  · rintro rfl
    exact hmark (eq_of_mem_encode (by decide) hb)
  · rintro rfl
    exact hslash (eq_of_mem_encode (by decide) hb)

/-- Newlines are spelled in each part of a text by itself. -/
theorem spellNewlines_append (as bs : Bytes) :
    spellNewlines (as ++ bs) = spellNewlines as ++ spellNewlines bs :=
  List.flatMap_append

/-- Any byte but a newline is spelled as itself. -/
theorem spellNewlines_cons {b : UInt8} (h : b ≠ ascii '\n') (bs : Bytes) :
    spellNewlines (b :: bs) = b :: spellNewlines bs := by
  show (if b == ascii '\n' then [backslash, ascii 'n'] else [b]) ++ spellNewlines bs = _
  rw [beq_eq_false_iff_ne.mpr h]
  rfl

/-! ### Reading -/

/-- An escape behind a backslash is replaced by what it stands for. -/
theorem unescapeInto_escape {e u : Bytes} (h : Escape e u) (acc rest : Bytes) :
    unescapeInto acc 0 (backslash :: (e ++ rest)) = unescapeInto (u.reverse ++ acc) 0 rest := by
  rw [← unescapeInto_skip (u.reverse ++ acc) e rest]
  simp [unescapeInto, h.escape?_eq, mark, backslash, ascii]

/-- A character stands for itself, also a newline. -/
theorem unescapeInto_char {c : Char} (hmark : c ≠ '"') (hslash : c ≠ '\\') (acc rest : Bytes) :
    unescapeInto acc 0 (spellNewlines (Utf8.encode c) ++ rest)
      = unescapeInto ((Utf8.encode c).reverse ++ acc) 0 rest := by
  by_cases hc : c = '\n'
  · subst hc
    exact unescapeInto_escape (.letter (l := 'n') (by decide)) acc rest
  · rw [spellNewlines_eq]
    · exact unescapeInto_raw acc rest fun b => ne_of_mem_encode hmark hslash
    · rintro b hb rfl
      exact hc (eq_of_mem_encode (a := '\n') (by decide) hb)

/-- No newline is part of an escape. -/
theorem Escape.spellNewlines_eq {e u : Bytes} (h : Escape e u) : spellNewlines e = e := by
  obtain ⟨b, tail, rfl, hb, htail⟩ := h.exists_cons
  exact Quoted.spellNewlines_eq (List.forall_mem_cons.mpr ⟨hb.2, fun c hc => (htail c hc).2.1⟩)

/-- What is spelled behind a backslash is replaced by what it stands for. -/
theorem unescapeInto_spelled {e u : Bytes} (h : Spelled e u) (acc rest : Bytes) :
    unescapeInto acc 0 (backslash :: (spellNewlines e ++ rest))
      = unescapeInto (u.reverse ++ acc) 0 rest := by
  cases h with
  | escape h => rw [h.spellNewlines_eq, unescapeInto_escape h]
  | newline =>
    -- The spelling starts with a backslash, which the one in front of it escapes.
    have hslash := unescapeInto_escape (.letter (l := '\\') (b := backslash) (by decide)) acc
      (ascii 'n' :: rest)
    have hletter : ∀ b ∈ [ascii 'n'], b ≠ mark ∧ b ≠ backslash :=
      List.forall_mem_singleton.mpr (by decide)
    exact hslash.trans (unescapeInto_raw _ rest hletter)

/-- **What has been read** is put behind the bytes denoted so far. -/
theorem Reads.unescapeInto_append {text v : Bytes} (h : Reads Spelled text v) (acc rest : Bytes) :
    unescapeInto acc 0 (spellNewlines text ++ rest) = unescapeInto (v.reverse ++ acc) 0 rest := by
  induction h generalizing acc with
  | nil => rfl
  | char hmark hslash _ ih =>
    rw [spellNewlines_append, List.append_assoc, unescapeInto_char hmark hslash, ih]
    simp
  | @escape e u text v he _ ih =>
    have hspell : spellNewlines (backslash :: (e ++ text)) ++ rest
        = backslash :: (spellNewlines e ++ (spellNewlines text ++ rest)) := by
      rw [← List.append_assoc, ← spellNewlines_append]
      rfl
    rw [hspell, unescapeInto_spelled he, ih]
    simp

/-- Text without backslashes at the start of a spelling was there before. -/
theorem exists_of_spellNewlines_eq {e text tail : Bytes} (he : ∀ b ∈ e, b ≠ backslash)
    (h : spellNewlines text = e ++ tail) : ∃ rest, text = e ++ rest := by
  induction e generalizing text with
  | nil => exact ⟨text, rfl⟩
  | cons b e ih =>
    obtain ⟨hb, hrest⟩ := List.forall_mem_cons.mp he
    cases text with
    | nil => cases h
    | cons c text =>
      by_cases hc : c = ascii '\n'
      · subst hc
        exact absurd (List.cons.inj h).1.symm hb
      · obtain ⟨rfl, htext⟩ := List.cons.inj ((spellNewlines_cons hc text).symm.trans h)
        obtain ⟨rest, rfl⟩ := ih hrest htext
        exact ⟨rest, rfl⟩

/-- An escape of the spelled text is one of the text itself. -/
theorem exists_spelled {text u : Bytes} {k : Nat} (h : escape? (spellNewlines text) = some (u, k)) :
    ∃ e w tail, text = e ++ tail ∧ Spelled e w := by
  obtain ⟨e, rest, htext, -, he⟩ := escape?_eq_some_iff.mp h
  obtain ⟨b, digits, rfl, hb, hdigits⟩ := he.exists_cons
  cases text with
  | nil => cases htext
  | cons c text =>
    by_cases hc : c = ascii '\n'
    · subst hc
      exact ⟨_, _, text, rfl, .newline⟩
    · obtain ⟨rfl, htail⟩ := List.cons.inj ((spellNewlines_cons hc text).symm.trans htext)
      obtain ⟨tail, rfl⟩ := exists_of_spellNewlines_eq (fun d hd => (hdigits d hd).2.2.2) htail
      exact ⟨_, u, tail, rfl, .escape he⟩

/-- A text that goes astray is refused. -/
theorem Astray.unescapeInto_eq {text : Bytes} (h : Astray Spelled text) (acc : Bytes) :
    unescapeInto acc 0 (spellNewlines text) = none := by
  obtain ⟨before, u, rest, rfl, hbefore, hrest⟩ := h
  have hnone : escape? (spellNewlines rest) = none := by
    by_contra hsome
    obtain ⟨⟨w, k⟩, hsome⟩ := Option.ne_none_iff_exists'.mp hsome
    obtain ⟨e, w, tail, htext, he⟩ := exists_spelled hsome
    exact hrest e w tail htext he
  rw [spellNewlines_append, hbefore.unescapeInto_append]
  show unescapeInto _ 0 (backslash :: spellNewlines rest) = none
  simp [unescapeInto, hnone, mark, backslash, ascii]

/-! ### Well-formed text -/

/-- Valid UTF-8 is the encoding of some characters. -/
theorem exists_chars_of_isValid {bs : Bytes} (h : Utf8.isValid bs = true) :
    ∃ cs : List Char, bs = cs.flatMap Utf8.encode := by
  have hchars : ∀ gs : List Glyph, (∀ g ∈ gs, ∃ c, g = .char c) →
      ∃ cs : List Char, gs.flatMap Glyph.bytes = cs.flatMap Utf8.encode := by
    intro gs hgs
    induction gs with
    | nil => exact ⟨[], rfl⟩
    | cons g gs ih =>
      obtain ⟨⟨c, rfl⟩, hrest⟩ := List.forall_mem_cons.mp hgs
      obtain ⟨cs, hcs⟩ := ih hrest
      exact ⟨c :: cs, by rw [List.flatMap_cons, hcs, List.flatMap_cons]; rfl⟩
  rw [← Utf8.flatMap_bytes_glyphs bs]
  refine hchars _ fun g hg => ?_
  have hg := List.all_eq_true.mp h g hg
  cases g with
  | char c => exact ⟨c, rfl⟩
  | stray b => cases hg

/-- A byte in ASCII is a character of its own. -/
theorem exists_chars_of_append {cs : List Char} (front : Bytes) {back : Bytes} {b : UInt8}
    (hb : b.toNat < 0x80) (h : cs.flatMap Utf8.encode = front ++ b :: back) :
    ∃ ds es : List Char, front = ds.flatMap Utf8.encode ∧ back = es.flatMap Utf8.encode := by
  induction cs generalizing front with
  | nil => simp at h
  | cons c cs ih =>
    rw [List.flatMap_cons] at h
    rcases List.append_eq_append_iff.mp h with ⟨rest, rfl, hrest⟩ | ⟨rest, hc, hback⟩
    · obtain ⟨ds, es, rfl, rfl⟩ := ih _ hrest
      exact ⟨c :: ds, es, rfl, rfl⟩
    · -- The byte is one of the character, so the character is in ASCII.
      cases rest with
      | nil =>
        obtain ⟨ds, es, hds, rfl⟩ := ih [] hback.symm
        exact ⟨[c], es, by simpa using hc.symm, rfl⟩
      | cons d rest =>
        obtain ⟨rfl, rfl⟩ := List.cons.inj hback
        have hlow : c.toNat < 0x80 := by
          by_contra hhigh
          have hle := le_of_mem_encode hhigh (show b ∈ Utf8.encode c by simp [hc])
          omega
        rw [encode_of_lt hlow] at hc
        obtain ⟨rfl, hone⟩ : front = [] ∧ b :: rest = [c.toNat.toUInt8] := by
          simpa [List.append_eq_singleton_iff, eq_comm] using hc.symm
        obtain ⟨-, rfl⟩ := List.cons.inj hone
        exact ⟨[], cs, rfl, rfl⟩

/-- Spelling newlines keeps text well-formed. -/
theorem repair_spellNewlines (cs : List Char) :
    Utf8.repair (spellNewlines (cs.flatMap Utf8.encode))
      = spellNewlines (cs.flatMap Utf8.encode) := by
  have hchars : ∃ ds : List Char,
      spellNewlines (cs.flatMap Utf8.encode) = ds.flatMap Utf8.encode := by
    induction cs with
    | nil => exact ⟨[], rfl⟩
    | cons c cs ih =>
      obtain ⟨ds, hds⟩ := ih
      rw [List.flatMap_cons, spellNewlines_append, hds]
      by_cases hc : c = '\n'
      · subst hc
        exact ⟨'\\' :: 'n' :: ds, rfl⟩
      · refine ⟨c :: ds, ?_⟩
        rw [Quoted.spellNewlines_eq, List.flatMap_cons]
        rintro b hb rfl
        exact hc (eq_of_mem_encode (a := '\n') (by decide) hb)
  obtain ⟨ds, hds⟩ := hchars
  rw [hds, Utf8.repair_flatMap_encode]

/-! ### Every text between quotes is read or goes astray -/

section

variable {escape : Bytes → Bytes → Prop} {text u v : Bytes}

/-- What is read of two parts is what is read of each. -/
theorem Reads.append (h : Reads escape text u) {rest : Bytes} (hrest : Reads escape rest v) :
    Reads escape (text ++ rest) (u ++ v) := by
  induction h with
  | nil => exact hrest
  | char hmark hslash _ ih =>
    rw [List.append_assoc, List.append_assoc]
    exact .char hmark hslash ih
  | escape he _ ih =>
    rw [List.cons_append, List.append_assoc, List.append_assoc]
    exact .escape he ih

/-- Reading goes astray behind a part that is read. -/
theorem Reads.astray (h : Reads escape text u) {rest : Bytes} (hrest : Astray escape rest) :
    Astray escape (text ++ rest) := by
  obtain ⟨before, v, tail, rfl, hbefore, htail⟩ := hrest
  exact ⟨text ++ before, u ++ v, tail, by simp, h.append hbefore, htail⟩

/-- What has been read does not matter for whether the rest is read or goes astray. -/
theorem Reads.or_astray (h : Reads escape text u) {rest : Bytes}
    (hrest : (∃ v, Reads escape rest v) ∨ Astray escape rest) :
    (∃ v, Reads escape (text ++ rest) v) ∨ Astray escape (text ++ rest) :=
  hrest.imp (fun ⟨v, hv⟩ => ⟨u ++ v, h.append hv⟩) h.astray

end

/-- Bytes that are neither quotes nor backslashes may be left out in front of the rest of a
    string. -/
theorem mem_stringRest_of_raw {l rest : Bytes} (hl : ∀ b ∈ l, b ≠ mark ∧ b ≠ backslash)
    (h : l ++ rest ∈ Pattern.stringRest) : rest ∈ Pattern.stringRest := by
  induction l with
  | nil => exact h
  | cons b l ih =>
    obtain ⟨⟨hmark, hslash⟩, htail⟩ := List.forall_mem_cons.mp hl
    rw [List.cons_append, Pattern.cons_mem_stringRest, if_neg (by simpa [mark] using hmark),
      if_neg (by simpa [backslash] using hslash)] at h
    exact ih htail h

/-- What is spelled behind a backslash begins with a byte below 128, and plain bytes follow. -/
theorem Spelled.exists_cons {e u : Bytes} (h : Spelled e u) :
    ∃ b tail, e = b :: tail ∧ b.toNat < 0x80 ∧ ∀ c ∈ tail, Plain c := by
  cases h with
  | escape h =>
    obtain ⟨b, tail, rfl, hb, htail⟩ := h.exists_cons
    exact ⟨b, tail, rfl, hb.1, htail⟩
  | newline => exact ⟨_, [], rfl, by decide, by simp⟩

/-- Text in ASCII at the front of well-formed text leaves well-formed text behind. -/
theorem exists_chars_of_front {cs : List Char} (front : Bytes) {back : Bytes}
    (hfront : ∀ b ∈ front, b.toNat < 0x80) (h : cs.flatMap Utf8.encode = front ++ back) :
    ∃ es : List Char, back = es.flatMap Utf8.encode := by
  induction front generalizing cs with
  | nil => exact ⟨cs, h.symm⟩
  | cons b front ih =>
    obtain ⟨hb, htail⟩ := List.forall_mem_cons.mp hfront
    obtain ⟨-, es, -, hes⟩ := exists_chars_of_append [] hb h
    exact ih htail hes.symm

/-- A backslash starts an escape, behind which reading goes on, or goes astray. -/
theorem reads_or_astray_of_backslash {cs : List Char} {text : Bytes}
    (h : backslash :: text ++ [mark] ∈ Pattern.stringRest) (hcs : text = cs.flatMap Utf8.encode)
    (ih : ∀ tail, tail.length ≤ text.length → ∀ es : List Char, tail = es.flatMap Utf8.encode →
      tail ++ [mark] ∈ Pattern.stringRest → (∃ v, Reads Spelled tail v) ∨ Astray Spelled tail) :
    (∃ v, Reads Spelled (backslash :: text) v) ∨ Astray Spelled (backslash :: text) := by
  by_cases hescape : ∃ e w tail, text = e ++ tail ∧ Spelled e w
  · obtain ⟨e, w, tail, rfl, he⟩ := hescape
    obtain ⟨b, digits, rfl, hb, hdigits⟩ := he.exists_cons
    obtain ⟨es, hes⟩ := exists_chars_of_front (b :: digits)
      (List.forall_mem_cons.mpr ⟨hb, fun c hc => (hdigits c hc).1⟩) hcs.symm
    -- The byte behind the backslash closes nothing, and the digits behind it do not either.
    have hclosed : tail ++ [mark] ∈ Pattern.stringRest := by
      obtain ⟨c, rest, hrest, -, hmem⟩ := mem_one_mul.mp (Pattern.cons_mem_stringRest.mp h)
      obtain ⟨rfl, rfl⟩ := List.cons.inj hrest
      refine mem_stringRest_of_raw (l := digits) (fun c hc => (hdigits c hc).2.2) ?_
      rwa [← List.append_assoc]
    have hone : Reads Spelled (backslash :: (b :: digits ++ [])) (w ++ []) := .escape he .nil
    rw [List.append_nil] at hone
    exact hone.or_astray (ih tail (by simp; omega) es hes hclosed)
  · exact Or.inr ⟨[], [], text, rfl, .nil, fun e w tail htext he => hescape ⟨e, w, tail, htext, he⟩⟩

/-- **Reading ends**, at the closing quote or at a backslash that starts no escape. -/
theorem reads_or_astray {cs : List Char} {text : Bytes} (hcs : text = cs.flatMap Utf8.encode)
    (h : text ++ [mark] ∈ Pattern.stringRest) :
    (∃ v, Reads Spelled text v) ∨ Astray Spelled text := by
  -- A character or an escape is read, and then the rest, which is shorter.
  induction hlen : text.length using Nat.strongRecOn generalizing cs text with
  | ind n ih =>
    cases cs with
    | nil =>
      subst hcs
      exact Or.inl ⟨[], .nil⟩
    | cons c cs =>
      rw [List.flatMap_cons] at hcs
      by_cases hmark : c = '"'
      · -- The text would end here.
        subst hmark hcs
        have hend : cs.flatMap Utf8.encode ++ [mark] = [] := Pattern.cons_mem_stringRest.mp h
        simp at hend
      by_cases hslash : c = '\\'
      · subst hslash hcs
        refine reads_or_astray_of_backslash h rfl fun tail htail es hes hclosed => ?_
        exact ih _ (by rw [← hlen]; exact Nat.lt_succ_of_le htail) hes hclosed rfl
      · subst hcs
        have hlt : (cs.flatMap Utf8.encode).length < n := by
          obtain ⟨b, t, hbt, -⟩ := Utf8.leading_encode c []
          rw [← hlen, hbt, List.length_append, List.length_cons]
          omega
        have hrest : cs.flatMap Utf8.encode ++ [mark] ∈ Pattern.stringRest := by
          rw [List.append_assoc] at h
          exact mem_stringRest_of_raw (fun b => ne_of_mem_encode hmark hslash) h
        have hone : Reads Spelled (Utf8.encode c ++ []) (Utf8.encode c ++ []) :=
          .char hmark hslash .nil
        rw [List.append_nil] at hone
        exact hone.or_astray (ih _ hlt rfl hrest rfl)

/-! ### Decoding -/

variable {cs : List Char} {text v : Bytes}

/-- Encoded characters that are read with spelled newlines are decoded as they are read. -/
theorem decode?_eq_some_of_reads (hcs : text = cs.flatMap Utf8.encode)
    (h : Reads Spelled text v) : decode? text = some v := by
  have hread := h.unescapeInto_append [] []
  rw [List.append_nil, List.append_nil] at hread
  rw [decode?, hcs, repair_spellNewlines, ← hcs, hread]
  simp [unescapeInto]

/-- Encoded characters where reading goes astray are not decoded. -/
theorem decode?_eq_none_of_astray (hcs : text = cs.flatMap Utf8.encode)
    (h : Astray Spelled text) : decode? text = none := by
  rw [decode?, hcs, repair_spellNewlines, ← hcs]
  exact h.unescapeInto_eq []

/-- **Decoding** is reading from left to right, with newlines behind backslashes for escapes. -/
theorem decode?_eq_some_iff (hcs : text = cs.flatMap Utf8.encode)
    (h : text ++ [mark] ∈ Pattern.stringRest) : decode? text = some v ↔ Reads Spelled text v := by
  refine ⟨fun hv => ?_, decode?_eq_some_of_reads hcs⟩
  rcases reads_or_astray hcs h with ⟨w, hw⟩ | hastray
  · rw [decode?_eq_some_of_reads hcs hw] at hv
    rwa [← Option.some.inj hv]
  · exact absurd (hv.symm.trans (decode?_eq_none_of_astray hcs hastray)) nofun

/-- **Text is refused** if and only if reading goes astray. -/
theorem decode?_eq_none_iff (hcs : text = cs.flatMap Utf8.encode)
    (h : text ++ [mark] ∈ Pattern.stringRest) : decode? text = none ↔ Astray Spelled text := by
  refine ⟨fun hnone => ?_, decode?_eq_none_of_astray hcs⟩
  rcases reads_or_astray hcs h with ⟨w, hw⟩ | hastray
  · exact absurd ((decode?_eq_some_of_reads hcs hw).symm.trans hnone) nofun
  · exact hastray

/-! ### Newlines behind backslashes -/

/-- What is read with the escapes is read so with spelled newlines. -/
theorem Reads.spelled (h : Reads Escape text v) : Reads Spelled text v := by
  induction h with
  | nil => exact .nil
  | char hmark hslash _ ih => exact .char hmark hslash ih
  | escape he _ ih => exact .escape (.escape he) ih

/-- With no newline behind a backslash, only the escapes matter. -/
theorem Reads.escapes (h : Reads Spelled text v) (hfree : ¬ [backslash, ascii '\n'] <:+: text) :
    Reads Escape text v := by
  induction h with
  | nil => exact .nil
  | char hmark hslash _ ih =>
    exact .char hmark hslash (ih fun hrest => hfree (hrest.trans (List.suffix_append ..).isInfix))
  | @escape e u rest v he _ ih =>
    have hrest : Reads Escape rest v := ih fun hrest =>
      hfree (hrest.trans (List.suffix_append (backslash :: e) rest).isInfix)
    cases he with
    | escape he => exact .escape he hrest
    | newline => exact absurd (List.prefix_append [backslash, ascii '\n'] rest).isInfix hfree

/-- Where no backslash stands in front of a newline, there are no escapes but the usual ones. -/
theorem reads_spelled_iff (hfree : ¬ [backslash, ascii '\n'] <:+: text) :
    Reads Spelled text v ↔ Reads Escape text v :=
  ⟨fun h => h.escapes hfree, Reads.spelled⟩

/-- With no newline behind a backslash, reading goes astray with the escapes or not at all. -/
theorem astray_spelled_iff (hfree : ¬ [backslash, ascii '\n'] <:+: text) :
    Astray Spelled text ↔ Astray Escape text := by
  constructor
  · rintro ⟨before, u, rest, rfl, hbefore, hrest⟩
    have hbefore := hbefore.escapes fun h => hfree (h.trans (List.prefix_append ..).isInfix)
    exact ⟨before, u, rest, rfl, hbefore, fun e w tail htail he =>
      hrest e w tail htail (.escape he)⟩
  · rintro ⟨before, u, rest, rfl, hbefore, hrest⟩
    refine ⟨before, u, rest, rfl, hbefore.spelled, fun e w tail htail he => ?_⟩
    cases he with
    | escape he => exact hrest e w tail htail he
    | newline =>
      subst htail
      exact hfree ⟨before, tail, by simp⟩

end Quoted

/-! ### Literals -/

namespace Symbol

open Quoted (Reads Astray Spelled Escape)

/-- A string token denotes what stands between its quotes, read with some escapes; and it is refused
    if reading goes astray. -/
def Decodes (escape : Bytes → Bytes → Prop) (t : Token) : Prop :=
  (∀ v, ofToken t = .ok (.literal (.str v) t.span) ↔ Reads escape (inner t.lexeme) v) ∧
    ((∃ f, ofToken t = .error f ∧ f.kind = .syntaxError) ↔ Astray escape (inner t.lexeme))

/-- The text between the quotes of a string. -/
theorem exists_inner {lexeme : Bytes} (h : lexeme ∈ Pattern.string.language) :
    lexeme = Quoted.mark :: (inner lexeme ++ [Quoted.mark]) ∧
      inner lexeme ++ [Quoted.mark] ∈ Pattern.stringRest := by
  obtain ⟨b, rest, rfl, hb, hrest⟩ := mem_one_mul.mp h
  obtain ⟨items, -, _, ⟨c, hc, rfl⟩, rfl⟩ := Language.mem_mul.mp hrest
  obtain rfl := eq_of_beq hb
  obtain rfl := eq_of_beq hc
  have hinner : inner (Bytes.ascii '"' :: (items ++ [Bytes.ascii '"'])) = items := by
    simp [inner]
  rw [hinner]
  exact ⟨rfl, hrest⟩

/-- **String literals** are decoded from left to right: every character stands for itself, also a
    newline, and every backslash starts an escape; a literal is refused if and only if some
    backslash does not.  Besides the usual escapes there is one more, for a newline behind a
    backslash, which counts as a backslash and the letter `n`. -/
theorem string_decodes {t : Token} (hkind : t.kind = .string)
    (hlexeme : t.lexeme ∈ Pattern.string.language) (hvalid : Utf8.isValid t.lexeme = true) :
    Decodes Spelled t ∧
      (¬ [Quoted.backslash, Bytes.ascii '\n'] <:+: t.lexeme → Decodes Escape t) := by
  obtain ⟨hquotes, hclosed⟩ := exists_inner hlexeme
  -- The lexeme is valid, and the quotes are characters of it, so that characters stand between
  -- them.
  obtain ⟨cs, hchars⟩ : ∃ cs : List Char, inner t.lexeme = cs.flatMap Utf8.encode := by
    obtain ⟨cs, hcs⟩ := Quoted.exists_chars_of_isValid hvalid
    rw [hquotes] at hcs
    obtain ⟨-, ds, -, hds⟩ := Quoted.exists_chars_of_append [] (by decide) hcs.symm
    obtain ⟨es, -, hes, -⟩ := Quoted.exists_chars_of_append _ (by decide) hds.symm
    exact ⟨es, hes⟩
  have hdecode : Decodes Spelled t := by
    constructor
    · intro v
      rw [← Quoted.decode?_eq_some_iff hchars hclosed]
      unfold ofToken
      rw [hkind]
      cases Quoted.decode? (inner t.lexeme) <;> simp
    · rw [← Quoted.decode?_eq_none_iff hchars hclosed]
      unfold ofToken
      rw [hkind]
      cases Quoted.decode? (inner t.lexeme) with
      | none => exact iff_of_true ⟨_, rfl, rfl⟩ rfl
      | some v => simp
  refine ⟨hdecode, fun hfree => ?_⟩
  have hinner : ¬ [Quoted.backslash, Bytes.ascii '\n'] <:+: inner t.lexeme := by
    intro h
    exact hfree (h.trans ⟨[Quoted.mark], [Quoted.mark], hquotes.symm⟩)
  refine ⟨fun v => ?_, ?_⟩
  · rw [hdecode.1, Quoted.reads_spelled_iff hinner]
  · rw [hdecode.2, Quoted.astray_spelled_iff hinner]

/-- A lexeme that the pattern of strings takes as a whole is one of its language. -/
theorem mem_language_of_length? {lexeme : Bytes}
    (h : Pattern.string.length? lexeme = some lexeme.length) :
    lexeme ∈ Pattern.string.language := by
  have hlongest := Pattern.longest_string lexeme
  rw [h] at hlongest
  simpa using (hlongest.mem _ rfl).2

/-- A character beyond ASCII, a newline, and escapes of a byte and of a backslash. -/
theorem string_decodes_mixed :
    let t : Token := ⟨.string, utf8 "\"é\n\\x41\\\\\"", ⟨0, 11⟩⟩
    (t.kind = .string ∧ t.lexeme ∈ Pattern.string.language ∧ Utf8.isValid t.lexeme = true ∧
        ¬ [Quoted.backslash, Bytes.ascii '\n'] <:+: t.lexeme) ∧
      Decodes Spelled t ∧ Decodes Escape t := by
  intro t
  have hlexeme : t.lexeme ∈ Pattern.string.language := mem_language_of_length? (by decide)
  have hvalid : Utf8.isValid t.lexeme = true := by decide
  have hfree : ¬ [Quoted.backslash, Bytes.ascii '\n'] <:+: t.lexeme := by decide
  obtain ⟨hspelled, hescape⟩ := string_decodes rfl hlexeme hvalid
  exact ⟨⟨rfl, hlexeme, hvalid, hfree⟩, hspelled, hescape hfree⟩

/-- A newline behind a backslash starts no escape, and yet the literal is not refused. -/
theorem newline_behind_backslash :
    let t : Token := ⟨.string, utf8 "\"\\\n\"", ⟨0, 4⟩⟩
    (t.lexeme ∈ Pattern.string.language ∧ Utf8.isValid t.lexeme = true) ∧
      Astray Escape (inner t.lexeme) ∧ ofToken t = .ok (.literal (.str (utf8 "\\n")) t.span) := by
  intro t
  refine ⟨⟨mem_language_of_length? (by decide), by decide⟩, ⟨[], [], utf8 "\n", rfl, .nil, ?_⟩, rfl⟩
  intro e w tail htail he
  obtain ⟨b, digits, rfl, hb, -⟩ := he.exists_cons
  exact hb.2 (List.cons.inj htail).1.symm

end Symbol

end StackLang
