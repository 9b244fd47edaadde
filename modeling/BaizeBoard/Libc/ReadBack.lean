import BaizeBoard.Libc.StrtolRun
import BaizeBoard.Libc.Truncation
import BaizeBoard.Libc.VprintfRun

/-!
# Reading printed numbers back

`printf.c` and `snprintf.c` turn numbers into text, and `strtol.c` and its
siblings turn text into numbers.  What `printf.c` prints for a number always
reads back as that number.  For `snprintf.c` this depends on the padding: blanks
between a sign and its digits hide the number, and zeros behind the digits
multiply it.
-/

namespace BaizeBoard

open Strto

/-! ## The characters of numerals -/

theorem digit_digitChar {asciiA : UInt8} (h : asciiA = 'a'.toUInt8 ∨ asciiA = 'A'.toUInt8) :
    ∀ d < 36, digit (digitChar asciiA d) = some d := by
  rcases h with rfl | rfl <;> decide

theorem digitValue_digitChar {asciiA : UInt8} (h : asciiA = 'a'.toUInt8 ∨ asciiA = 'A'.toUInt8)
    {d : ℕ} (hd : d < 36) : digitValue (digitChar asciiA d) = d := by
  rw [digitValue, digit_digitChar h d hd]
  rfl

theorem digit_eq_none_of_isspace {c : UInt8} (h : isspace c) : digit c = none := by
  simp only [isspace, Bool.decide_or, Bool.or_eq_true, decide_eq_true_eq] at h
  rcases h with rfl | rfl | rfl | rfl | rfl <;> decide

theorem isDigit_numeral {asciiA : UInt8} (h : asciiA = 'a'.toUInt8 ∨ asciiA = 'A'.toUInt8)
    {radix : ℕ} (hradix : 2 ≤ radix) (hle : radix ≤ 36) {n : ℕ} {c : UInt8}
    (hc : c ∈ numeral asciiA radix n) : Strto.IsDigit radix c := by
  obtain ⟨d, hd, rfl⟩ := Numeral.mem_numeral hradix hc
  exact ⟨d, digit_digitChar h d (by omega), by omega⟩

/-- The number that `k` zeros, a numeral and `j` more zeros spell. -/
theorem reading_padded (radix : ℕ) {asciiA : UInt8}
    (h : asciiA = 'a'.toUInt8 ∨ asciiA = 'A'.toUInt8) (hradix : 2 ≤ radix) (hle : radix ≤ 36)
    (k n j : ℕ) :
    Numeral.reading digitValue radix
      (List.replicate k '0'.toUInt8 ++ numeral asciiA radix n ++ List.replicate j '0'.toUInt8) =
      n * radix ^ j := by
  have hu : ∀ d < radix, digitValue (digitChar asciiA d) = d :=
    fun d hd ↦ digitValue_digitChar h (by omega)
  have hzero : '0'.toUInt8 = digitChar asciiA 0 := rfl
  rw [hzero, Numeral.reading_append_replicate (hu 0 (by omega)),
    Numeral.reading_replicate_append (hu 0 (by omega)), numeral, Numeral.reading_numeral hradix hu]

/-! ## The subject of a padded number -/

def signText (neg : Bool) : List UInt8 := if neg then ['-'.toUInt8] else []

/-- Blanks, a sign and `0x` in front of the digits, each of them optional. -/
def Strto.Subject.ofText {base radix : ℤ} {lead digits rest : List UInt8} (k : ℕ) (neg : Bool)
    (hlead : Lead base lead (digits ++ rest) radix)
    (hhead : ∀ c ∈ (lead ++ (digits ++ rest)).head?, digit c ≠ none)
    (hdigits : ∀ c ∈ digits, IsDigit radix c) (hrest : ∀ c ∈ rest.head?, ¬ IsDigit radix c) :
    Subject base
      (List.replicate k ' '.toUInt8 ++ (signText neg ++ (lead ++ (digits ++ rest)))) where
  spaces := List.replicate k ' '.toUInt8
  sign := signText neg
  lead := lead
  radix := radix
  digits := digits
  rest := rest
  text := rfl
  isspace_spaces c hc := by
    rw [List.eq_of_mem_replicate hc]
    rfl
  not_isspace c hc hspace := by
    cases neg with
    | true =>
        cases hc
        exact absurd hspace (by decide)
    | false => exact hhead c hc (digit_eq_none_of_isspace hspace)
  sign_cases := by
    cases neg with
    | true => exact .inl rfl
    | false => exact .inr (.inr rfl)
  no_sign _ c hc := by
    constructor
    · rintro rfl
      exact hhead _ hc (by decide)
    · rintro rfl
      exact hhead _ hc (by decide)
  isLead := hlead
  isDigit_digits := hdigits
  not_isDigit := hrest

theorem not_hexNumber {digits rest : List UInt8} (hne : digits ≠ [])
    (hdigits : ∀ c ∈ digits, IsDigit 16 c) (hrest : ∀ c ∈ rest.head?, digit c = none) :
    ¬ HexNumber (digits ++ rest) := by
  rintro ⟨x, d, t, htext, hx, -⟩
  have hdigit : digit x = some 33 := by rcases hx with rfl | rfl <;> decide
  rcases digits with _ | ⟨c, _ | ⟨c', digits⟩⟩
  · exact hne rfl
  · obtain ⟨-, rfl⟩ := List.cons.inj htext
    exact absurd (hrest x rfl) (by rw [hdigit]; simp)
  · obtain ⟨-, htext⟩ := List.cons.inj htext
    obtain ⟨rfl, -⟩ := List.cons.inj htext
    obtain ⟨e, he, hlt⟩ := hdigits c' (by simp)
    obtain rfl : 33 = e := Option.some.inj (hdigit.symm.trans he)
    omega

theorem isHexDigit_of_isDigit {c : UInt8} (h : IsDigit 16 c) : isHexDigit c := by
  obtain ⟨d, hd, hlt⟩ := h
  simp only [isHexDigit, Bool.decide_or, Bool.decide_and, Bool.or_eq_true, Bool.and_eq_true,
    decide_eq_true_eq]
  unfold digit at hd
  split at hd
  · exact .inl ‹_›
  split at hd
  · rename_i hupper
    have hsub : c.toNat - 55 = d := Option.some.inj hd
    have hle : c.toNat ≤ 70 := by omega
    exact .inr (.inl ⟨hupper.1, hle⟩)
  split at hd
  · rename_i hlower
    have hsub : c.toNat - 87 = d := Option.some.inj hd
    have hle : c.toNat ≤ 102 := by omega
    exact .inr (.inr ⟨hlower.1, hle⟩)
  cases hd

section Padded

variable {asciiA : UInt8} {radix : ℕ}

/-- A numeral with `k` zeros in front of it and `j` zeros behind it. -/
def paddedNumeral (asciiA : UInt8) (radix k n j : ℕ) : List UInt8 :=
  List.replicate k '0'.toUInt8 ++ numeral asciiA radix n ++ List.replicate j '0'.toUInt8

theorem paddedNumeral_ne_nil (asciiA : UInt8) (radix k n j : ℕ) :
    paddedNumeral asciiA radix k n j ≠ [] := by
  have hne := Numeral.numeral_ne_nil (digitChar asciiA) radix n
  simp [paddedNumeral, numeral, hne]

theorem isDigit_paddedNumeral (radix : ℕ) (h : asciiA = 'a'.toUInt8 ∨ asciiA = 'A'.toUInt8)
    (hradix : 2 ≤ radix) (hle : radix ≤ 36) {k n j : ℕ} {c : UInt8}
    (hc : c ∈ paddedNumeral asciiA radix k n j) : IsDigit radix c := by
  have hzero : IsDigit radix '0'.toUInt8 := ⟨0, by decide, by omega⟩
  rw [paddedNumeral, List.mem_append, List.mem_append] at hc
  rcases hc with (hc | hc) | hc
  · rwa [List.eq_of_mem_replicate hc]
  · exact isDigit_numeral h hradix hle hc
  · rwa [List.eq_of_mem_replicate hc]

/-- The base that a printed numeral of this radix is read in. -/
theorem exists_subject_padded (h : asciiA = 'a'.toUInt8 ∨ asciiA = 'A'.toUInt8)
    (hradix : radix = 10 ∨ radix = 16) (b : ℕ) (neg : Bool) (k n j : ℕ) {rest : List UInt8}
    (hrest : ∀ c ∈ rest.head?, digit c = none) :
    ∃ u : Subject radix (List.replicate b ' '.toUInt8 ++
        (signText neg ++ (paddedNumeral asciiA radix k n j ++ rest))),
      u.neg = neg ∧ u.magnitude = n * radix ^ j ∧
        u.consumed = b + (signText neg).length + (paddedNumeral asciiA radix k n j).length := by
  have hle : 2 ≤ radix ∧ radix ≤ 16 := by omega
  have hdigits : ∀ c ∈ paddedNumeral asciiA radix k n j, IsDigit radix c :=
    fun c hc ↦ isDigit_paddedNumeral radix h hle.1 (by omega) hc
  have hne := paddedNumeral_ne_nil asciiA radix k n j
  have hlead : Lead radix [] (paddedNumeral asciiA radix k n j ++ rest) radix := by
    apply Lead.given
    · omega
    · intro h16
      rw [h16] at hdigits
      exact not_hexNumber hne hdigits hrest
  have hhead : ∀ c ∈ ([] ++ (paddedNumeral asciiA radix k n j ++ rest)).head?,
      digit c ≠ none := by
    intro c hc hnone
    rw [List.nil_append, List.head?_append_of_ne_nil _ hne] at hc
    obtain ⟨d, hd, -⟩ := hdigits c (List.mem_of_mem_head? hc)
    cases hd.symm.trans hnone
  have hstop : ∀ c ∈ rest.head?, ¬ IsDigit radix c := by
    rintro c hc ⟨d, hd, -⟩
    cases hd.symm.trans (hrest c hc)
  refine ⟨.ofText b neg hlead hhead hdigits hstop, ?_, ?_, ?_⟩
  · cases neg <;> rfl
  · exact reading_padded radix h hle.1 (by omega) k n j
  · simp [Subject.consumed, Subject.ofText, hne]

/-- A numeral behind `0x`, in base 16. -/
theorem exists_subject_hex (k n j : ℕ) {rest : List UInt8}
    (hrest : ∀ c ∈ rest.head?, digit c = none) :
    ∃ u : Subject 16 (['0'.toUInt8, 'x'.toUInt8] ++
        (paddedNumeral 'a'.toUInt8 16 k n j ++ rest)),
      u.neg = false ∧ u.magnitude = n * 16 ^ j ∧
        u.consumed = 2 + (paddedNumeral 'a'.toUInt8 16 k n j).length := by
  have hdigits : ∀ c ∈ paddedNumeral 'a'.toUInt8 16 k n j, IsDigit 16 c :=
    fun c hc ↦ isDigit_paddedNumeral 16 (.inl rfl) (by decide) (by decide) hc
  have hne := paddedNumeral_ne_nil 'a'.toUInt8 16 k n j
  obtain ⟨c, t, hct⟩ := List.exists_cons_of_ne_nil hne
  have hmem : c ∈ paddedNumeral 'a'.toUInt8 16 k n j := by
    rw [hct]
    exact List.mem_cons_self
  have hc : isHexDigit c := isHexDigit_of_isDigit (hdigits c hmem)
  have hlead : Lead 16 ['0'.toUInt8, 'x'.toUInt8] (paddedNumeral 'a'.toUInt8 16 k n j ++ rest)
      16 := by
    rw [hct]
    exact .hex (.inr rfl) (.inl rfl) hc
  have hstop : ∀ c ∈ rest.head?, ¬ IsDigit 16 c := by
    rintro c hc ⟨d, hd, -⟩
    cases hd.symm.trans (hrest c hc)
  have hhead : ∀ c ∈ (['0'.toUInt8, 'x'.toUInt8] ++
      (paddedNumeral 'a'.toUInt8 16 k n j ++ rest)).head?, digit c ≠ none := by
    intro c hc
    cases hc
    decide
  refine ⟨.ofText 0 false hlead hhead hdigits hstop, rfl, ?_, ?_⟩
  · exact reading_padded 16 (.inl rfl) (by decide) (by decide) k n j
  · simp [Subject.consumed, Subject.ofText, hne, signText]

end Padded

/-! ## Reading a number back -/

variable {bits : ℕ} {m : Ram bits} {p : ℕ}

/-- The number at `p`, read with the function and the base that fit its conversion. -/
def readBack (m : Ram bits) (p : ℕ) : NumConv → Option (ℤ × ℕ)
  | .d | .i => strtol 64 m p 10
  | .u => (strtoul 64 m p 10).map fun r ↦ ((r.1 : ℤ), r.2)
  | .x | .capX | .p => (strtoul 64 m p 16).map fun r ↦ ((r.1 : ℤ), r.2)

/-- The value of the argument of a directive. -/
def fieldValue (opts : List Opt) (arg : BitVec 64) : NumConv → ℤ
  | .d | .i => signedValue opts arg
  | .u | .x | .capX => unsignedValue opts arg
  | .p => arg.toNat

def clampLong (v : ℤ) : ℤ := max (-2 ^ 63) (min (2 ^ 63 - 1) v)

theorem clampLong_of_bounds {v : ℤ} (hlo : -2 ^ 63 ≤ v) (hhi : v < 2 ^ 63) : clampLong v = v := by
  unfold clampLong
  omega

theorem strtol_subject {base : ℤ} {s : List UInt8} (hbase : base < 2 ^ 31) (h : m.Str p s)
    (u : Subject base s) : strtol 64 m p base = some (clampLong u.value, p + u.consumed) :=
  signed_eq (by norm_num) hbase h u

theorem strtoul_subject {base : ℤ} {s : List UInt8} (hbase : base < 2 ^ 31) (h : m.Str p s)
    (u : Subject base s) (hneg : u.neg = false) :
    strtoul 64 m p base = some (min (2 ^ 64 - 1) u.magnitude, p + u.consumed) := by
  refine (body_eq_value (by norm_num) hbase h u).trans ?_
  rw [Subject.value, hneg]
  congr 2
  simp only [Bool.false_eq_true, if_false]
  split <;> omega

theorem zeroPadded_eq (w : ℕ) (sign : List UInt8) (asciiA : UInt8) (radix n : ℕ) :
    zeroPadded w sign (numeral asciiA radix n) =
      sign ++ paddedNumeral asciiA radix
        (w - sign.length - (numeral asciiA radix n).length) n 0 := by
  simp [zeroPadded, leftZeros, List.leftpad, paddedNumeral]

theorem minusSign_eq (v : ℤ) : minusSign v = signText (decide (v < 0)) := by
  simp [minusSign, signText]

theorem unsignedValue_lt (opts : List Opt) (arg : BitVec 64) :
    unsignedValue opts arg < 2 ^ 64 := by
  unfold unsignedValue
  split
  · exact arg.isLt
  · have hlt := (arg.setWidth 32).isLt
    omega

section ReadNumber

variable {rest : List UInt8}

theorem strtol_padded (b : ℕ) (v : ℤ) (k j : ℕ) (hrest : ∀ c ∈ rest.head?, digit c = none)
    (h : m.Str p (List.replicate b ' '.toUInt8 ++
      (minusSign v ++ (paddedNumeral 'a'.toUInt8 10 k v.natAbs j ++ rest)))) :
    strtol 64 m p 10 = some (clampLong (v * 10 ^ j), p + (b + (minusSign v).length +
      (paddedNumeral 'a'.toUInt8 10 k v.natAbs j).length)) := by
  rw [minusSign_eq] at h ⊢
  obtain ⟨u, hneg, hmagnitude, hconsumed⟩ := exists_subject_padded (.inl rfl) (.inl rfl) b
    (decide (v < 0)) k v.natAbs j hrest
  have hvalue : u.value = v * 10 ^ j := by
    rw [Subject.value, hneg, hmagnitude]
    push_cast
    by_cases hv : v < 0
    · rw [if_pos (by simpa using hv), abs_of_neg hv]
      ring
    · rw [if_neg (by simpa using hv), abs_of_nonneg (by omega)]
  rw [← hconsumed, ← hvalue]
  exact strtol_subject (by norm_num) h u

theorem strtoul_padded (radix : ℕ) {asciiA : UInt8}
    (h : asciiA = 'a'.toUInt8 ∨ asciiA = 'A'.toUInt8) (hradix : radix = 10 ∨ radix = 16)
    (b k n j : ℕ)
    (hrest : ∀ c ∈ rest.head?, digit c = none)
    (hstr : m.Str p (List.replicate b ' '.toUInt8 ++
      (paddedNumeral asciiA radix k n j ++ rest))) :
    strtoul 64 m p radix = some (min (2 ^ 64 - 1) (n * radix ^ j),
      p + (b + (paddedNumeral asciiA radix k n j).length)) := by
  obtain ⟨u, hneg, hmagnitude, hconsumed⟩ :=
    exists_subject_padded h hradix b false k n j hrest
  have hstr' : m.Str p (List.replicate b ' '.toUInt8 ++
      (signText false ++ (paddedNumeral asciiA radix k n j ++ rest))) := hstr
  rw [strtoul_subject (by omega) hstr' u hneg, hmagnitude, hconsumed]
  rfl

theorem strtoul_hex (k n j : ℕ) (hrest : ∀ c ∈ rest.head?, digit c = none)
    (hstr : m.Str p (['0'.toUInt8, 'x'.toUInt8] ++
      (paddedNumeral 'a'.toUInt8 16 k n j ++ rest))) :
    strtoul 64 m p 16 = some (min (2 ^ 64 - 1) (n * 16 ^ j),
      p + (2 + (paddedNumeral 'a'.toUInt8 16 k n j).length)) := by
  obtain ⟨u, hneg, hmagnitude, hconsumed⟩ := exists_subject_hex k n j hrest
  rw [strtoul_subject (by norm_num) hstr u hneg, hmagnitude, hconsumed]

theorem strtol_zeroPadded (w : ℕ) {v : ℤ} (hlo : -2 ^ 63 ≤ v) (hhi : v < 2 ^ 63)
    (hrest : ∀ c ∈ rest.head?, digit c = none)
    (h : m.Str p (zeroPadded w (minusSign v) (decimal v.natAbs) ++ rest)) :
    strtol 64 m p 10 =
      some (v, p + (zeroPadded w (minusSign v) (decimal v.natAbs)).length) := by
  rw [decimal, zeroPadded_eq] at h ⊢
  have hread := strtol_padded 0 v _ 0 hrest (by simpa using h)
  rw [pow_zero, mul_one, clampLong_of_bounds hlo hhi, Nat.zero_add, ← List.length_append] at hread
  exact hread

theorem strtoul_zeroPadded (radix : ℕ) {asciiA : UInt8}
    (hasciiA : asciiA = 'a'.toUInt8 ∨ asciiA = 'A'.toUInt8) (hradix : radix = 10 ∨ radix = 16)
    (w : ℕ) {n : ℕ} (hn : n < 2 ^ 64)
    (hrest : ∀ c ∈ rest.head?, digit c = none)
    (h : m.Str p (zeroPadded w [] (numeral asciiA radix n) ++ rest)) :
    strtoul 64 m p radix =
      some (n, p + (zeroPadded w [] (numeral asciiA radix n)).length) := by
  rw [zeroPadded_eq, List.nil_append] at h ⊢
  have hread := strtoul_padded radix hasciiA hradix 0 _ n 0 hrest (by simpa using h)
  rw [pow_zero, mul_one, Nat.min_eq_right (Nat.le_sub_one_of_lt hn), Nat.zero_add] at hread
  exact hread

theorem strtoul_pointer (w : ℕ) {arg : BitVec 64} (harg : arg ≠ 0)
    (hrest : ∀ c ∈ rest.head?, digit c = none)
    (h : m.Str p (zeroPadded w (hexPrefix arg) (hexadecimal arg.toNat) ++ rest)) :
    strtoul 64 m p 16 =
      some (arg.toNat, p + (zeroPadded w (hexPrefix arg) (hexadecimal arg.toNat)).length) := by
  have hlt := arg.isLt
  rw [hexPrefix, if_neg harg, hexadecimal, zeroPadded_eq, List.append_assoc] at h
  have hread := strtoul_hex _ arg.toNat 0 hrest h
  rw [pow_zero, mul_one, Nat.min_eq_right (Nat.le_sub_one_of_lt hlt)] at hread
  rw [hread, hexPrefix, if_neg harg, hexadecimal, zeroPadded_eq, List.length_append]
  rfl

/-- What `printf.c` prints for a number reads back as that number. -/
theorem readBack_renderNumber (opts : List Opt) (arg : BitVec 64) (conv : NumConv)
    (hrest : ∀ c ∈ rest.head?, digit c = none)
    (h : m.Str p (renderNumber opts arg conv ++ rest)) :
    readBack m p conv =
      some (fieldValue opts arg conv, p + (renderNumber opts arg conv).length) := by
  have hlt := unsignedValue_lt opts arg
  obtain ⟨hlo, hhi⟩ := signedValue_bounds opts arg
  cases conv with
  | d | i => exact strtol_zeroPadded _ hlo hhi hrest h
  | u =>
      have hread := strtoul_zeroPadded 10 (.inl rfl) (.inl rfl) _ hlt hrest h
      exact congrArg (Option.map fun r ↦ ((r.1 : ℤ), r.2)) hread
  | x =>
      have hread := strtoul_zeroPadded 16 (.inl rfl) (.inr rfl) _ hlt hrest h
      exact congrArg (Option.map fun r ↦ ((r.1 : ℤ), r.2)) hread
  | capX =>
      have hread := strtoul_zeroPadded 16 (.inr rfl) (.inr rfl) _ hlt hrest h
      exact congrArg (Option.map fun r ↦ ((r.1 : ℤ), r.2)) hread
  | p =>
      have hread : strtoul 64 m p 16 =
          some (arg.toNat, p + (renderNumber opts arg .p).length) := by
        by_cases harg : arg = 0
        · subst harg
          exact strtoul_zeroPadded 16 (.inl rfl) (.inr rfl) _
            (0 : BitVec 64).isLt hrest h
        · exact strtoul_pointer _ harg hrest h
      exact congrArg (Option.map fun r ↦ ((r.1 : ℤ), r.2)) hread

end ReadNumber

theorem nul_notMem_paddedNumeral {asciiA : UInt8}
    (h : asciiA = 'a'.toUInt8 ∨ asciiA = 'A'.toUInt8) {radix : ℕ} (hradix : 2 ≤ radix)
    (hle : radix ≤ 36) (k n j : ℕ) : 0 ∉ paddedNumeral asciiA radix k n j := by
  intro hzero
  obtain ⟨d, hd, -⟩ := isDigit_paddedNumeral radix h hradix hle hzero
  cases hd

theorem nul_notMem_minusSign (v : ℤ) : 0 ∉ minusSign v := by
  unfold minusSign
  split <;> decide

theorem nul_notMem_hexPrefix (arg : BitVec 64) : 0 ∉ hexPrefix arg := by
  unfold hexPrefix
  split <;> decide

theorem nul_notMem_renderNumber (opts : List Opt) (arg : BitVec 64) (conv : NumConv) :
    0 ∉ renderNumber opts arg conv := by
  have hpadded : ∀ w sign asciiA radix n, 0 ∉ sign →
      (asciiA = 'a'.toUInt8 ∨ asciiA = 'A'.toUInt8) → 2 ≤ radix → radix ≤ 36 →
      0 ∉ zeroPadded w sign (numeral asciiA radix n) := by
    intro w sign asciiA radix n hsign hasciiA hradix hle
    rw [zeroPadded_eq, List.mem_append, not_or]
    exact ⟨hsign, nul_notMem_paddedNumeral hasciiA hradix hle _ n 0⟩
  cases conv with
  | d | i => exact hpadded _ _ _ 10 _ (nul_notMem_minusSign _) (.inl rfl) (by decide) (by decide)
  | u => exact hpadded _ _ _ 10 _ (by simp) (.inl rfl) (by decide) (by decide)
  | x => exact hpadded _ _ _ 16 _ (by simp) (.inl rfl) (by decide) (by decide)
  | capX => exact hpadded _ _ _ 16 _ (by simp) (.inr rfl) (by decide) (by decide)
  | p => exact hpadded _ _ _ 16 _ (nul_notMem_hexPrefix arg) (.inl rfl) (by decide) (by decide)

/-- Every number that `vprintf` prints can be read back from the place in its
output where it starts, if no letter or digit follows it.  As `padn` is exact
here, this is about formats whose width groups all fit `int`. -/
theorem vprintf_reads_back (bits : ℕ) (mem : Mem) (asserts : Bool) (fmt : ℕ) (f : List UInt8)
    (args : List Arg) (pre post : List Field) (opts : List Opt) (conv : NumConv)
    (arg : BitVec 64) (hfmt : CString mem fmt f) (hvalid : ∀ a ∈ args, a.Valid mem)
    (hmatch : (parse .printf f).fields args = some (pre ++ .number opts conv arg :: post))
    (hpost : ∀ c ∈ (post.flatMap Field.render).head?, digit c = none) (beyond : VaList) :
    ∃ result out, Vprintf.Returns mem asserts fmt (slots args beyond) result out ∧
      ∀ (m : Ram bits) (a : ℕ), m.Holds a (out ++ [0]) →
        readBack m (a + (pre.flatMap Field.render).length) conv =
          some (fieldValue opts arg conv,
            a + ((pre ++ [Field.number opts conv arg]).flatMap Field.render).length) := by
  refine ⟨_, _, Vprintf.returns_fields asserts hfmt hvalid hmatch beyond, fun m a hm ↦ ?_⟩
  rw [List.flatMap_append, List.append_assoc, List.flatMap_cons, List.append_assoc] at hm
  obtain ⟨hnumber, hbehind⟩ := Ram.holds_append.mp (Ram.holds_append.mp hm).2
  obtain ⟨rest, hrest, hhead⟩ := hbehind.exists_str
  have hread := readBack_renderNumber opts arg conv (fun c hc ↦ hpost c (hhead c hc))
    (hnumber.append_str (nul_notMem_renderNumber opts arg conv) hrest)
  rw [hread, List.flatMap_append, List.length_append, ← Nat.add_assoc]
  simp [Field.render]

/-- `printf("%s=%p;", "at", 0x1f)`: the pointer reads back. -/
theorem vprintf_reads_back_example :
    let mem := rodata 16 (ascii "%s=%p;".toList ++ 0 :: ascii "at".toList)
    let pre : List Field := [.str (ascii "at".toList), .lit '='.toUInt8]
    let args := [Arg.str 23 (ascii "at".toList), .word 0x1f]
    ∃ result out, Vprintf.Returns mem true 16 (slots args (.const 0)) result out ∧
      ∀ (m : Ram 64) (a : ℕ), m.Holds a (out ++ [0]) →
        readBack m (a + (pre.flatMap Field.render).length) .p =
          some (fieldValue [] 0x1f .p,
            a + ((pre ++ [Field.number [] .p 0x1f]).flatMap Field.render).length) :=
  vprintf_reads_back 64 _ true 16 (ascii "%s=%p;".toList)
    [.str 23 (ascii "at".toList), .word 0x1f] _ [.lit ';'.toUInt8] [] .p 0x1f (by decide)
    (by simpa [Arg.Valid] using (by decide)) rfl (by simpa [Field.render] using (by decide))
    (.const 0)

end BaizeBoard
