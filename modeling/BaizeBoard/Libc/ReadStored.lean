import BaizeBoard.Libc.ReadBack

/-!
# Reading stored numbers back

Numbers that `vsnprintf` has stored in a buffer, read with `strtol` and
`strtoul`.  `Layout.Legible` is the condition on which a number survives its
padding.
-/

namespace BaizeBoard

open Strto

def NumConv.asciiA : NumConv → UInt8
  | .capX => 'A'.toUInt8
  | .d | .i | .u | .x | .p => 'a'.toUInt8

def NumConv.radix : NumConv → ℕ
  | .d | .i | .u => 10
  | .x | .capX | .p => 16

theorem NumConv.asciiA_cases (conv : NumConv) :
    conv.asciiA = 'a'.toUInt8 ∨ conv.asciiA = 'A'.toUInt8 := by
  cases conv with
  | capX => exact .inr rfl
  | d | i | u | x | p => exact .inl rfl

theorem NumConv.radix_cases (conv : NumConv) : conv.radix = 10 ∨ conv.radix = 16 := by
  cases conv with
  | d | i | u => exact .inl rfl
  | x | capX | p => exact .inr rfl

namespace Vsnprintf

/-! ## The parts of a stored number -/

/-- The number that is stored. -/
def Layout.value (l : Layout) (arg : BitVec 64) : NumConv → ℤ
  | .d | .i => toInt32 (getNumVaArgs arg l.lCount)
  | .u | .x | .capX => (getUnumVaArgs arg l.lCount).toNat
  | .p => arg.toNat

def Layout.front (l : Layout) (arg : BitVec 64) : NumConv → List UInt8
  | .d | .i => minusSign (toInt32 (getNumVaArgs arg l.lCount))
  | .u | .x | .capX => []
  | .p => hexPrefix arg

def Layout.digits (l : Layout) (arg : BitVec 64) (conv : NumConv) : List UInt8 :=
  numeral conv.asciiA conv.radix (l.value arg conv).natAbs

/-- What is computed from `padn` for this number stays in `int`. -/
def Layout.Fits (l : Layout) (arg : BitVec 64) (conv : NumConv) : Prop :=
  PadFits (padnFor l.padn arg conv) (l.digits arg conv).length

theorem number_eq {l : Layout} {arg : BitVec 64} {conv : NumConv} (hfits : l.Fits arg conv) :
    l.number arg conv = l.front arg conv ++
      (List.replicate (padnFor l.padn arg conv - (l.digits arg conv).length).toNat l.padc ++
        l.digits arg conv ++
        List.replicate (-((l.digits arg conv).length + padnFor l.padn arg conv)).toNat l.padc) := by
  rw [← numField_of_fits l.padc hfits]
  cases conv with
  | d | i | u | x | capX => rfl
  | p =>
      have hkeep := PadFits.toInt32_eq hfits
      rw [padnFor_eq] at hkeep ⊢
      by_cases harg : arg = 0
      · rw [Layout.number, if_pos harg, if_neg fun h ↦ h.2 harg]
        rfl
      · rw [if_pos ⟨rfl, harg⟩] at hkeep ⊢
        rw [Layout.number, if_neg harg, hkeep]
        rfl

/-- No blanks come between the sign or `0x` and the digits, and no zeros behind
the digits, save behind zero and behind the greatest number. -/
structure Layout.Legible (l : Layout) (arg : BitVec 64) (conv : NumConv) : Prop where
  inside : l.front arg conv ≠ [] → l.padc = ' '.toUInt8 →
    padnFor l.padn arg conv ≤ (l.digits arg conv).length
  behind : l.padc = '0'.toUInt8 → padnFor l.padn arg conv < -(l.digits arg conv).length →
    l.value arg conv = 0 ∨ l.value arg conv = 2 ^ 64 - 1

theorem layout_pad (opts : List Opt) :
    (layout opts).padc = 0 ∧ (layout opts).padn = 0 ∨ (layout opts).padc = '0'.toUInt8 ∨
      (layout opts).padc = ' '.toUInt8 := by
  induction opts using List.reverseRecOn with
  | nil => exact .inl ⟨rfl, rfl⟩
  | append_singleton opts o ih =>
      rw [layout_append]
      cases o with
      | l | z | minus => exact ih
      | width digits =>
          right
          simp only [Layout.read, padChar]
          split
          · exact .inl rfl
          · exact .inr rfl

/-! ## Reading it back -/

variable {bits : ℕ} {m : Ram bits} {p : ℕ} {l : Layout} {arg : BitVec 64} {rest : List UInt8}

/-- What a number becomes when it is read into the type of its conversion. -/
def saturate (v : ℤ) : NumConv → ℤ
  | .d | .i => clampLong v
  | .u | .x | .capX | .p => min (2 ^ 64 - 1) v

theorem cast_min (n : ℕ) : ((min (2 ^ 64 - 1) n : ℕ) : ℤ) = min (2 ^ 64 - 1) (n : ℤ) := by
  omega

/-- Zeros around the digits: those in front do nothing, each of the others multiplies. -/
theorem readBack_zeros (conv : NumConv) (k j : ℕ) (hrest : ∀ c ∈ rest.head?, digit c = none)
    (h : m.Str p (l.front arg conv ++
      (paddedNumeral conv.asciiA conv.radix k (l.value arg conv).natAbs j ++ rest))) :
    ∃ e, readBack m p conv =
      some (saturate (l.value arg conv * conv.radix ^ j) conv, e) := by
  have hunsigned : ∀ n : ℕ, l.value arg conv = n →
      (∃ e, strtoul 64 m p conv.radix = some (min (2 ^ 64 - 1) (n * conv.radix ^ j), e)) →
      ∃ e, (strtoul 64 m p conv.radix).map (fun r ↦ ((r.1 : ℤ), r.2)) =
        some (min (2 ^ 64 - 1) (l.value arg conv * conv.radix ^ j), e) := by
    rintro n hn ⟨e, he⟩
    rw [he, Option.map_some, cast_min, hn]
    push_cast
    exact ⟨e, rfl⟩
  cases conv with
  | d | i => exact ⟨_, strtol_padded 0 (l.value arg .d) k j hrest h⟩
  | u =>
      exact hunsigned _ rfl ⟨_, strtoul_padded 10 (.inl rfl) (.inl rfl) 0 k _ j hrest h⟩
  | x =>
      exact hunsigned _ rfl ⟨_, strtoul_padded 16 (.inl rfl) (.inr rfl) 0 k _ j hrest h⟩
  | capX =>
      exact hunsigned _ rfl ⟨_, strtoul_padded 16 (.inr rfl) (.inr rfl) 0 k _ j hrest h⟩
  | p =>
      apply hunsigned _ rfl
      by_cases harg : arg = 0
      · rw [Layout.front, hexPrefix, if_pos harg] at h
        exact ⟨_, strtoul_padded 16 (.inl rfl) (.inr rfl) 0 k _ j hrest h⟩
      · rw [Layout.front, hexPrefix, if_neg harg] at h
        exact ⟨_, strtoul_hex k _ j hrest h⟩

theorem value_bounds (l : Layout) (arg : BitVec 64) (conv : NumConv) :
    (conv = .d ∨ conv = .i) ∧ -2 ^ 31 ≤ l.value arg conv ∧ l.value arg conv < 2 ^ 31 ∨
      conv ≠ .d ∧ conv ≠ .i ∧ 0 ≤ l.value arg conv ∧ l.value arg conv < 2 ^ 64 := by
  have hsigned := toInt32_bounds (getNumVaArgs arg l.lCount)
  have hunsigned := (getUnumVaArgs arg l.lCount).isLt
  have hpointer := arg.isLt
  cases conv with
  | d => exact .inl ⟨.inl rfl, hsigned⟩
  | i => exact .inl ⟨.inr rfl, hsigned⟩
  | u | x | capX =>
      refine .inr ⟨nofun, nofun, Int.natCast_nonneg _, ?_⟩
      simp only [Layout.value]
      omega
  | p =>
      refine .inr ⟨nofun, nofun, Int.natCast_nonneg _, ?_⟩
      simp only [Layout.value]
      omega

/-- Zeros behind a number are harmless only where it is zero or saturates to itself. -/
theorem saturate_eq_iff (l : Layout) (arg : BitVec 64) (conv : NumConv) (j : ℕ) :
    saturate (l.value arg conv * conv.radix ^ j) conv = l.value arg conv ↔
      (j ≠ 0 → l.value arg conv = 0 ∨ l.value arg conv = 2 ^ 64 - 1) := by
  have hbounds := value_bounds l arg conv
  generalize l.value arg conv = v at hbounds ⊢
  have hsaturate : saturate v conv = v := by
    cases conv <;> simp [saturate, clampLong] at hbounds ⊢ <;> omega
  rcases Nat.eq_zero_or_pos j with rfl | hj
  · simpa using hsaturate
  · have hpow : (2 : ℤ) ≤ conv.radix ^ j := by
      have hradix : 2 ≤ (conv.radix : ℤ) := by
        rcases conv.radix_cases with h | h <;> rw [h] <;> norm_num
      exact hradix.trans (le_self_pow₀ (by omega) hj.ne')
    generalize (conv.radix : ℤ) ^ j = r at hpow
    simp only [ne_eq, hj.ne', not_false_eq_true, true_implies]
    have hscale : 0 < v ∧ 2 * v ≤ v * r ∨ v < 0 ∧ v * r ≤ 2 * v ∨ v = 0 ∧ v * r = 0 := by
      rcases lt_trichotomy v 0 with hneg | rfl | hpos
      · exact .inr (.inl ⟨hneg, by nlinarith⟩)
      · exact .inr (.inr ⟨rfl, zero_mul r⟩)
      · exact .inl ⟨hpos, by nlinarith⟩
    generalize v * r = t at hscale
    cases conv <;> simp [saturate, clampLong] at hbounds ⊢ <;> omega

theorem paddedNumeral_zero (asciiA : UInt8) (radix n : ℕ) :
    paddedNumeral asciiA radix 0 n 0 = numeral asciiA radix n := by
  simp [paddedNumeral]

/-- Blanks in front of a number without sign are skipped. -/
theorem readBack_blanks (conv : NumConv) (b : ℕ) (hrest : ∀ c ∈ rest.head?, digit c = none)
    (hfront : l.front arg conv = [])
    (h : m.Str p (List.replicate b ' '.toUInt8 ++ (l.digits arg conv ++ rest))) :
    ∃ e, readBack m p conv = some (l.value arg conv, e) := by
  have hexact := (saturate_eq_iff l arg conv 0).mpr (by simp)
  rw [Layout.digits, ← paddedNumeral_zero] at h
  have hunsigned : conv ≠ .d → conv ≠ .i →
      ∃ e, (strtoul 64 m p conv.radix).map (fun r ↦ ((r.1 : ℤ), r.2)) =
        some (l.value arg conv, e) := by
    intro hd hi
    have hbounds := (value_bounds l arg conv).resolve_left fun h ↦ h.1.elim hd hi
    rw [strtoul_padded conv.radix conv.asciiA_cases conv.radix_cases b 0 _ 0 hrest h,
      Option.map_some, cast_min]
    refine ⟨_, congrArg some (Prod.ext ?_ rfl)⟩
    simp only [pow_zero, mul_one]
    omega
  cases conv with
  | d | i =>
      have hminus : minusSign (l.value arg .d) = [] := hfront
      have hread := strtol_padded b (l.value arg .d) 0 0 hrest (by rw [hminus]; exact h)
      rw [show clampLong (l.value arg .d * 10 ^ 0) = l.value arg .d from hexact] at hread
      exact ⟨_, hread⟩
  | u | x | capX | p => exact hunsigned nofun nofun

/-- A blank behind the sign or `0x` ends the number there. -/
theorem readBack_hidden (conv : NumConv) (hfront : l.front arg conv ≠ [])
    (h : m.Str p (l.front arg conv ++ ' '.toUInt8 :: rest)) :
    ∃ e, readBack m p conv = some (0, e) := by
  have hsign : ∀ v : ℤ, minusSign v ≠ [] → m.Str p (minusSign v ++ ' '.toUInt8 :: rest) →
      ∃ e, strtol 64 m p 10 = some (0, e) := by
    intro v hv hstr
    have hminus : minusSign v = ['-'.toUInt8] := by
      unfold minusSign at hv ⊢
      split at hv
      · exact if_pos ‹_›
      · exact absurd rfl hv
    rw [hminus] at hstr
    let u : Subject 10 (['-'.toUInt8] ++ ' '.toUInt8 :: rest) :=
      { spaces := [], sign := ['-'.toUInt8], lead := [], radix := 10, digits := []
        rest := ' '.toUInt8 :: rest, text := rfl, isspace_spaces := by simp
        not_isspace := by simpa using by decide
        sign_cases := .inl rfl, no_sign := nofun
        isLead := .given (by decide) nofun, isDigit_digits := by simp
        not_isDigit := by
          rintro c hc ⟨d, hd, -⟩
          cases hc
          cases hd }
    exact ⟨_, strtol_subject (by norm_num) hstr u⟩
  cases conv with
  | d | i => exact hsign _ hfront h
  | u | x | capX => exact absurd rfl hfront
  | p =>
      have hhex : hexPrefix arg = ['0'.toUInt8, 'x'.toUInt8] := by
        have hne : hexPrefix arg ≠ [] := hfront
        unfold hexPrefix at hne ⊢
        split at hne
        · exact absurd rfl hne
        · exact if_neg ‹_›
      rw [Layout.front, hhex] at h
      let u : Subject 16 (['0'.toUInt8, 'x'.toUInt8] ++ ' '.toUInt8 :: rest) :=
        { spaces := [], sign := [], lead := [], radix := 16, digits := ['0'.toUInt8]
          rest := 'x'.toUInt8 :: ' '.toUInt8 :: rest, text := rfl, isspace_spaces := by simp
          not_isspace := by simpa using by decide
          sign_cases := .inr (.inr rfl)
          no_sign := by simpa using by decide
          isLead := .given (by decide) (by
            rintro - ⟨x, d, t, htext, -, hd⟩
            cases htext
            exact absurd hd (by decide))
          isDigit_digits := by
            intro c hc
            rw [List.mem_singleton.mp hc]
            exact ⟨0, rfl, by decide⟩
          not_isDigit := by
            rintro c hc ⟨d, hd, hlt⟩
            cases hc
            have hx : digit 'x'.toUInt8 = some 33 := by decide
            cases hx.symm.trans hd
            omega }
      have hread := strtoul_subject (by norm_num) h u rfl
      exact ⟨_, congrArg (Option.map fun r : ℕ × ℕ ↦ ((r.1 : ℤ), r.2)) hread⟩

theorem readBack_plain (conv : NumConv) (hrest : ∀ c ∈ rest.head?, digit c = none)
    (h : m.Str p (l.front arg conv ++ (l.digits arg conv ++ rest))) :
    ∃ e, readBack m p conv = some (l.value arg conv, e) := by
  rw [Layout.digits, ← paddedNumeral_zero] at h
  obtain ⟨e, he⟩ := readBack_zeros conv 0 0 hrest h
  rw [(saturate_eq_iff l arg conv 0).mpr (by simp)] at he
  exact ⟨e, he⟩

theorem value_ne_zero {conv : NumConv} (h : l.front arg conv ≠ []) : l.value arg conv ≠ 0 := by
  intro hzero
  apply h
  cases conv with
  | d | i =>
      have hnum : toInt32 (getNumVaArgs arg l.lCount) = 0 := hzero
      rw [Layout.front, hnum]
      rfl
  | u | x | capX => rfl
  | p =>
      have harg : arg = 0 := BitVec.eq_of_toNat_eq (Int.natCast_eq_zero.mp hzero)
      exact if_pos harg

theorem nul_notMem_front (l : Layout) (arg : BitVec 64) (conv : NumConv) :
    0 ∉ l.front arg conv := by
  cases conv with
  | d | i => exact nul_notMem_minusSign _
  | u | x | capX => exact List.not_mem_nil
  | p => exact nul_notMem_hexPrefix arg

theorem nul_notMem_padded (conv : NumConv) (k n j : ℕ) :
    0 ∉ paddedNumeral conv.asciiA conv.radix k n j := by
  have hradix := conv.radix_cases
  exact nul_notMem_paddedNumeral conv.asciiA_cases (by omega) (by omega) k n j

section Legible

variable {conv : NumConv} {tail : List UInt8}

theorem readBack_iff_of_zeros (hfits : l.Fits arg conv) (hpadc : l.padc = '0'.toUInt8)
    (htail : ∀ c ∈ tail.head?, digit c = none)
    (h : m.Holds p (l.number arg conv ++ (tail ++ [0]))) :
    (∃ e, readBack m p conv = some (l.value arg conv, e)) ↔ l.Legible arg conv := by
  rw [number_eq hfits, hpadc, List.append_assoc] at h
  obtain ⟨hfront, hdigits⟩ := Ram.holds_append.mp h
  obtain ⟨hdigits, hbehind⟩ := Ram.holds_append.mp hdigits
  obtain ⟨rest, hrest, hhead⟩ := hbehind.exists_str
  have hstr := hfront.append_str (nul_notMem_front l arg conv)
    (hdigits.append_str (nul_notMem_padded conv _ _ _) hrest)
  obtain ⟨e, he⟩ := readBack_zeros conv _ _ (fun c hc ↦ htail c (hhead c hc)) hstr
  have hexact := saturate_eq_iff l arg conv
    (-((l.digits arg conv).length + padnFor l.padn arg conv)).toNat
  change readBack m p conv = some (saturate (l.value arg conv * conv.radix ^
    (-((l.digits arg conv).length + padnFor l.padn arg conv)).toNat) conv, e) at he
  constructor
  · rintro ⟨e', he'⟩
    rw [he] at he'
    have hkeep := hexact.mp (congrArg Prod.fst (Option.some.inj he'))
    refine ⟨fun _ hblank ↦ absurd (hpadc.symm.trans hblank) (by decide), fun _ hneg ↦ ?_⟩
    exact hkeep (by omega)
  · intro hlegible
    rw [he, hexact.mpr fun hj ↦ hlegible.behind hpadc (by omega)]
    exact ⟨e, rfl⟩

/-- Behind other padding than zeros, the number ends at its last digit. -/
theorem exists_str_behind {j : ℕ} {q : ℕ} (hpadc : digit l.padc = none)
    (htail : ∀ c ∈ tail.head?, digit c = none)
    (h : m.Holds q (List.replicate j l.padc ++ (tail ++ [0]))) :
    ∃ rest, m.Str q rest ∧ ∀ c ∈ rest.head?, digit c = none := by
  rw [← List.append_assoc] at h
  obtain ⟨rest, hrest, hhead⟩ := h.exists_str
  refine ⟨rest, hrest, fun c hc ↦ ?_⟩
  have hmem := hhead c hc
  cases j with
  | zero => exact htail c hmem
  | succ j =>
      cases hmem
      exact hpadc

theorem readBack_iff_of_blanks (hfits : l.Fits arg conv) (hpadc : l.padc = ' '.toUInt8)
    (htail : ∀ c ∈ tail.head?, digit c = none)
    (h : m.Holds p (l.number arg conv ++ (tail ++ [0]))) :
    (∃ e, readBack m p conv = some (l.value arg conv, e)) ↔ l.Legible arg conv := by
  have hnone : digit l.padc = none := by
    rw [hpadc]
    decide
  have hbehind : ∀ P : Prop, l.padc = '0'.toUInt8 → P :=
    fun P hzero ↦ absurd (hpadc.symm.trans hzero) (by decide)
  have hdigits : 0 ∉ l.digits arg conv := by
    rw [Layout.digits, ← paddedNumeral_zero]
    exact nul_notMem_padded conv 0 _ 0
  have hblanks : ∀ b, 0 ∉ List.replicate b ' '.toUInt8 := by
    intro b hzero
    exact absurd (List.eq_of_mem_replicate hzero) (by decide)
  rw [number_eq hfits] at h
  simp only [List.append_assoc] at h
  obtain ⟨hfrontHolds, hrestHolds⟩ := Ram.holds_append.mp h
  obtain ⟨hpadHolds, hrestHolds⟩ := Ram.holds_append.mp hrestHolds
  obtain ⟨hdigitsHolds, hrestHolds⟩ := Ram.holds_append.mp hrestHolds
  obtain ⟨rest, hrest, hhead⟩ := exists_str_behind hnone htail hrestHolds
  rw [hpadc] at hpadHolds hdigitsHolds hrest
  have hstr := hfrontHolds.append_str (nul_notMem_front l arg conv)
    (hpadHolds.append_str (hblanks _) (hdigitsHolds.append_str hdigits hrest))
  by_cases hfront : l.front arg conv = []
  · rw [hfront] at hstr
    exact iff_of_true (readBack_blanks conv _ hhead hfront hstr)
      ⟨fun hne ↦ absurd hfront hne, fun hzero ↦ hbehind _ hzero⟩
  · by_cases hwide : padnFor l.padn arg conv ≤ (l.digits arg conv).length
    · have hnone : (padnFor l.padn arg conv - (l.digits arg conv).length).toNat = 0 := by omega
      rw [hnone] at hstr
      exact iff_of_true (readBack_plain conv hhead hstr)
        ⟨fun _ _ ↦ hwide, fun hzero ↦ hbehind _ hzero⟩
    · obtain ⟨b, hb⟩ : ∃ b, (padnFor l.padn arg conv - (l.digits arg conv).length).toNat = b + 1 :=
        ⟨(padnFor l.padn arg conv - (l.digits arg conv).length).toNat - 1, by omega⟩
      rw [hb, List.replicate_succ] at hstr
      obtain ⟨e, he⟩ := readBack_hidden conv hfront hstr
      refine iff_of_false ?_ fun hlegible ↦ hwide (hlegible.inside hfront hpadc)
      rintro ⟨e', he'⟩
      rw [he] at he'
      exact value_ne_zero hfront (congrArg Prod.fst (Option.some.inj he')).symm

/-- A field without a width is not padded, save that `%p` puts NULs behind its digits. -/
theorem readBack_iff_of_none (hfits : l.Fits arg conv) (hpadc : l.padc = 0) (hpadn : l.padn = 0)
    (htail : ∀ c ∈ tail.head?, digit c = none)
    (h : m.Holds p (l.number arg conv ++ (tail ++ [0]))) :
    (∃ e, readBack m p conv = some (l.value arg conv, e)) ↔ l.Legible arg conv := by
  have hnone : digit l.padc = none := by
    rw [hpadc]
    rfl
  have hle : padnFor l.padn arg conv ≤ 0 := by
    cases conv with
    | d | i | u | x | capX => exact hpadn.le
    | p =>
        simp only [padnFor, hpadn]
        omega
  have hdigits : 0 ∉ l.digits arg conv := by
    rw [Layout.digits, ← paddedNumeral_zero]
    exact nul_notMem_padded conv 0 _ 0
  have hunpadded : (padnFor l.padn arg conv - (l.digits arg conv).length).toNat = 0 := by omega
  rw [number_eq hfits, hunpadded] at h
  simp only [List.replicate_zero, List.nil_append, List.append_assoc] at h
  obtain ⟨hfrontHolds, hrestHolds⟩ := Ram.holds_append.mp h
  obtain ⟨hdigitsHolds, hrestHolds⟩ := Ram.holds_append.mp hrestHolds
  obtain ⟨rest, hrest, hhead⟩ := exists_str_behind hnone htail hrestHolds
  have hstr := hfrontHolds.append_str (nul_notMem_front l arg conv)
    (hdigitsHolds.append_str hdigits hrest)
  refine iff_of_true (readBack_plain conv hhead hstr) ⟨fun _ hblank ↦ ?_, fun hzero ↦ ?_⟩
  · exact absurd (hpadc.symm.trans hblank) (by decide)
  · exact absurd (hpadc.symm.trans hzero) (by decide)

theorem readBack_stored_iff (opts : List Opt) (arg : BitVec 64) (conv : NumConv)
    (hfits : (layout opts).Fits arg conv) (htail : ∀ c ∈ tail.head?, digit c = none)
    (h : m.Holds p ((layout opts).number arg conv ++ (tail ++ [0]))) :
    (∃ e, readBack m p conv = some ((layout opts).value arg conv, e)) ↔
      (layout opts).Legible arg conv := by
  rcases layout_pad opts with ⟨hpadc, hpadn⟩ | hpadc | hpadc
  · exact readBack_iff_of_none hfits hpadc hpadn htail h
  · exact readBack_iff_of_zeros hfits hpadc htail h
  · exact readBack_iff_of_blanks hfits hpadc htail h

end Legible

/-- A number that `vsnprintf` has stored in a buffer with enough room, no letter
or digit behind it, can be read back from the place where it starts exactly when
it is legible. -/
theorem vsnprintf_reads_back_iff (bits : ℕ) (mem : Mem) (asserts : Bool) (fmt : ℕ)
    (f : List UInt8) (args : List Arg) (pre post : List Field) (opts : List Opt)
    (conv : NumConv) (arg : BitVec 64) (hfmt : CString mem fmt f)
    (hdoc : (parse .snprintf f).Documented) (hvalid : ∀ a ∈ args, a.Valid mem)
    (hmatch : (parse .snprintf f).fields args = some (pre ++ .number opts conv arg :: post))
    (hfits : (layout opts).Fits arg conv)
    (hpost : ∀ c ∈ (post.flatMap Field.stored).head?, digit c = none) (beyond : VaList) (n : ℕ)
    (hn : ((pre ++ Field.number opts conv arg :: post).flatMap Field.stored).length < n) :
    ∃ result writes, Returns mem asserts n fmt (slots args beyond) result writes ∧
      ∀ (m : Ram bits) (s : ℕ) (before : ℕ → UInt8),
        (∀ i < n, m.load (s + i) = some (contents before writes i)) →
        ((∃ e, readBack m (s + (pre.flatMap Field.stored).length) conv =
            some ((layout opts).value arg conv, e)) ↔
          (layout opts).Legible arg conv) := by
  have hrun := returns_fields asserts hfmt hdoc hvalid hmatch beyond n
  simp only [writes_leave] at hrun
  rw [if_neg (by omega), List.take_of_length_le (by omega)] at hrun
  refine ⟨_, _, hrun, fun m s before hm ↦ ?_⟩
  have hholds : m.Holds s
      ((pre ++ Field.number opts conv arg :: post).flatMap Field.stored ++ [0]) := by
    rw [Ram.holds_iff]
    intro i hi
    have hget := List.getElem?_eq_getElem hi
    rw [List.length_append, List.length_singleton] at hi
    rw [hm i (by omega), holds_cells before _ i _ hget, hget]
  rw [List.flatMap_append, List.append_assoc, List.flatMap_cons, List.append_assoc] at hholds
  exact readBack_stored_iff opts arg conv hfits hpost (Ram.holds_append.mp hholds).2

/-- `snprintf(s, 16, "%-03lx,%5d", 0x2a, -7)`: the zeros behind `2a` change it. -/
theorem vsnprintf_reads_back_iff_example :
    let mem := rodata 16 (ascii "%-03lx,%5d".toList)
    let opts := [Opt.minus, .width (ascii ['0', '3']), .l]
    let args := [Arg.word 0x2a, .word 0xfffffff9]
    ∃ result writes, Returns mem true 16 16 (slots args (.const 0)) result writes ∧
      ∀ (m : Ram 64) (s : ℕ) (before : ℕ → UInt8),
        (∀ i < 16, m.load (s + i) = some (contents before writes i)) →
        ((∃ e, readBack m (s + (([] : List Field).flatMap Field.stored).length) .x =
            some ((layout opts).value 0x2a .x, e)) ↔ (layout opts).Legible 0x2a .x) :=
  vsnprintf_reads_back_iff 64 _ true 16 (ascii "%-03lx,%5d".toList) [.word 0x2a, .word 0xfffffff9]
    [] [.lit ','.toUInt8, .number [.width (ascii ['5'])] .d 0xfffffff9] _ .x 0x2a (by decide)
    (by decide) (by simp [Arg.Valid]) rfl ⟨by decide, by decide⟩
    (by simpa [Field.stored] using (by decide)) (.const 0) 16 (by decide)

end Vsnprintf

end BaizeBoard
