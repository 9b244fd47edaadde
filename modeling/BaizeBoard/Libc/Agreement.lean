import BaizeBoard.Library.Overhang
import BaizeBoard.Libc.Dialects
import BaizeBoard.Libc.VsnprintfRange

/-!
# Where the two formatters agree

Three things differ in what `snprintf.c` puts for the directives of `printf.c`:
`num` is an `int`, the sign is not taken off the width, and `padn -= 2` makes
the width of a pointer without a width negative.  `Field.Agrees` says where
none of them shows.  A difference in one field is never made up for by the
fields behind it, so the two outputs agree only where all their fields do.

A `padn` that overflows its `int` leaves the meaning of a call open, so
agreement asks that none does.
-/

namespace BaizeBoard

/-! ## Signed numbers -/

/-- The letters that padding on the right of a pointer can leave over. -/
def padLetters : Set UInt8 := {c | c = 0 ∨ c = '0'.toUInt8}

theorem minus_notMem_leftZeros (w n : ℕ) : '-'.toUInt8 ∉ leftZeros w (decimal n) := by
  intro h
  exact absurd (isDigit_of_mem_leftZeros h) (by decide)

theorem eq_zero_char_of_padLetters {w n : ℕ} {z : UInt8} (hz : z ∈ padLetters)
    (h : z ∈ leftZeros w (decimal n)) : z = '0'.toUInt8 := by
  rcases hz with rfl | hz
  · exact absurd (isDigit_of_mem_leftZeros h) (by decide)
  · exact hz

theorem leftZeros_inj {w w' m n : ℕ} (h : leftZeros w (decimal m) = leftZeros w' (decimal n)) :
    m = n := by
  rw [← widthValue_leftZeros w m, h, widthValue_leftZeros]

theorem leftZeros_of_le {w : ℕ} {digits : List UInt8} (h : w ≤ digits.length) :
    leftZeros w digits = digits := by
  simp [leftZeros, List.leftpad, Nat.sub_eq_zero_of_le h]

def signedText (W : ℕ) (w : ℤ) : List UInt8 := minusSign w ++ leftZeros W (decimal w.natAbs)

variable {W : ℕ} {v w : ℤ}

theorem signedText_neg (h : w < 0) :
    signedText W w = '-'.toUInt8 :: leftZeros W (decimal w.natAbs) := by
  simp [signedText, minusSign, h]

theorem signedText_nonneg (h : 0 ≤ w) : signedText W w = leftZeros W (decimal w.natAbs) := by
  simp [signedText, minusSign, not_lt.mpr h]

theorem zeroPadded_neg (h : v < 0) (digits : List UInt8) :
    zeroPadded W (minusSign v) digits = '-'.toUInt8 :: leftZeros (W - 1) digits := by
  simp [zeroPadded, minusSign, h]

theorem zeroPadded_nonneg (h : 0 ≤ v) (digits : List UInt8) :
    zeroPadded W (minusSign v) digits = leftZeros W digits := by
  simp [zeroPadded, minusSign, not_lt.mpr h]

theorem signedText_head_minus {l : List UInt8} (h : signedText W w = '-'.toUInt8 :: l) :
    w < 0 ∧ leftZeros W (decimal w.natAbs) = l := by
  rcases lt_or_ge w 0 with hw | hw
  · rw [signedText_neg hw] at h
    exact ⟨hw, (List.cons.inj h).2⟩
  · rw [signedText_nonneg hw] at h
    exact absurd (h ▸ List.mem_cons_self) (minus_notMem_leftZeros W w.natAbs)

theorem signedText_ne_nil : signedText W w ≠ [] := by
  intro h
  exact leftZeros_ne_nil W w.natAbs (List.append_eq_nil_iff.mp h).2

theorem length_signedText_neg (h : w < 0) :
    (signedText W w).length = max W (decimal w.natAbs).length + 1 := by
  rw [signedText_neg h, List.length_cons, length_leftZeros]

theorem length_signedText_nonneg (h : 0 ≤ w) :
    (signedText W w).length = max W (decimal w.natAbs).length := by
  rw [signedText_nonneg h, length_leftZeros]

theorem length_signedText_le (habs : w.natAbs ≤ v.natAbs) :
    (signedText W w).length ≤ max W (decimal v.natAbs).length + 1 := by
  have hdigits := length_decimal_mono habs
  rcases lt_or_ge w 0 with hw | hw
  · rw [length_signedText_neg hw]
    omega
  · rw [length_signedText_nonneg hw]
    omega

/-- A text with a character more than the width and the digits ask for starts with the sign. -/
theorem sign_of_longer (habs : w.natAbs ≤ v.natAbs) {c : UInt8} {l : List UInt8}
    (h : signedText W w = c :: l) (hl : max W (decimal v.natAbs).length ≤ l.length) :
    c = '-'.toUInt8 := by
  rcases lt_or_ge w 0 with hw | hw
  · rw [signedText_neg hw] at h
    exact (List.cons.inj h).1.symm
  · have hdigits := length_decimal_mono habs
    have hlength := congrArg List.length h
    rw [length_signedText_nonneg hw, List.length_cons] at hlength
    omega

theorem overhang_neg (hv : v < 0) (habs : w.natAbs ≤ v.natAbs) :
    List.Overhang '-'.toUInt8 padLetters ('-'.toUInt8 :: leftZeros (W - 1) (decimal v.natAbs))
      (signedText W w) where
  nil h := by cases h
  length := by
    have hle := length_signedText_le (W := W) habs
    rw [List.length_cons, length_leftZeros]
    omega
  cons c h := by
    apply sign_of_longer habs h
    rw [List.length_cons, length_leftZeros]
    omega
  last r h := by
    cases r with
    | nil => exact absurd (List.cons.inj h).2 (leftZeros_ne_nil _ _)
    | cons x r =>
        have hmem : '-'.toUInt8 ∈ leftZeros (W - 1) (decimal v.natAbs) := by
          rw [(List.cons.inj h).2]
          simp
        exact absurd hmem (minus_notMem_leftZeros _ _)
  behind z h := by
    rw [List.cons_append] at h
    obtain ⟨-, hdigits⟩ := signedText_head_minus h
    have hvalue := congrArg widthValue hdigits
    rw [widthValue_append, widthValue_leftZeros, widthValue_leftZeros] at hvalue
    omega
  carry z hz r _ h := by
    rw [(List.cons.inj h).1] at hz
    rcases hz with hz | hz <;> exact absurd hz (by decide)
  short z hz r h := by
    rw [← (List.cons.inj h).1] at hz
    rcases hz with hz | hz <;> exact absurd hz (by decide)

theorem signedText_ne_append (habs : w.natAbs ≤ v.natAbs) (z : UInt8) :
    signedText W w ≠ leftZeros W (decimal v.natAbs) ++ [z] := by
  intro h
  rcases lt_or_ge w 0 with hw | hw
  · obtain ⟨x, l, hxl⟩ := List.exists_cons_of_ne_nil (leftZeros_ne_nil W v.natAbs)
    rw [signedText_neg hw, hxl] at h
    have hx : '-'.toUInt8 = x := (List.cons.inj h).1
    exact absurd (hxl ▸ hx ▸ List.mem_cons_self) (minus_notMem_leftZeros W v.natAbs)
  · have hdigits := length_decimal_mono habs
    have hlength := congrArg List.length h
    rw [List.length_append, List.length_singleton, length_leftZeros,
      length_signedText_nonneg hw] at hlength
    omega

/-- The second character would be a sign, so the numeral would be a single 0. -/
theorem nonneg_of_carry (habs : w.natAbs ≤ v.natAbs) {r : List UInt8}
    (h : '0'.toUInt8 :: signedText W w = leftZeros W (decimal v.natAbs) ++ r) : 0 ≤ w := by
  by_contra hneg
  obtain ⟨x, l, hxl⟩ := List.exists_cons_of_ne_nil (leftZeros_ne_nil W v.natAbs)
  rw [signedText_neg (not_le.mp hneg), hxl] at h
  have hx : '0'.toUInt8 = x := (List.cons.inj h).1
  cases l with
  | nil =>
      have hvalue := widthValue_leftZeros W v.natAbs
      rw [hxl, ← hx] at hvalue
      have hv0 : v.natAbs = 0 := hvalue.symm
      omega
  | cons y l =>
      have hy : '-'.toUInt8 = y := (List.cons.inj (List.cons.inj h).2).1
      have hmem : y ∈ leftZeros W (decimal v.natAbs) := by simp [hxl]
      exact absurd (hy ▸ hmem) (minus_notMem_leftZeros W v.natAbs)

/-- A zero carried over a numeral comes out as a zero. -/
theorem eq_zero_of_carry (habs : w.natAbs ≤ v.natAbs) {r : List UInt8} (hr : r ≠ [])
    (h : '0'.toUInt8 :: signedText W w = leftZeros W (decimal v.natAbs) ++ r) :
    r = ['0'.toUInt8] := by
  have hw := nonneg_of_carry habs h
  have hdigits := length_decimal_mono habs
  have hlength := congrArg List.length h
  have hrlen : 0 < r.length := List.length_pos_iff.mpr hr
  rw [List.length_cons, List.length_append, length_signedText_nonneg hw,
    length_leftZeros] at hlength
  have hone : r.length = 1 := by omega
  obtain ⟨c, rfl⟩ := List.length_eq_one_iff.mp hone
  rw [signedText_nonneg hw] at h
  have hvalue := congrArg widthValue h
  have hskip : widthValue ('0'.toUInt8 :: leftZeros W (decimal w.natAbs)) = w.natAbs :=
    widthValue_leftZeros W w.natAbs
  rw [hskip, widthValue_append, widthValue_leftZeros] at hvalue
  have hvw : v.natAbs = w.natAbs := by omega
  rw [hvw] at h
  exact (List.eq_singleton_of_append_eq (q := ['0'.toUInt8]) h (.inl rfl)).symm

/-- A text that is shorter than the other one leaves no room for a leading zero. -/
theorem leftZeros_ne_cons (r : List UInt8) :
    leftZeros W (decimal v.natAbs) ≠ '0'.toUInt8 :: (signedText W w ++ r) := by
  intro h
  have hpos : 0 < (signedText W w).length := List.length_pos_iff.mpr signedText_ne_nil
  have hwide : W ≤ (signedText W w).length := by
    rcases lt_or_ge w 0 with hw | hw
    · rw [length_signedText_neg hw]
      omega
    · rw [length_signedText_nonneg hw]
      omega
  have hlength := congrArg List.length h
  rw [length_leftZeros, List.length_cons, List.length_append] at hlength
  rw [leftZeros_of_le (by omega)] at h
  have hv0 : v.natAbs = 0 := by
    by_contra hne
    refine Numeral.head_numeral_ne (by decide) ?_ (Nat.pos_of_ne_zero hne) _ h
    intro d hd
    interval_cases d <;> simp [digitChar]
  rw [hv0] at hlength
  have hone : (decimal 0).length = 1 := rfl
  omega

theorem overhang_nonneg (habs : w.natAbs ≤ v.natAbs) :
    List.Overhang '-'.toUInt8 padLetters (leftZeros W (decimal v.natAbs)) (signedText W w) where
  nil h := absurd h (leftZeros_ne_nil _ _)
  length := by
    have hle := length_signedText_le (W := W) habs
    rw [length_leftZeros]
    exact hle
  cons c h := by
    apply sign_of_longer habs h
    rw [length_leftZeros]
  last r h := absurd (h ▸ by simp) (minus_notMem_leftZeros W v.natAbs)
  behind z h := absurd h (signedText_ne_append habs z)
  carry z hz r hr h := by
    have hmem : z ∈ leftZeros W (decimal v.natAbs) := by
      obtain ⟨x, l, hxl⟩ := List.exists_cons_of_ne_nil (leftZeros_ne_nil W v.natAbs)
      rw [hxl] at h ⊢
      rw [(List.cons.inj h).1]
      exact List.mem_cons_self
    obtain rfl := eq_zero_char_of_padLetters hz hmem
    exact eq_zero_of_carry habs hr h
  short z hz r h := by
    obtain rfl := eq_zero_char_of_padLetters hz (h ▸ List.mem_cons_self)
    exact leftZeros_ne_cons r h

/-- Both print the same number, and the width leaves no room that the sign
could be counted in. -/
theorem signed_eq_iff : zeroPadded W (minusSign v) (decimal v.natAbs) = signedText W w ↔
    w = v ∧ (v < 0 → W ≤ (decimal v.natAbs).length) := by
  rcases lt_or_ge v 0 with hv | hv
  · rw [zeroPadded_neg hv]
    constructor
    · intro h
      obtain ⟨hw, hdigits⟩ := signedText_head_minus h.symm
      have habs : w.natAbs = v.natAbs := leftZeros_inj hdigits
      refine ⟨by omega, fun _ ↦ ?_⟩
      have hlength := congrArg List.length hdigits
      rw [length_leftZeros, length_leftZeros, habs] at hlength
      omega
    · rintro ⟨rfl, hwidth⟩
      rw [signedText_neg hv, leftZeros_of_le (hwidth hv),
        leftZeros_of_le ((Nat.sub_le W 1).trans (hwidth hv))]
  · rw [zeroPadded_nonneg hv]
    constructor
    · intro h
      rcases lt_or_ge w 0 with hw | hw
      · rw [signedText_neg hw] at h
        exact absurd (h ▸ List.mem_cons_self) (minus_notMem_leftZeros W v.natAbs)
      · rw [signedText_nonneg hw] at h
        have habs : v.natAbs = w.natAbs := leftZeros_inj h
        exact ⟨by omega, fun hneg ↦ absurd hneg (by omega)⟩
    · rintro ⟨rfl, -⟩
      rw [signedText_nonneg hv]

theorem overhang_signed (W : ℕ) (habs : w.natAbs ≤ v.natAbs) :
    List.Overhang '-'.toUInt8 padLetters (zeroPadded W (minusSign v) (decimal v.natAbs))
      (signedText W w) := by
  rcases lt_or_ge v 0 with hv | hv
  · rw [zeroPadded_neg hv]
    exact overhang_neg hv habs
  · rw [zeroPadded_nonneg hv]
    exact overhang_nonneg habs

namespace Vsnprintf

theorem natAbs_toInt32_le (v : ℤ) : (toInt32 v).natAbs ≤ v.natAbs := by
  by_cases h : -2 ^ 31 ≤ v ∧ v < 2 ^ 31
  · rw [toInt32_eq_iff.mpr h]
  · have hbounds := toInt32_bounds v
    omega

end Vsnprintf

/-! ## Pointers -/

theorem hexPrefix_of_ne {arg : BitVec 64} (h : arg ≠ 0) :
    hexPrefix arg = ['0'.toUInt8, 'x'.toUInt8] := if_neg h

theorem leftZeros_zero (digits : List UInt8) : leftZeros 0 digits = digits :=
  leftZeros_of_le (Nat.zero_le _)

theorem length_hexadecimal (n : ℕ) : (hexadecimal n).length = 1 ↔ n < 16 :=
  Numeral.length_numeral_eq_one (by decide) _ n

theorem hexadecimal_ne_nil (n : ℕ) : hexadecimal n ≠ [] := Numeral.numeral_ne_nil _ 16 n

/-- A pointer whose `padn` is `-2` and whose numeral has one digit gets one
padding character behind it. -/
def trailing (padc : UInt8) (opts : List Opt) (arg : BitVec 64) : List UInt8 :=
  if arg ≠ 0 ∧ arg.toNat < 16 ∧ fieldWidth opts = 0 then [padc] else []

namespace Vsnprintf

variable {opts : List Opt}

/-- Where `padn` stays in `int`, the printer gets the width less the prefix. -/
theorem number_of_fits {arg : BitVec 64} {conv : NumConv}
    (hfits : PadnFits (.number opts conv arg)) :
    (layout opts).number arg conv = signOf opts arg conv ++
      numField (layout opts).padc (padnFor (layout opts).padn arg conv)
        (digitsOf opts arg conv) := by
  have hstored := stored_number opts arg conv
  rw [PadFits.toInt32_eq hfits] at hstored
  exact hstored

namespace Layout.Follows

theorem number_pointer (h : (layout opts).Follows opts) {arg : BitVec 64}
    (hfits : PadnFits (.number opts .p arg)) :
    (layout opts).number arg .p =
      renderNumber opts arg .p ++ trailing (layout opts).padc opts arg := by
  have hlength := length_hexadecimal arg.toNat
  have hpos := List.length_pos_iff.mpr (hexadecimal_ne_nil arg.toNat)
  rw [number_of_fits hfits, padnFor, h.numField_sub _ hfits, renderNumber, zeroPadded, trailing,
    List.append_assoc, signOf, List.append_cancel_left_eq, digitsOf, List.append_cancel_left_eq]
  by_cases harg : arg = 0
  · rw [hexPrefix, if_pos harg]
    simp [harg]
  · rw [hexPrefix_of_ne harg, List.length_cons, List.length_singleton]
    split
    · obtain ⟨-, hlt, hwidth⟩ := ‹arg ≠ 0 ∧ _ ∧ _›
      rw [hwidth, hlength.mpr hlt]
      rfl
    · rw [List.replicate_eq_nil_iff]
      by_contra hne
      exact ‹¬ (arg ≠ 0 ∧ _ ∧ _)› ⟨harg, by omega, by omega⟩

theorem number_signed (h : (layout opts).Follows opts) {arg : BitVec 64} {conv : NumConv}
    (hconv : conv = .d ∨ conv = .i) (hfits : PadnFits (.number opts conv arg)) :
    (layout opts).number arg conv =
      signedText (fieldWidth opts) (toInt32 (signedValue opts arg)) := by
  have hvalue : intValue opts arg = toInt32 (signedValue opts arg) := by
    rw [intValue, lCount_modifiers, h.getNumVaArgs_eq]
  rw [number_of_fits hfits, signedText, ← hvalue]
  rcases hconv with rfl | rfl
  · exact congrArg _ (h.numField_eq hfits)
  · exact congrArg _ (h.numField_eq hfits)

theorem number_unsigned (h : (layout opts).Follows opts) {arg : BitVec 64} {conv : NumConv}
    (hconv : conv = .u ∨ conv = .x) (hfits : PadnFits (.number opts conv arg)) :
    (layout opts).number arg conv = renderNumber opts arg conv := by
  have hvalue : uintValue opts arg = unsignedValue opts arg := by
    rw [uintValue, lCount_modifiers, h.toNat_getUnumVaArgs]
  rw [number_of_fits hfits]
  rcases hconv with rfl | rfl
  · refine (h.numField_eq hfits).trans ?_
    simp [digitsOf, hvalue, renderNumber, zeroPadded]
  · refine (h.numField_eq hfits).trans ?_
    simp [digitsOf, hvalue, renderNumber, zeroPadded]

theorem padc_mem {l : Layout} (h : l.Follows opts) : l.padc ∈ padLetters := by
  rcases h.padc with hpadc | ⟨hpadc, -⟩
  · exact .inr hpadc
  · exact .inl hpadc

end Layout.Follows

end Vsnprintf

theorem minus_notMem_hexadecimal (n : ℕ) : '-'.toUInt8 ∉ hexadecimal n := by
  intro h
  obtain ⟨d, hd, heq⟩ := Numeral.mem_numeral (by decide) h
  interval_cases d <;> exact absurd heq (by decide)

theorem overhang_pointer {z : UInt8} (hz : z ∈ padLetters) (n : ℕ) :
    List.Overhang '-'.toUInt8 padLetters ('0'.toUInt8 :: 'x'.toUInt8 :: hexadecimal n)
      ('0'.toUInt8 :: 'x'.toUInt8 :: hexadecimal n ++ [z]) where
  nil h := by cases h
  length := by simp
  cons c h := absurd (List.cons.inj (List.cons.inj h).2).1 (by decide)
  last r h := by
    have hmem : '-'.toUInt8 ∈ '0'.toUInt8 :: 'x'.toUInt8 :: hexadecimal n := by
      rw [h]
      simp
    rcases List.mem_cons.mp hmem with hc | hmem
    · exact absurd hc (by decide)
    · rcases List.mem_cons.mp hmem with hc | hmem
      · exact absurd hc (by decide)
      · exact absurd hmem (minus_notMem_hexadecimal n)
  behind y h := by
    have hy : [z] = [y] := List.append_cancel_left h
    rw [← (List.cons.inj hy).1]
    exact hz
  carry y _ r _ h := absurd (List.cons.inj (List.cons.inj h).2).1 (by decide)
  short y _ r h := by
    have hlength := congrArg List.length h
    simp only [List.length_cons, List.length_append] at hlength
    omega

theorem overhang_trailing {padc : UInt8} (hpadc : padc ∈ padLetters) (opts : List Opt)
    (arg : BitVec 64) :
    List.Overhang '-'.toUInt8 padLetters (renderNumber opts arg .p)
      (renderNumber opts arg .p ++ trailing padc opts arg) := by
  unfold trailing
  split
  · obtain ⟨harg, -, hwidth⟩ := ‹arg ≠ 0 ∧ _ ∧ _›
    have hrender : renderNumber opts arg .p =
        '0'.toUInt8 :: 'x'.toUInt8 :: hexadecimal arg.toNat := by
      rw [renderNumber, zeroPadded, hexPrefix_of_ne harg, hwidth, Nat.zero_sub, leftZeros_zero]
      rfl
    rw [hrender]
    exact overhang_pointer hpadc _
  · rw [List.append_nil]
    exact List.Overhang.refl _

/-! ## Fields -/

/-- The inputs on which `vsnprintf` puts a field as `vprintf` does. -/
def Field.Agrees : Field → Prop
  | .lit _ => True
  | .percent => True
  | .str _ => True
  | .number opts conv arg =>
      match conv with
      | .d | .i =>
          (-2 ^ 31 ≤ signedValue opts arg ∧ signedValue opts arg < 2 ^ 31) ∧
            (signedValue opts arg < 0 →
              fieldWidth opts ≤ (decimal (signedValue opts arg).natAbs).length)
      | .p => arg = 0 ∨ 16 ≤ arg.toNat ∨ 1 ≤ fieldWidth opts
      | _ => True

/-- Nothing overflows in a field of `printf.c`. -/
def Field.Countable : Field → Prop
  | .number opts conv arg =>
      (((∀ o ∈ opts, o.Plain) ∧ conv ≠ .capX) ∧ opts.length < 2 ^ 32) ∧
        Vsnprintf.OptsFit opts ∧ Vsnprintf.PadnFits (.number opts conv arg)
  | _ => True

theorem renderNumber_signed (opts : List Opt) (arg : BitVec 64) {conv : NumConv}
    (hconv : conv = .d ∨ conv = .i) :
    renderNumber opts arg conv = zeroPadded (fieldWidth opts) (minusSign (signedValue opts arg))
      (decimal (signedValue opts arg).natAbs) := by
  rcases hconv with rfl | rfl <;> rfl

theorem overhang_field {field : Field} (h : field.Countable) :
    List.Overhang '-'.toUInt8 padLetters field.render field.stored := by
  cases field with
  | lit c => exact List.Overhang.refl _
  | percent => exact List.Overhang.refl _
  | str s => exact List.Overhang.refl _
  | number opts conv arg =>
      obtain ⟨⟨⟨hplain, hcap⟩, hlen⟩, hopts, hfits⟩ := h
      have hfollows := Vsnprintf.follows_layout hplain hopts hlen
      have hsigned : conv = .d ∨ conv = .i → List.Overhang '-'.toUInt8 padLetters
          (renderNumber opts arg conv) ((Vsnprintf.layout opts).number arg conv) := by
        intro hconv
        rw [renderNumber_signed opts arg hconv, hfollows.number_signed hconv hfits]
        exact overhang_signed _ (Vsnprintf.natAbs_toInt32_le _)
      have hunsigned : conv = .u ∨ conv = .x → List.Overhang '-'.toUInt8 padLetters
          (renderNumber opts arg conv) ((Vsnprintf.layout opts).number arg conv) := by
        intro hconv
        rw [hfollows.number_unsigned hconv hfits]
        exact List.Overhang.refl _
      change List.Overhang _ _ (renderNumber opts arg conv)
        ((Vsnprintf.layout opts).number arg conv)
      cases conv with
      | d => exact hsigned (.inl rfl)
      | i => exact hsigned (.inr rfl)
      | u => exact hunsigned (.inl rfl)
      | x => exact hunsigned (.inr rfl)
      | capX => exact absurd rfl hcap
      | p =>
          rw [hfollows.number_pointer hfits]
          exact overhang_trailing hfollows.padc_mem opts arg

theorem trailing_eq_nil_iff (padc : UInt8) (opts : List Opt) (arg : BitVec 64) :
    trailing padc opts arg = [] ↔ arg = 0 ∨ 16 ≤ arg.toNat ∨ 1 ≤ fieldWidth opts := by
  unfold trailing
  split
  · obtain ⟨harg, hlt, hwidth⟩ := ‹arg ≠ 0 ∧ _ ∧ _›
    simp only [List.cons_ne_nil, false_iff, not_or]
    exact ⟨harg, by omega, by omega⟩
  · simp only [true_iff]
    by_contra hnot
    rw [not_or, not_or] at hnot
    exact ‹¬ (arg ≠ 0 ∧ _ ∧ _)› ⟨hnot.1, by omega, by omega⟩

theorem render_eq_stored_iff {field : Field} (h : field.Countable) :
    field.render = field.stored ↔ field.Agrees := by
  cases field with
  | lit c => exact iff_of_true rfl trivial
  | percent => exact iff_of_true rfl trivial
  | str s => exact iff_of_true rfl trivial
  | number opts conv arg =>
      obtain ⟨⟨⟨hplain, hcap⟩, hlen⟩, hopts, hfits⟩ := h
      have hfollows := Vsnprintf.follows_layout hplain hopts hlen
      have hsigned : conv = .d ∨ conv = .i →
          (renderNumber opts arg conv = (Vsnprintf.layout opts).number arg conv ↔
            (-2 ^ 31 ≤ signedValue opts arg ∧ signedValue opts arg < 2 ^ 31) ∧
              (signedValue opts arg < 0 →
                fieldWidth opts ≤ (decimal (signedValue opts arg).natAbs).length)) := by
        intro hconv
        rw [renderNumber_signed opts arg hconv, hfollows.number_signed hconv hfits, signed_eq_iff,
          Vsnprintf.toInt32_eq_iff]
      change renderNumber opts arg conv = (Vsnprintf.layout opts).number arg conv ↔ _
      cases conv with
      | d => exact hsigned (.inl rfl)
      | i => exact hsigned (.inr rfl)
      | u => exact iff_of_true (hfollows.number_unsigned (.inl rfl) hfits).symm trivial
      | x => exact iff_of_true (hfollows.number_unsigned (.inr rfl) hfits).symm trivial
      | capX => exact absurd rfl hcap
      | p =>
          rw [hfollows.number_pointer hfits, List.self_eq_append_right]
          exact trailing_eq_nil_iff _ opts arg

theorem flatMap_render_eq_iff {fields : List Field} (h : ∀ field ∈ fields, field.Countable) :
    fields.flatMap Field.render = fields.flatMap Field.stored ↔
      ∀ field ∈ fields, field.Agrees := by
  have hoverhang : ∀ p ∈ fields.map fun field ↦ (field.render, field.stored),
      List.Overhang '-'.toUInt8 padLetters p.1 p.2 := by
    intro p hp
    obtain ⟨field, hfield, rfl⟩ := List.mem_map.mp hp
    exact overhang_field (h field hfield)
  have hpieces := List.flatMap_eq_iff_of_overhang hoverhang
  rw [List.flatMap_map, List.flatMap_map, List.forall_mem_map] at hpieces
  apply hpieces.trans
  constructor
  · intro hall field hfield
    exact (render_eq_stored_iff (h field hfield)).mp (hall field hfield)
  · intro hall field hfield
    exact (render_eq_stored_iff (h field hfield)).mpr (hall field hfield)

/-! ## Documented formats -/

theorem pieces_directive {opts : List Opt} {k : Conv} {args : List Arg} {p : Field × List Arg}
    (hfetch : fetch opts k args = some p) (rest : Format) :
    (Format.directive opts k rest).pieces args = (opts, p.1) :: rest.pieces p.2 := by
  unfold fetch at hfetch
  split at hfetch <;> cases hfetch <;> rfl

/-- Without unsupported specifiers `read` is what `parse` makes of a format. -/
def Format.ReadAs (F : Format) (args : List Arg) (read : Option Reading) : Prop :=
  F.Documented → ∀ fields, F.fields args = some fields →
    ∃ r, read = some r ∧ r.fields = fields ∧ r.opts = (F.pieces args).map Prod.fst

theorem readAs_lit (c : UInt8) {rest : Format} {args : List Arg} {read : Option Reading}
    (h : rest.ReadAs args read) :
    (Format.lit c rest).ReadAs args (read.map (.piece [] (.lit c))) := by
  intro hdoc fields hmatch
  obtain ⟨fields, hrest, rfl⟩ := Option.map_eq_some_iff.mp hmatch
  obtain ⟨r, rfl, rfl, hopts⟩ := h hdoc fields hrest
  exact ⟨.piece [] (.lit c) r, rfl, rfl, congrArg _ hopts⟩

theorem readAs_directive (opts : List Opt) (k : Conv) {rest : Format} (args : List Arg)
    {read : List Arg → Option Reading} (h : ∀ args, rest.ReadAs args (read args)) :
    (Format.directive opts k rest).ReadAs args
      ((fetch opts k args).bind fun p ↦ (read p.2).map (.piece opts p.1)) := by
  intro hdoc fields hmatch
  rw [fields_directive] at hmatch
  obtain ⟨p, hfetch, hmatch⟩ := Option.bind_eq_some_iff.mp hmatch
  obtain ⟨fields, hrest, rfl⟩ := Option.map_eq_some_iff.mp hmatch
  obtain ⟨r, hread, rfl, hopts⟩ := h p.2 hdoc fields hrest
  refine ⟨.piece opts p.1 r, ?_, rfl, ?_⟩
  · rw [hfetch, Option.bind_some, hread, Option.map_some]
  · rw [pieces_directive hfetch, List.map_cons, ← hopts]
    rfl

theorem readAs_parseFrom (D : Dialect) (skips : Bool) (scan : Scan) (cs : List UInt8)
    (args : List Arg) : (parseFrom D scan cs).ReadAs args (readFrom D skips scan cs args) := by
  induction cs generalizing scan args with
  | nil =>
      cases scan with
      | literal =>
          intro _ fields hmatch
          cases hmatch
          exact ⟨.done, rfl, rfl, rfl⟩
      | directive opts digits => exact fun hdoc ↦ hdoc.elim
  | cons c cs ih =>
      cases scan with
      | literal =>
          rw [readFrom, parseFrom]
          split
          · exact ih _ _
          · exact readAs_lit c (ih _ _)
      | directive opts digits =>
          rw [readFrom, parseFrom]
          split
          · exact ih _ _
          · split
            · exact ih _ _
            · cases D.opt c with
              | some o => exact ih _ _
              | none =>
                  cases D.conv c with
                  | none => exact fun hdoc ↦ hdoc.elim
                  | some k => exact readAs_directive _ k args fun args ↦ ih .literal args

/-! ## The two calls -/

/-- `vprintf` puts a text, and `vsnprintf` stores that text and its terminator. -/
def SameText (mem : Mem) (asserts : Bool) (n fmt : ℕ) (args : VaList) : Prop :=
  ∃ result out result', Vprintf.Returns mem asserts fmt args result out ∧
    Vsnprintf.Returns mem asserts n fmt args result' (Vsnprintf.cells 0 (out ++ [0]))

theorem cells_inj {a : ℕ} {s t : List UInt8}
    (h : Vsnprintf.cells a s = Vsnprintf.cells a t) : s = t := by
  induction s generalizing a t with
  | nil => cases t with
      | nil => rfl
      | cons d t => cases h
  | cons c s ih => cases t with
      | nil => cases h
      | cons d t =>
          obtain ⟨hcd, hst⟩ := List.cons.inj h
          rw [(Prod.mk.inj hcd).2, ih hst]

variable {mem : Mem} {fmt : ℕ} {f : List UInt8} {args : List Arg} {fields : List Field}

theorem sameText_iff (asserts : Bool) (hfmt : CString mem fmt f)
    (hdoc : (parse .printf f).Documented) (hvalid : ∀ a ∈ args, a.Valid mem)
    (hmatch : (parse .printf f).fields args = some fields) (beyond : VaList) {n : ℕ}
    (hn : (fields.flatMap Field.stored).length < n) :
    SameText mem asserts n fmt (slots args beyond) ↔
      fields.flatMap Field.render = fields.flatMap Field.stored := by
  have hprintf := Vprintf.returns_fields asserts hfmt hvalid hmatch beyond
  have hparse := parse_snprintf hdoc
  rw [← hparse] at hdoc hmatch
  have hsnprintf := Vsnprintf.returns_fields asserts hfmt hdoc hvalid hmatch beyond n
  simp only [Vsnprintf.writes_leave] at hsnprintf
  rw [if_neg (by omega), List.take_of_length_le (by omega)] at hsnprintf
  constructor
  · rintro ⟨result, out, result', hout, hwrites⟩
    rw [(hprintf.unique hout).2]
    exact List.append_cancel_right (cells_inj (hwrites.unique hsnprintf).2)
  · intro h
    exact ⟨_, _, _, hprintf, h ▸ hsnprintf⟩

/-- No `padn` overflows iff the widths of all pieces of the format fit. -/
theorem clean_pieces_iff (asserts : Bool) (n : ℕ) (hfmt : CString mem fmt f)
    (hdoc : (parse .printf f).Documented) (hvalid : ∀ a ∈ args, a.Valid mem)
    (hmatch : (parse .printf f).fields args = some fields) (beyond : VaList) :
    Clean (Vsnprintf.step mem asserts (Vsnprintf.enter n).1) Vsnprintf.State.fmt
        (Vsnprintf.padnComputed mem) (fmt + f.length)
        (Vsnprintf.start fmt (slots args beyond) (Vsnprintf.enter n).2) ↔
      ∀ piece ∈ (parse .printf f).pieces args,
        Vsnprintf.OptsFit piece.1 ∧ Vsnprintf.PadnFits piece.2 := by
  have hreads : (parse .snprintf f).ReadAs args
      (readFrom .snprintf (!asserts) .literal f args) := readAs_parseFrom _ _ _ _ _
  rw [parse_snprintf hdoc] at hreads
  obtain ⟨r, hread, hfields, hopts⟩ := hreads hdoc fields hmatch
  have hclean := Vsnprintf.clean_padnComputed_iff asserts n hfmt hvalid hread beyond
  rw [hfields, ← pieces_fields hmatch, hopts, List.forall_mem_map, List.forall_mem_map] at hclean
  exact hclean.trans forall₂_and.symm

theorem countable_of_pieces (hmatch : (parse .printf f).fields args = some fields)
    (hmods : ∀ opts conv arg, .number opts conv arg ∈ fields → opts.length < 2 ^ 32)
    (hfits : ∀ piece ∈ (parse .printf f).pieces args,
      Vsnprintf.OptsFit piece.1 ∧ Vsnprintf.PadnFits piece.2) :
    ∀ field ∈ fields, field.Countable := by
  intro field hfield
  cases field with
  | number opts conv arg =>
      have hpiece := hfield
      rw [← pieces_fields hmatch] at hpiece
      obtain ⟨⟨opts', field⟩, hmem, rfl⟩ := List.mem_map.mp hpiece
      cases opts_pieces hmem
      exact ⟨⟨(plain_parse f).fields hmatch hfield, hmods _ _ _ hfield⟩, hfits _ hmem⟩
  | _ => trivial

/-- On a documented format, and with a buffer that is large enough, `vsnprintf`
stores what `vprintf` puts, and no `padn` overflows on the way, exactly when
every field agrees and every width fits. -/
theorem formatters_agree_iff (mem : Mem) (asserts : Bool) (fmt : ℕ) (f : List UInt8)
    (args : List Arg) (fields : List Field) (hfmt : CString mem fmt f)
    (hdoc : (parse .printf f).Documented) (hvalid : ∀ a ∈ args, a.Valid mem)
    (hmatch : (parse .printf f).fields args = some fields)
    (hmods : ∀ opts conv arg, .number opts conv arg ∈ fields → opts.length < 2 ^ 32)
    (beyond : VaList) (n : ℕ) (hn : (fields.flatMap Field.stored).length < n) :
    (SameText mem asserts n fmt (slots args beyond) ∧
      Clean (Vsnprintf.step mem asserts (Vsnprintf.enter n).1) Vsnprintf.State.fmt
        (Vsnprintf.padnComputed mem) (fmt + f.length)
        (Vsnprintf.start fmt (slots args beyond) (Vsnprintf.enter n).2)) ↔
    ∀ piece ∈ (parse .printf f).pieces args,
      piece.2.Agrees ∧ Vsnprintf.OptsFit piece.1 ∧ Vsnprintf.PadnFits piece.2 := by
  rw [sameText_iff asserts hfmt hdoc hvalid hmatch beyond hn,
    clean_pieces_iff asserts n hfmt hdoc hvalid hmatch beyond]
  have hparts : (∀ piece ∈ (parse .printf f).pieces args,
      piece.2.Agrees ∧ Vsnprintf.OptsFit piece.1 ∧ Vsnprintf.PadnFits piece.2) ↔
      (∀ field ∈ fields, field.Agrees) ∧ ∀ piece ∈ (parse .printf f).pieces args,
        Vsnprintf.OptsFit piece.1 ∧ Vsnprintf.PadnFits piece.2 := by
    rw [← pieces_fields hmatch, List.forall_mem_map]
    exact forall₂_and
  rw [hparts]
  apply and_congr_left
  intro hfits
  exact flatMap_render_eq_iff (countable_of_pieces hmatch hmods hfits)

theorem formatters_agree_iff_example :
    let f := ascii ['%', 'l', 'x', '%', 'd']
    let mem := rodata 16 f
    let args : List Arg := [.word 0x100000000, .word 7]
    (SameText mem true 64 16 (slots args (.const 0)) ∧
      Clean (Vsnprintf.step mem true (Vsnprintf.enter 64).1) Vsnprintf.State.fmt
        (Vsnprintf.padnComputed mem) (16 + f.length)
        (Vsnprintf.start 16 (slots args (.const 0)) (Vsnprintf.enter 64).2)) ↔
    ∀ piece ∈ (parse .printf f).pieces args,
      piece.2.Agrees ∧ Vsnprintf.OptsFit piece.1 ∧ Vsnprintf.PadnFits piece.2 :=
  formatters_agree_iff _ true 16 (ascii ['%', 'l', 'x', '%', 'd'])
    [.word 0x100000000, .word 7] [.number [.l] .x 0x100000000, .number [] .d 7]
    (by decide) (by decide)
    (by simp [Arg.Valid]) rfl
    (by
      intro opts conv arg h
      rcases List.mem_cons.mp h with h | h
      · rw [(Field.number.inj h).1]
        decide
      · rw [(Field.number.inj (List.mem_singleton.mp h)).1]
        decide)
    (.const 0) 64 (by decide)

/-- `%ld` of 2^32 is printed by `printf`, and stored as `0` by `snprintf`. -/
theorem not_sameText_ld :
    ¬ SameText (rodata 16 (ascii ['%', 'l', 'd'])) true 64 16
      (slots [.word 0x100000000] (.const 0)) := by
  have hfmt : CString (rodata 16 (ascii ['%', 'l', 'd'])) 16 (ascii ['%', 'l', 'd']) := by decide
  have hmatch : (parse .printf (ascii ['%', 'l', 'd'])).fields [.word 0x100000000] =
      some [.number [.l] .d 0x100000000] := rfl
  have h := sameText_iff true hfmt (by decide) (by simp [Arg.Valid]) hmatch (.const 0)
    (n := 64) (by decide)
  rw [h]
  decide

end BaizeBoard
