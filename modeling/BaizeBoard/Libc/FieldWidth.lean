import BaizeBoard.Libc.Truncation

/-!
# Field widths of `vsnprintf`

The comment above `vsnprintf` documents three widths: `%0NN` pads a number with
zeros on the left, `%NN` and `%-NN` pad a number or a string with spaces on the
left or right.  `Padded` is this contract for one field.

The scanner puts a sign or prefix before the number printer pads, counts only
the prefix, takes `padc` from the first digit whatever the side, and does not
pad strings.
-/

namespace BaizeBoard

/-- The pieces of a format: each field with the items of its directive. -/
def Format.pieces : Format → List Arg → List (List Opt × Field)
  | .done, _ => []
  | .lit c rest, args => ([], .lit c) :: rest.pieces args
  | .directive opts .percent rest, args => (opts, .percent) :: rest.pieces args
  | .directive opts .s rest, .str _ s :: args => (opts, .str s) :: rest.pieces args
  | .directive opts (.num conv) rest, .word w :: args =>
      (opts, .number opts conv w) :: rest.pieces args
  | .directive _ .s _, _ => []
  | .directive _ (.num _) _, _ => []
  | .broken _ _, _ => []

theorem pieces_fields {F : Format} {args : List Arg} {fields : List Field}
    (hmatch : F.fields args = some fields) : (F.pieces args).map Prod.snd = fields := by
  induction F, args using Format.fields.induct generalizing fields with
  | case1 | case6 | case7 | case8 => simp_all [Format.fields, Format.pieces]
  | case2 | case3 | case4 | case5 =>
      rename_i ih
      rw [Format.fields, Option.map_eq_some_iff] at hmatch
      obtain ⟨rest, hrest, rfl⟩ := hmatch
      rw [Format.pieces, List.map_cons, ih hrest]

theorem opts_pieces {F : Format} {args : List Arg} {opts opts' : List Opt} {conv : NumConv}
    {arg : BitVec 64} (h : (opts, .number opts' conv arg) ∈ F.pieces args) : opts' = opts := by
  induction F, args using Format.fields.induct with
  | case1 | case6 | case7 | case8 => simp_all [Format.pieces]
  | case2 | case3 | case4 | case5 =>
      rename_i ih
      rw [Format.pieces] at h
      rcases List.mem_cons.mp h with heq | hmem
      · cases heq <;> rfl
      · exact ih hmem

namespace Vsnprintf

/-! ## The layout of a directive with one width group -/

theorem lCount_modifiers (opts : List Opt) :
    (layout (modifiers opts)).lCount = (layout opts).lCount := by
  unfold modifiers
  induction opts using List.reverseRecOn with
  | nil => rfl
  | append_singleton opts o ih =>
      rw [List.filter_append, layout_append]
      cases o with
      | width digits => simpa [Layout.read] using ih
      | l => simp [layout_append, Layout.read, ih]
      | z => simp [layout_append, Layout.read]
      | minus => simp [layout_append, Layout.read, ih]

theorem left_layout (opts : List Opt) : (layout opts).left = decide (Opt.minus ∈ opts) := by
  induction opts using List.reverseRecOn with
  | nil => rfl
  | append_singleton opts o ih => cases o <;> simp [layout_append, Layout.read, ih]

/-- Behind the width group stand length modifiers only. -/
theorem layout_width (pre post : List Opt) {digits : List UInt8}
    (hpost : ∀ o ∈ post, o = .l ∨ o = .z) (hfit : (widthValue digits : ℤ) ≤ intMax) :
    (layout (pre ++ .width digits :: post)).padc = padChar digits ∧
      (layout (pre ++ .width digits :: post)).padn =
        if Opt.minus ∈ pre then -(widthValue digits : ℤ) else widthValue digits := by
  induction post using List.reverseRecOn with
  | nil =>
      rw [layout_append, Layout.read, left_layout, toInt32_width hfit]
      simp
  | append_singleton post o ih =>
      have ih := ih fun o ho ↦ hpost o (List.mem_append_left _ ho)
      rw [← List.cons_append, ← List.append_assoc, layout_append]
      rcases hpost o (by simp) with rfl | rfl <;> exact ih

/-! ## Padding -/

/-- `stored` is a value, `sign` and `digits`, in a field of width `w`: on the left side or
with zeros, as the directive asks. -/
structure Padded (left zero number : Bool) (w : ℕ) (sign digits stored : List UInt8) : Prop where
  length : stored.length = max w (sign ++ digits).length
  behind : left → stored =
    sign ++ digits ++ List.replicate (w - (sign ++ digits).length) ' '.toUInt8
  before : ¬ left → ¬ zero → stored =
    List.replicate (w - (sign ++ digits).length) ' '.toUInt8 ++ (sign ++ digits)
  zeros : ¬ left → zero → number → stored =
    sign ++ List.replicate (w - (sign ++ digits).length) '0'.toUInt8 ++ digits

variable {left zero : Bool} {w : ℕ} {digits : List UInt8}

theorem padded_whole {number : Bool} {sign : List UInt8}
    (h : w ≤ (sign ++ digits).length) :
    Padded left zero number w sign digits (sign ++ digits) := by
  have hnone : w - (sign ++ digits).length = 0 := by omega
  refine ⟨(max_eq_right h).symm, fun _ ↦ ?_, fun _ _ ↦ ?_, fun _ _ _ ↦ ?_⟩ <;> rw [hnone] <;> simp

theorem numField_left (padc : UInt8) {w : ℕ} (hfits : PadFits (-(w : ℤ)) digits.length) :
    numField padc (-(w : ℤ)) digits = digits ++ List.replicate (w - digits.length) padc := by
  have hbefore : (-(w : ℤ) - digits.length).toNat = 0 := by omega
  have hbehind : (-((digits.length : ℤ) + -w)).toNat = w - digits.length := by omega
  rw [numField_of_fits padc hfits, hbefore, hbehind]
  rfl

theorem numField_right (padc : UInt8) {w : ℕ} (hfits : PadFits w digits.length) :
    numField padc w digits = List.replicate (w - digits.length) padc ++ digits := by
  have hbefore : ((w : ℤ) - digits.length).toNat = w - digits.length := by omega
  rw [numField_of_nonneg padc (Int.natCast_nonneg w) hfits, hbefore]

def padOf (zero : Bool) : UInt8 := if zero then '0'.toUInt8 else ' '.toUInt8

def sided (left : Bool) (w : ℕ) : ℤ := if left then -(w : ℤ) else w

/-- Without a sign or prefix only zeros behind the digits are wrong. -/
theorem padded_plain_iff (hfits : PadFits (sided left w) digits.length) :
    Padded left zero true w [] digits (numField (padOf zero) (sided left w) digits) ↔
      (left → zero → w ≤ digits.length) := by
  cases left with
  | false =>
      simp only [sided, Bool.false_eq_true, if_false] at hfits ⊢
      rw [numField_right _ hfits]
      refine iff_of_true ?_ (by simp)
      refine ⟨?_, by simp, fun _ hzero ↦ ?_, fun _ hzero _ ↦ ?_⟩
      · simp only [List.length_append, List.length_replicate, List.nil_append]
        omega
      · simp [padOf, hzero]
      · simp [padOf, hzero]
  | true =>
      simp only [sided, if_true] at hfits ⊢
      rw [numField_left _ hfits]
      constructor
      · rintro h - hzero
        have heq := h.behind rfl
        rw [List.nil_append, List.append_cancel_left_eq, List.replicate_inj, padOf,
          if_pos hzero] at heq
        rcases heq.2 with hnone | hpad
        · omega
        · exact absurd hpad (by decide)
      · intro hle
        refine ⟨?_, fun _ ↦ ?_, by simp, by simp⟩
        · simp only [List.length_append, List.length_replicate, List.nil_append]
          omega
        · cases zero with
          | false => simp [padOf]
          | true =>
              have hnone : w - digits.length = 0 := Nat.sub_eq_zero_of_le (hle trivial rfl)
              simp [hnone]

/-- Behind the sign stand `k` characters more than the digits, which the width has no room for. -/
theorem padded_surplus_iff {number : Bool} {sign body : List UInt8} {k : ℕ}
    (hbody : body.length = digits.length + k) (hnone : k = 0 → body = digits)
    (hw : w < (sign ++ digits).length + max k 1) :
    Padded left zero number w sign digits (sign ++ body) ↔ k = 0 := by
  constructor
  · intro h
    have hlength := h.length
    simp only [List.length_append, hbody] at hlength hw
    omega
  · intro hk
    rw [hnone hk]
    exact padded_whole (by omega)

theorem length_numField_sided (padc : UInt8) (hfits : PadFits (sided left w) digits.length) :
    (numField padc (sided left w) digits).length = digits.length + (w - digits.length) := by
  cases left with
  | false =>
      simp only [sided, Bool.false_eq_true, if_false] at hfits ⊢
      rw [numField_right padc hfits, List.length_append, List.length_replicate, add_comm]
  | true =>
      simp only [sided, if_true] at hfits ⊢
      rw [numField_left padc hfits, List.length_append, List.length_replicate]

theorem numField_sided_of_le (padc : UInt8) (hfits : PadFits (sided left w) digits.length)
    (h : w ≤ digits.length) : numField padc (sided left w) digits = digits := by
  cases left with
  | false =>
      simp only [sided, Bool.false_eq_true, if_false] at hfits ⊢
      simp [numField_right padc hfits, Nat.sub_eq_zero_of_le h]
  | true =>
      simp only [sided, if_true] at hfits ⊢
      simp [numField_left padc hfits, Nat.sub_eq_zero_of_le h]

/-- A minus sign is not counted, so the field is one too long as soon as it is padded. -/
theorem padded_negative_iff (c : UInt8) (hfits : PadFits (sided left w) digits.length) :
    Padded left zero true w [c] digits ([c] ++ numField (padOf zero) (sided left w) digits) ↔
      w ≤ digits.length := by
  rw [← Nat.sub_eq_zero_iff_le]
  apply padded_surplus_iff (length_numField_sided (padOf zero) hfits)
  · intro hnone
    exact numField_sided_of_le _ hfits (Nat.sub_eq_zero_iff_le.mp hnone)
  · simp only [List.length_append, List.length_singleton]
    omega

/-- On the left the prefix adds to the padding, and so it does on the right where the width is
too small for it. -/
theorem padded_behind_iff {sign : List UInt8} (hsign : sign.length = 2) {v : ℕ}
    (hfits : PadFits (sided true v) digits.length)
    (hw : w < digits.length + 2 + max (v - digits.length) 1) :
    Padded left zero true w sign digits (sign ++ numField (padOf zero) (-(v : ℤ)) digits) ↔
      v ≤ digits.length := by
  rw [← Nat.sub_eq_zero_iff_le]
  have hfield : numField (padOf zero) (-(v : ℤ)) digits =
      numField (padOf zero) (sided true v) digits := by
    rw [sided, if_pos rfl]
  rw [hfield]
  apply padded_surplus_iff (length_numField_sided (padOf zero) hfits)
  · intro hnone
    exact numField_sided_of_le _ hfits (Nat.sub_eq_zero_iff_le.mp hnone)
  · rw [List.length_append, hsign]
    omega

/-- The padding comes between the prefix and the digits, where only zeros are right. -/
theorem padded_between_iff {sign : List UInt8} (hsign : sign = ['0'.toUInt8, 'x'.toUInt8]) :
    Padded false zero true w sign digits (sign ++
        (List.replicate (w - (sign ++ digits).length) (padOf zero) ++ digits)) ↔
      (zero ∨ w ≤ (sign ++ digits).length) := by
  constructor
  · intro h
    refine or_iff_not_imp_left.mpr fun hzero ↦ ?_
    by_contra hwide
    have hbefore := h.before Bool.false_ne_true hzero
    obtain ⟨k, hk⟩ : ∃ k, w - (sign ++ digits).length = k + 1 :=
      ⟨w - (sign ++ digits).length - 1, by omega⟩
    have hhead := congrArg List.head? hbefore
    rw [hk, List.replicate_succ, hsign] at hhead
    exact absurd (Option.some.inj hhead) (by decide)
  · intro hok
    by_cases hnarrow : w ≤ (sign ++ digits).length
    · rw [Nat.sub_eq_zero_of_le hnarrow]
      exact padded_whole hnarrow
    · have hzero : zero = true := hok.resolve_right hnarrow
      refine ⟨?_, by simp, fun _ hnot ↦ absurd hzero hnot, fun _ _ _ ↦ ?_⟩
      · simp only [List.length_append, List.length_replicate]
        omega
      · simp [padOf, hzero]

/-- The prefix is taken off the width on either side. -/
theorem padded_pointer_iff {sign : List UInt8} (hsign : sign = ['0'.toUInt8, 'x'.toUInt8])
    (hdigits : 0 < digits.length) (hfits : PadFits (sided left w - 2) digits.length) :
    Padded left zero true w sign digits
        (sign ++ numField (padOf zero) (sided left w - 2) digits) ↔
      if left then w + 2 ≤ digits.length
      else (zero ∨ w ≤ digits.length + 2) ∧ ¬ (w = 0 ∧ digits.length = 1) := by
  have hlen : sign.length = 2 := by rw [hsign]; rfl
  cases left with
  | true =>
      have hpadn : sided true w - 2 = -((w + 2 : ℕ) : ℤ) := by
        simp only [sided, if_true]
        omega
      rw [hpadn] at hfits ⊢
      rw [if_pos rfl]
      exact padded_behind_iff hlen hfits (by omega)
  | false =>
      rw [if_neg Bool.false_ne_true]
      rcases Nat.lt_or_ge w 2 with hsmall | hlarge
      · have hpadn : sided false w - 2 = -((2 - w : ℕ) : ℤ) := by
          simp only [sided, Bool.false_eq_true, if_false]
          omega
        rw [hpadn] at hfits ⊢
        rw [padded_behind_iff hlen hfits (by omega)]
        omega
      · have hpadn : sided false w - 2 = ((w - 2 : ℕ) : ℤ) := by
          simp only [sided, Bool.false_eq_true, if_false]
          omega
        have htotal : (sign ++ digits).length = digits.length + 2 := by
          rw [List.length_append, hlen, add_comm]
        have hpad : w - 2 - digits.length = w - (sign ++ digits).length := by omega
        rw [hpadn] at hfits ⊢
        rw [numField_right _ hfits, hpad, padded_between_iff hsign, htotal]
        exact (and_iff_left (by omega)).symm

/-! ## The fields of a format -/

/-- What a `%d` prints: the argument as its modifiers fetch it, cut to an `int`. -/
def intValue (opts : List Opt) (arg : BitVec 64) : ℤ :=
  toInt32 (getNumVaArgs arg (layout (modifiers opts)).lCount)

def uintValue (opts : List Opt) (arg : BitVec 64) : ℕ :=
  (getUnumVaArgs arg (layout (modifiers opts)).lCount).toNat

def signOf (opts : List Opt) (arg : BitVec 64) : NumConv → List UInt8
  | .d | .i => minusSign (intValue opts arg)
  | .u | .x | .capX => []
  | .p => hexPrefix arg

def digitsOf (opts : List Opt) (arg : BitVec 64) : NumConv → List UInt8
  | .d | .i => decimal (intValue opts arg).natAbs
  | .u => decimal (uintValue opts arg)
  | .x => hexadecimal (uintValue opts arg)
  | .capX => numeral 'A'.toUInt8 16 (uintValue opts arg)
  | .p => hexadecimal arg.toNat

end Vsnprintf

/-- The documented width of a field; literal text and `%%` have none. -/
def Field.Padded (left zero : Bool) (w : ℕ) : Field → Prop
  | .lit _ | .percent => True
  | .str s => Vsnprintf.Padded left zero false w [] s (Field.str s).stored
  | .number opts conv arg =>
      Vsnprintf.Padded left zero true w (Vsnprintf.signOf opts arg conv)
        (Vsnprintf.digitsOf opts arg conv) (Field.number opts conv arg).stored

/-- The widths that `vsnprintf` gets right. -/
def Field.WidthOk (left zero : Bool) (w : ℕ) : Field → Prop
  | .lit _ | .percent => True
  | .str s => w ≤ s.length
  | .number opts conv arg =>
      let length := (Vsnprintf.digitsOf opts arg conv).length
      Vsnprintf.PadFits (Vsnprintf.padnFor (Vsnprintf.sided left w) arg conv) length ∧
        match conv with
        | .d | .i =>
            if Vsnprintf.intValue opts arg < 0 then w ≤ length else left → zero → w ≤ length
        | .u | .x | .capX => left → zero → w ≤ length
        | .p =>
            if arg = 0 then left → zero → w ≤ length
            else if left then w + 2 ≤ length
            else (zero ∨ w ≤ length + 2) ∧ ¬ (w = 0 ∧ length = 1)

namespace Vsnprintf

variable {left zero : Bool} {w : ℕ} {digits : List UInt8}

theorem length_digitsOf_pos (opts : List Opt) (arg : BitVec 64) (conv : NumConv) :
    0 < (digitsOf opts arg conv).length := by
  cases conv <;> exact List.length_pos_iff.mpr (Numeral.numeral_ne_nil _ _ _)

theorem length_digitsOf_le (opts : List Opt) (arg : BitVec 64) (conv : NumConv) :
    (digitsOf opts arg conv).length ≤ numBufSize := by
  have hsigned : (intValue opts arg).natAbs < 2 ^ 64 := by
    have hbounds := toInt32_bounds (getNumVaArgs arg (layout (modifiers opts)).lCount)
    simp only [intValue]
    omega
  have hunsigned : uintValue opts arg < 2 ^ 64 := BitVec.isLt _
  cases conv with
  | d | i => exact length_numeral_le _ (by decide) hsigned
  | u => exact length_numeral_le _ (by decide) hunsigned
  | x | capX => exact length_numeral_le _ (by decide) hunsigned
  | p => exact length_numeral_le _ (by decide) arg.isLt

theorem length_signOf_le (opts : List Opt) (arg : BitVec 64) (conv : NumConv) :
    (signOf opts arg conv).length ≤ 2 := by
  cases conv with
  | d | i =>
      simp only [signOf, minusSign]
      split <;> simp
  | u | x | capX => exact Nat.zero_le 2
  | p =>
      simp only [signOf, hexPrefix]
      split <;> simp

theorem padded_str_iff (s : List UInt8) :
    Padded left zero false w [] s s ↔ w ≤ s.length := by
  constructor
  · intro h
    have hlength := h.length
    rw [List.nil_append] at hlength
    omega
  · intro h
    have hwhole : Padded left zero false w [] s ([] ++ s) := padded_whole h
    exact hwhole

theorem sided_bounds (hw : (w : ℤ) ≤ intMax) (left : Bool) :
    -intMax ≤ sided left w ∧ sided left w ≤ intMax := by
  simp only [intMax] at hw ⊢
  unfold sided
  split <;> omega

theorem padnFor_bounds {padn : ℤ} (h : -intMax ≤ padn ∧ padn ≤ intMax) (arg : BitVec 64)
    (conv : NumConv) :
    -0x80000001 ≤ padnFor padn arg conv ∧ padnFor padn arg conv ≤ intMax := by
  rw [padnFor_eq]
  simp only [intMax] at h ⊢
  split <;> omega

/-- What the printer gets is the width less the prefix, wrapped as an `int`. -/
theorem stored_number (opts : List Opt) (arg : BitVec 64) (conv : NumConv) :
    (Field.number opts conv arg).stored = signOf opts arg conv ++
      numField (layout opts).padc (toInt32 (padnFor (layout opts).padn arg conv))
        (digitsOf opts arg conv) := by
  have hsigned : toInt32 (getNumVaArgs arg (layout opts).lCount) = intValue opts arg := by
    rw [intValue, lCount_modifiers]
  have hunsigned : (getUnumVaArgs arg (layout opts).lCount).toNat = uintValue opts arg := by
    rw [uintValue, lCount_modifiers]
  have hpadn := toInt32_padn opts
  rw [padnFor_eq]
  cases conv with
  | d | i => simp [Field.stored, Layout.number, hsigned, signOf, digitsOf, hpadn]
  | u | x | capX => simp [Field.stored, Layout.number, hunsigned, signOf, digitsOf, hpadn]
  | p =>
      simp only [Field.stored, Layout.number, signOf, digitsOf, true_and, ne_eq]
      by_cases harg : arg = 0
      · rw [if_pos harg, if_neg (not_not.mpr harg), hpadn]
      · rw [if_neg harg, if_pos harg]

/-- Wrapping does not bring a width back into the bounds. -/
theorem padFits_toInt32 {padn : ℤ} {length : ℕ} (hlo : -0x80000001 ≤ padn) (hhi : padn ≤ intMax)
    (hpos : 0 < length) : PadFits (toInt32 padn) length ↔ PadFits padn length := by
  simp only [intMax] at hhi
  rcases eq_or_ne padn (-0x80000001) with rfl | hne
  · have hwrap : toInt32 (-0x80000001) = 0x7fffffff := by decide
    rw [hwrap]
    simp only [PadFits, intMax]
    omega
  · rw [toInt32_eq_iff.mpr ⟨by omega, by omega⟩]

/-- Beyond the bounds of `int` a field becomes longer than any width. -/
theorem not_padded_of_not_fits {padc : UInt8} {number : Bool} {sign : List UInt8} {padn : ℤ}
    (hw : (w : ℤ) ≤ intMax) (hsign : sign.length ≤ 2) (hdigits : digits.length ≤ numBufSize)
    (h : ¬ PadFits (toInt32 padn) digits.length) :
    ¬ Padded left zero number w sign digits (sign ++ numField padc (toInt32 padn) digits) := by
  intro hpadded
  obtain ⟨hlo, hhi⟩ := toInt32_bounds padn
  have hlength := hpadded.length
  rw [List.length_append, length_numField_of_not_fits padc (by omega)
    (by simp only [intMax]; omega) hdigits h, List.length_append] at hlength
  simp only [intMax, numBufSize] at hw hdigits
  omega

theorem padded_number_iff (hw : (w : ℤ) ≤ intMax) {opts : List Opt}
    (hpadc : (layout opts).padc = padOf zero) (hpadn : (layout opts).padn = sided left w)
    (arg : BitVec 64) (conv : NumConv) :
    (Field.number opts conv arg).Padded left zero w ↔
      (Field.number opts conv arg).WidthOk left zero w := by
  obtain ⟨hlo, hhi⟩ := padnFor_bounds (sided_bounds hw left) arg conv
  have hwrap := padFits_toInt32 hlo hhi (length_digitsOf_pos opts arg conv)
  simp only [Field.Padded, stored_number, hpadc, hpadn, Field.WidthOk]
  by_cases hfits : PadFits (padnFor (sided left w) arg conv) (digitsOf opts arg conv).length
  · refine Iff.trans ?_ (and_iff_right hfits).symm
    rw [hfits.toInt32_eq]
    cases conv with
    | d | i =>
        rw [padnFor_number _ arg (by decide)] at hfits ⊢
        simp only [signOf, minusSign]
        split
        · exact padded_negative_iff _ hfits
        · exact padded_plain_iff hfits
    | u | x | capX =>
        rw [padnFor_number _ arg (by decide)] at hfits ⊢
        exact padded_plain_iff hfits
    | p =>
        rw [padnFor_eq] at hfits ⊢
        by_cases harg : arg = 0
        · rw [if_neg fun h ↦ h.2 harg] at hfits ⊢
          simp only [signOf, hexPrefix, harg, if_true]
          exact padded_plain_iff (by rwa [harg] at hfits)
        · rw [if_pos ⟨rfl, harg⟩] at hfits ⊢
          simp only [harg, if_false]
          exact padded_pointer_iff (if_neg harg) (length_digitsOf_pos opts arg .p) hfits
  · refine iff_of_false ?_ fun h ↦ hfits h.1
    exact not_padded_of_not_fits hw (length_signOf_le opts arg conv)
      (length_digitsOf_le opts arg conv) (mt hwrap.mp hfits)

theorem padded_iff {F : Format} {args : List Arg} {pre post : List Opt} {digits : List UInt8}
    {field : Field} (hmem : (pre ++ .width digits :: post, field) ∈ F.pieces args)
    (hpost : ∀ o ∈ post, o = .l ∨ o = .z) (hfit : (widthValue digits : ℤ) ≤ intMax) :
    field.Padded (Opt.minus ∈ pre) (digits.head? = some '0'.toUInt8) (widthValue digits) ↔
      field.WidthOk (Opt.minus ∈ pre) (digits.head? = some '0'.toUInt8) (widthValue digits) := by
  cases field with
  | lit c => exact Iff.rfl
  | percent => exact Iff.rfl
  | str s => exact padded_str_iff s
  | number opts conv arg =>
      cases opts_pieces hmem
      obtain ⟨hpadc, hpadn⟩ := layout_width pre post hpost hfit
      refine padded_number_iff hfit ?_ ?_ arg conv
      · simp [hpadc, padChar, padOf]
      · simp [hpadn, sided]

/-- Every directive with a width gets the documented field in a large enough buffer iff its
width is one of those of `Field.WidthOk`. -/
theorem vsnprintf_widths_iff (mem : Mem) (asserts : Bool) (fmt : ℕ) (f : List UInt8)
    (args : List Arg) (fields : List Field) (hfmt : CString mem fmt f)
    (hdoc : (parse .snprintf f).Documented) (hvalid : ∀ a ∈ args, a.Valid mem)
    (hmatch : (parse .snprintf f).fields args = some fields) (beyond : VaList) (n : ℕ)
    (hroom : (fields.flatMap Field.stored).length < n) :
    let pieces := (parse .snprintf f).pieces args
    (∃ result writes, Returns mem asserts n fmt (slots args beyond) result writes ∧
      ∀ before, Holds (contents before writes) (pieces.flatMap (·.2.stored) ++ [0])) ∧
    ∀ pre digits post field, (pre ++ .width digits :: post, field) ∈ pieces →
      (∀ o ∈ post, o = .l ∨ o = .z) → (widthValue digits : ℤ) ≤ intMax →
      (field.Padded (Opt.minus ∈ pre) (digits.head? = some '0'.toUInt8) (widthValue digits) ↔
        field.WidthOk (Opt.minus ∈ pre) (digits.head? = some '0'.toUInt8)
          (widthValue digits)) := by
  intro pieces
  constructor
  · have hrun := returns_fields asserts hfmt hdoc hvalid hmatch beyond n
    have htext : pieces.flatMap (·.2.stored) = fields.flatMap Field.stored := by
      rw [← pieces_fields hmatch, List.flatMap_map]
    simp only [writes_leave] at hrun
    rw [if_neg (by omega), List.take_of_length_le (by omega)] at hrun
    rw [htext]
    exact ⟨_, _, hrun, fun before ↦ holds_cells before _⟩
  · intro pre digits post field hmem hpost hfit
    exact padded_iff hmem hpost hfit

/-- `snprintf(s, 16, "%-4x|", 10)` -/
theorem vsnprintf_widths_iff_example :
    let f := ascii ['%', '-', '4', 'x', '|']
    let pieces := (parse .snprintf f).pieces [.word 10]
    (∃ result writes, Returns (rodata 16 f) true 16 16 (slots [.word 10] (.const 0)) result writes ∧
      ∀ before, Holds (contents before writes) (pieces.flatMap (·.2.stored) ++ [0])) ∧
    ∀ pre digits post field, (pre ++ .width digits :: post, field) ∈ pieces →
      (∀ o ∈ post, o = .l ∨ o = .z) → (widthValue digits : ℤ) ≤ intMax →
      (field.Padded (Opt.minus ∈ pre) (digits.head? = some '0'.toUInt8) (widthValue digits) ↔
        field.WidthOk (Opt.minus ∈ pre) (digits.head? = some '0'.toUInt8)
          (widthValue digits)) :=
  vsnprintf_widths_iff _ true 16 (ascii ['%', '-', '4', 'x', '|']) [.word 10]
    [.number [.minus, .width (ascii ['4'])] .x 10, .lit '|'.toUInt8] (by decide) (by decide)
    (by simp [Arg.Valid]) rfl (.const 0) 16 (by decide)

/-- `snprintf(s, 16, "%5d", -42)` stores the sign, three spaces and the digits. -/
theorem vsnprintf_width_negative :
    Returns (rodata 16 (ascii ['%', '5', 'd'])) true 16 16
        (slots [.word 0xffffffd6] (.const 0)) 6
        (cells 0 (ascii ['-', ' ', ' ', ' ', '4', '2'] ++ [0])) ∧
      ¬ Padded false false true 5 (ascii ['-']) (ascii ['4', '2'])
        (ascii ['-', ' ', ' ', ' ', '4', '2']) := by
  constructor
  · have hrun := @returns_fields (rodata 16 (ascii ['%', '5', 'd'])) true 16
      (ascii ['%', '5', 'd']) [.word 0xffffffd6] [.number [.width (ascii ['5'])] .d 0xffffffd6]
      (by decide) (by decide) (by simp [Arg.Valid]) rfl (.const 0) 16
    simp only [writes_leave] at hrun
    rw [result_enter 16 (by decide)] at hrun
    exact hrun
  · intro h
    exact absurd h.length (by decide)

end Vsnprintf

end BaizeBoard
