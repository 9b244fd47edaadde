import BaizeBoard.Libc.VprintfRun
import BaizeBoard.Libc.VsnprintfRun

/-!
# The common part of the two format languages

On the directives that `printf.c` documents, the scanner of `snprintf.c` reads
the same format, fetches each argument at the same width and pads to the same
number of characters.
-/

namespace BaizeBoard

/-! ## Both read the same format -/

def Opt.Plain : Opt → Prop
  | .l => True
  | .z => True
  | .minus => False
  | .width digits => digits.head? = some '0'.toUInt8

def Format.Plain : Format → Prop
  | .done => True
  | .lit _ rest => rest.Plain
  | .directive opts conv rest => (∀ o ∈ opts, o.Plain) ∧ conv ≠ .num .capX ∧ rest.Plain
  | .broken _ _ => True

theorem plain_width {c : UInt8} (h : Dialect.opensWidth .printf c = true) :
    (Opt.width [c]).Plain := by
  rw [zero_of_opensWidth h]
  rfl

theorem plain_opt {c : UInt8} {o : Opt} (h : Dialect.opt .printf c = some o) : o.Plain := by
  rcases opt_cases h with ⟨-, rfl⟩ | ⟨-, rfl⟩ | ⟨⟨⟩, -⟩
  · trivial
  · trivial

theorem plain_concat {opts : List Opt} {o : Opt} (hopts : ∀ o ∈ opts, o.Plain) (ho : o.Plain) :
    ∀ o' ∈ opts ++ [o], o'.Plain := by
  intro o' ho'
  rcases List.mem_append.mp ho' with hmem | hmem
  · exact hopts o' hmem
  · cases List.mem_singleton.mp hmem
    exact ho

theorem plain_parseFrom (scan : Scan) (cs : List UInt8)
    (hscan : ∀ opts digits, scan = .directive opts digits → ∀ o ∈ closeWidth opts digits, o.Plain) :
    (parseFrom .printf scan cs).Plain := by
  induction cs generalizing scan with
  | nil => cases scan <;> trivial
  | cons c cs ih =>
      cases scan with
      | literal =>
          unfold parseFrom
          split
          · apply ih
            rintro opts digits ⟨⟩ o ho
            cases ho
          · exact ih .literal (by rintro opts digits ⟨⟩)
      | directive opts digits =>
          have hopts := hscan opts digits rfl
          unfold parseFrom
          split
          · obtain ⟨ds, rfl⟩ := Option.isSome_iff_exists.mp (‹_ ∧ _›).1
            apply ih
            rintro opts' digits' ⟨⟩
            apply plain_concat fun o ho ↦ hopts o (List.mem_append_left _ ho)
            have hhead : ds.head? = some '0'.toUInt8 := hopts (.width ds) (by simp [closeWidth])
            simp only [Opt.Plain]
            rw [List.head?_append, hhead]
            rfl
          · split
            · apply ih
              rintro opts' digits' ⟨⟩
              exact plain_concat hopts (plain_width ‹Dialect.opensWidth .printf c = true›)
            · cases hopt : Dialect.opt .printf c with
              | some o =>
                  apply ih
                  rintro opts' digits' ⟨⟩
                  exact plain_concat hopts (plain_opt hopt)
              | none =>
                  cases hconv : Dialect.conv .printf c with
                  | some k =>
                      exact ⟨hopts, conv_ne_capX hconv, ih .literal (by rintro opts digits ⟨⟩)⟩
                  | none => trivial

theorem plain_parse (f : List UInt8) : (parse .printf f).Plain :=
  plain_parseFrom .literal f (by rintro opts digits ⟨⟩)

theorem Format.Plain.fields {F : Format} (h : F.Plain) {args : List Arg} {fields : List Field}
    (hmatch : F.fields args = some fields) {opts : List Opt} {conv : NumConv} {w : BitVec 64}
    (hmem : .number opts conv w ∈ fields) : (∀ o ∈ opts, o.Plain) ∧ conv ≠ .capX := by
  induction F generalizing args fields with
  | done => cases hmatch; cases hmem
  | broken opts rest => cases hmatch; cases hmem
  | lit c rest ih =>
      obtain ⟨fields, hrest, rfl⟩ := Option.map_eq_some_iff.mp hmatch
      exact ih h hrest (by simpa using hmem)
  | directive opts' k rest ih =>
      obtain ⟨hopts, hk, hplain⟩ := h
      match k, args, hmatch with
      | .percent, _, hmatch =>
          obtain ⟨fields, hrest, rfl⟩ := Option.map_eq_some_iff.mp hmatch
          exact ih hplain hrest (by simpa using hmem)
      | .s, .str addr str :: args, hmatch =>
          obtain ⟨fields, hrest, rfl⟩ := Option.map_eq_some_iff.mp hmatch
          exact ih hplain hrest (by simpa using hmem)
      | .num conv', .word w' :: args, hmatch =>
          obtain ⟨fields, hrest, rfl⟩ := Option.map_eq_some_iff.mp hmatch
          rcases List.mem_cons.mp hmem with heq | hmem
          · cases heq
            exact ⟨hopts, fun hc ↦ hk (congrArg Conv.num hc)⟩
          · exact ih hplain hrest hmem

theorem opensWidth_printf {c : UInt8} (h : Dialect.opensWidth .printf c = true) :
    Dialect.opensWidth .snprintf c = true :=
  digit_of_opensWidth h

theorem opt_printf {c : UInt8} {o : Opt} (h : Dialect.opt .printf c = some o) :
    Dialect.opensWidth .snprintf c = false ∧ Dialect.opt .snprintf c = some o := by
  rcases opt_cases h with ⟨rfl, rfl⟩ | ⟨rfl, rfl⟩ | ⟨⟨⟩, -⟩
  · exact ⟨rfl, rfl⟩
  · exact ⟨rfl, rfl⟩

theorem conv_printf {c : UInt8} {k : Conv} (h : Dialect.conv .printf c = some k) :
    Dialect.opensWidth .snprintf c = false ∧ Dialect.opt .snprintf c = none ∧
      Dialect.conv .snprintf c = some k := by
  have hk := conv_ne_capX h
  obtain rfl := char_conv h
  cases k with
  | percent | s => exact ⟨rfl, rfl, rfl⟩
  | num conv =>
      cases conv with
      | capX => exact absurd rfl hk
      | d | i | u | x | p => exact ⟨rfl, rfl, rfl⟩

theorem parseFrom_snprintf (scan : Scan) (cs : List UInt8)
    (hdoc : (parseFrom .printf scan cs).Documented) :
    parseFrom .snprintf scan cs = parseFrom .printf scan cs := by
  induction cs generalizing scan with
  | nil => cases scan <;> rfl
  | cons c cs ih =>
      cases scan with
      | literal =>
          unfold parseFrom at hdoc ⊢
          split at hdoc
          · rw [if_pos ‹_›, if_pos ‹_›, ih _ hdoc]
          · rw [if_neg ‹_›, if_neg ‹_›, ih .literal hdoc]
      | directive opts digits =>
          by_cases hdigit : digits.isSome = true ∧ isDigit c = true
          · simp only [parseFrom, hdigit, and_self, if_true] at hdoc ⊢
            exact ih _ hdoc
          · by_cases hwidth : Dialect.opensWidth .printf c = true
            · simp only [parseFrom, hdigit, if_false, hwidth, opensWidth_printf hwidth,
                if_true] at hdoc ⊢
              exact ih _ hdoc
            · simp only [parseFrom, hdigit, if_false, hwidth] at hdoc ⊢
              cases hopt : Dialect.opt .printf c with
              | some o =>
                  obtain ⟨hwidth', hopt'⟩ := opt_printf hopt
                  simp only [hopt] at hdoc
                  simp only [hwidth', hopt', ih _ hdoc]
                  rfl
              | none =>
                  cases hconv : Dialect.conv .printf c with
                  | some k =>
                      obtain ⟨hwidth', hopt', hconv'⟩ := conv_printf hconv
                      simp only [hopt, hconv] at hdoc
                      simp only [hwidth', hopt', hconv', ih .literal hdoc]
                      rfl
                  | none =>
                      simp only [hopt, hconv] at hdoc
                      exact hdoc.elim

/-- `vsnprintf` reads a format that `vprintf` documents as `vprintf` does. -/
theorem parse_snprintf {f : List UInt8} (hdoc : (parse .printf f).Documented) :
    parse .snprintf f = parse .printf f :=
  parseFrom_snprintf .literal f hdoc

/-! ## Both lay out the same width -/

namespace Vsnprintf

/-- The scanner's variables after items that `vprintf` reads as well. -/
structure Layout.Follows (l : Layout) (opts : List Opt) : Prop where
  left : l.left = false
  padn : l.padn = fieldWidth opts
  padc : l.padc = '0'.toUInt8 ∨ l.padc = 0 ∧ fieldWidth opts = 0
  lCount : if wide opts then 1 ≤ l.lCount else l.lCount = 0
  le : l.lCount ≤ opts.length

theorem Layout.Follows.read {l : Layout} {opts : List Opt} (h : l.Follows opts) {o : Opt}
    (ho : o.Plain) (hfit : ∀ digits, o = .width digits → (widthValue digits : ℤ) ≤ intMax)
    (hlen : opts.length + 1 < 2 ^ 32) : (l.read o).Follows (opts ++ [o]) := by
  have hl := h.lCount
  have hle := h.le
  cases o with
  | l =>
      have hmod : (l.read .l).lCount = l.lCount + 1 := Nat.mod_eq_of_lt (by omega)
      refine ⟨h.left, ?_, ?_, ?_, ?_⟩
      · rw [fieldWidth_append]
        exact h.padn
      · rw [fieldWidth_append]
        exact h.padc
      · rw [hmod]
        simp [wide_append]
      · rw [hmod]
        simpa using hle
  | z =>
      refine ⟨h.left, ?_, ?_, ?_, ?_⟩
      · rw [fieldWidth_append]
        exact h.padn
      · rw [fieldWidth_append]
        exact h.padc
      · simp [wide_append, Layout.read]
      · simp [Layout.read]
  | minus => exact ho.elim
  | width digits =>
      refine ⟨h.left, ?_, ?_, ?_, ?_⟩
      · rw [fieldWidth_append, Layout.read, h.left]
        exact toInt32_width (hfit digits rfl) false
      · exact .inl (if_pos ho)
      · simpa [wide_append, Layout.read] using hl
      · simp only [Layout.read, List.length_append, List.length_singleton]
        omega

theorem follows_layout {opts : List Opt} (hplain : ∀ o ∈ opts, o.Plain) (hfit : OptsFit opts)
    (hlen : opts.length < 2 ^ 32) : (layout opts).Follows opts := by
  induction opts using List.reverseRecOn with
  | nil => exact ⟨rfl, rfl, .inr ⟨rfl, rfl⟩, rfl, le_refl _⟩
  | append_singleton opts o ih =>
      rw [List.length_append, List.length_singleton] at hlen
      rw [optsFit_append_iff] at hfit
      rw [layout_append]
      exact (ih (fun o ho ↦ hplain o (List.mem_append_left _ ho)) hfit.1 (by omega)).read
        (hplain o (by simp)) hfit.2 hlen

namespace Layout.Follows

variable {l : Layout} {opts : List Opt}

theorem getNumVaArgs_eq (h : l.Follows opts) (arg : BitVec 64) :
    getNumVaArgs arg l.lCount = signedValue opts arg := by
  have hl := h.lCount
  unfold signedValue
  split at hl
  · rw [getNumVaArgs_wide arg (by omega), if_pos ‹_›]
  · rw [hl, Nat.cast_zero, getNumVaArgs_zero, if_neg ‹_›]

theorem toNat_getUnumVaArgs (h : l.Follows opts) (arg : BitVec 64) :
    (getUnumVaArgs arg l.lCount).toNat = unsignedValue opts arg := by
  have hl := h.lCount
  unfold unsignedValue
  split at hl
  · rw [getUnumVaArgs_wide arg (by omega), if_pos ‹_›]
  · rw [hl, Nat.cast_zero, getUnumVaArgs_zero, if_neg ‹_›, BitVec.toNat_setWidth_of_le (by omega)]

/-- Where a prefix of `k` characters has been taken off the width, what is missing to
`k` characters is padded behind the digits. -/
theorem numField_sub (h : l.Follows opts) (k : ℕ) {digits : List UInt8}
    (hfits : PadFits (l.padn - k) digits.length) :
    numField l.padc (l.padn - k) digits = leftZeros (fieldWidth opts - k) digits ++
      List.replicate (k - (fieldWidth opts + digits.length)) l.padc := by
  have hright : (-(digits.length + ((fieldWidth opts : ℤ) - k))).toNat =
      k - (fieldWidth opts + digits.length) := by omega
  have hleft : ((fieldWidth opts : ℤ) - k - digits.length).toNat =
      fieldWidth opts - k - digits.length := by omega
  rw [numField_of_fits _ hfits, h.padn, hleft, hright, leftZeros, List.leftpad]
  rcases h.padc with hpadc | ⟨-, hw⟩
  · rw [hpadc]
  · simp [hw]

theorem numField_eq (h : l.Follows opts) {digits : List UInt8}
    (hfits : PadFits l.padn digits.length) :
    numField l.padc l.padn digits = leftZeros (fieldWidth opts) digits := by
  simpa using h.numField_sub 0 (by simpa using hfits)

end Layout.Follows

end Vsnprintf

/-! ## The digits -/

theorem isDigit_of_mem_leftZeros {w n : ℕ} {c : UInt8} (h : c ∈ leftZeros w (decimal n)) :
    isDigit c = true := by
  rw [leftZeros, List.leftpad, List.mem_append, List.mem_replicate] at h
  rcases h with ⟨-, rfl⟩ | h
  · rfl
  · obtain ⟨d, hd, rfl⟩ := Numeral.mem_numeral (by decide) h
    interval_cases d <;> rfl

theorem widthValue_leftZeros (w n : ℕ) : widthValue (leftZeros w (decimal n)) = n := by
  refine Numeral.reading_leftpad (by decide) ?_ w n
  intro d hd
  interval_cases d <;> rfl

theorem leftZeros_ne_nil (w n : ℕ) : leftZeros w (decimal n) ≠ [] := by
  have hpos : 0 < (leftZeros w (decimal n)).length := by
    rw [length_leftZeros, decimal, numeral, Numeral.length_numeral]
    have hdigits := Numeral.length_lowFirst_pos 10 n
    omega
  exact List.length_pos_iff.mp hpos

theorem length_decimal_mono {m n : ℕ} (h : m ≤ n) :
    (decimal m).length ≤ (decimal n).length := by
  simpa [decimal, numeral] using Numeral.length_lowFirst_mono h

end BaizeBoard
