import BaizeBoard.Libc.FieldWidth
import BaizeBoard.Libc.ScanEnd
import BaizeBoard.Libc.VprintfRange

/-!
# The signed computations of `vsnprintf`

`chars_printed` is a `size_t`, which wraps: it is signed only where the result
is formed from it.  A format that ends inside a directive takes the scan of a
build without assertions behind its end; what it computes there is not looked
at.

`computed` lists all signed values, `padnComputed` those of `padn` and of the
counts of the pad loops alone.

`signed_range_iff` at the end is about both formatters.
-/

namespace BaizeBoard

namespace Vsnprintf

/-- The bounds of the two pad loops of `unsigned_num_print`. -/
def State.printComputed (s : State) (unum : BitVec 64) (radix : ℕ) : List (CInt × ℤ) :=
  match fillNumBuf 'a'.toUInt8 radix numBufSize unum.toNat with
  | .ok numBuf => [(.int, s.padn - numBuf.length), (.int, numBuf.length + s.padn)]
  | .error _ => []

def State.signedComputed (all : Bool) (s : State) (arg : BitVec 64) : List (CInt × ℤ) :=
  let num := toInt32 (getNumVaArgs arg s.lCount)
  if num < 0 then
    (if all then [(.int, -num)] else []) ++ s.printComputed (toUInt32 (-num)) 10
  else s.printComputed (toUInt32 num) 10

def State.pointerComputed (s : State) (arg : BitVec 64) : List (CInt × ℤ) :=
  if arg > 0 then (.int, s.padn - 2) :: (s.subPadn 2).printComputed arg 16
  else s.printComputed arg 16

def State.unsignedComputed (s : State) (radix : ℕ) (arg : BitVec 64) : List (CInt × ℤ) :=
  s.printComputed (getUnumVaArgs arg s.lCount) radix

def State.argComputed (s : State) (k : State → BitVec 64 → List (CInt × ℤ)) : List (CInt × ℤ) :=
  k { s with args := s.args.tail } s.args.head

def State.switchComputed (all : Bool) (s : State) (ch : UInt8) : List (CInt × ℤ) :=
  if ch = 'i'.toUInt8 ∨ ch = 'd'.toUInt8 then s.argComputed (State.signedComputed all)
  else if ch = 'u'.toUInt8 then s.argComputed (State.unsignedComputed · 10)
  else if ch = 'p'.toUInt8 then s.argComputed State.pointerComputed
  else if ch = 'X'.toUInt8 ∨ ch = 'x'.toUInt8 then s.argComputed (State.unsignedComputed · 16)
  else []

/-- The values of one step; without `all` those of `padn` only. -/
def computedOf (all : Bool) (mem : Mem) (s : State) : List (CInt × ℤ) :=
  match s.mode with
  | .scan => if mem s.fmt = 0 ∧ all then [(.int, (s.buf.charsPrinted : ℤ) % 2 ^ 64)] else []
  | .directive => s.switchComputed all (mem s.fmt)
  | .width =>
      let ch := mem s.fmt
      if isDigit ch then
        [(.int, s.padn * 10), (.int, s.padn * 10 + (ch.toNat - '0'.toNat : ℤ))]
      else if s.left then [(.int, -s.padn)] else []
  | .string _ => []
  | .finished => []
  | .fault _ => []

def computed : Mem → State → List (CInt × ℤ) := computedOf true

def padnComputed : Mem → State → List (CInt × ℤ) := computedOf false

/-! ## The bounds -/

/-- The width is not so near to a bound of `int` that the digits take it beyond. -/
def PadnFits : Field → Prop
  | .number opts conv arg =>
      PadFits (padnFor (layout opts).padn arg conv) (digitsOf opts arg conv).length
  | _ => True

/-- The least `int` has no negative. -/
def NegationFits : Field → Prop
  | .number opts conv arg => conv = .d ∨ conv = .i → intValue opts arg ≠ -0x80000000
  | _ => True

def FieldFits (field : Field) : Prop := NegationFits field ∧ PadnFits field

def FitsOf (all : Bool) (field : Field) : Prop :=
  (all = true → NegationFits field) ∧ PadnFits field

def limits (all : Bool) : Limits where
  opts := OptsFit
  field := FitsOf all
  size field := field.stored.length
  running _ := True
  final total := all = true → total % 2 ^ 64 ≤ intMax
  opts_nil := by simp [OptsFit]
  opts_append h := fun d hd ↦ h d (List.mem_append_left _ hd)
  opts_digit {front digits c} h := by
    rw [optsFit_width_iff] at h ⊢
    exact ⟨h.1, widthValue_le_of_append h.2⟩

/-! ## What a number computes -/

variable {all : Bool}

theorem printComputed_fit_iff (s : State) (unum : BitVec 64) {radix : ℕ} (hradix : 10 ≤ radix)
    {length : ℕ} (hlength : (numeral 'a'.toUInt8 radix unum.toNat).length = length)
    (hlo : -0x80000001 ≤ s.padn) (hhi : s.padn ≤ intMax) :
    Fit (s.printComputed unum radix) ↔ PadFits s.padn length := by
  have hpos : 0 < length := by
    rw [← hlength]
    exact List.length_pos_iff.mpr (Numeral.numeral_ne_nil _ _ _)
  simp only [State.printComputed, fillNumBuf_numeral _ hradix, List.length_reverse, hlength,
    fit_cons, fit_nil, and_true, CInt.Fits, PadFits]
  simp only [intMax] at hhi ⊢
  omega

theorem intValue_layout {s : State} {opts : List Opt} (h : s.layout = layout opts)
    (arg : BitVec 64) : toInt32 (getNumVaArgs arg s.lCount) = intValue opts arg := by
  have hl : s.lCount = (layout opts).lCount := congrArg Layout.lCount h
  rw [intValue, lCount_modifiers, hl]

theorem uintValue_layout {s : State} {opts : List Opt} (h : s.layout = layout opts)
    (arg : BitVec 64) : (getUnumVaArgs arg s.lCount).toNat = uintValue opts arg := by
  have hl : s.lCount = (layout opts).lCount := congrArg Layout.lCount h
  rw [uintValue, lCount_modifiers, hl]

theorem signedComputed_fit_iff {s : State} {opts : List Opt} (h : s.layout = layout opts)
    (hopts : OptsFit opts) {conv : NumConv} (hconv : conv = .d ∨ conv = .i) (arg : BitVec 64) :
    Fit (s.signedComputed all arg) ↔ FitsOf all (.number opts conv arg) := by
  have hpadn : s.padn = (layout opts).padn := congrArg Layout.padn h
  obtain ⟨hlo, hhi⟩ := hopts.padn_bounds
  obtain ⟨hmin, hmax⟩ := toInt32_bounds (getNumVaArgs arg s.lCount)
  rw [← hpadn] at hlo hhi
  rw [intValue_layout h] at hmin hmax
  have hnot : conv ≠ .p := by
    rintro rfl
    rcases hconv with hd | hi
    · cases hd
    · cases hi
  have hdigits : digitsOf opts arg conv = decimal (intValue opts arg).natAbs := by
    rcases hconv with rfl | rfl <;> rfl
  have hmin' : (-0x80000000 : ℤ) ≤ s.padn := by
    simp only [intMax] at hlo
    omega
  have hprint : ∀ v : ℤ, v.natAbs = (intValue opts arg).natAbs → 0 ≤ v → v < 2 ^ 32 →
      (Fit (s.printComputed (toUInt32 v) 10) ↔
        PadFits s.padn (digitsOf opts arg conv).length) := by
    intro v habs hnonneg hlt
    refine printComputed_fit_iff s _ (by decide) ?_ (by omega) hhi
    rw [toNat_toUInt32 hnonneg hlt, habs, hdigits]
    rfl
  simp only [FitsOf, NegationFits, PadnFits, padnFor_number _ arg hnot, ← hpadn, hconv,
    true_imp_iff]
  simp only [State.signedComputed, intValue_layout h]
  by_cases hneg : intValue opts arg < 0
  · rw [if_pos hneg, fit_append, hprint _ (Int.natAbs_neg _) (by omega) (by omega)]
    apply and_congr_left'
    cases all with
    | false => simp
    | true =>
        simp only [if_true, fit_cons, fit_nil, and_true, true_imp_iff, CInt.Fits]
        omega
  · rw [if_neg hneg, hprint _ rfl (by omega) (by omega)]
    exact (and_iff_right fun _ ↦ by omega).symm

theorem unsignedComputed_fit_iff {s : State} {opts : List Opt} (h : s.layout = layout opts)
    (hopts : OptsFit opts) {conv : NumConv} {radix : ℕ} (hradix : 10 ≤ radix)
    (hconv : conv ≠ .d ∧ conv ≠ .i ∧ conv ≠ .p) (arg : BitVec 64)
    (hlength : (numeral 'a'.toUInt8 radix (uintValue opts arg)).length =
      (digitsOf opts arg conv).length) :
    Fit (s.unsignedComputed radix arg) ↔ FitsOf all (.number opts conv arg) := by
  have hpadn : s.padn = (layout opts).padn := congrArg Layout.padn h
  obtain ⟨hlo, hhi⟩ := hopts.padn_bounds
  rw [← hpadn] at hlo hhi
  have hmin : (-0x80000001 : ℤ) ≤ s.padn := by
    simp only [intMax] at hlo
    omega
  rw [← uintValue_layout h] at hlength
  simp only [FitsOf, NegationFits, PadnFits, padnFor_number _ arg hconv.2.2, ← hpadn, hconv.1,
    hconv.2.1, or_self, false_imp_iff, implies_true, true_and]
  exact printComputed_fit_iff s _ hradix hlength hmin hhi

theorem pointerComputed_fit_iff {s : State} {opts : List Opt} (h : s.layout = layout opts)
    (hopts : OptsFit opts) (arg : BitVec 64) :
    Fit (s.pointerComputed arg) ↔ FitsOf all (.number opts .p arg) := by
  have hpadn : s.padn = (layout opts).padn := congrArg Layout.padn h
  obtain ⟨hlo, hhi⟩ := hopts.padn_bounds
  rw [← hpadn] at hlo hhi
  simp only [intMax] at hlo
  have hfield : FitsOf all (.number opts .p arg) ↔
      PadFits (padnFor (layout opts).padn arg .p) (digitsOf opts arg .p).length := by
    apply and_iff_right
    rintro - (hd | hi)
    · cases hd
    · cases hi
  rw [hfield, ← hpadn, padnFor]
  unfold State.pointerComputed
  by_cases harg : arg = 0
  · rw [if_neg (by simp [harg]), hexPrefix, if_pos harg, List.length_nil, Nat.cast_zero, sub_zero]
    exact printComputed_fit_iff s arg (by decide) rfl (by omega) hhi
  · have hpos : arg > 0 := (BitVec.pos_iff_ne_zero arg).mpr harg
    have hsign : ((hexPrefix arg).length : ℤ) = 2 := by
      rw [hexPrefix, if_neg harg]
      rfl
    obtain ⟨hmin, hmax⟩ := toInt32_bounds (s.padn - 2)
    have hprint : Fit ((s.subPadn 2).printComputed arg 16) ↔
        PadFits (toInt32 (s.padn - 2)) (digitsOf opts arg .p).length :=
      printComputed_fit_iff (s.subPadn 2) arg (by decide) rfl
        (by simp only [State.subPadn]; omega) (by simp only [State.subPadn, intMax]; omega)
    rw [if_pos hpos, fit_cons, hprint, hsign,
      padFits_toInt32 (by omega) (by omega) (length_digitsOf_pos opts arg .p)]
    apply and_iff_right_of_imp
    rintro ⟨hfits, -⟩
    simp only [CInt.Fits]
    simp only [intMax] at hhi
    omega

theorem argComputed_cons {s : State} {w : BitVec 64} {args : VaList}
    (h : s.args = .cons w args) (k : State → BitVec 64 → List (CInt × ℤ)) :
    s.argComputed k = k { s with args } w := by
  simp [State.argComputed, h]

/-! ## The cases of the `switch` -/

theorem switchComputed_digit (s : State) {c : UInt8} (h : isDigit c) :
    s.switchComputed all c = [] := by
  have hne : ∀ d, isDigit d = false → c ≠ d := by
    rintro d hd rfl
    cases h.symm.trans hd
  have hi := hne 'i'.toUInt8 rfl
  have hd := hne 'd'.toUInt8 rfl
  have hu := hne 'u'.toUInt8 rfl
  have hp := hne 'p'.toUInt8 rfl
  have hcapX := hne 'X'.toUInt8 rfl
  have hx := hne 'x'.toUInt8 rfl
  simp only [State.switchComputed, hi, hd, hu, hp, hcapX, hx, or_self, if_false]

theorem switchComputed_opt (s : State) {c : UInt8} {o : Opt}
    (h : Dialect.opt .snprintf c = some o) : s.switchComputed all c = [] := by
  rcases opt_cases h with ⟨rfl, -⟩ | ⟨rfl, -⟩ | ⟨-, rfl, -⟩
  · rfl
  · rfl
  · rfl

def specifierComputed (all : Bool) (s : State) : Conv → List (CInt × ℤ)
  | .percent | .s => []
  | .num .d | .num .i => s.argComputed (State.signedComputed all)
  | .num .u => s.argComputed (State.unsignedComputed · 10)
  | .num .x | .num .capX => s.argComputed (State.unsignedComputed · 16)
  | .num .p => s.argComputed State.pointerComputed

theorem switchComputed_conv (s : State) {c : UInt8} {k : Conv}
    (h : Dialect.conv .snprintf c = some k) :
    s.switchComputed all c = specifierComputed all s k := by
  obtain rfl := char_conv h
  cases k with
  | percent | s => rfl
  | num conv => cases conv with | d | i | u | x | capX | p => rfl

theorem switchComputed_default (s : State) {c : UInt8} (hconv : Dialect.conv .snprintf c = none) :
    s.switchComputed all c = [] := by
  obtain ⟨-, -, hd, hi, hu, hx, hp, hcapX⟩ := conv_eq_none hconv
  simp only [State.switchComputed, hd, hi, hu, hx, hp, hcapX rfl, or_self, if_false]

theorem specifierComputed_fit_iff {s : State} {opts : List Opt} (h : s.layout = layout opts)
    (hopts : OptsFit opts) (conv : NumConv) {w : BitVec 64} {args : VaList}
    (hargs : s.args = .cons w args) :
    Fit (specifierComputed all s (.num conv)) ↔ FitsOf all (.number opts conv w) := by
  have hs : State.layout { s with args } = layout opts := h
  have hva := argComputed_cons hargs
  cases conv with
  | d => rw [specifierComputed, hva]; exact signedComputed_fit_iff hs hopts (.inl rfl) w
  | i => rw [specifierComputed, hva]; exact signedComputed_fit_iff hs hopts (.inr rfl) w
  | u =>
      rw [specifierComputed, hva]
      exact unsignedComputed_fit_iff hs hopts (by decide) (by decide) w rfl
  | x =>
      rw [specifierComputed, hva]
      exact unsignedComputed_fit_iff hs hopts (by decide) (by decide) w rfl
  | capX =>
      rw [specifierComputed, hva]
      refine unsignedComputed_fit_iff hs hopts (by decide) (by decide) w ?_
      simp only [digitsOf, numeral, Numeral.length_numeral]
  | p => rw [specifierComputed, hva]; exact pointerComputed_fit_iff hs hopts w

/-! ## The run -/

variable {mem : Mem} {asserts : Bool} {n stop : ℕ}

def ledger (all : Bool) (mem : Mem) (asserts : Bool) (n stop : ℕ) : Ledger State where
  clean := Clean (step mem asserts n) State.fmt (computedOf all mem) stop
  args := State.args
  total s := s.buf.charsPrinted

/-- The machine is in front of `cs`, the rest of the format up to `stop`. -/
structure Stands (mem : Mem) (stop : ℕ) (s : State) (scan : Scan) (cs : List UInt8) : Prop where
  here : At mem s scan cs
  length : s.fmt + cs.length = stop

theorem Stands.fmt_le {s : State} {scan : Scan} {cs : List UInt8} (h : Stands mem stop s scan cs) :
    s.fmt ≤ stop := by
  have hlength := h.length
  omega

theorem Stands.behind {s t : State} {scan scan' : Scan} {c : UInt8} {cs : List UInt8}
    (h : Stands mem stop s scan (c :: cs)) (hfmt : t.fmt = s.fmt + 1) (htat : At mem t scan' cs) :
    Stands mem stop t scan' cs := by
  refine ⟨htat, ?_⟩
  have hlength := h.length
  rw [List.length_cons] at hlength
  omega

theorem Passes.audited {s t : State} {k : ℕ} {demand : Prop} (h : Passes mem asserts n s t k)
    (hfmt : s.fmt ≤ stop) (hfit : Fit (computedOf all mem s) ↔ demand) :
    (ledger all mem asserts n stop).Quiet s t demand :=
  ⟨(clean_of_step h.step hfmt).trans (and_congr_left' hfit), h.args,
    congrArg (fun b : Buf ↦ (b.charsPrinted : ℤ)) h.buf⟩

theorem Emitted.total {s t : State} {args : VaList} {text : List UInt8}
    (h : Emitted n s t args text) :
    (t.buf.charsPrinted : ℤ) = s.buf.charsPrinted + text.length := by
  rw [h.buf, charsPrinted_putAll, Nat.cast_add]

theorem Emitted.audited {s t : State} {args : VaList} {field : Field}
    (h : Emitted n s t args field.stored) (hstep : step mem asserts n s = some t)
    (hfmt : s.fmt ≤ stop) (hfit : Fit (computedOf all mem s) ↔ FitsOf all field) :
    (ledger all mem asserts n stop).Puts (limits all) s t args field :=
  ⟨(clean_of_step hstep hfmt).trans (and_congr_left' (hfit.trans (and_iff_left trivial).symm)),
    h.args, h.total⟩

theorem computed_directive {s : State} {opts : List Opt} {c : UInt8} {cs : List UInt8}
    (h : At mem s (.directive opts none) (c :: cs)) :
    computedOf all mem s = s.switchComputed all c := by
  simp only [computedOf, h.1, h.2.1.1]

/-- The loop of `string_print` computes nothing signed. -/
theorem clean_string (all asserts : Bool) (n : ℕ) {str : List UInt8} {p : ℕ}
    (h : CString mem p str) (s : State) (hfmt : s.fmt ≤ stop) :
    Clean (step mem asserts n) State.fmt (computedOf all mem) stop { s with mode := .string p } ↔
      Clean (step mem asserts n) State.fmt (computedOf all mem) stop
        { s with buf := s.buf.putAll n str }.next := by
  induction str generalizing p s with
  | nil =>
      have hz : mem p = 0 := h
      have hstep : step mem asserts n { s with mode := .string p } = some s.next := by
        simp [step, hz, State.next]
      exact (clean_of_step hstep hfmt).trans (and_iff_right fit_nil)
  | cons c str ih =>
      obtain ⟨hc, hc0, hrest⟩ := h
      have hstep : step mem asserts n { s with mode := .string p } =
          some { s.put n c with mode := .string (p + 1) } := by
        simp [step, hc, hc0, State.put]
      rw [clean_of_step hstep hfmt, ih hrest (s.put n c) hfmt]
      exact and_iff_right fit_nil

theorem clean_halted {s : State} (h : s.mode = .finished ∨ ∃ f, s.mode = .fault f) :
    Clean (step mem asserts n) State.fmt (computedOf all mem) stop s := by
  rcases h with h | ⟨f, h⟩
  · exact clean_of_halt (by simp only [step, h]) (by simp only [computedOf, h])
  · exact clean_of_halt (by simp only [step, h]) (by simp only [computedOf, h])

theorem fmt_le_step {s t : State} (h : step mem asserts n s = some t) : s.fmt ≤ t.fmt := by
  have hmap := map_step asserts n mem s
  rw [h] at hmap
  exact fmt_le_move hmap.symm

theorem audit_finish {s : State} (h : Stands mem stop s .literal []) :
    (ledger all mem asserts n stop).clean s ↔
      (all = true → (s.buf.charsPrinted : ℤ) % 2 ^ 64 ≤ intMax) := by
  obtain ⟨hmode, hz⟩ := h.here
  have hnul : mem s.fmt = 0 := hz
  have hstep : step mem asserts n s = some { s with mode := .finished } := by
    simp [step, hmode, hnul]
  have hnonneg : 0 ≤ (s.buf.charsPrinted : ℤ) % 2 ^ 64 := Int.emod_nonneg _ (by decide)
  refine (clean_of_step hstep h.fmt_le).trans ((and_iff_left (clean_halted (.inl rfl))).trans ?_)
  cases all with
  | false => simp [computedOf, hmode]
  | true =>
      simp only [computedOf, hmode, hnul, and_self, if_true, fit_cons, fit_nil, and_true,
        true_imp_iff]
      exact fits_int_iff hnonneg

theorem audit_lit {s : State} {c : UInt8} {cs : List UInt8} (hc : c ≠ '%'.toUInt8)
    (h : Stands mem stop s .literal (c :: cs)) :
    ∃ t, (ledger all mem asserts n stop).Puts (limits all) s t s.args (.lit c) ∧
      Stands mem stop t .literal cs := by
  obtain ⟨t, hstep, hemit⟩ := step_lit asserts n hc h.here
  obtain ⟨hmode, hch, hc0, hfmt⟩ := h.here
  refine ⟨t, hemit.audited hstep h.fmt_le (iff_of_true ?_ ⟨fun _ ↦ trivial, trivial⟩),
    h.behind hemit.fmt (hemit.at_literal hfmt)⟩
  simp [computedOf, hmode, hch, hc0]

theorem computed_digit {s : State} {c : UInt8} (hmode : s.mode = .width) (hc : mem s.fmt = c)
    (hdigit : isDigit c) :
    computedOf all mem s =
      [(.int, s.padn * 10), (.int, s.padn * 10 + (c.toNat - '0'.toNat : ℤ))] := by
  simp only [computedOf, hmode, hc, hdigit, if_true]

theorem padn_eq_widthValue {s : State} {opts : List Opt} {digits : List UInt8}
    (hopts : OptsFit (opts ++ [.width digits]))
    (hlayout : s.layout = { layout opts with padc := padChar digits,
                                             padn := toInt32 (widthValue digits) }) :
    s.padn = widthValue digits := by
  have hpadn : s.padn = toInt32 (widthValue digits) := congrArg Layout.padn hlayout
  have hwidth : toInt32 (widthValue digits) = widthValue digits :=
    toInt32_width ((optsFit_width_iff opts digits).mp hopts).2 false
  rw [hpadn, hwidth]

theorem audit_digit {s : State} {opts : List Opt} {digits : List UInt8} {c : UInt8}
    {cs : List UInt8} (hdigit : isDigit c) (hopts : OptsFit (opts ++ [.width digits]))
    (h : Stands mem stop s (.directive opts (some digits)) (c :: cs)) :
    ∃ t, (ledger all mem asserts n stop).Quiet s t (OptsFit (opts ++ [.width (digits ++ [c])])) ∧
      Stands mem stop t (.directive opts (some (digits ++ [c]))) cs := by
  obtain ⟨t, hpass, htat⟩ := passes_digit hdigit h.here
  refine ⟨t, hpass.audited h.fmt_le ?_, h.behind hpass.fmt htat⟩
  obtain ⟨hmode, ⟨hc, -, -⟩, -, -, hlayout⟩ := h.here
  have hpadn := padn_eq_widthValue hopts hlayout
  rw [optsFit_width_iff] at hopts ⊢
  rw [computed_digit hmode hc hdigit, and_iff_right hopts.1]
  exact fit_digit_iff digits hdigit hpadn

/-- The loop over a width computes its first digit from 0. -/
theorem audit_width {s : State} {opts : List Opt} {c : UInt8} {cs : List UInt8}
    (hdigit : isDigit c) (hopts : OptsFit opts)
    (h : Stands mem stop s (.directive opts none) (c :: cs)) :
    ∃ t, (ledger all mem asserts n stop).Quiet s t (OptsFit (opts ++ [.width [c]])) ∧
      Stands mem stop t (.directive opts (some [c])) cs := by
  obtain ⟨u, t, henter, ⟨hmode, hpadn⟩, hpass, htat⟩ : ∃ u t, Passes mem asserts n s u 0 ∧
      (u.mode = .width ∧ u.padn = 0) ∧ Passes mem asserts n u t 1 ∧
        At mem t (.directive opts (some [c])) cs := passes_width hdigit h.here
  have hle : u.fmt ≤ stop := henter.fmt ▸ h.fmt_le
  have hc : mem u.fmt = c := by
    rw [henter.fmt]
    exact h.here.2.1.1
  have hnow : Fit (computedOf all mem s) := by
    rw [computed_directive h.here, switchComputed_digit s hdigit]
    exact fit_nil
  have hthen : Fit (computedOf all mem u) ↔ OptsFit (opts ++ [.width [c]]) := by
    rw [computed_digit hmode hc hdigit, optsFit_width_iff, and_iff_right hopts]
    exact fit_digit_iff [] hdigit hpadn
  have hfirst := henter.audited h.fmt_le (iff_of_true hnow trivial)
  have hsecond := hpass.audited hle hthen
  refine ⟨t, ⟨?_, hsecond.args.trans hfirst.args, hsecond.total.trans hfirst.total⟩,
    h.behind (hpass.fmt.trans (by rw [henter.fmt, add_zero])) htat⟩
  rw [hfirst.clean, true_and, hsecond.clean]

theorem audit_widthEnd {s : State} {opts : List Opt} {digits cs : List UInt8}
    (hend : ∀ c ∈ cs.head?, isDigit c = false) (hopts : OptsFit (opts ++ [.width digits]))
    (h : Stands mem stop s (.directive opts (some digits)) cs) :
    ∃ t, (ledger all mem asserts n stop).Quiet s t True ∧
      Stands mem stop t (.directive (opts ++ [.width digits]) none) cs := by
  obtain ⟨hdigit, t, hpass, htat⟩ : isDigit (mem s.fmt) = false ∧ ∃ t,
      Passes mem asserts n s t 0 ∧ At mem t (.directive (opts ++ [.width digits]) none) cs :=
    passes_widthEnd hend h.here
  refine ⟨t, hpass.audited h.fmt_le (iff_of_true ?_ trivial), htat, ?_⟩
  · have hpadn := padn_eq_widthValue hopts h.here.2.2.2.2
    have hwidth := ((optsFit_width_iff opts digits).mp hopts).2
    simp only [computedOf, h.here.1, hdigit, Bool.false_eq_true, if_false, hpadn]
    split
    · simp only [fit_cons, fit_nil, and_true, CInt.Fits]
      simp only [intMax] at hwidth
      omega
    · exact fit_nil
  · rw [hpass.fmt, add_zero]
    exact h.length

theorem audit_str {s : State} {opts : List Opt} {c : UInt8} {cs : List UInt8} {addr : BitVec 64}
    {str : List UInt8} {args : VaList} (hconv : Dialect.conv .snprintf c = some .s)
    (hstr : CString mem addr.toNat str) (hargs : s.args = .cons addr args)
    (h : Stands mem stop s (.directive opts none) (c :: cs)) :
    ∃ t, (ledger all mem asserts n stop).Puts (limits all) s t args (.str str) ∧
      Stands mem stop t .literal cs := by
  have hstep := step_specifier asserts n hconv h.here
  have hspec : specifier asserts n s .s = { s with args, mode := .string addr.toNat } := by
    rw [specifier, State.vaArg_cons hargs]
  rw [hspec] at hstep
  have hemit : Emitted n s { s with args, buf := s.buf.putAll n str }.next args
      (Field.str str).stored := ⟨rfl, rfl, rfl, rfl⟩
  refine ⟨State.next { s with args, buf := s.buf.putAll n str }, ⟨?_, rfl, hemit.total⟩,
    h.behind rfl (hemit.at_literal h.here.2.1.2.2)⟩
  have hnow : Fit (computedOf all mem s) := by
    rw [computed_directive h.here, switchComputed_conv s hconv]
    exact fit_nil
  have hloop := clean_string all asserts n hstr { s with args } h.fmt_le
  refine (clean_of_step hstep h.fmt_le).trans ((and_iff_right hnow).trans (hloop.trans ?_))
  exact (and_iff_right ⟨⟨fun _ ↦ trivial, trivial⟩, trivial⟩).symm

theorem audit_put {s : State} {opts : List Opt} {c : UInt8} {k : Conv} {cs : List UInt8}
    {args rest : List Arg} {beyond : VaList} {field : Field}
    (hconv : Dialect.conv .snprintf c = some k) (hopts : OptsFit opts)
    (hvalid : ∀ a ∈ args, a.Valid mem)
    (hfetch : fetch opts k args = some (field, rest)) (hargs : s.args = slots args beyond)
    (h : Stands mem stop s (.directive opts none) (c :: cs)) :
    ∃ t, (ledger all mem asserts n stop).Puts (limits all) s t (slots rest beyond) field ∧
      Stands mem stop t .literal cs := by
  have hfmt := h.here.2.1.2.2
  have hstep := step_specifier asserts n hconv h.here
  have hcomputed : computedOf all mem s = specifierComputed all s k := by
    rw [computed_directive h.here, switchComputed_conv s hconv]
  unfold fetch at hfetch
  split at hfetch <;> cases hfetch
  · have hemit : Emitted n s (specifier asserts n s .percent) (slots args beyond)
        Field.percent.stored := ⟨rfl, rfl, hargs, rfl⟩
    refine ⟨_, hemit.audited hstep h.fmt_le ?_, h.behind hemit.fmt (hemit.at_literal hfmt)⟩
    rw [hcomputed]
    exact iff_of_true fit_nil ⟨fun _ ↦ trivial, trivial⟩
  · obtain ⟨-, hstr⟩ := hvalid _ List.mem_cons_self
    exact audit_str hconv hstr hargs h
  · rename_i conv w
    have hemit := emitted_number asserts n h.here conv hargs
    refine ⟨_, hemit.audited hstep h.fmt_le ?_, h.behind hemit.fmt (hemit.at_literal hfmt)⟩
    rw [hcomputed]
    exact specifierComputed_fit_iff h.here.2.2.2 hopts conv hargs

/-- An unsupported specifier faults or is skipped, and computes nothing. -/
theorem step_stops (asserts : Bool) (n : ℕ) {s : State} {opts : List Opt} {cs : List UInt8}
    (hstop : Dialect.Stops .snprintf cs) (hat : At mem s (.directive opts none) cs) :
    step mem asserts n s =
        some (if asserts then { s with mode := .fault .assertion } else s.next) ∧
      Fit (computedOf all mem s) := by
  obtain ⟨hmode, hfmt, -⟩ := hat
  have hnone : isDigit (mem s.fmt) = false ∧ Dialect.opt .snprintf (mem s.fmt) = none ∧
      Dialect.conv .snprintf (mem s.fmt) = none := by
    cases cs with
    | nil =>
        have hz : mem s.fmt = 0 := hfmt
        rw [hz]
        exact ⟨rfl, rfl, rfl⟩
    | cons c cs =>
        rw [hfmt.1]
        exact hstop c rfl
  obtain ⟨hdigit, hopt, hconv⟩ := hnone
  refine ⟨?_, ?_⟩
  · rw [← switch_default asserts n s hdigit hopt hconv]
    simp only [step, hmode]
  · simp only [computedOf, hmode, switchComputed_default s hconv, fit_nil]

theorem audit_cut {s : State} {opts : List Opt} {cs : List UInt8}
    (hend : (!asserts) = false ∨ cs = []) (hstop : Dialect.Stops .snprintf cs)
    (h : Stands mem stop s (.directive opts none) cs) :
    (ledger all mem asserts n stop).clean s := by
  obtain ⟨hstep, hfit⟩ := step_stops asserts n hstop h.here
  refine (clean_of_step hstep h.fmt_le).mpr ⟨hfit, ?_⟩
  cases asserts with
  | true => exact clean_halted (.inr ⟨_, rfl⟩)
  | false =>
      obtain rfl : cs = [] := hend.resolve_left (by decide)
      refine clean_behind (fun _ _ ↦ fmt_le_step) ?_
      have hlength := h.length
      simp only [Bool.false_eq_true, if_false, State.next, List.length_nil] at hlength ⊢
      omega

theorem audits (all : Bool) (mem : Mem) (asserts : Bool) (n stop : ℕ) :
    Audits .snprintf (!asserts) mem (limits all) (ledger all mem asserts n stop)
      (Stands mem stop) where
  finish h := audit_finish h
  lit hc h := by
    obtain ⟨t, hputs, hstands⟩ := audit_lit hc h
    exact ⟨t, hputs, fun _ ↦ hstands⟩
  opening {s cs} h := by
    obtain ⟨t, hpass, htat⟩ := passes_opening h.here
    refine ⟨t, hpass.audited h.fmt_le (iff_of_true ?_ trivial), h.behind hpass.fmt htat⟩
    have hpercent : '%'.toUInt8 ≠ 0 := by decide
    simp [computedOf, h.here.1, h.here.2.1, hpercent]
  digit hdigit hopts h := audit_digit hdigit hopts h
  widthEnd hend hopts h := audit_widthEnd hend hopts h
  width hdigit hopts h := audit_width hdigit hopts h
  opt {s opts c o cs} hopt hopts h := by
    obtain ⟨t, hpass, htat⟩ := passes_opt hopt h.here
    refine ⟨t, hpass.audited h.fmt_le (iff_of_true ?_ ?_), h.behind hpass.fmt htat⟩
    · rw [computed_directive h.here, switchComputed_opt s hopt]
      exact fit_nil
    · refine (optsFit_append_iff opts o).mpr ⟨hopts, ?_⟩
      rintro digits rfl
      rcases opt_cases hopt with ⟨-, ⟨⟩⟩ | ⟨-, ⟨⟩⟩ | ⟨-, -, ⟨⟩⟩
  put hconv hopts hvalid hfetch hargs h := by
    obtain ⟨t, hputs, hstands⟩ := audit_put hconv hopts hvalid hfetch hargs h
    exact ⟨t, hputs, fun _ ↦ hstands⟩
  skip hskips {s opts c cs} hstop h := by
    obtain rfl : asserts = false := by simpa using hskips
    obtain ⟨hstep, hfit⟩ := step_stops false n hstop h.here
    have hpass : Passes mem false n s s.next 1 := ⟨hstep, rfl, rfl, rfl⟩
    exact ⟨s.next, hpass.audited h.fmt_le (iff_of_true hfit trivial),
      h.behind rfl ⟨rfl, h.here.2.1.2.2⟩⟩
  cut hend hstop h := audit_cut hend hstop h

/-- What a reading asks for, read off its directives and fields. -/
theorem demands_iff (all : Bool) (r : Reading) (total : ℤ) :
    Demands (limits all) total r ↔ (∀ opts ∈ r.opts, OptsFit opts) ∧
      (∀ field ∈ r.fields, FitsOf all field) ∧
      (r.Ends → all = true →
        (total + (r.fields.flatMap Field.stored).length) % 2 ^ 64 ≤ intMax) := by
  induction r generalizing total with
  | done => simp [Demands, limits, Reading.opts, Reading.fields, Reading.Ends]
  | cut opts => simp [Demands, limits, Reading.opts, Reading.fields, Reading.Ends]
  | skipped opts rest ih =>
      rw [Demands, ih]
      simp only [Reading.opts, Reading.fields, Reading.Ends, List.forall_mem_cons, and_assoc]
      rfl
  | piece opts field rest ih =>
      have hrest : Demands (limits all) total (.piece opts field rest) ↔ OptsFit opts ∧
          (FitsOf all field ∧ True) ∧ Demands (limits all) (total + field.stored.length) rest :=
        Iff.rfl
      rw [hrest, ih]
      simp only [Reading.opts, Reading.fields, Reading.Ends, List.forall_mem_cons,
        List.flatMap_cons, List.length_append, Nat.cast_add, ← add_assoc]
      tauto

/-- The run of `vsnprintf` on a format with matching arguments. -/
theorem clean_iff (all asserts : Bool) (n : ℕ) {fmt : ℕ} {f : List UInt8} {args : List Arg}
    {r : Reading} (hfmt : CString mem fmt f) (hvalid : ∀ a ∈ args, a.Valid mem)
    (hread : readFrom .snprintf (!asserts) .literal f args = some r) (beyond : VaList) :
    Clean (step mem asserts (enter n).1) State.fmt (computedOf all mem) (fmt + f.length)
        (start fmt (slots args beyond) (enter n).2) ↔
      (∀ opts ∈ r.opts, OptsFit opts) ∧ (∀ field ∈ r.fields, FitsOf all field) ∧
        (r.Ends → all = true →
          ((r.fields.flatMap Field.stored).length : ℤ) % 2 ^ 64 ≤ intMax) := by
  have hstands : Stands mem (fmt + f.length) (start fmt (slots args beyond) (enter n).2)
      .literal f := ⟨⟨rfl, hfmt⟩, rfl⟩
  have haudits := audits all mem asserts (enter n).1 (fmt + f.length)
  have hsettled := haudits.settles f .literal _ hstands (limits all).opts_nil args beyond r rfl
    hvalid hread
  have hdemands := demands_iff all r 0
  rw [zero_add] at hdemands
  have htotal : (ledger all mem asserts (enter n).1 (fmt + f.length)).total
      (start fmt (slots args beyond) (enter n).2) = 0 := congrArg Nat.cast (charsPrinted_enter n)
  rw [htotal] at hsettled
  exact hsettled.trans hdemands

/-- All values of the run, its result included. -/
theorem clean_computed_iff (asserts : Bool) (n : ℕ) {fmt : ℕ} {f : List UInt8} {args : List Arg}
    {r : Reading} (hfmt : CString mem fmt f) (hvalid : ∀ a ∈ args, a.Valid mem)
    (hread : readFrom .snprintf (!asserts) .literal f args = some r) (beyond : VaList) :
    Clean (step mem asserts (enter n).1) State.fmt (computed mem) (fmt + f.length)
        (start fmt (slots args beyond) (enter n).2) ↔
      (∀ opts ∈ r.opts, OptsFit opts) ∧ (∀ field ∈ r.fields, FieldFits field) ∧
        (r.Ends → ((r.fields.flatMap Field.stored).length : ℤ) % 2 ^ 64 ≤ intMax) := by
  have hclean := clean_iff true asserts n hfmt hvalid hread beyond
  simp only [FitsOf, true_imp_iff] at hclean
  exact hclean

/-- The values of `padn`. -/
theorem clean_padnComputed_iff (asserts : Bool) (n : ℕ) {fmt : ℕ} {f : List UInt8}
    {args : List Arg} {r : Reading} (hfmt : CString mem fmt f) (hvalid : ∀ a ∈ args, a.Valid mem)
    (hread : readFrom .snprintf (!asserts) .literal f args = some r) (beyond : VaList) :
    Clean (step mem asserts (enter n).1) State.fmt (padnComputed mem) (fmt + f.length)
        (start fmt (slots args beyond) (enter n).2) ↔
      (∀ opts ∈ r.opts, OptsFit opts) ∧ ∀ field ∈ r.fields, PadnFits field := by
  have hclean := clean_iff false asserts n hfmt hvalid hread beyond
  simp only [FitsOf, Bool.false_eq_true, false_imp_iff, implies_true, true_and, and_true]
    at hclean
  exact hclean

end Vsnprintf

/-- No signed value of a call leaves its type iff every width is an `int`, no negative number is
the least of its type, no padding goes over the bounds of `int`, and neither does the result. -/
theorem signed_range_iff (mem : Mem) (asserts : Bool) (n fmt : ℕ) (f : List UInt8)
    (args : List Arg) (hfmt : CString mem fmt f) (hvalid : ∀ a ∈ args, a.Valid mem)
    (beyond : VaList) :
    (∀ r, readFrom .printf false .literal f args = some r →
      (Clean (Vprintf.step mem asserts) Vprintf.State.fmt (Vprintf.computed mem) (fmt + f.length)
          (Vprintf.start fmt (slots args beyond)) ↔
        (∀ opts ∈ r.opts, Vprintf.OptsFit opts) ∧ (∀ field ∈ r.fields, Vprintf.FieldFits field) ∧
          (r.fields.map Field.counted).sum ≤ intMax)) ∧
    (∀ r, readFrom .snprintf (!asserts) .literal f args = some r →
      (Clean (Vsnprintf.step mem asserts (Vsnprintf.enter n).1) Vsnprintf.State.fmt
          (Vsnprintf.computed mem) (fmt + f.length)
          (Vsnprintf.start fmt (slots args beyond) (Vsnprintf.enter n).2) ↔
        (∀ opts ∈ r.opts, Vsnprintf.OptsFit opts) ∧
          (∀ field ∈ r.fields, Vsnprintf.FieldFits field) ∧
          (r.Ends → ((r.fields.flatMap Field.stored).length : ℤ) % 2 ^ 64 ≤ intMax))) :=
  ⟨fun _ hread ↦ Vprintf.clean_iff asserts hfmt hvalid hread beyond,
    fun _ hread ↦ Vsnprintf.clean_computed_iff asserts n hfmt hvalid hread beyond⟩

/-- `"%05d"` with 7. -/
theorem signed_range_iff_example :
    let f := ascii ['%', '0', '5', 'd']
    let mem := rodata 16 f
    Clean (Vprintf.step mem true) Vprintf.State.fmt (Vprintf.computed mem) (16 + f.length)
        (Vprintf.start 16 (slots [.word 7] (.const 0))) ∧
      Clean (Vsnprintf.step mem true (Vsnprintf.enter 8).1) Vsnprintf.State.fmt
        (Vsnprintf.computed mem) (16 + f.length)
        (Vsnprintf.start 16 (slots [.word 7] (.const 0)) (Vsnprintf.enter 8).2) := by
  intro f mem
  obtain ⟨hprintf, hsnprintf⟩ := signed_range_iff mem true 8 16 f [.word 7] (by decide)
    (by simp [Arg.Valid]) (.const 0)
  let opts : List Opt := [.width (ascii ['0', '5'])]
  let r : Reading := .piece opts (.number opts .d 7) .done
  constructor
  · refine (hprintf r rfl).mpr ⟨?_, ?_, by decide⟩
    · simp only [r, Reading.opts, List.forall_mem_singleton]
      refine ((Vprintf.optsFit_width_iff [] _).mpr ⟨Vprintf.limits.opts_nil, by decide⟩)
    · simp only [r, Reading.fields, List.forall_mem_singleton]
      exact fun _ ↦ by decide
  · refine (hsnprintf r rfl).mpr ⟨?_, ?_, fun _ ↦ by decide⟩
    · simp only [r, Reading.opts, List.forall_mem_singleton]
      exact (Vsnprintf.optsFit_width_iff [] _).mpr ⟨(Vsnprintf.limits true).opts_nil, by decide⟩
    · simp only [r, Reading.fields, List.forall_mem_singleton]
      exact ⟨fun _ ↦ by decide, by decide, by decide⟩

/-- `"%ld"` with `LLONG_MIN` negates it in `vprintf`, and `"%d"` with `INT_MIN` in `vsnprintf`. -/
theorem signed_range_escapes :
    let long := ascii ['%', 'l', 'd']
    let int := ascii ['%', 'd']
    ¬ (Clean (Vprintf.step (rodata 16 long) true) Vprintf.State.fmt
          (Vprintf.computed (rodata 16 long)) (16 + long.length)
          (Vprintf.start 16 (slots [.word 0x8000000000000000] (.const 0))) ∨
        Clean (Vsnprintf.step (rodata 16 int) true (Vsnprintf.enter 8).1) Vsnprintf.State.fmt
          (Vsnprintf.computed (rodata 16 int)) (16 + int.length)
          (Vsnprintf.start 16 (slots [.word 0x80000000] (.const 0)) (Vsnprintf.enter 8).2)) := by
  rintro long int (h | h)
  · let s : Vprintf.State := Vprintf.start 16 (slots [.word 0x8000000000000000] (.const 0))
    let t : Vprintf.State := { s with mode := .directive, fmt := 18, lCount := 1 }
    have hopen : Vprintf.step (rodata 16 long) true s =
        some { s with mode := .directive, fmt := 17 } := rfl
    have hl : Vprintf.step (rodata 16 long) true { s with mode := .directive, fmt := 17 } =
        some t := rfl
    have hfit := h t ((StateTransition.reaches_of_step hopen).tail hl) (by decide)
      (.longLong, 0x8000000000000000) (by decide)
    exact absurd hfit.2 (by decide)
  · let s : Vsnprintf.State := Vsnprintf.start 16 (slots [.word 0x80000000] (.const 0)) ⟨0, 0, []⟩
    let t : Vsnprintf.State := { s with mode := .directive, fmt := 17 }
    have hopen : Vsnprintf.step (rodata 16 int) true 7 s = some t := rfl
    have hfit := h t (StateTransition.reaches_of_step hopen) (by decide)
      (.int, 0x80000000) (by decide)
    exact absurd hfit.2 (by decide)

end BaizeBoard
