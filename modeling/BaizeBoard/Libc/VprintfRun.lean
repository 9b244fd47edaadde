import BaizeBoard.Libc.Reader
import BaizeBoard.Libc.Vprintf
import Mathlib.Algebra.Order.BigOperators.Group.List

/-!
# `vprintf` renders its format

`At` ties a state of the machine to a state of the reading: the counter
`l_count` to the modifiers read so far, `padn` to the width read so far.  The
padding character survives from one directive to the next, but it is `'0'`
whenever `padn` is not zero, and nothing else about it matters.  `reads` shows
that the machine follows the reading, and `Reads.covers` does the rest.
-/

namespace BaizeBoard

/-! ## What the items of a directive leave in the counters -/

namespace Vprintf

def lCount (opts : List Opt) : ℤ :=
  opts.foldl (fun n o ↦ match o with | .l => n + 1 | .z => 2 | _ => n) 0

end Vprintf

theorem wide_append (opts : List Opt) (o : Opt) :
    wide (opts ++ [o]) = (wide opts || decide (o = .l ∨ o = .z)) := by
  simp [wide, List.any_append]

theorem fieldWidth_append (opts : List Opt) (o : Opt) :
    fieldWidth (opts ++ [o]) =
      match o with
      | .width digits => widthValue digits
      | _ => fieldWidth opts := by
  unfold fieldWidth
  rw [List.foldl_append]
  cases o <;> rfl

namespace Vprintf

theorem lCount_append (opts : List Opt) (o : Opt) :
    lCount (opts ++ [o]) =
      match o with
      | .l => lCount opts + 1
      | .z => 2
      | _ => lCount opts := by
  unfold lCount
  rw [List.foldl_append]
  cases o <;> rfl

theorem lCount_spec (opts : List Opt) :
    if wide opts then 1 ≤ lCount opts else lCount opts = 0 := by
  induction opts using List.reverseRecOn with
  | nil => simp [wide, lCount]
  | append_singleton opts o ih =>
      rw [wide_append, lCount_append]
      cases hw : wide opts <;> cases o <;> simp_all
      omega

theorem getNumVaArgs_lCount (opts : List Opt) (arg : BitVec 64) :
    getNumVaArgs arg (lCount opts) = signedValue opts arg := by
  have h := lCount_spec opts
  unfold signedValue
  split at h
  · rw [getNumVaArgs_wide arg h, if_pos ‹_›]
  · rw [h, getNumVaArgs_zero, if_neg ‹_›]

theorem toNat_getUnumVaArgs_lCount (opts : List Opt) (arg : BitVec 64) :
    (getUnumVaArgs arg (lCount opts)).toNat = unsignedValue opts arg := by
  have h := lCount_spec opts
  unfold unsignedValue
  split at h
  · rw [getUnumVaArgs_wide arg h, if_pos ‹_›]
  · rw [h, getUnumVaArgs_zero, if_neg ‹_›, BitVec.toNat_setWidth_of_le (by omega)]

end Vprintf

theorem signedValue_bounds (opts : List Opt) (arg : BitVec 64) :
    -2 ^ 63 ≤ signedValue opts arg ∧ signedValue opts arg < 2 ^ 63 := by
  unfold signedValue
  split
  · exact ⟨BitVec.le_toInt arg, BitVec.toInt_lt⟩
  · have hlo := BitVec.le_toInt (arg.setWidth 32)
    have hhi := BitVec.toInt_lt (x := arg.setWidth 32)
    norm_num at hlo hhi ⊢
    omega

/-- Negating in `long long int` and converting to unsigned gives the absolute
value, for `LLONG_MIN` as well. -/
theorem toNat_ofInt_natAbs {v : ℤ} (hlo : 0 ≤ v) (hhi : v < 2 ^ 64) :
    (BitVec.ofInt 64 v).toNat = v.natAbs := by
  rw [BitVec.toNat_ofInt]
  norm_num at hhi ⊢
  omega

/-! ## Emitting a number -/

/-- What `vprintf` adds to `count` for a field: `'-'` and `%%` are put without
being counted. -/
def Field.counted : Field → ℤ
  | .lit _ => 1
  | .percent => 0
  | .str s => s.length
  | .number opts conv arg =>
      (renderNumber opts arg conv).length -
        if (conv = .d ∨ conv = .i) ∧ signedValue opts arg < 0 then 1 else 0

namespace Vprintf

structure Counters (s : State) (opts : List Opt) : Prop where
  lCount : s.lCount = Vprintf.lCount opts
  padn : s.padn = fieldWidth opts
  padc : fieldWidth opts ≠ 0 → s.padc = '0'.toUInt8

/-- The pad loop runs on what a sign or prefix of `k` characters, put before
the number, leaves of the width. -/
theorem Counters.numPrint {s : State} {opts : List Opt} (h : Counters s opts) (s' : State)
    (k : ℕ) (hpadn : s'.padn = s.padn - k) (hpadc : s'.padc = s.padc) (unum : BitVec 64)
    {radix : ℕ} (hradix : 10 ≤ radix) :
    s'.numPrint unum radix =
      { s' with
        out := s'.out ++ leftZeros (fieldWidth opts - k) (numeral 'a'.toUInt8 radix unum.toNat)
        count := s'.count +
          (leftZeros (fieldWidth opts - k) (numeral 'a'.toUInt8 radix unum.toNat)).length
      }.next := by
  have hwidth : s'.padn.toNat = fieldWidth opts - k := by
    rw [hpadn, h.padn]
    omega
  have hpad : (numeral 'a'.toUInt8 radix unum.toNat).leftpad s'.padn.toNat s'.padc =
      leftZeros (fieldWidth opts - k) (numeral 'a'.toUInt8 radix unum.toNat) := by
    rw [hwidth, leftZeros, hpadc]
    by_cases hw : fieldWidth opts = 0
    · simp [hw, List.leftpad]
    · rw [h.padc hw]
  simp only [State.numPrint, unsignedNumPrint_eq _ _ hradix, hpad]

/-- A directive has been carried out: the field is on the console, the argument
is fetched, and the scan is behind the specifier. -/
structure Emitted (s t : State) (args : VaList) (field : Field) : Prop where
  mode : t.mode = .scan
  fmt : t.fmt = s.fmt + 1
  args : t.args = args
  out : t.out = s.out ++ field.render
  count : t.count = s.count + field.counted

/-- A sign or prefix is put in front of the number and taken off the width. -/
structure PutBefore (s s' : State) (sign : List UInt8) : Prop where
  fmt : s'.fmt = s.fmt
  args : s'.args = s.args
  out : s'.out = s.out ++ sign
  padn : s'.padn = s.padn - sign.length
  padc : s'.padc = s.padc

theorem PutBefore.nothing (s : State) : PutBefore s s [] where
  fmt := rfl
  args := rfl
  out := (List.append_nil _).symm
  padn := by simp
  padc := rfl

theorem Counters.emitted {s s' : State} {opts : List Opt} (h : Counters s opts)
    {sign : List UInt8} (hsign : PutBefore s s' sign) {unum arg : BitVec 64} {radix : ℕ}
    (hradix : 10 ≤ radix) {conv : NumConv}
    (hrender : renderNumber opts arg conv =
      zeroPadded (fieldWidth opts) sign (numeral 'a'.toUInt8 radix unum.toNat))
    (hcount : s'.count = s.count + (sign.length -
      if (conv = .d ∨ conv = .i) ∧ signedValue opts arg < 0 then 1 else 0)) :
    Emitted s (s'.numPrint unum radix) s.args (.number opts conv arg) := by
  rw [h.numPrint s' sign.length hsign.padn hsign.padc unum hradix]
  refine ⟨rfl, congrArg (· + 1) hsign.fmt, hsign.args, ?_, ?_⟩
  · change s'.out ++ _ = _
    rw [hsign.out, Field.render, hrender, zeroPadded, List.append_assoc]
  · change s'.count + _ = _
    rw [hcount, Field.counted, hrender, zeroPadded, List.length_append, Nat.cast_add]
    ring

theorem emitted_signed {s : State} {opts : List Opt} (h : Counters s opts) (arg : BitVec 64)
    {conv : NumConv} (hconv : conv = .d ∨ conv = .i) :
    Emitted s (s.signed arg) s.args (.number opts conv arg) := by
  obtain ⟨hlo, hhi⟩ := signedValue_bounds opts arg
  have hrender : renderNumber opts arg conv = zeroPadded (fieldWidth opts)
      (minusSign (signedValue opts arg)) (decimal (signedValue opts arg).natAbs) := by
    rcases hconv with rfl | rfl <;> rfl
  unfold State.signed
  rw [h.lCount, getNumVaArgs_lCount]
  by_cases hneg : signedValue opts arg < 0
  · have habs : (BitVec.ofInt 64 (-signedValue opts arg)).toNat =
        (signedValue opts arg).natAbs := by
      rw [toNat_ofInt_natAbs (by omega) (by omega), Int.natAbs_neg]
    have hsign : PutBefore s ((s.putchar '-'.toUInt8).subPadn 1) ['-'.toUInt8] :=
      ⟨rfl, rfl, rfl, rfl, rfl⟩
    rw [minusSign, if_pos hneg, ← habs] at hrender
    simp only [hneg, if_true]
    apply h.emitted hsign (by decide) hrender
    rw [if_pos ⟨hconv, hneg⟩]
    simp [State.putchar, State.subPadn]
  · have habs : (BitVec.ofInt 64 (signedValue opts arg)).toNat = (signedValue opts arg).natAbs :=
      toNat_ofInt_natAbs (by omega) (by omega)
    rw [minusSign, if_neg hneg, ← habs] at hrender
    simp only [hneg, if_false]
    apply h.emitted (.nothing s) (by decide) hrender
    simp [hneg]

theorem emitted_unsigned {s : State} {opts : List Opt} (h : Counters s opts) (arg : BitVec 64)
    {conv : NumConv} {radix : ℕ} (hconv : conv = .u ∧ radix = 10 ∨ conv = .x ∧ radix = 16) :
    Emitted s (s.unsigned radix arg) s.args (.number opts conv arg) := by
  have hrender : renderNumber opts arg conv = zeroPadded (fieldWidth opts) []
      (numeral 'a'.toUInt8 radix (unsignedValue opts arg)) := by
    rcases hconv with ⟨rfl, rfl⟩ | ⟨rfl, rfl⟩ <;> rfl
  have hnot : ¬ (conv = .d ∨ conv = .i) := by
    rcases hconv with ⟨rfl, rfl⟩ | ⟨rfl, rfl⟩ <;> simp
  rw [← toNat_getUnumVaArgs_lCount] at hrender
  unfold State.unsigned
  rw [h.lCount]
  apply h.emitted (.nothing s) (by omega) hrender
  simp [hnot]

theorem emitted_pointer {s : State} {opts : List Opt} (h : Counters s opts) (arg : BitVec 64) :
    Emitted s (s.pointer arg) s.args (.number opts .p arg) := by
  have hrender : renderNumber opts arg .p =
      zeroPadded (fieldWidth opts) (hexPrefix arg) (hexadecimal arg.toNat) := rfl
  unfold State.pointer
  by_cases harg : arg = 0
  · rw [hexPrefix, if_pos harg] at hrender
    rw [if_neg (by simp [harg])]
    apply h.emitted (.nothing s) (by decide) hrender
    simp
  · have hpos : arg > 0 := (BitVec.pos_iff_ne_zero arg).mpr harg
    have hsign : PutBefore s ((s.stringPrint ['0'.toUInt8, 'x'.toUInt8]).subPadn 2)
        ['0'.toUInt8, 'x'.toUInt8] := ⟨rfl, rfl, rfl, rfl, rfl⟩
    rw [hexPrefix, if_neg harg] at hrender
    rw [if_pos hpos]
    apply h.emitted hsign (by decide) hrender
    simp [State.stringPrint, State.subPadn]

theorem Emitted.of_fetch {s t : State} {args : VaList} {field : Field}
    (h : Emitted { s with args } t args field) : Emitted s t args field :=
  ⟨h.mode, h.fmt, h.args, h.out, h.count⟩

theorem State.vaArg_cons {s : State} {w : BitVec 64} {args : VaList}
    (h : s.args = .cons w args) (k : State → BitVec 64 → State) :
    s.vaArg k = k { s with args } w := by
  simp [State.vaArg, h]

/-! ## The cases of the `switch` -/

section Switch

variable (asserts : Bool) (s : State) {c : UInt8}

theorem switch_zero : s.switch asserts '0'.toUInt8 =
    { s with padc := '0'.toUInt8, padn := 0, fmt := s.fmt + 1, mode := .width } := rfl

theorem switch_opt {o : Opt} (h : Dialect.opt .printf c = some o) :
    (o = .l ∧ s.switch asserts c = { s with lCount := s.lCount + 1, fmt := s.fmt + 1 }) ∨
      (o = .z ∧ s.switch asserts c = { s with lCount := 2, fmt := s.fmt + 1 }) := by
  rcases opt_cases h with ⟨rfl, rfl⟩ | ⟨rfl, rfl⟩ | ⟨⟨⟩, -⟩
  · exact .inl ⟨rfl, rfl⟩
  · exact .inr ⟨rfl, rfl⟩

def specifier (asserts : Bool) (s : State) : Conv → State
  | .percent => (s.putchar '%'.toUInt8).next
  | .s => s.vaArg (State.string asserts)
  | .num .d | .num .i => s.vaArg State.signed
  | .num .u => s.vaArg (State.unsigned · 10)
  | .num .x => s.vaArg (State.unsigned · 16)
  | .num .p => s.vaArg State.pointer
  | .num .capX => { s with mode := .returned (-1) }

theorem switch_conv {k : Conv} (h : Dialect.conv .printf c = some k) :
    s.switch asserts c = specifier asserts s k ∧ k ≠ .num .capX := by
  have hk := conv_ne_capX h
  refine ⟨?_, hk⟩
  obtain rfl := char_conv h
  cases k with
  | percent | s => rfl
  | num conv =>
      cases conv with
      | capX => exact absurd rfl hk
      | d | i | u | x | p => rfl

theorem emitted_specifier {opts : List Opt} (h : Counters s opts) {conv : NumConv}
    (hconv : conv ≠ .capX) {w : BitVec 64} {args : VaList} (hargs : s.args = .cons w args) :
    Emitted s (specifier asserts s (.num conv)) args (.number opts conv w) := by
  have hs : Counters { s with args } opts := ⟨h.lCount, h.padn, h.padc⟩
  have hva := State.vaArg_cons hargs
  cases conv with
  | d => rw [specifier, hva]; exact (emitted_signed hs w (.inl rfl)).of_fetch
  | i => rw [specifier, hva]; exact (emitted_signed hs w (.inr rfl)).of_fetch
  | u => rw [specifier, hva]; exact (emitted_unsigned hs w (.inl ⟨rfl, rfl⟩)).of_fetch
  | x => rw [specifier, hva]; exact (emitted_unsigned hs w (.inr ⟨rfl, rfl⟩)).of_fetch
  | capX => exact absurd rfl hconv
  | p => rw [specifier, hva]; exact (emitted_pointer hs w).of_fetch

theorem switch_default (hzero : c ≠ '0'.toUInt8) (hopt : Dialect.opt .printf c = none)
    (hconv : Dialect.conv .printf c = none) :
    s.switch asserts c = { s with mode := .returned (-1) } := by
  obtain ⟨hl, hz, -⟩ := opt_eq_none hopt
  obtain ⟨hpercent, hs, hd, hi, hu, hx, hp, -⟩ := conv_eq_none hconv
  simp only [State.switch, hpercent, hs, hd, hi, hu, hx, hp, hl, hz, hzero, or_self, if_false]

end Switch

theorem eval_string {mem : Mem} (asserts : Bool) {str : List UInt8} {p : ℕ}
    (h : CString mem p str) (s : State) (n : ℤ) :
    StateTransition.eval (step mem asserts) { s with mode := .string p n } =
      StateTransition.eval (step mem asserts)
        { s with out := s.out ++ str, count := s.count + (n + str.length) }.next := by
  induction str generalizing p s n with
  | nil =>
      have hz : mem p = 0 := h
      apply StateTransition.eval_eq_of_step
      simp [step, hz, State.next]
  | cons c str ih =>
      obtain ⟨hc, hc0, hrest⟩ := h
      have hstep : step mem asserts { s with mode := .string p n } =
          some { s.putchar c with mode := .string (p + 1) (n + 1) } := by
        simp [step, hc, hc0, State.putchar]
      rw [StateTransition.eval_eq_of_step hstep, ih hrest (s.putchar c) (n + 1)]
      simp [State.putchar, State.next]
      ring_nf

/-! ## Reading the format -/

def view : View State (List UInt8 × ℤ) where
  args := State.args
  output s := (s.out, s.count)
  emit e field := (e.1 ++ field.render, e.2 + field.counted)

/-- The machine stands where the reading of the format stands. -/
def At (mem : Mem) (s : State) : Scan → List UInt8 → Prop
  | .literal, cs => s.mode = .scan ∧ CString mem s.fmt cs
  | .directive opts none, cs => s.mode = .directive ∧ CString mem s.fmt cs ∧ Counters s opts
  | .directive opts (some digits), cs =>
      s.mode = .width ∧ CString mem s.fmt cs ∧ s.lCount = lCount opts ∧
        s.padn = widthValue digits ∧ s.padc = '0'.toUInt8

variable {mem : Mem} {asserts : Bool}

/-- A round in which `k` characters of the format are read, and nothing is put or fetched. -/
structure Passes (mem : Mem) (asserts : Bool) (s t : State) (k : ℕ) : Prop where
  step : step mem asserts s = some t
  fmt : t.fmt = s.fmt + k
  args : t.args = s.args
  out : t.out = s.out
  count : t.count = s.count

theorem Passes.quiet {s t : State} {k : ℕ} (h : Passes mem asserts s t k) :
    view.Quiet (Vprintf.step mem asserts) s t :=
  ⟨StateTransition.eval_eq_of_step h.step, h.args, Prod.ext h.out h.count⟩

theorem Emitted.puts {s t : State} {args : VaList} {field : Field}
    (h : Emitted s t args field)
    (heval : StateTransition.eval (step mem asserts) s =
      StateTransition.eval (step mem asserts) t) :
    view.Puts (step mem asserts) s t args field :=
  ⟨heval, h.args, Prod.ext h.out h.count⟩

theorem Emitted.at_literal {s t : State} {args : VaList} {field : Field}
    (h : Emitted s t args field) {cs : List UInt8} (hfmt : CString mem (s.fmt + 1) cs) :
    At mem t .literal cs :=
  ⟨h.mode, h.fmt ▸ hfmt⟩

theorem step_directive (asserts : Bool) {s : State} {opts : List Opt} {c : UInt8} {cs : List UInt8}
    (h : At mem s (.directive opts none) (c :: cs)) :
    step mem asserts s = some (s.switch asserts c) := by
  simp [step, h.1, h.2.1.1]

theorem width_ends {ch : UInt8} (h : isDigit ch = false) :
    ch < '0'.toUInt8 ∨ ch > '9'.toUInt8 := by
  simpa only [isDigit, Bool.and_eq_false_iff, decide_eq_false_iff_not, UInt8.not_le] using h

theorem not_width_ends {ch : UInt8} (h : isDigit ch = true) :
    ¬ (ch < '0'.toUInt8 ∨ ch > '9'.toUInt8) := by
  simpa [isDigit, UInt8.not_lt] using h

theorem passes_opening {s : State} {cs : List UInt8}
    (hat : At mem s .literal ('%'.toUInt8 :: cs)) :
    ∃ t, Passes mem asserts s t 1 ∧ At mem t (.directive [] none) cs := by
  obtain ⟨hmode, hch, -, hfmt⟩ := hat
  have hstep : step mem asserts s = some { s with
      lCount := 0, padn := 0, mode := .directive, fmt := s.fmt + 1 } := by
    simp only [step, hmode, hch]
    rfl
  exact ⟨_, ⟨hstep, rfl, rfl, rfl, rfl⟩, rfl, hfmt, rfl, rfl, fun hw ↦ absurd rfl hw⟩

theorem passes_opt {s : State} {opts : List Opt} {c : UInt8} {o : Opt} {cs : List UInt8}
    (hopt : Dialect.opt .printf c = some o) (hat : At mem s (.directive opts none) (c :: cs)) :
    ∃ t, Passes mem asserts s t 1 ∧ At mem t (.directive (opts ++ [o]) none) cs := by
  have hstep := step_directive asserts hat
  obtain ⟨hmode, ⟨-, -, hfmt⟩, hcounters⟩ := hat
  rcases switch_opt asserts s hopt with ⟨rfl, hsw⟩ | ⟨rfl, hsw⟩
  · rw [hsw] at hstep
    refine ⟨_, ⟨hstep, rfl, rfl, rfl, rfl⟩, hmode, hfmt, ?_, ?_, ?_⟩
    · rw [lCount_append]
      exact congrArg (· + 1) hcounters.lCount
    · rw [fieldWidth_append]
      exact hcounters.padn
    · rw [fieldWidth_append]
      exact hcounters.padc
  · rw [hsw] at hstep
    refine ⟨_, ⟨hstep, rfl, rfl, rfl, rfl⟩, hmode, hfmt, ?_, ?_, ?_⟩
    · rw [lCount_append]
    · rw [fieldWidth_append]
      exact hcounters.padn
    · rw [fieldWidth_append]
      exact hcounters.padc

theorem passes_width {s : State} {opts : List Opt} {c : UInt8} {cs : List UInt8}
    (hc : Dialect.opensWidth .printf c) (hat : At mem s (.directive opts none) (c :: cs)) :
    ∃ t, Passes mem asserts s t 1 ∧ At mem t (.directive opts (some [c])) cs := by
  have hzero := zero_of_opensWidth hc
  have hstep := step_directive asserts hat
  rw [hzero, switch_zero] at hstep
  obtain ⟨-, ⟨-, -, hfmt⟩, hcounters⟩ := hat
  refine ⟨_, ⟨hstep, rfl, rfl, rfl, rfl⟩, rfl, hfmt, hcounters.lCount, ?_, rfl⟩
  rw [hzero]
  rfl

theorem passes_digit {s : State} {opts : List Opt} {digits : List UInt8} {c : UInt8}
    {cs : List UInt8} (hdigit : isDigit c)
    (hat : At mem s (.directive opts (some digits)) (c :: cs)) :
    ∃ t, Passes mem asserts s t 1 ∧
      At mem t (.directive opts (some (digits ++ [c]))) cs := by
  obtain ⟨hmode, ⟨hc, -, hfmt⟩, hl, hpadn, hpadc⟩ := hat
  have hstep : step mem asserts s = some { s with
      padn := s.padn * 10 + (c.toNat - '0'.toNat : ℤ), fmt := s.fmt + 1 } := by
    simp only [step, hmode, hc, if_neg (not_width_ends hdigit)]
  refine ⟨_, ⟨hstep, rfl, rfl, rfl, rfl⟩, hmode, hfmt, hl, ?_, hpadc⟩
  change s.padn * 10 + (c.toNat - '0'.toNat : ℤ) = _
  rw [hpadn, padn_digit digits hdigit]

theorem passes_widthEnd {s : State} {opts : List Opt} {digits cs : List UInt8}
    (hend : ∀ c ∈ cs.head?, isDigit c = false)
    (hat : At mem s (.directive opts (some digits)) cs) :
    isDigit (mem s.fmt) = false ∧ ∃ t, Passes mem asserts s t 0 ∧
      At mem t (.directive (opts ++ [.width digits]) none) cs := by
  obtain ⟨hmode, hfmt, hl, hpadn, hpadc⟩ := hat
  have hch : isDigit (mem s.fmt) = false := by
    cases cs with
    | nil =>
        have hz : mem s.fmt = 0 := hfmt
        rw [hz]
        decide
    | cons c cs =>
        rw [hfmt.1]
        exact hend c rfl
  have hstep : step mem asserts s = some { s with mode := .directive } := by
    simp only [step, hmode, width_ends hch, if_true]
  refine ⟨hch, _, ⟨hstep, rfl, rfl, rfl, rfl⟩, rfl, hfmt, ?_, ?_, fun _ ↦ hpadc⟩
  · rw [lCount_append]
    exact hl
  · rw [fieldWidth_append]
    exact hpadn

theorem step_lit (asserts : Bool) {s : State} {c : UInt8} {cs : List UInt8}
    (hc : c ≠ '%'.toUInt8) (hat : At mem s .literal (c :: cs)) :
    ∃ t, step mem asserts s = some t ∧ Emitted s t s.args (.lit c) := by
  obtain ⟨hmode, hch, hc0, -⟩ := hat
  have hstep : step mem asserts s = some { s.putchar c with
      lCount := 0, padn := 0, fmt := s.fmt + 1, count := s.count + 1 } := by
    simp [step, hmode, hch, hc0, hc, State.putchar]
  exact ⟨_, hstep, hmode, rfl, rfl, rfl, rfl⟩

theorem step_specifier (asserts : Bool) {s : State} {opts : List Opt} {c : UInt8} {k : Conv}
    {cs : List UInt8} (hconv : Dialect.conv .printf c = some k)
    (hat : At mem s (.directive opts none) (c :: cs)) :
    step mem asserts s = some (specifier asserts s k) := by
  rw [step_directive asserts hat, (switch_conv asserts s hconv).1]

theorem emitted_percent (asserts : Bool) (s : State) :
    Emitted s (specifier asserts s .percent) s.args .percent :=
  ⟨rfl, rfl, rfl, rfl, by simp [specifier, State.next, State.putchar, Field.counted]⟩

theorem specifier_str (asserts : Bool) {s : State} {addr : BitVec 64} {args : VaList}
    (haddr : addr ≠ 0) (hargs : s.args = .cons addr args) :
    specifier asserts s .s = { s with args, mode := .string addr.toNat 0 } := by
  rw [specifier, State.vaArg_cons hargs]
  exact if_neg fun hnull ↦ haddr hnull.1

theorem reads (mem : Mem) (asserts : Bool) :
    Reads .printf mem view (step mem asserts) (At mem) where
  lit {s c cs} hc hat := by
    obtain ⟨t, hstep, hemit⟩ := step_lit asserts hc hat
    exact ⟨t, hemit.puts (StateTransition.eval_eq_of_step hstep), hemit.at_literal hat.2.2.2⟩
  opening {s cs} hat := by
    obtain ⟨t, hpass, htat⟩ := passes_opening hat
    exact ⟨t, hpass.quiet, htat⟩
  digit {s opts digits c cs} hdigit hat := by
    obtain ⟨t, hpass, htat⟩ := passes_digit hdigit hat
    exact ⟨t, hpass.quiet, htat⟩
  widthEnd {s opts digits cs} hend hat := by
    obtain ⟨-, t, hpass, htat⟩ := passes_widthEnd hend hat
    exact ⟨t, hpass.quiet, htat⟩
  width {s opts c cs} hc hat := by
    obtain ⟨t, hpass, htat⟩ := passes_width hc hat
    exact ⟨t, hpass.quiet, htat⟩
  opt {s opts c o cs} _ hopt hat := by
    obtain ⟨t, hpass, htat⟩ := passes_opt hopt hat
    exact ⟨t, hpass.quiet, htat⟩
  percent {s opts c cs} hconv hat := by
    have hstep := step_specifier asserts hconv hat
    have hemit := emitted_percent asserts s
    exact ⟨_, hemit.puts (StateTransition.eval_eq_of_step hstep), hemit.at_literal hat.2.1.2.2⟩
  str {s opts c cs addr args str} hconv haddr hstr hargs hat := by
    have hstep := step_specifier asserts hconv hat
    rw [specifier_str asserts haddr hargs] at hstep
    have hrun := eval_string asserts hstr { s with args } 0
    have hemit : Emitted s { s with
        args, out := s.out ++ str, count := s.count + (0 + str.length) }.next args (.str str) :=
      ⟨rfl, rfl, rfl, rfl, by simp [State.next, Field.counted]⟩
    exact ⟨_, hemit.puts ((StateTransition.eval_eq_of_step hstep).trans hrun),
      hemit.at_literal hat.2.1.2.2⟩
  num {s opts c cs conv w args} hconv hargs hat := by
    have hstep := step_specifier asserts hconv hat
    have hk := (switch_conv asserts s hconv).2
    have hemit := emitted_specifier asserts s hat.2.2 (fun hc ↦ hk (hc ▸ rfl)) hargs
    exact ⟨_, hemit.puts (StateTransition.eval_eq_of_step hstep), hemit.at_literal hat.2.1.2.2⟩

theorem foldl_emit (fields : List Field) (e : List UInt8 × ℤ) :
    fields.foldl view.emit e =
      (e.1 ++ fields.flatMap Field.render, e.2 + (fields.map Field.counted).sum) := by
  induction fields generalizing e with
  | nil => simp
  | cons field fields ih =>
      rw [List.foldl_cons, ih]
      simp [view, add_assoc]

theorem switch_stops {cs : List UInt8} (hstop : Dialect.Stops .printf cs) {s : State}
    (hfmt : CString mem s.fmt cs) :
    s.switch asserts (mem s.fmt) = { s with mode := .returned (-1) } := by
  cases cs with
  | nil =>
      have hz : mem s.fmt = 0 := hfmt
      rw [hz]
      rfl
  | cons c cs =>
      obtain ⟨hwidth, hopt, hconv⟩ := hstop c rfl
      rw [hfmt.1]
      exact switch_default asserts s (by simpa [Dialect.opensWidth] using hwidth) hopt hconv

/-- The run of `vprintf` on a format whose arguments match, with its result. -/
theorem returns_fields (asserts : Bool) {fmt : ℕ} {f : List UInt8} {args : List Arg}
    {fields : List Field}
    (hfmt : CString mem fmt f) (hvalid : ∀ a ∈ args, a.Valid mem)
    (hmatch : (parse .printf f).fields args = some fields) (beyond : VaList) :
    Returns mem asserts fmt (slots args beyond)
      (if (parse .printf f).Documented then (fields.map Field.counted).sum else -1)
      (fields.flatMap Field.render) := by
  obtain ⟨t, heval, hout, hend⟩ := (reads mem asserts).covers f .literal
    (start fmt (slots args beyond)) ⟨rfl, hfmt⟩ args beyond fields rfl hvalid hmatch
  rw [foldl_emit] at hout
  have hout' : t.out = fields.flatMap Field.render := by
    simpa [view, start] using congrArg Prod.fst hout
  have hcount : t.count = (fields.map Field.counted).sum := by
    simpa [view, start] using congrArg Prod.snd hout
  unfold parse
  split at hend
  · obtain ⟨hmode, hz⟩ := hend
    have hstep : step mem asserts t = some { t with mode := .returned t.count } := by
      have hz' : mem t.fmt = 0 := hz
      simp [step, hmode, hz']
    rw [if_pos ‹_›, ← hcount]
    refine ⟨{ t with mode := .returned t.count }, ?_, rfl, hout'⟩
    rw [heval, StateTransition.eval_eq_of_step hstep]
    exact StateTransition.mem_eval_self rfl
  · obtain ⟨opts, rest, ⟨hmode, hfmt', -⟩, hstop⟩ := hend
    have hstep : step mem asserts t = some { t with mode := .returned (-1) } := by
      simp [step, hmode, switch_stops hstop hfmt']
    rw [if_neg ‹_›]
    refine ⟨{ t with mode := .returned (-1) }, ?_, rfl, hout'⟩
    rw [heval, StateTransition.eval_eq_of_step hstep]
    exact StateTransition.mem_eval_self rfl

theorem counted_nonneg (field : Field) : 0 ≤ field.counted := by
  cases field with
  | lit c => simp [Field.counted]
  | percent => simp [Field.counted]
  | str s => simp [Field.counted]
  | number opts conv arg =>
      have hpos : 0 < (renderNumber opts arg conv).length := by
        cases conv <;> simp [renderNumber, length_zeroPadded, decimal, hexadecimal, numeral,
          Numeral.length_lowFirst_pos]
      simp only [Field.counted]
      split <;> omega

/-- `vprintf` returns on every format string with matching arguments, having
put the documented rendering of its fields up to the first directive it does
not support; it returns -1 exactly when there is such a directive. -/
theorem vprintf_renders (mem : Mem) (asserts : Bool) (fmt : ℕ) (f : List UInt8)
    (args : List Arg) (fields : List Field) (hfmt : CString mem fmt f)
    (hvalid : ∀ a ∈ args, a.Valid mem)
    (hmatch : (parse .printf f).fields args = some fields) (beyond : VaList) :
    (∃ result, Returns mem asserts fmt (slots args beyond) result
        (fields.flatMap Field.render) ∧
      (result = -1 ↔ ¬ (parse .printf f).Documented)) ∧
    ∀ opts conv arg, .number opts conv arg ∈ fields →
      (renderNumber opts arg conv).length =
        max (fieldWidth opts) (renderNumber (modifiers opts) arg conv).length := by
  refine ⟨⟨_, returns_fields asserts hfmt hvalid hmatch beyond, ?_⟩,
    fun opts conv arg _ ↦ length_renderNumber opts arg conv⟩
  have hcount : 0 ≤ (fields.map Field.counted).sum :=
    List.sum_nonneg (by simpa using fun field _ ↦ counted_nonneg field)
  split
  · simp only [not_true_eq_false, iff_false, *]
    omega
  · simp [*]

/-- `printf("%05d %s%k", -42, "ok")` stops at the `%k`. -/
theorem vprintf_renders_example :
    let mem := rodata 16
      (ascii ['%', '0', '5', 'd', ' ', '%', 's', '%', 'k'] ++ 0 :: ascii ['o', 'k'])
    let fields : List Field :=
      [.number [.width (ascii ['0', '5'])] .d 0xffffffd6, .lit ' '.toUInt8, .str (ascii ['o', 'k'])]
    let args := [Arg.word 0xffffffd6, .str 26 (ascii ['o', 'k'])]
    (∃ result, Returns mem true 16 (slots args (.const 0)) result (fields.flatMap Field.render) ∧
      (result = -1 ↔ ¬ (parse .printf
        (ascii ['%', '0', '5', 'd', ' ', '%', 's', '%', 'k'])).Documented)) ∧
    ∀ opts conv arg, .number opts conv arg ∈ fields →
      (renderNumber opts arg conv).length =
        max (fieldWidth opts) (renderNumber (modifiers opts) arg conv).length :=
  vprintf_renders _ true 16 _ [.word 0xffffffd6, .str 26 (ascii ['o', 'k'])] _ (by decide)
    (by simpa [Arg.Valid] using (by decide)) rfl (.const 0)

end Vprintf

end BaizeBoard
