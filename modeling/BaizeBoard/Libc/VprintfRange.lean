import BaizeBoard.Libc.SignedRange
import BaizeBoard.Libc.VprintfRun

/-!
# The signed computations of `vprintf`

`computed` are the values that one round puts into an `int` or a `long long
int`.  A counter that a helper function moves one by one is listed with the
value it ends at.
-/

namespace BaizeBoard.Vprintf

/-- `count` of `unsigned_num_print`, and the sum its caller forms. -/
def State.printComputed (s : State) (unum : BitVec 64) (radix : ℕ) : List (CInt × ℤ) :=
  match unsignedNumPrint s.out unum radix s.padc s.padn with
  | .ok (_, n) => [(.int, n), (.int, s.count + n)]
  | .error _ => []

def State.signedComputed (s : State) (arg : BitVec 64) : List (CInt × ℤ) :=
  let num := getNumVaArgs arg s.lCount
  if num < 0 then
    (.longLong, -num) :: (.int, s.padn - 1) ::
      ((s.putchar '-'.toUInt8).subPadn 1).printComputed (BitVec.ofInt 64 (-num)) 10
  else s.printComputed (BitVec.ofInt 64 num) 10

def State.pointerComputed (s : State) (arg : BitVec 64) : List (CInt × ℤ) :=
  if arg > 0 then
    (.int, s.count + 2) :: (.int, s.padn - 2) ::
      ((s.stringPrint ['0'.toUInt8, 'x'.toUInt8]).subPadn 2).printComputed arg 16
  else s.printComputed arg 16

def State.unsignedComputed (s : State) (radix : ℕ) (arg : BitVec 64) : List (CInt × ℤ) :=
  s.printComputed (getUnumVaArgs arg s.lCount) radix

def State.argComputed (s : State) (k : State → BitVec 64 → List (CInt × ℤ)) : List (CInt × ℤ) :=
  k { s with args := s.args.tail } s.args.head

def State.switchComputed (s : State) (ch : UInt8) : List (CInt × ℤ) :=
  if ch = 'i'.toUInt8 ∨ ch = 'd'.toUInt8 then s.argComputed State.signedComputed
  else if ch = 'p'.toUInt8 then s.argComputed State.pointerComputed
  else if ch = 'x'.toUInt8 then s.argComputed (State.unsignedComputed · 16)
  else if ch = 'l'.toUInt8 then [(.int, s.lCount + 1)]
  else if ch = 'u'.toUInt8 then s.argComputed (State.unsignedComputed · 10)
  else []

def computed (mem : Mem) (s : State) : List (CInt × ℤ) :=
  match s.mode with
  | .scan =>
      if mem s.fmt = 0 ∨ mem s.fmt = '%'.toUInt8 then [] else [(.int, s.count + 1)]
  | .directive => s.switchComputed (mem s.fmt)
  | .width =>
      let ch := mem s.fmt
      if ch < '0'.toUInt8 ∨ ch > '9'.toUInt8 then []
      else [(.int, s.padn * 10), (.int, s.padn * 10 + (ch.toNat - '0'.toNat : ℤ))]
  | .string str count =>
      if mem str = 0 then [(.int, s.count + count)] else [(.int, count + 1)]
  | .returned _ => []
  | .fault _ => []

/-! ## The bounds -/

/-- The widths and the `l_count` of a directive are within `int`. -/
structure OptsFit (opts : List Opt) : Prop where
  width : ∀ digits, .width digits ∈ opts → (widthValue digits : ℤ) ≤ intMax
  lCount : ∀ front, front <+: opts → lCount front ≤ intMax

/-- The least `long long int` has no negative. -/
def FieldFits : Field → Prop
  | .number opts conv arg =>
      conv = .d ∨ conv = .i → signedValue opts arg ≠ -0x8000000000000000
  | _ => True

theorem optsFit_append_iff (opts : List Opt) (o : Opt) :
    OptsFit (opts ++ [o]) ↔ OptsFit opts ∧
      (∀ digits, o = .width digits → (widthValue digits : ℤ) ≤ intMax) ∧
      lCount (opts ++ [o]) ≤ intMax := by
  constructor
  · intro h
    refine ⟨⟨fun d hd ↦ ?_, fun front hf ↦ ?_⟩, fun d hd ↦ ?_, ?_⟩
    · exact h.width d (List.mem_append_left _ hd)
    · exact h.lCount front (hf.trans (List.prefix_append _ _))
    · exact h.width d (by simp [hd])
    · exact h.lCount _ List.prefix_rfl
  · rintro ⟨h, hw, hl⟩
    refine ⟨fun d hd ↦ ?_, fun front hf ↦ ?_⟩
    · rcases List.mem_append.mp hd with hd | hd
      · exact h.width d hd
      · exact hw d (List.mem_singleton.mp hd).symm
    · rcases List.prefix_concat_iff.mp hf with rfl | hf
      · exact hl
      · exact h.lCount front hf

theorem optsFit_width_iff (opts : List Opt) (digits : List UInt8) :
    OptsFit (opts ++ [.width digits]) ↔ OptsFit opts ∧ (widthValue digits : ℤ) ≤ intMax := by
  rw [optsFit_append_iff, lCount_append]
  constructor
  · rintro ⟨h, hw, -⟩
    exact ⟨h, hw digits rfl⟩
  · rintro ⟨h, hw⟩
    refine ⟨h, ?_, h.lCount opts List.prefix_rfl⟩
    rintro d ⟨⟩
    exact hw

theorem optsFit_modifier_iff (opts : List Opt) {o : Opt} (ho : o = .l ∨ o = .z) :
    OptsFit (opts ++ [o]) ↔ OptsFit opts ∧ lCount (opts ++ [o]) ≤ intMax := by
  rw [optsFit_append_iff]
  refine and_congr_right fun _ ↦ and_iff_right ?_
  rcases ho with rfl | rfl
  · rintro d ⟨⟩
  · rintro d ⟨⟩

theorem OptsFit.append {front back : List Opt} (h : OptsFit (front ++ back)) : OptsFit front where
  width d hd := h.width d (List.mem_append_left _ hd)
  lCount f hf := h.lCount f (hf.trans (List.prefix_append _ _))

def limits : Limits where
  opts := OptsFit
  field := FieldFits
  size := Field.counted
  running total := total ≤ intMax
  final _ := True
  opts_nil := ⟨by simp, fun front hf ↦ by rw [List.prefix_nil.mp hf]; decide⟩
  opts_append := OptsFit.append
  opts_digit {front digits c} h := by
    rw [optsFit_width_iff] at h ⊢
    exact ⟨h.1, widthValue_le_of_append h.2⟩

theorem OptsFit.fieldWidth_le {opts : List Opt} (h : OptsFit opts) :
    (fieldWidth opts : ℤ) ≤ intMax := by
  induction opts using List.reverseRecOn with
  | nil => decide
  | append_singleton opts o ih =>
      rw [fieldWidth_append]
      cases o with
      | width digits => exact h.width digits (by simp)
      | l | z | minus => exact ih h.append

/-! ## What a number computes -/

theorem printComputed_fit_iff (s : State) (unum : BitVec 64) {radix : ℕ} (hradix : 10 ≤ radix)
    (hcount : 0 ≤ s.count) :
    s.count ≤ (s.numPrint unum radix).count ∧
      (Fit (s.printComputed unum radix) ↔ (s.numPrint unum radix).count ≤ intMax) := by
  simp only [State.printComputed, State.numPrint, unsignedNumPrint_eq _ _ hradix]
  simp only [State.next, fit_cons, fit_nil, and_true]
  rw [fits_int_iff (by omega), fits_int_iff (by omega)]
  omega

theorem signedComputed_fit_iff {s : State} {opts : List Opt} (h : Counters s opts)
    (hopts : OptsFit opts) (hcount : 0 ≤ s.count) {conv : NumConv} (hconv : conv = .d ∨ conv = .i)
    (arg : BitVec 64) :
    Fit (s.signedComputed arg) ↔ FieldFits (.number opts conv arg) ∧
      s.count + (Field.number opts conv arg).counted ≤ intMax := by
  have htotal := (emitted_signed h arg hconv).count
  have hvalue : getNumVaArgs arg s.lCount = signedValue opts arg := by
    rw [h.lCount, getNumVaArgs_lCount]
  obtain ⟨hlo, hhi⟩ := signedValue_bounds opts arg
  have hpadn := hopts.fieldWidth_le
  have hfield : FieldFits (.number opts conv arg) ↔
      signedValue opts arg ≠ -0x8000000000000000 := ⟨fun h ↦ h hconv, fun h _ ↦ h⟩
  rw [hfield, ← htotal]
  simp only [State.signed, State.signedComputed, hvalue]
  norm_num at hlo hhi
  by_cases hneg : signedValue opts arg < 0
  · simp only [hneg, if_true, fit_cons]
    have hprint := printComputed_fit_iff ((s.putchar '-'.toUInt8).subPadn 1)
      (BitVec.ofInt 64 (-signedValue opts arg)) (by decide : 10 ≤ 10) hcount
    rw [hprint.2, h.padn]
    simp only [CInt.Fits]
    simp only [intMax] at hpadn ⊢
    omega
  · simp only [hneg, if_false]
    have hprint := printComputed_fit_iff s (BitVec.ofInt 64 (signedValue opts arg))
      (by decide : 10 ≤ 10) hcount
    rw [hprint.2]
    omega

theorem unsignedComputed_fit_iff {s : State} {opts : List Opt} (h : Counters s opts)
    (hcount : 0 ≤ s.count) {conv : NumConv} {radix : ℕ}
    (hconv : conv = .u ∧ radix = 10 ∨ conv = .x ∧ radix = 16) (arg : BitVec 64) :
    Fit (s.unsignedComputed radix arg) ↔ FieldFits (.number opts conv arg) ∧
      s.count + (Field.number opts conv arg).counted ≤ intMax := by
  have htotal := (emitted_unsigned h arg hconv).count
  have hfield : FieldFits (.number opts conv arg) := by
    rintro (hd | hi)
    · rcases hconv with ⟨hu, -⟩ | ⟨hx, -⟩
      · cases hd.symm.trans hu
      · cases hd.symm.trans hx
    · rcases hconv with ⟨hu, -⟩ | ⟨hx, -⟩
      · cases hi.symm.trans hu
      · cases hi.symm.trans hx
  have hradix : 10 ≤ radix := by omega
  rw [and_iff_right hfield, ← htotal]
  exact (printComputed_fit_iff s _ hradix hcount).2

theorem pointerComputed_fit_iff {s : State} {opts : List Opt} (h : Counters s opts)
    (hopts : OptsFit opts) (hcount : 0 ≤ s.count) (arg : BitVec 64) :
    Fit (s.pointerComputed arg) ↔ FieldFits (.number opts .p arg) ∧
      s.count + (Field.number opts .p arg).counted ≤ intMax := by
  have htotal := (emitted_pointer h arg).count
  have hpadn := hopts.fieldWidth_le
  have hfield : FieldFits (.number opts .p arg) := by
    rintro (hd | hi)
    · cases hd
    · cases hi
  rw [and_iff_right hfield, ← htotal]
  simp only [State.pointer, State.pointerComputed]
  by_cases harg : arg > 0
  · simp only [harg, if_true, fit_cons]
    have hprefixed : 0 ≤ ((s.stringPrint ['0'.toUInt8, 'x'.toUInt8]).subPadn 2).count := by
      simp only [State.stringPrint, State.subPadn]
      omega
    obtain ⟨hmono, hprint⟩ := printComputed_fit_iff
      ((s.stringPrint ['0'.toUInt8, 'x'.toUInt8]).subPadn 2) arg (by decide : 10 ≤ 16) hprefixed
    rw [hprint, h.padn]
    have hcounted : ((s.stringPrint ['0'.toUInt8, 'x'.toUInt8]).subPadn 2).count =
        s.count + 2 := rfl
    rw [hcounted] at hmono
    simp only [CInt.Fits]
    simp only [intMax] at hpadn ⊢
    omega
  · simp only [harg, if_false]
    exact (printComputed_fit_iff s arg (by decide) hcount).2

theorem argComputed_cons {s : State} {w : BitVec 64} {args : VaList}
    (h : s.args = .cons w args) (k : State → BitVec 64 → List (CInt × ℤ)) :
    s.argComputed k = k { s with args } w := by
  simp [State.argComputed, h]

/-! ## The cases of the `switch` -/

theorem switchComputed_opt (s : State) {c : UInt8} {o : Opt} (h : Dialect.opt .printf c = some o) :
    (o = .l ∧ s.switchComputed c = [(.int, s.lCount + 1)]) ∨
      (o = .z ∧ s.switchComputed c = []) := by
  rcases opt_cases h with ⟨rfl, rfl⟩ | ⟨rfl, rfl⟩ | ⟨⟨⟩, -⟩
  · exact .inl ⟨rfl, rfl⟩
  · exact .inr ⟨rfl, rfl⟩

def specifierComputed (s : State) : Conv → List (CInt × ℤ)
  | .percent | .s => []
  | .num .d | .num .i => s.argComputed State.signedComputed
  | .num .u => s.argComputed (State.unsignedComputed · 10)
  | .num .x => s.argComputed (State.unsignedComputed · 16)
  | .num .p => s.argComputed State.pointerComputed
  | .num .capX => []

theorem switchComputed_conv (s : State) {c : UInt8} {k : Conv}
    (h : Dialect.conv .printf c = some k) : s.switchComputed c = specifierComputed s k := by
  have hk := conv_ne_capX h
  obtain rfl := char_conv h
  cases k with
  | percent | s => rfl
  | num conv =>
      cases conv with
      | capX => exact absurd rfl hk
      | d | i | u | x | p => rfl

theorem switchComputed_default (s : State) {c : UInt8} (hopt : Dialect.opt .printf c = none)
    (hconv : Dialect.conv .printf c = none) : s.switchComputed c = [] := by
  obtain ⟨hl, -⟩ := opt_eq_none hopt
  obtain ⟨-, -, hd, hi, hu, hx, hp, -⟩ := conv_eq_none hconv
  simp only [State.switchComputed, hd, hi, hu, hx, hp, hl, or_self, if_false]

theorem specifierComputed_fit_iff {s : State} {opts : List Opt} (h : Counters s opts)
    (hopts : OptsFit opts) (hcount : 0 ≤ s.count) {conv : NumConv} (hconv : conv ≠ .capX)
    {w : BitVec 64} {args : VaList} (hargs : s.args = .cons w args) :
    Fit (specifierComputed s (.num conv)) ↔ FieldFits (.number opts conv w) ∧
      s.count + (Field.number opts conv w).counted ≤ intMax := by
  have hs : Counters { s with args } opts := ⟨h.lCount, h.padn, h.padc⟩
  have hva := argComputed_cons hargs
  cases conv with
  | d => rw [specifierComputed, hva]; exact signedComputed_fit_iff hs hopts hcount (.inl rfl) w
  | i => rw [specifierComputed, hva]; exact signedComputed_fit_iff hs hopts hcount (.inr rfl) w
  | u => rw [specifierComputed, hva]; exact unsignedComputed_fit_iff hs hcount (.inl ⟨rfl, rfl⟩) w
  | x => rw [specifierComputed, hva]; exact unsignedComputed_fit_iff hs hcount (.inr ⟨rfl, rfl⟩) w
  | p => rw [specifierComputed, hva]; exact pointerComputed_fit_iff hs hopts hcount w
  | capX => exact absurd rfl hconv

/-! ## The run -/

variable {mem : Mem} {asserts : Bool} {stop : ℕ}

def ledger (mem : Mem) (asserts : Bool) (stop : ℕ) : Ledger State where
  clean := Clean (step mem asserts) State.fmt (computed mem) stop
  args := State.args
  total := State.count

/-- The machine is in front of `cs`, the rest of the format up to `stop`. -/
structure Stands (mem : Mem) (stop : ℕ) (s : State) (scan : Scan) (cs : List UInt8) : Prop where
  here : At mem s scan cs
  length : s.fmt + cs.length = stop
  nonneg : 0 ≤ s.count
  count : s.count ≤ intMax

theorem Stands.fmt_le {s : State} {scan : Scan} {cs : List UInt8} (h : Stands mem stop s scan cs) :
    s.fmt ≤ stop := by
  have hlength := h.length
  omega

theorem Stands.of_passes {s t : State} {scan scan' : Scan} {c : UInt8} {cs : List UInt8}
    (h : Stands mem stop s scan (c :: cs)) (hpass : Passes mem asserts s t 1)
    (htat : At mem t scan' cs) : Stands mem stop t scan' cs := by
  refine ⟨htat, ?_, hpass.count ▸ h.nonneg, hpass.count ▸ h.count⟩
  have hlength := h.length
  rw [List.length_cons] at hlength
  rw [hpass.fmt]
  omega

theorem Passes.audited {s t : State} {k : ℕ} {demand : Prop} (h : Passes mem asserts s t k)
    (hfmt : s.fmt ≤ stop) (hfit : Fit (computed mem s) ↔ demand) :
    (ledger mem asserts stop).Quiet s t demand :=
  ⟨(clean_of_step h.step hfmt).trans (and_congr_left' hfit), h.args, h.count⟩

theorem Emitted.audited {s t : State} {args : VaList} {field : Field}
    (h : Emitted s t args field) (hstep : step mem asserts s = some t) (hfmt : s.fmt ≤ stop)
    (hfit : Fit (computed mem s) ↔ FieldFits field ∧ s.count + field.counted ≤ intMax) :
    (ledger mem asserts stop).Puts limits s t args field :=
  ⟨(clean_of_step hstep hfmt).trans (and_congr_left' hfit), h.args, h.count⟩

theorem Stands.of_emitted {s t : State} {scan : Scan} {c : UInt8} {cs : List UInt8}
    {args : VaList} {field : Field} (h : Stands mem stop s scan (c :: cs))
    (hfmt : CString mem (s.fmt + 1) cs) (hemit : Emitted s t args field)
    (hrunning : t.count ≤ intMax) : Stands mem stop t .literal cs := by
  have hnonneg := h.nonneg
  have hcounted := counted_nonneg field
  have hlength := h.length
  rw [List.length_cons] at hlength
  refine ⟨hemit.at_literal hfmt, ?_, ?_, hrunning⟩
  · rw [hemit.fmt]
    omega
  · rw [hemit.count]
    omega

theorem computed_directive {s : State} {opts : List Opt} {c : UInt8} {cs : List UInt8}
    (h : At mem s (.directive opts none) (c :: cs)) : computed mem s = s.switchComputed c := by
  simp only [computed, h.1, h.2.1.1]

/-- The loop of `string_print`, and the sum its caller forms. -/
theorem clean_string (asserts : Bool) {str : List UInt8} {p : ℕ} (h : CString mem p str)
    (s : State) (hfmt : s.fmt ≤ stop) (hcount : 0 ≤ s.count) {n : ℤ} (hn : 0 ≤ n) :
    Clean (step mem asserts) State.fmt (computed mem) stop { s with mode := .string p n } ↔
      s.count + (n + str.length) ≤ intMax ∧
        Clean (step mem asserts) State.fmt (computed mem) stop
          { s with out := s.out ++ str, count := s.count + (n + str.length) }.next := by
  induction str generalizing p s n with
  | nil =>
      have hz : mem p = 0 := h
      have hstep : step mem asserts { s with mode := .string p n } =
          some { s with count := s.count + n }.next := by
        simp [step, hz, State.next]
      rw [clean_of_step hstep hfmt]
      simp only [computed, hz, if_true, fit_cons, fit_nil, and_true, List.length_nil,
        List.append_nil, Nat.cast_zero, add_zero]
      rw [fits_int_iff (by omega)]
  | cons c str ih =>
      obtain ⟨hc, hc0, hrest⟩ := h
      have hstep : step mem asserts { s with mode := .string p n } =
          some { s.putchar c with mode := .string (p + 1) (n + 1) } := by
        simp [step, hc, hc0, State.putchar]
      have hsum : n + 1 + (str.length : ℤ) = n + ((c :: str).length : ℕ) := by
        push_cast [List.length_cons]
        ring
      rw [clean_of_step hstep hfmt, ih hrest (s.putchar c) hfmt hcount (by omega), hsum]
      simp only [computed, hc, hc0, if_false, fit_cons, fit_nil, and_true, State.putchar,
        List.append_assoc, List.singleton_append]
      rw [fits_int_iff (by omega)]
      constructor
      · exact fun hall ↦ hall.2
      · intro hrun
        refine ⟨?_, hrun⟩
        have hlen : ((c :: str).length : ℤ) = str.length + 1 := by simp
        omega

theorem clean_returned {s : State} {r : ℤ} (h : s.mode = .returned r) :
    Clean (step mem asserts) State.fmt (computed mem) stop s :=
  clean_of_halt (by simp only [step, h]) (by simp only [computed, h])

theorem audit_finish {s : State} (h : Stands mem stop s .literal []) :
    (ledger mem asserts stop).clean s := by
  obtain ⟨hmode, hz⟩ := h.here
  have hnul : mem s.fmt = 0 := hz
  have hstep : step mem asserts s = some { s with mode := .returned s.count } := by
    simp [step, hmode, hnul]
  refine (clean_of_step hstep h.fmt_le).mpr ⟨?_, clean_returned rfl⟩
  simp [computed, hmode, hnul]

theorem audit_lit {s : State} {c : UInt8} {cs : List UInt8} (hc : c ≠ '%'.toUInt8)
    (h : Stands mem stop s .literal (c :: cs)) :
    ∃ t, (ledger mem asserts stop).Puts limits s t s.args (.lit c) ∧
      (t.count ≤ intMax → Stands mem stop t .literal cs) := by
  obtain ⟨t, hstep, hemit⟩ := step_lit asserts hc h.here
  obtain ⟨hmode, hch, hc0, hfmt⟩ := h.here
  refine ⟨t, hemit.audited hstep h.fmt_le ?_, h.of_emitted hfmt hemit⟩
  have hnonneg := h.nonneg
  simp only [computed, hmode, hch, hc0, hc, or_self, if_false, fit_cons, fit_nil, and_true]
  have hfield : FieldFits (.lit c) := trivial
  rw [fits_int_iff (by omega), and_iff_right hfield]
  rfl

theorem audit_digit {s : State} {opts : List Opt} {digits : List UInt8} {c : UInt8}
    {cs : List UInt8} (hdigit : isDigit c) (hopts : OptsFit (opts ++ [.width digits]))
    (h : Stands mem stop s (.directive opts (some digits)) (c :: cs)) :
    ∃ t, (ledger mem asserts stop).Quiet s t (OptsFit (opts ++ [.width (digits ++ [c])])) ∧
      Stands mem stop t (.directive opts (some (digits ++ [c]))) cs := by
  obtain ⟨t, hpass, htat⟩ := passes_digit hdigit h.here
  refine ⟨t, hpass.audited h.fmt_le ?_, h.of_passes hpass htat⟩
  obtain ⟨hmode, ⟨hc, -, -⟩, -, hpadn, -⟩ := h.here
  rw [optsFit_width_iff] at hopts ⊢
  rw [and_iff_right hopts.1]
  simp only [computed, hmode, hc, if_neg (not_width_ends hdigit)]
  exact fit_digit_iff digits hdigit hpadn

theorem audit_opt {s : State} {opts : List Opt} {c : UInt8} {o : Opt} {cs : List UInt8}
    (hopt : Dialect.opt .printf c = some o) (hopts : OptsFit opts)
    (h : Stands mem stop s (.directive opts none) (c :: cs)) :
    ∃ t, (ledger mem asserts stop).Quiet s t (OptsFit (opts ++ [o])) ∧
      Stands mem stop t (.directive (opts ++ [o]) none) cs := by
  obtain ⟨t, hpass, htat⟩ := passes_opt hopt h.here
  refine ⟨t, hpass.audited h.fmt_le ?_, h.of_passes hpass htat⟩
  have hcounters := h.here.2.2
  rw [computed_directive h.here]
  rcases switchComputed_opt s hopt with ⟨rfl, hcomputed⟩ | ⟨rfl, hcomputed⟩
  · have hpos : 0 ≤ lCount opts := by
      have hspec := lCount_spec opts
      split at hspec <;> omega
    rw [hcomputed, optsFit_modifier_iff opts (.inl rfl), and_iff_right hopts, lCount_append,
      hcounters.lCount, fit_cons, fits_int_iff (by omega)]
    simp
  · rw [hcomputed, optsFit_modifier_iff opts (.inr rfl), and_iff_right hopts, lCount_append]
    exact iff_of_true fit_nil (show (2 : ℤ) ≤ intMax by decide)

theorem audit_str {s : State} {opts : List Opt} {c : UInt8} {cs : List UInt8} {addr : BitVec 64}
    {str : List UInt8} {args : VaList} (hconv : Dialect.conv .printf c = some .s)
    (haddr : addr ≠ 0) (hstr : CString mem addr.toNat str) (hargs : s.args = .cons addr args)
    (h : Stands mem stop s (.directive opts none) (c :: cs)) :
    ∃ t, (ledger mem asserts stop).Puts limits s t args (.str str) ∧
      (t.count ≤ intMax → Stands mem stop t .literal cs) := by
  have hstep := step_specifier asserts hconv h.here
  rw [specifier_str asserts haddr hargs] at hstep
  have hemit : Emitted s { s with
      args, out := s.out ++ str, count := s.count + (0 + str.length) }.next args (.str str) :=
    ⟨rfl, rfl, rfl, rfl, by simp [State.next, Field.counted]⟩
  refine ⟨State.next { s with args, out := s.out ++ str, count := s.count + (0 + str.length) },
    ⟨?_, rfl, hemit.count⟩, h.of_emitted h.here.2.1.2.2 hemit⟩
  have hquiet : Fit (computed mem s) := by
    rw [computed_directive h.here, switchComputed_conv s hconv]
    exact fit_nil
  have hloop := clean_string asserts hstr { s with args } h.fmt_le h.nonneg le_rfl
  refine (clean_of_step hstep h.fmt_le).trans ((and_iff_right hquiet).trans (hloop.trans ?_))
  have hfield : limits.field (.str str) = True := rfl
  rw [hfield, true_and]
  simp [limits, ledger, Field.counted]

theorem audit_put {s : State} {opts : List Opt} {c : UInt8} {k : Conv} {cs : List UInt8}
    {args rest : List Arg} {beyond : VaList} {field : Field}
    (hconv : Dialect.conv .printf c = some k) (hopts : OptsFit opts)
    (hvalid : ∀ a ∈ args, a.Valid mem)
    (hfetch : fetch opts k args = some (field, rest)) (hargs : s.args = slots args beyond)
    (h : Stands mem stop s (.directive opts none) (c :: cs)) :
    ∃ t, (ledger mem asserts stop).Puts limits s t (slots rest beyond) field ∧
      (t.count ≤ intMax → Stands mem stop t .literal cs) := by
  have hfmt := h.here.2.1.2.2
  have hstep := step_specifier asserts hconv h.here
  have hcomputed : computed mem s = specifierComputed s k := by
    rw [computed_directive h.here, switchComputed_conv s hconv]
  unfold fetch at hfetch
  split at hfetch <;> cases hfetch
  · have hemit := emitted_percent asserts s
    rw [hargs] at hemit
    refine ⟨_, hemit.audited hstep h.fmt_le ?_, h.of_emitted hfmt hemit⟩
    rw [hcomputed]
    refine iff_of_true fit_nil ⟨trivial, ?_⟩
    rw [Field.counted, add_zero]
    exact h.count
  · obtain ⟨haddr, hstr⟩ := hvalid _ List.mem_cons_self
    exact audit_str hconv haddr hstr hargs h
  · have hk := (switch_conv asserts s hconv).2
    have hcapX := fun hc ↦ hk (congrArg Conv.num hc)
    have hemit := emitted_specifier asserts s h.here.2.2 hcapX hargs
    refine ⟨_, hemit.audited hstep h.fmt_le ?_, h.of_emitted hfmt hemit⟩
    rw [hcomputed]
    exact specifierComputed_fit_iff h.here.2.2 hopts h.nonneg hcapX hargs

theorem audit_cut {s : State} {opts : List Opt} {cs : List UInt8}
    (hstop : Dialect.Stops .printf cs) (h : Stands mem stop s (.directive opts none) cs) :
    (ledger mem asserts stop).clean s := by
  obtain ⟨hmode, hfmt, -⟩ := h.here
  have hstep : step mem asserts s = some { s with mode := .returned (-1) } := by
    simp [step, hmode, switch_stops hstop hfmt]
  refine (clean_of_step hstep h.fmt_le).mpr ⟨?_, clean_returned rfl⟩
  simp only [computed, hmode]
  cases cs with
  | nil =>
      have hnul : mem s.fmt = 0 := hfmt
      rw [hnul]
      exact fit_nil
  | cons c cs =>
      obtain ⟨-, hopt, hconv⟩ := hstop c rfl
      rw [hfmt.1, switchComputed_default s hopt hconv]
      exact fit_nil

theorem audits (mem : Mem) (asserts : Bool) (stop : ℕ) :
    Audits .printf false mem limits (ledger mem asserts stop) (Stands mem stop) where
  finish h := iff_of_true (audit_finish h) trivial
  lit hc h := audit_lit hc h
  opening {s cs} h := by
    obtain ⟨t, hpass, htat⟩ := passes_opening h.here
    refine ⟨t, hpass.audited h.fmt_le ?_, h.of_passes hpass htat⟩
    simp [computed, h.here.1, h.here.2.1]
  digit hdigit hopts h := audit_digit hdigit hopts h
  widthEnd {s opts digits cs} hend _ h := by
    obtain ⟨hdigit, t, hpass, htat⟩ : isDigit (mem s.fmt) = false ∧ ∃ t,
        Passes mem asserts s t 0 ∧ At mem t (.directive (opts ++ [.width digits]) none) cs :=
      passes_widthEnd hend h.here
    refine ⟨t, hpass.audited h.fmt_le ?_, htat, ?_, hpass.count ▸ h.nonneg, hpass.count ▸ h.count⟩
    · simp [computed, h.here.1, width_ends hdigit]
    · rw [hpass.fmt, add_zero]
      exact h.length
  width {s opts c cs} hc hopts h := by
    obtain ⟨t, hpass, htat⟩ := passes_width hc h.here
    refine ⟨t, hpass.audited h.fmt_le ?_, h.of_passes hpass htat⟩
    rw [computed_directive h.here, zero_of_opensWidth hc]
    refine iff_of_true fit_nil ((optsFit_width_iff opts _).mpr ⟨hopts, by decide⟩)
  opt hopt hopts h := audit_opt hopt hopts h
  put hconv hopts hvalid hfetch hargs h := audit_put hconv hopts hvalid hfetch hargs h
  skip h := by cases h
  cut _ hstop h := audit_cut hstop h

/-- What a reading asks for, read off its directives and fields. -/
theorem demands_iff (r : Reading) {total : ℤ} (htotal : total ≤ intMax) :
    Demands limits total r ↔ (∀ opts ∈ r.opts, OptsFit opts) ∧
      (∀ field ∈ r.fields, FieldFits field) ∧
      total + (r.fields.map Field.counted).sum ≤ intMax := by
  induction r generalizing total with
  | done => simpa [Demands, limits, Reading.opts, Reading.fields] using htotal
  | cut opts => simpa [Demands, limits, Reading.opts, Reading.fields] using fun _ ↦ htotal
  | skipped opts rest ih =>
      rw [Demands, ih htotal]
      simp only [Reading.opts, Reading.fields, List.forall_mem_cons, and_assoc]
      rfl
  | piece opts field rest ih =>
      have hrest : 0 ≤ (rest.fields.map Field.counted).sum :=
        List.sum_nonneg (by simpa using fun field _ ↦ counted_nonneg field)
      have hsum : total + ((rest.fields.map Field.counted).sum + field.counted) =
          total + field.counted + (rest.fields.map Field.counted).sum := by ring
      simp only [Reading.opts, Reading.fields, List.forall_mem_cons, List.map_cons, List.sum_cons]
      rw [add_comm field.counted, hsum]
      change OptsFit opts ∧ (FieldFits field ∧ total + field.counted ≤ intMax) ∧
        Demands limits (total + field.counted) rest ↔ _
      by_cases hrunning : total + field.counted ≤ intMax
      · rw [ih hrunning, and_iff_left hrunning]
        tauto
      · refine iff_of_false (fun h ↦ hrunning h.2.1.2) fun h ↦ ?_
        have hle := h.2.2
        omega

/-- The run of `vprintf` on a format with matching arguments. -/
theorem clean_iff (asserts : Bool) {fmt : ℕ} {f : List UInt8} {args : List Arg} {r : Reading}
    (hfmt : CString mem fmt f) (hvalid : ∀ a ∈ args, a.Valid mem)
    (hread : readFrom .printf false .literal f args = some r) (beyond : VaList) :
    Clean (step mem asserts) State.fmt (computed mem) (fmt + f.length)
        (start fmt (slots args beyond)) ↔
      (∀ opts ∈ r.opts, OptsFit opts) ∧ (∀ field ∈ r.fields, FieldFits field) ∧
        (r.fields.map Field.counted).sum ≤ intMax := by
  have hzero : (0 : ℤ) ≤ intMax := by decide
  have hstands : Stands mem (fmt + f.length) (start fmt (slots args beyond)) .literal f :=
    ⟨⟨rfl, hfmt⟩, rfl, le_rfl, hzero⟩
  have hsettled := (audits mem asserts (fmt + f.length)).settles f .literal _ hstands
    limits.opts_nil args beyond r rfl hvalid hread
  have hdemands := demands_iff r hzero
  rw [zero_add] at hdemands
  exact hsettled.trans hdemands

end BaizeBoard.Vprintf
