import BaizeBoard.Libc.Reader
import BaizeBoard.Libc.Vsnprintf

/-!
# What `vsnprintf` stores for a format

`Layout` is what the items of a directive leave in the variables `left`,
`padc`, `padn` and `l_count`, and `Field.stored` is the text that a field puts
into the buffer.  Unlike the rendering of `printf.c`, it is stated from these
variables: the two scanners are separate copies, and where their texts differ
is a question of its own.
-/

namespace BaizeBoard

namespace Vsnprintf

/-- The variables of the scanner that a directive sets. -/
structure Layout where
  left : Bool
  padc : UInt8
  padn : ℤ
  lCount : ℕ
  deriving DecidableEq

def Layout.reset : Layout := { left := false, padc := 0, padn := 0, lCount := 0 }

/-- `padc = (*fmt == '0') ? '0' : ' ';` at the first digit of a width. -/
def padChar (digits : List UInt8) : UInt8 :=
  if digits.head? = some '0'.toUInt8 then '0'.toUInt8 else ' '.toUInt8

def Layout.read (l : Layout) : Opt → Layout
  | .l => { l with lCount := (l.lCount + 1) % 2 ^ 32 }
  | .z => { l with lCount := 1 }
  | .minus => { l with left := true }
  | .width digits =>
      { l with
        padc := padChar digits
        padn := toInt32 (if l.left then -widthValue digits else widthValue digits) }

def layout (opts : List Opt) : Layout := opts.foldl Layout.read Layout.reset

theorem layout_append (opts : List Opt) (o : Opt) :
    layout (opts ++ [o]) = (layout opts).read o := by
  rw [layout, List.foldl_append]
  rfl

/-- A number with its sign or prefix, padded as the layout says; only the
prefix counts for the width. -/
def Layout.number (l : Layout) (arg : BitVec 64) : NumConv → List UInt8
  | .d | .i =>
      let num := toInt32 (getNumVaArgs arg l.lCount)
      minusSign num ++ numField l.padc l.padn (decimal num.natAbs)
  | .u => numField l.padc l.padn (decimal (getUnumVaArgs arg l.lCount).toNat)
  | .x => numField l.padc l.padn (hexadecimal (getUnumVaArgs arg l.lCount).toNat)
  | .capX =>
      numField l.padc l.padn (numeral 'A'.toUInt8 16 (getUnumVaArgs arg l.lCount).toNat)
  | .p =>
      hexPrefix arg ++ numField l.padc (if arg = 0 then l.padn else toInt32 (l.padn - 2))
        (hexadecimal arg.toNat)

/-- The width that is left for the digits of a number: the prefix of a pointer counts. -/
def padnFor (padn : ℤ) (arg : BitVec 64) : NumConv → ℤ
  | .p => padn - (hexPrefix arg).length
  | .d | .i | .u | .x | .capX => padn

theorem padnFor_eq (padn : ℤ) (arg : BitVec 64) (conv : NumConv) :
    padnFor padn arg conv = if conv = .p ∧ arg ≠ 0 then padn - 2 else padn := by
  cases conv with
  | d | i | u | x | capX => rfl
  | p =>
      rw [padnFor, hexPrefix]
      by_cases harg : arg = 0
      · rw [if_pos harg, if_neg fun h ↦ h.2 harg, List.length_nil, Nat.cast_zero, sub_zero]
      · rw [if_neg harg, if_pos ⟨rfl, harg⟩]
        rfl

theorem padnFor_number (padn : ℤ) (arg : BitVec 64) {conv : NumConv} (hconv : conv ≠ .p) :
    padnFor padn arg conv = padn := by
  rw [padnFor_eq, if_neg fun h ↦ hconv h.1]

/-- `padn` is an `int`, whatever digits it has been read from. -/
theorem toInt32_padn (opts : List Opt) : toInt32 (layout opts).padn = (layout opts).padn := by
  induction opts using List.reverseRecOn with
  | nil => rfl
  | append_singleton opts o ih =>
      rw [layout_append]
      cases o with
      | width digits => exact toInt32_eq_iff.mpr (toInt32_bounds _)
      | l | z | minus => exact ih

end Vsnprintf

/-! ## Widths that an `int` holds -/

namespace Vsnprintf

def OptsFit (opts : List Opt) : Prop :=
  ∀ digits, .width digits ∈ opts → (widthValue digits : ℤ) ≤ intMax

theorem optsFit_append_iff (opts : List Opt) (o : Opt) :
    OptsFit (opts ++ [o]) ↔
      OptsFit opts ∧ ∀ digits, o = .width digits → (widthValue digits : ℤ) ≤ intMax := by
  constructor
  · intro h
    exact ⟨fun d hd ↦ h d (List.mem_append_left _ hd), fun d hd ↦ h d (by simp [hd])⟩
  · rintro ⟨h, ho⟩ d hd
    rcases List.mem_append.mp hd with hd | hd
    · exact h d hd
    · exact ho d (List.mem_singleton.mp hd).symm

theorem optsFit_width_iff (opts : List Opt) (digits : List UInt8) :
    OptsFit (opts ++ [.width digits]) ↔ OptsFit opts ∧ (widthValue digits : ℤ) ≤ intMax := by
  simp [optsFit_append_iff]

theorem toInt32_width {digits : List UInt8} (h : (widthValue digits : ℤ) ≤ intMax) (left : Bool) :
    toInt32 (if left then -widthValue digits else widthValue digits) =
      if left then -(widthValue digits : ℤ) else widthValue digits := by
  simp only [intMax] at h
  rw [toInt32_eq_iff]
  split <;> omega

theorem OptsFit.padn_bounds {opts : List Opt} (h : OptsFit opts) :
    -intMax ≤ (layout opts).padn ∧ (layout opts).padn ≤ intMax := by
  induction opts using List.reverseRecOn with
  | nil => decide
  | append_singleton opts o ih =>
      rw [optsFit_append_iff] at h
      rw [layout_append]
      cases o with
      | width digits =>
          have hw := h.2 digits rfl
          simp only [Layout.read, toInt32_width hw]
          simp only [intMax] at hw ⊢
          split <;> omega
      | l | z | minus => exact ih h.1

end Vsnprintf

def Field.stored : Field → List UInt8
  | .lit c => [c]
  | .percent => ['%'.toUInt8]
  | .str s => s
  | .number opts conv arg => (Vsnprintf.layout opts).number arg conv

namespace Vsnprintf

def State.layout (s : State) : Layout :=
  { left := s.left, padc := s.padc, padn := s.padn, lCount := s.lCount }

/-- `(unsigned int)-num` is the absolute value, for `INT_MIN` as well. -/
theorem toNat_toUInt32 {v : ℤ} (hlo : 0 ≤ v) (hhi : v < 2 ^ 32) :
    (toUInt32 v).toNat = v.natAbs := by
  rw [toUInt32, BitVec.toNat_setWidth, BitVec.toNat_ofInt]
  norm_num at hhi ⊢
  omega

variable {mem : Mem} {asserts : Bool} {n : ℕ}

/-- A directive has been carried out: its text is put, the argument is fetched,
and the scan is behind the specifier. -/
structure Emitted (n : ℕ) (s t : State) (args : VaList) (text : List UInt8) : Prop where
  mode : t.mode = .scan
  fmt : t.fmt = s.fmt + 1
  args : t.args = args
  buf : t.buf = s.buf.putAll n text

theorem Emitted.after {s t : State} (s' : State) {args : VaList} {front text : List UInt8}
    (hfmt : s'.fmt = s.fmt) (hbuf : s'.buf = s.buf.putAll n front)
    (h : Emitted n s' t args text) : Emitted n s t args (front ++ text) := by
  refine ⟨h.mode, by rw [h.fmt, hfmt], h.args, ?_⟩
  rw [h.buf, hbuf, Buf.putAll_append]

theorem emitted_numPrint (asserts : Bool) (n : ℕ) (s : State) (unum : BitVec 64) {radix : ℕ}
    (hradix : 10 ≤ radix) (capitalise : Bool) :
    Emitted n s (s.numPrint asserts n unum radix capitalise) s.args
      (numField s.padc s.padn
        (numeral (if capitalise then 'A'.toUInt8 else 'a'.toUInt8) radix unum.toNat)) := by
  unfold State.numPrint
  rw [unsignedNumPrint_eq asserts n s.buf unum hradix]
  exact ⟨rfl, rfl, rfl, rfl⟩

theorem emitted_signed (s : State) (arg : BitVec 64) :
    Emitted n s (s.signed asserts n arg) s.args (s.layout.number arg .d) := by
  obtain ⟨hlo, hhi⟩ := toInt32_bounds (getNumVaArgs arg s.lCount)
  unfold State.signed Layout.number
  simp only [State.layout]
  by_cases hneg : toInt32 (getNumVaArgs arg s.lCount) < 0
  · rw [if_pos hneg, minusSign, if_pos hneg]
    refine Emitted.after (s.put n '-'.toUInt8) rfl rfl ?_
    have hnum := emitted_numPrint asserts n (s.put n '-'.toUInt8)
      (toUInt32 (-toInt32 (getNumVaArgs arg s.lCount))) (by decide : 10 ≤ 10) false
    rw [toNat_toUInt32 (by omega) (by omega), Int.natAbs_neg] at hnum
    exact hnum
  · rw [if_neg hneg, minusSign, if_neg hneg]
    have hnum := emitted_numPrint asserts n s
      (toUInt32 (toInt32 (getNumVaArgs arg s.lCount))) (by decide : 10 ≤ 10) false
    rw [toNat_toUInt32 (by omega) (by omega)] at hnum
    exact hnum

theorem emitted_pointer (s : State) (arg : BitVec 64) :
    Emitted n s (s.pointer asserts n arg) s.args (s.layout.number arg .p) := by
  unfold State.pointer Layout.number
  simp only [State.layout]
  by_cases harg : arg = 0
  · rw [if_neg (by simp [harg]), hexPrefix, if_pos harg, if_pos harg]
    exact emitted_numPrint asserts n s arg (by decide : 10 ≤ 16) false
  · have hpos : arg > 0 := (BitVec.pos_iff_ne_zero arg).mpr harg
    rw [if_pos hpos, hexPrefix, if_neg harg, if_neg harg]
    refine Emitted.after
      ((s.stringPrint n ['0'.toUInt8, 'x'.toUInt8]).subPadn 2) rfl rfl ?_
    exact emitted_numPrint asserts n _ arg (by decide) false

theorem emitted_unsigned (asserts : Bool) (n : ℕ) (s : State) (arg : BitVec 64) {radix : ℕ}
    (hradix : 10 ≤ radix) (capitalise : Bool) :
    Emitted n s (s.unsigned asserts n radix capitalise arg) s.args
      (numField s.padc s.padn (numeral (if capitalise then 'A'.toUInt8 else 'a'.toUInt8) radix
        (getUnumVaArgs arg s.lCount).toNat)) :=
  emitted_numPrint asserts n s _ hradix capitalise

theorem State.vaArg_cons {s : State} {w : BitVec 64} {args : VaList}
    (h : s.args = .cons w args) (k : State → BitVec 64 → State) :
    s.vaArg k = k { s with args } w := by
  simp [State.vaArg, h]

/-! ## The cases of the `switch` -/

section Switch

variable (asserts : Bool) (n : ℕ) (s : State) {c : UInt8}

theorem switch_digit (h : isDigit c) : s.switch asserts n c =
    { s with padc := padChar [c], padn := 0, mode := .width } := by
  have hc : c ≠ '%'.toUInt8 := by
    rintro rfl
    exact absurd h (by decide)
  simp [State.switch, hc, h, padChar]

theorem switch_opt {o : Opt} (h : Dialect.opt .snprintf c = some o) :
    (s.switch asserts n c).mode = s.mode ∧ (s.switch asserts n c).fmt = s.fmt + 1 ∧
      (s.switch asserts n c).args = s.args ∧ (s.switch asserts n c).buf = s.buf ∧
      (s.switch asserts n c).capitalise = s.capitalise ∧
      (s.switch asserts n c).layout = s.layout.read o := by
  rcases opt_cases h with ⟨rfl, rfl⟩ | ⟨rfl, rfl⟩ | ⟨-, rfl, rfl⟩
  · exact ⟨rfl, rfl, rfl, rfl, rfl, rfl⟩
  · exact ⟨rfl, rfl, rfl, rfl, rfl, rfl⟩
  · exact ⟨rfl, rfl, rfl, rfl, rfl, rfl⟩

def specifier (asserts : Bool) (n : ℕ) (s : State) : Conv → State
  | .percent => (s.put n '%'.toUInt8).next
  | .s => s.vaArg fun s arg ↦ { s with mode := .string arg.toNat }
  | .num .d | .num .i => s.vaArg (State.signed asserts n)
  | .num .u => s.vaArg (State.unsigned asserts n · 10 false)
  | .num .x => s.vaArg fun s ↦ s.unsigned asserts n 16 s.capitalise
  | .num .capX => { s with capitalise := true }.vaArg fun s ↦ s.unsigned asserts n 16 s.capitalise
  | .num .p => s.vaArg (State.pointer asserts n)

theorem switch_conv {k : Conv} (h : Dialect.conv .snprintf c = some k) :
    s.switch asserts n c = specifier asserts n s k := by
  obtain rfl := char_conv h
  cases k with
  | percent | s => rfl
  | num conv => cases conv with | d | i | u | x | capX | p => rfl

theorem emitted_specifier (hcap : s.capitalise = false) (conv : NumConv) {w : BitVec 64}
    {args : VaList} (hargs : s.args = .cons w args) :
    Emitted n s (specifier asserts n s (.num conv)) args (s.layout.number w conv) := by
  have hva := State.vaArg_cons hargs
  -- Fetching the argument leaves everything the case looks at as it is.
  have hfetch : ∀ {t text}, Emitted n { s with args } t args text → Emitted n s t args text :=
    fun h ↦ ⟨h.mode, h.fmt, h.args, h.buf⟩
  cases conv with
  | d => rw [specifier, hva]; exact hfetch (emitted_signed _ w)
  | i => rw [specifier, hva]; exact hfetch (emitted_signed _ w)
  | u => rw [specifier, hva]; exact hfetch (emitted_unsigned asserts n _ w (by decide) false)
  | x =>
      rw [specifier, hva]
      have hlower : ∀ cap, cap = false → Emitted n { s with args }
          (State.unsigned asserts n { s with args } 16 cap w) args (s.layout.number w .x) := by
        rintro cap rfl
        exact emitted_unsigned asserts n _ w (by decide) false
      exact hfetch (hlower _ hcap)
  | capX =>
      rw [specifier, State.vaArg_cons (s := { s with capitalise := true }) hargs]
      have h := emitted_unsigned asserts n { s with args, capitalise := true } w
        (by decide : 10 ≤ 16) true
      exact ⟨h.mode, h.fmt, h.args, h.buf⟩
  | p => rw [specifier, hva]; exact hfetch (emitted_pointer _ w)

end Switch

theorem eval_string (asserts : Bool) (n : ℕ) {str : List UInt8} {p : ℕ} (h : CString mem p str)
    (s : State) :
    StateTransition.eval (step mem asserts n) { s with mode := .string p } =
      StateTransition.eval (step mem asserts n) { s with buf := s.buf.putAll n str }.next := by
  induction str generalizing p s with
  | nil =>
      have hz : mem p = 0 := h
      apply StateTransition.eval_eq_of_step
      simp [step, hz, State.next]
  | cons c str ih =>
      obtain ⟨hc, hc0, hrest⟩ := h
      have hstep : step mem asserts n { s with mode := .string p } =
          some { s.put n c with mode := .string (p + 1) } := by
        simp [step, hc, hc0, State.put]
      rw [StateTransition.eval_eq_of_step hstep, ih hrest (s.put n c)]
      rfl

/-! ## Reading the format -/

def view (n : ℕ) : View State Buf where
  args := State.args
  output := State.buf
  emit b field := b.putAll n field.stored

/-- The machine stands where the reading of the format stands. -/
def At (mem : Mem) (s : State) : Scan → List UInt8 → Prop
  | .literal, cs => s.mode = .scan ∧ CString mem s.fmt cs
  | .directive opts none, cs =>
      s.mode = .directive ∧ CString mem s.fmt cs ∧ s.capitalise = false ∧ s.layout = layout opts
  | .directive opts (some digits), cs =>
      s.mode = .width ∧ CString mem s.fmt cs ∧ s.capitalise = false ∧ digits ≠ [] ∧
        s.layout =
          { layout opts with padc := padChar digits, padn := toInt32 (widthValue digits) }

/-- A round in which `k` characters of the format are read, and nothing is put or fetched. -/
structure Passes (mem : Mem) (asserts : Bool) (n : ℕ) (s t : State) (k : ℕ) : Prop where
  step : step mem asserts n s = some t
  fmt : t.fmt = s.fmt + k
  args : t.args = s.args
  buf : t.buf = s.buf

theorem Passes.quiet {s t : State} {k : ℕ} (h : Passes mem asserts n s t k) :
    (view n).Quiet (Vsnprintf.step mem asserts n) s t :=
  ⟨StateTransition.eval_eq_of_step h.step, h.args, h.buf⟩

theorem Emitted.puts {s t : State} {args : VaList} (field : Field)
    (h : Emitted n s t args field.stored)
    (heval : StateTransition.eval (step mem asserts n) s =
      StateTransition.eval (step mem asserts n) t) :
    (view n).Puts (step mem asserts n) s t args field :=
  ⟨heval, h.args, h.buf⟩

theorem Emitted.at_literal {s t : State} {args : VaList} {text : List UInt8}
    (h : Emitted n s t args text) {cs : List UInt8} (hfmt : CString mem (s.fmt + 1) cs) :
    At mem t .literal cs :=
  ⟨h.mode, h.fmt ▸ hfmt⟩

theorem step_directive (asserts : Bool) (n : ℕ) {s : State} {opts : List Opt} {c : UInt8}
    {cs : List UInt8}
    (h : At mem s (.directive opts none) (c :: cs)) :
    step mem asserts n s = some (s.switch asserts n c) := by
  simp [step, h.1, h.2.1.1]

theorem step_width_digit (asserts : Bool) (n : ℕ) {s : State} {c : UInt8} (hmode : s.mode = .width)
    (hc : mem s.fmt = c) (hdigit : isDigit c) :
    step mem asserts n s = some { s with
      padn := toInt32 (s.padn * 10 + (c.toNat - '0'.toNat : ℤ)), fmt := s.fmt + 1 } := by
  simp only [step, hmode, hc, hdigit, if_true]

theorem passes_opening {s : State} {cs : List UInt8}
    (hat : At mem s .literal ('%'.toUInt8 :: cs)) :
    ∃ t, Passes mem asserts n s t 1 ∧ At mem t (.directive [] none) cs := by
  obtain ⟨hmode, hch, -, hfmt⟩ := hat
  have hstep : step mem asserts n s = some { s with
      left := false, padc := 0, padn := 0, capitalise := false, lCount := 0,
      mode := .directive, fmt := s.fmt + 1 } := by
    simp only [step, hmode, hch]
    rfl
  exact ⟨_, ⟨hstep, rfl, rfl, rfl⟩, rfl, hfmt, rfl, rfl⟩

theorem passes_opt {s : State} {opts : List Opt} {c : UInt8} {o : Opt} {cs : List UInt8}
    (hopt : Dialect.opt .snprintf c = some o) (hat : At mem s (.directive opts none) (c :: cs)) :
    ∃ t, Passes mem asserts n s t 1 ∧ At mem t (.directive (opts ++ [o]) none) cs := by
  have hstep := step_directive asserts n hat
  obtain ⟨hmode, hfmt, hargs, hbuf, hcap, hlayout⟩ := switch_opt asserts n s hopt
  refine ⟨_, ⟨hstep, hfmt, hargs, hbuf⟩, hmode.trans hat.1, hfmt ▸ hat.2.1.2.2,
    hcap.trans hat.2.2.1, ?_⟩
  rw [hlayout, hat.2.2.2, layout_append]

theorem passes_digit {s : State} {opts : List Opt} {digits : List UInt8} {c : UInt8}
    {cs : List UInt8} (hdigit : isDigit c)
    (hat : At mem s (.directive opts (some digits)) (c :: cs)) :
    ∃ t, Passes mem asserts n s t 1 ∧ At mem t (.directive opts (some (digits ++ [c]))) cs := by
  obtain ⟨hmode, ⟨hc, -, hfmt⟩, hcap, hne, hlayout⟩ := hat
  have hstep := step_width_digit asserts n hmode hc hdigit
  refine ⟨_, ⟨hstep, rfl, rfl, rfl⟩, hmode, hfmt, hcap, by simp, ?_⟩
  have hhead : padChar (digits ++ [c]) = padChar digits := by
    unfold padChar
    rw [List.head?_append_of_ne_nil _ hne]
  obtain ⟨hleft, hpadc, hpadn, hl⟩ := Layout.mk.inj hlayout
  have hvalue : toInt32 (s.padn * 10 + (c.toNat - '0'.toNat : ℤ)) =
      toInt32 (widthValue (digits ++ [c])) := by
    rw [hpadn, toInt32_digit, padn_digit digits hdigit]
  simp only [State.layout, hleft, hpadc, hl, hhead, hvalue]

theorem passes_widthEnd {s : State} {opts : List Opt} {digits cs : List UInt8}
    (hend : ∀ c ∈ cs.head?, isDigit c = false)
    (hat : At mem s (.directive opts (some digits)) cs) :
    isDigit (mem s.fmt) = false ∧ ∃ t, Passes mem asserts n s t 0 ∧
      At mem t (.directive (opts ++ [.width digits]) none) cs := by
  obtain ⟨hmode, hfmt, hcap, -, hlayout⟩ := hat
  have hch : isDigit (mem s.fmt) = false := by
    cases cs with
    | nil =>
        have hz : mem s.fmt = 0 := hfmt
        rw [hz]
        rfl
    | cons c cs =>
        rw [hfmt.1]
        exact hend c rfl
  have hstep : step mem asserts n s = some { s with
      padn := if s.left then toInt32 (-s.padn) else s.padn, mode := .directive } := by
    simp only [step, hmode, hch, Bool.false_eq_true, if_false]
  refine ⟨hch, _, ⟨hstep, rfl, rfl, rfl⟩, rfl, hfmt, hcap, ?_⟩
  obtain ⟨hleft, hpadc, hpadn, hl⟩ := Layout.mk.inj hlayout
  have hside : (if (layout opts).left then toInt32 (-toInt32 (widthValue digits))
      else toInt32 (widthValue digits)) =
        toInt32 (if (layout opts).left then -widthValue digits else widthValue digits) := by
    rw [toInt32_neg, apply_ite toInt32]
  rw [layout_append]
  simp only [State.layout, Layout.read, hleft, hpadc, hpadn, hl, hside]

/-- The loop over a width tests its first digit once more. -/
theorem passes_width {s : State} {opts : List Opt} {c : UInt8} {cs : List UInt8}
    (hdigit : isDigit c) (hat : At mem s (.directive opts none) (c :: cs)) :
    ∃ u t, Passes mem asserts n s u 0 ∧ (u.mode = .width ∧ u.padn = 0) ∧
      Passes mem asserts n u t 1 ∧ At mem t (.directive opts (some [c])) cs := by
  have henter := step_directive asserts n hat
  rw [switch_digit asserts n s hdigit] at henter
  obtain ⟨-, ⟨hc, -, hfmt⟩, hcap, hlayout⟩ := hat
  have hstep := step_width_digit asserts n
    (s := { s with padc := padChar [c], padn := 0, mode := .width }) rfl hc hdigit
  refine ⟨_, _, ⟨henter, rfl, rfl, rfl⟩, ⟨rfl, rfl⟩, ⟨hstep, rfl, rfl, rfl⟩, rfl, hfmt, hcap,
    by simp, ?_⟩
  obtain ⟨hleft, -, -, hl⟩ := Layout.mk.inj (hlayout.trans rfl : s.layout = layout opts)
  have hval := padn_digit [] hdigit
  simp only [State.layout, hleft, hl]
  rw [show (0 : ℤ) = (widthValue [] : ℤ) from rfl, hval]
  rfl

theorem step_lit (asserts : Bool) (n : ℕ) {s : State} {c : UInt8} {cs : List UInt8}
    (hc : c ≠ '%'.toUInt8) (hat : At mem s .literal (c :: cs)) :
    ∃ t, step mem asserts n s = some t ∧ Emitted n s t s.args (Field.lit c).stored := by
  obtain ⟨hmode, hch, hc0, -⟩ := hat
  have hstep : step mem asserts n s = some ({ s with
      left := false, padc := 0, padn := 0, capitalise := false, lCount := 0 }.put n c).next := by
    simp only [step, hmode, hch, hc0, hc, if_false]
  exact ⟨_, hstep, rfl, rfl, rfl, rfl⟩

theorem step_specifier (asserts : Bool) (n : ℕ) {s : State} {opts : List Opt} {c : UInt8}
    {k : Conv} {cs : List UInt8} (hconv : Dialect.conv .snprintf c = some k)
    (hat : At mem s (.directive opts none) (c :: cs)) :
    step mem asserts n s = some (specifier asserts n s k) := by
  rw [step_directive asserts n hat, switch_conv asserts n s hconv]

theorem emitted_number (asserts : Bool) (n : ℕ) {s : State} {opts : List Opt} {cs : List UInt8}
    (hat : At mem s (.directive opts none) cs) (conv : NumConv) {w : BitVec 64}
    {args : VaList} (hargs : s.args = .cons w args) :
    Emitted n s (specifier asserts n s (.num conv)) args (Field.number opts conv w).stored := by
  have hemit := emitted_specifier asserts n s hat.2.2.1 conv hargs
  rwa [hat.2.2.2] at hemit

theorem reads (mem : Mem) (asserts : Bool) (n : ℕ) :
    Reads .snprintf mem (view n) (step mem asserts n) (At mem) where
  lit {s c cs} hc hat := by
    obtain ⟨t, hstep, hemit⟩ := step_lit asserts n hc hat
    exact ⟨t, hemit.puts _ (StateTransition.eval_eq_of_step hstep), hemit.at_literal hat.2.2.2⟩
  opening {s cs} hat := by
    obtain ⟨t, hpass, htat⟩ := passes_opening hat
    exact ⟨t, hpass.quiet, htat⟩
  digit {s opts digits c cs} hdigit hat := by
    obtain ⟨t, hpass, htat⟩ := passes_digit hdigit hat
    exact ⟨t, hpass.quiet, htat⟩
  widthEnd {s opts digits cs} hend hat := by
    obtain ⟨-, t, hpass, htat⟩ := passes_widthEnd hend hat
    exact ⟨t, hpass.quiet, htat⟩
  width {s opts c cs} hdigit hat := by
    obtain ⟨u, t, henter, -, hpass, htat⟩ := passes_width hdigit hat
    exact ⟨t, ⟨henter.quiet.eval.trans hpass.quiet.eval, hpass.args.trans henter.args,
      hpass.buf.trans henter.buf⟩, htat⟩
  opt {s opts c o cs} _ hopt hat := by
    obtain ⟨t, hpass, htat⟩ := passes_opt hopt hat
    exact ⟨t, hpass.quiet, htat⟩
  percent {s opts c cs} hconv hat := by
    have hstep := step_specifier asserts n hconv hat
    have hemit : Emitted n s (specifier asserts n s .percent) s.args Field.percent.stored :=
      ⟨rfl, rfl, rfl, rfl⟩
    exact ⟨_, hemit.puts _ (StateTransition.eval_eq_of_step hstep), hemit.at_literal hat.2.1.2.2⟩
  str {s opts c cs addr args str} hconv _ hstr hargs hat := by
    have hstep := step_specifier asserts n hconv hat
    have hspec : specifier asserts n s .s = { s with args, mode := .string addr.toNat } := by
      rw [specifier, State.vaArg_cons hargs]
    rw [hspec] at hstep
    have hrun := eval_string asserts n hstr { s with args }
    have hemit : Emitted n s { s with args, buf := s.buf.putAll n str }.next args
        (Field.str str).stored := ⟨rfl, rfl, rfl, rfl⟩
    exact ⟨_, hemit.puts _ ((StateTransition.eval_eq_of_step hstep).trans hrun),
      hemit.at_literal hat.2.1.2.2⟩
  num {s opts c cs conv w args} hconv hargs hat := by
    have hstep := step_specifier asserts n hconv hat
    have hemit := emitted_number asserts n hat conv hargs
    exact ⟨_, hemit.puts (.number opts conv w) (StateTransition.eval_eq_of_step hstep),
      hemit.at_literal hat.2.1.2.2⟩

theorem foldl_emit (n : ℕ) (fields : List Field) (b : Buf) :
    fields.foldl (view n).emit b = b.putAll n (fields.flatMap Field.stored) := by
  induction fields generalizing b with
  | nil => rfl
  | cons field fields ih => rw [List.foldl_cons, ih, List.flatMap_cons, Buf.putAll_append]; rfl

/-- The run of `vsnprintf` on a documented format whose arguments match. -/
theorem returns_fields (asserts : Bool) {fmt : ℕ} {f : List UInt8} {args : List Arg}
    {fields : List Field}
    (hfmt : CString mem fmt f) (hdoc : (parse .snprintf f).Documented)
    (hvalid : ∀ a ∈ args, a.Valid mem)
    (hmatch : (parse .snprintf f).fields args = some fields) (beyond : VaList) (n : ℕ) :
    let b := (enter n).2.putAll (enter n).1 (fields.flatMap Field.stored)
    Returns mem asserts n fmt (slots args beyond) b.result (leave (enter n).1 b).writes := by
  obtain ⟨t, heval, hout, hend⟩ := (reads mem asserts (enter n).1).covers f .literal
    (start fmt (slots args beyond) (enter n).2) ⟨rfl, hfmt⟩ args beyond fields rfl hvalid hmatch
  rw [foldl_emit] at hout
  rw [if_pos (show (parseFrom .snprintf .literal f).Documented from hdoc)] at hend
  obtain ⟨hmode, hz⟩ := hend
  have hstep : step mem asserts (enter n).1 t = some { t with mode := .finished } := by
    have hz' : mem t.fmt = 0 := hz
    simp [step, hmode, hz']
  have hbuf : t.buf = (enter n).2.putAll (enter n).1 (fields.flatMap Field.stored) := hout
  refine ⟨{ t with mode := .finished }, ?_, rfl, congrArg Buf.result hbuf, by rw [hbuf]⟩
  rw [heval, StateTransition.eval_eq_of_step hstep]
  exact StateTransition.mem_eval_self rfl

end Vsnprintf

end BaizeBoard
