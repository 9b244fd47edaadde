import BaizeBoard.Libc.NumPrint

/-!
# The format languages of the two formatters

A format is literal text and directives.  `parse` reads a format string into
a `Format` for the directives that `vprintf` supports, or for those that
`vsnprintf` supports; a format with an unsupported or truncated directive ends
in `broken`.  `Format.text` spells a format out again, and `text_parse` says
that reading loses nothing.

`Field.render` is the rendering that the comment above `vprintf` documents:
it is stated from the modifiers, the width and the argument of a directive,
with no reference to the scanner.
-/

namespace BaizeBoard

/-- What a directive may hold between `%` and its specifier: `l`, `z`, `-`, or
the digits of a width. -/
inductive Opt where
  | l
  | z
  | minus
  | width (digits : List UInt8)
  deriving DecidableEq

inductive NumConv where
  | d
  | i
  | u
  | x
  | capX
  | p
  deriving DecidableEq

inductive Conv where
  | percent
  | s
  | num (conv : NumConv)
  deriving DecidableEq

inductive Format where
  | done
  | lit (c : UInt8) (rest : Format)
  | directive (opts : List Opt) (conv : Conv) (rest : Format)
  /-- A directive cut off by `rest`: the end of the string, or a character
  that is no specifier. -/
  | broken (opts : List Opt) (rest : List UInt8)
  deriving DecidableEq

/-! ## Spelling a format out -/

def Opt.text : Opt → List UInt8
  | .l => ['l'.toUInt8]
  | .z => ['z'.toUInt8]
  | .minus => ['-'.toUInt8]
  | .width digits => digits

def NumConv.char : NumConv → UInt8
  | .d => 'd'.toUInt8
  | .i => 'i'.toUInt8
  | .u => 'u'.toUInt8
  | .x => 'x'.toUInt8
  | .capX => 'X'.toUInt8
  | .p => 'p'.toUInt8

def Conv.char : Conv → UInt8
  | .percent => '%'.toUInt8
  | .s => 's'.toUInt8
  | .num conv => conv.char

def Format.text : Format → List UInt8
  | .done => []
  | .lit c rest => c :: rest.text
  | .directive opts conv rest => '%'.toUInt8 :: opts.flatMap Opt.text ++ conv.char :: rest.text
  | .broken opts rest => '%'.toUInt8 :: opts.flatMap Opt.text ++ rest

/-! ## Reading a format string -/

inductive Dialect where
  | printf
  | snprintf
  deriving DecidableEq

def isDigit (c : UInt8) : Bool := '0'.toUInt8 ≤ c && c ≤ '9'.toUInt8

/-- `vprintf` knows widths that start with `0`, `vsnprintf` any digits. -/
def Dialect.opensWidth : Dialect → UInt8 → Bool
  | .printf, c => c = '0'.toUInt8
  | .snprintf, c => isDigit c

def Dialect.opt (D : Dialect) (c : UInt8) : Option Opt :=
  if c = 'l'.toUInt8 then some .l
  else if c = 'z'.toUInt8 then some .z
  else if D = .snprintf ∧ c = '-'.toUInt8 then some .minus
  else none

def Dialect.conv (D : Dialect) (c : UInt8) : Option Conv :=
  if c = '%'.toUInt8 then some .percent
  else if c = 's'.toUInt8 then some .s
  else if c = 'd'.toUInt8 then some (.num .d)
  else if c = 'i'.toUInt8 then some (.num .i)
  else if c = 'u'.toUInt8 then some (.num .u)
  else if c = 'x'.toUInt8 then some (.num .x)
  else if D = .snprintf ∧ c = 'X'.toUInt8 then some (.num .capX)
  else if c = 'p'.toUInt8 then some (.num .p)
  else none

/-- Where reading stands: in literal text, or in a directive whose last item
may be a width that is still being read. -/
inductive Scan where
  | literal
  | directive (opts : List Opt) (digits : Option (List UInt8))

def closeWidth (opts : List Opt) : Option (List UInt8) → List Opt
  | none => opts
  | some digits => opts ++ [.width digits]

def parseFrom (D : Dialect) : Scan → List UInt8 → Format
  | .literal, [] => .done
  | .literal, c :: cs =>
      if c = '%'.toUInt8 then parseFrom D (.directive [] none) cs
      else .lit c (parseFrom D .literal cs)
  | .directive opts digits, [] => .broken (closeWidth opts digits) []
  | .directive opts digits, c :: cs =>
      if digits.isSome ∧ isDigit c then
        parseFrom D (.directive opts (digits.map (· ++ [c]))) cs
      else if D.opensWidth c then
        parseFrom D (.directive (closeWidth opts digits) (some [c])) cs
      else match D.opt c with
        | some opt => parseFrom D (.directive (closeWidth opts digits ++ [opt]) none) cs
        | none =>
            match D.conv c with
            | some conv => .directive (closeWidth opts digits) conv (parseFrom D .literal cs)
            | none => .broken (closeWidth opts digits) (c :: cs)

def parse (D : Dialect) (f : List UInt8) : Format := parseFrom D .literal f

def Format.Documented : Format → Prop
  | .done => True
  | .lit _ rest => rest.Documented
  | .directive _ _ rest => rest.Documented
  | .broken _ _ => False

instance : ∀ F : Format, Decidable F.Documented
  | .done => isTrue trivial
  | .lit _ rest => instDecidableDocumented rest
  | .directive _ _ rest => instDecidableDocumented rest
  | .broken _ _ => isFalse id

theorem opt_cases {D : Dialect} {c : UInt8} {o : Opt} (h : D.opt c = some o) :
    (c = 'l'.toUInt8 ∧ o = .l) ∨ (c = 'z'.toUInt8 ∧ o = .z) ∨
      (D = .snprintf ∧ c = '-'.toUInt8 ∧ o = .minus) := by
  unfold Dialect.opt at h
  rcases ite_eq_iff.mp h with ⟨hl, ⟨⟩⟩ | ⟨-, h⟩
  · exact .inl ⟨hl, rfl⟩
  rcases ite_eq_iff.mp h with ⟨hz, ⟨⟩⟩ | ⟨-, h⟩
  · exact .inr (.inl ⟨hz, rfl⟩)
  rcases ite_eq_iff.mp h with ⟨⟨hD, hminus⟩, ⟨⟩⟩ | ⟨-, h⟩
  · exact .inr (.inr ⟨hD, hminus, rfl⟩)
  cases h

theorem opt_eq_none {D : Dialect} {c : UInt8} (h : D.opt c = none) :
    c ≠ 'l'.toUInt8 ∧ c ≠ 'z'.toUInt8 ∧ (D = .snprintf → c ≠ '-'.toUInt8) := by
  refine ⟨?_, ?_, ?_⟩
  · rintro rfl
    cases h
  · rintro rfl
    cases h
  · rintro rfl rfl
    cases h

theorem text_opt {D : Dialect} {c : UInt8} {o : Opt} (h : D.opt c = some o) : o.text = [c] := by
  rcases opt_cases h with ⟨rfl, rfl⟩ | ⟨rfl, rfl⟩ | ⟨-, rfl, rfl⟩ <;> rfl

theorem char_conv {D : Dialect} {c : UInt8} {k : Conv} (h : D.conv c = some k) : k.char = c := by
  unfold Dialect.conv at h
  rcases ite_eq_iff.mp h with ⟨rfl, ⟨⟩⟩ | ⟨-, h⟩
  · rfl
  rcases ite_eq_iff.mp h with ⟨rfl, ⟨⟩⟩ | ⟨-, h⟩
  · rfl
  rcases ite_eq_iff.mp h with ⟨rfl, ⟨⟩⟩ | ⟨-, h⟩
  · rfl
  rcases ite_eq_iff.mp h with ⟨rfl, ⟨⟩⟩ | ⟨-, h⟩
  · rfl
  rcases ite_eq_iff.mp h with ⟨rfl, ⟨⟩⟩ | ⟨-, h⟩
  · rfl
  rcases ite_eq_iff.mp h with ⟨rfl, ⟨⟩⟩ | ⟨-, h⟩
  · rfl
  rcases ite_eq_iff.mp h with ⟨⟨-, rfl⟩, ⟨⟩⟩ | ⟨-, h⟩
  · rfl
  rcases ite_eq_iff.mp h with ⟨rfl, ⟨⟩⟩ | ⟨-, h⟩
  · rfl
  cases h

theorem conv_ne_capX {c : UInt8} {k : Conv} (h : Dialect.conv .printf c = some k) :
    k ≠ .num .capX := by
  rintro rfl
  obtain rfl := char_conv h
  cases h

theorem conv_eq_none {D : Dialect} {c : UInt8} (h : D.conv c = none) :
    c ≠ '%'.toUInt8 ∧ c ≠ 's'.toUInt8 ∧ c ≠ 'd'.toUInt8 ∧ c ≠ 'i'.toUInt8 ∧ c ≠ 'u'.toUInt8 ∧
      c ≠ 'x'.toUInt8 ∧ c ≠ 'p'.toUInt8 ∧ (D = .snprintf → c ≠ 'X'.toUInt8) := by
  refine ⟨?_, ?_, ?_, ?_, ?_, ?_, ?_, ?_⟩
  · rintro rfl
    cases h
  · rintro rfl
    cases h
  · rintro rfl
    cases h
  · rintro rfl
    cases h
  · rintro rfl
    cases h
  · rintro rfl
    cases h
  · rintro rfl
    cases D <;> cases h
  · rintro rfl rfl
    cases h

theorem isDigit_char (k : Conv) : isDigit k.char = false := by
  cases k with
  | percent | s => rfl
  | num conv => cases conv <;> rfl

theorem zero_of_opensWidth {c : UInt8} (h : Dialect.opensWidth .printf c = true) :
    c = '0'.toUInt8 :=
  of_decide_eq_true h

theorem digit_of_opensWidth {D : Dialect} {c : UInt8} (h : D.opensWidth c = true) :
    isDigit c = true := by
  cases D with
  | printf =>
      rw [zero_of_opensWidth h]
      rfl
  | snprintf => exact h

theorem text_closeWidth (opts : List Opt) (digits : Option (List UInt8)) :
    (closeWidth opts digits).flatMap Opt.text = opts.flatMap Opt.text ++ digits.getD [] := by
  cases digits <;> simp [closeWidth, Opt.text]

/-- The text that a scan in this state has already read of its directive. -/
def Scan.text : Scan → List UInt8
  | .literal => []
  | .directive opts digits => '%'.toUInt8 :: opts.flatMap Opt.text ++ digits.getD []

theorem text_parseFrom (D : Dialect) (scan : Scan) (cs : List UInt8) :
    (parseFrom D scan cs).text = scan.text ++ cs := by
  induction cs generalizing scan with
  | nil =>
      cases scan with
      | literal => rfl
      | directive opts digits => simp [parseFrom, Format.text, Scan.text, text_closeWidth]
  | cons c cs ih =>
      cases scan with
      | literal =>
          by_cases hc : c = '%'.toUInt8
          · simp [parseFrom, hc, ih, Scan.text]
          · simp [parseFrom, hc, Format.text, ih, Scan.text]
      | directive opts digits =>
          unfold parseFrom
          split
          · obtain ⟨ds, rfl⟩ := Option.isSome_iff_exists.mp (‹_ ∧ _›).1
            simp [ih, Scan.text]
          · split
            · simp [ih, Scan.text, text_closeWidth]
            · cases hopt : D.opt c with
              | some o => simp [ih, Scan.text, text_closeWidth, text_opt hopt]
              | none =>
                  cases hconv : D.conv c with
                  | some k =>
                      simp [Format.text, ih, Scan.text, text_closeWidth, char_conv hconv]
                  | none => simp [Format.text, Scan.text, text_closeWidth]

/-- Reading loses nothing: the format spells the string it was read from. -/
theorem text_parse (D : Dialect) (f : List UInt8) : (parse D f).text = f :=
  text_parseFrom D .literal f

/-- A byte that is no digit ends the width before it is looked at. -/
theorem parseFrom_closeWidth (D : Dialect) (opts : List Opt) (digits : Option (List UInt8))
    (cs : List UInt8) (h : ∀ c ∈ cs.head?, isDigit c = false) :
    parseFrom D (.directive opts digits) cs =
      parseFrom D (.directive (closeWidth opts digits) none) cs := by
  cases cs with
  | nil => rfl
  | cons c cs =>
      have hc : isDigit c = false := h c rfl
      simp [parseFrom, hc, closeWidth]

/-! ## Arguments and fields -/

/-- An argument: an integer or a pointer in its slot, or a `char *` together
with the string it points to. -/
inductive Arg where
  | word (w : BitVec 64)
  | str (addr : BitVec 64) (s : List UInt8)
  deriving DecidableEq

def Arg.slot : Arg → BitVec 64
  | .word w => w
  | .str addr _ => addr

/-- The slots of a call's arguments, in front of those that stand behind them. -/
def slots (args : List Arg) (beyond : VaList) : VaList := args.map Arg.slot ++ₛ beyond

@[simp] theorem slots_nil (beyond : VaList) : slots [] beyond = beyond := rfl

@[simp] theorem slots_cons (arg : Arg) (args : List Arg) (beyond : VaList) :
    slots (arg :: args) beyond = .cons arg.slot (slots args beyond) := rfl

def Arg.Valid (mem : Mem) : Arg → Prop
  | .word _ => True
  | .str addr s => addr ≠ 0 ∧ CString mem addr.toNat s

/-- A piece of the output: literal text, or a directive with its argument. -/
inductive Field where
  | lit (c : UInt8)
  | percent
  | str (s : List UInt8)
  | number (opts : List Opt) (conv : NumConv) (arg : BitVec 64)
  deriving DecidableEq

/-- The fields of a format up to its end or its first broken directive, when
the arguments match the directives. -/
def Format.fields : Format → List Arg → Option (List Field)
  | .done, _ => some []
  | .lit c rest, args => (rest.fields args).map (Field.lit c :: ·)
  | .directive _ .percent rest, args => (rest.fields args).map (Field.percent :: ·)
  | .directive _ .s rest, .str _ s :: args => (rest.fields args).map (Field.str s :: ·)
  | .directive opts (.num conv) rest, .word w :: args =>
      (rest.fields args).map (Field.number opts conv w :: ·)
  | .directive _ .s _, _ => none
  | .directive _ (.num _) _, _ => none
  | .broken _ _, _ => some []

/-! ## The documented rendering -/

/-- `l`, `ll` and `z` select the 64-bit argument. -/
def wide (opts : List Opt) : Bool := opts.any fun o ↦ o = .l ∨ o = .z

def widthValue (digits : List UInt8) : ℕ :=
  Numeral.reading (fun c ↦ c.toNat - '0'.toNat) 10 digits

/-- The width a directive asks for: its last width group counts. -/
def fieldWidth (opts : List Opt) : ℕ :=
  opts.foldl (fun w o ↦ match o with | .width digits => widthValue digits | _ => w) 0

def signedValue (opts : List Opt) (arg : BitVec 64) : ℤ :=
  if wide opts then arg.toInt else (arg.setWidth 32).toInt

def unsignedValue (opts : List Opt) (arg : BitVec 64) : ℕ :=
  if wide opts then arg.toNat else (arg.setWidth 32).toNat

def decimal (n : ℕ) : List UInt8 := numeral 'a'.toUInt8 10 n

def hexadecimal (n : ℕ) : List UInt8 := numeral 'a'.toUInt8 16 n

def leftZeros (w : ℕ) (digits : List UInt8) : List UInt8 := digits.leftpad w '0'.toUInt8

/-- Zeros between a sign or prefix and the digits, up to `w` characters. -/
def zeroPadded (w : ℕ) (sign digits : List UInt8) : List UInt8 :=
  sign ++ leftZeros (w - sign.length) digits

def minusSign (v : ℤ) : List UInt8 := if v < 0 then ['-'.toUInt8] else []

def hexPrefix (arg : BitVec 64) : List UInt8 :=
  if arg = 0 then [] else ['0'.toUInt8, 'x'.toUInt8]

def renderNumber (opts : List Opt) (arg : BitVec 64) : NumConv → List UInt8
  | .d | .i =>
      zeroPadded (fieldWidth opts) (minusSign (signedValue opts arg))
        (decimal (signedValue opts arg).natAbs)
  | .u => zeroPadded (fieldWidth opts) [] (decimal (unsignedValue opts arg))
  | .x => zeroPadded (fieldWidth opts) [] (hexadecimal (unsignedValue opts arg))
  | .capX =>
      zeroPadded (fieldWidth opts) [] (numeral 'A'.toUInt8 16 (unsignedValue opts arg))
  | .p => zeroPadded (fieldWidth opts) (hexPrefix arg) (hexadecimal arg.toNat)

def Field.render : Field → List UInt8
  | .lit c => [c]
  | .percent => ['%'.toUInt8]
  | .str s => s
  | .number opts conv arg => renderNumber opts arg conv

/-! ## Widths -/

theorem length_leftZeros (w : ℕ) (digits : List UInt8) :
    (leftZeros w digits).length = max w digits.length := by
  rw [leftZeros, List.length_leftpad]

theorem length_zeroPadded (w : ℕ) (sign digits : List UInt8) :
    (zeroPadded w sign digits).length = max w (sign.length + digits.length) := by
  rw [zeroPadded, List.length_append, length_leftZeros]
  omega

def modifiers (opts : List Opt) : List Opt :=
  opts.filter fun o ↦ match o with | .width _ => false | _ => true

theorem wide_modifiers (opts : List Opt) : wide (modifiers opts) = wide opts := by
  unfold wide modifiers
  rw [List.any_filter]
  congr 1
  funext o
  cases o <;> rfl

theorem fieldWidth_modifiers (opts : List Opt) : fieldWidth (modifiers opts) = 0 := by
  unfold fieldWidth modifiers
  induction opts using List.reverseRecOn with
  | nil => rfl
  | append_singleton opts o ih =>
      rw [List.filter_append, List.foldl_append, ih]
      cases o <;> rfl

theorem length_renderNumber (opts : List Opt) (arg : BitVec 64) (conv : NumConv) :
    (renderNumber opts arg conv).length =
      max (fieldWidth opts) (renderNumber (modifiers opts) arg conv).length := by
  cases conv <;>
    simp only [renderNumber, length_zeroPadded, fieldWidth_modifiers, signedValue, unsignedValue,
      wide_modifiers, Nat.zero_max]

end BaizeBoard
