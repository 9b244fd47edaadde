import BaizeBoard.Libc.Memory
import BaizeBoard.Libc.Strtol
import BaizeBoard.Library.Numeral

/-!
# What `strtol` makes of a string

A subject cuts a string into white space, a sign, `0x`, digits, and the rest,
each part as long as it can be.  The functions return the number that the
digits spell, or the nearest one that their type has, and leave `*endptr`
behind the digits.
-/

namespace BaizeBoard.Strto

def IsDigit (radix : ℤ) (c : UInt8) : Prop := ∃ d, digit c = some d ∧ (d : ℤ) < radix

/-- A hexadecimal number written with `0x` can be read from here. -/
def HexNumber (t : List UInt8) : Prop :=
  ∃ x d rest, t = '0'.toUInt8 :: x :: d :: rest ∧ (x = 'x'.toUInt8 ∨ x = 'X'.toUInt8) ∧
    isHexDigit d

/-- In front of `after`, `lead` is what tells the radix. -/
inductive Lead (base : ℤ) : (lead after : List UInt8) → (radix : ℤ) → Prop
  | hex {x d : UInt8} {after : List UInt8} (hbase : base = 0 ∨ base = 16)
      (hx : x = 'x'.toUInt8 ∨ x = 'X'.toUInt8) (hd : isHexDigit d) :
      Lead base ['0'.toUInt8, x] (d :: after) 16
  | octal {after : List UInt8} (hbase : base = 0) (hhex : ¬ HexNumber after)
      (hzero : after.head? = some '0'.toUInt8) : Lead base [] after 8
  | decimal {after : List UInt8} (hbase : base = 0) (hzero : after.head? ≠ some '0'.toUInt8) :
      Lead base [] after 10
  | given {after : List UInt8} (hbase : base ≠ 0) (hhex : base = 16 → ¬ HexNumber after) :
      Lead base [] after base

structure Subject (base : ℤ) (s : List UInt8) where
  spaces : List UInt8
  sign : List UInt8
  lead : List UInt8
  radix : ℤ
  digits : List UInt8
  rest : List UInt8
  text : spaces ++ (sign ++ (lead ++ (digits ++ rest))) = s
  isspace_spaces : ∀ c ∈ spaces, isspace c
  not_isspace : ∀ c ∈ (sign ++ (lead ++ (digits ++ rest))).head?, ¬ isspace c
  sign_cases : sign = ['-'.toUInt8] ∨ sign = ['+'.toUInt8] ∨ sign = []
  no_sign : sign = [] → ∀ c ∈ (lead ++ (digits ++ rest)).head?,
    c ≠ '-'.toUInt8 ∧ c ≠ '+'.toUInt8
  isLead : Lead base lead (digits ++ rest) radix
  isDigit_digits : ∀ c ∈ digits, IsDigit radix c
  not_isDigit : ∀ c ∈ rest.head?, ¬ IsDigit radix c

def digitValue (c : UInt8) : ℕ := (digit c).getD 0

namespace Subject

variable {base : ℤ} {s : List UInt8}

def neg (u : Subject base s) : Bool := u.sign = ['-'.toUInt8]

def magnitude (u : Subject base s) : ℕ :=
  Numeral.reading digitValue u.radix.toNat u.digits

def value (u : Subject base s) : ℤ := if u.neg then -u.magnitude else u.magnitude

/-- How far `*endptr` is from `nptr`. -/
def consumed (u : Subject base s) : ℕ :=
  if u.digits = [] then 0
  else u.spaces.length + u.sign.length + u.lead.length + u.digits.length

end Subject

/-! ## The loops -/

variable {bits : ℕ} {m : Ram bits} {p : ℕ}

theorem skipSpaces_of_load {c : UInt8} (h : m.load p = some c) :
    skipSpaces m p = if isspace c then skipSpaces m (p + 1) else some (c, p + 1) := by
  rw [skipSpaces]
  exact Ram.match_load h _ _

theorem skipSpaces_eq {spaces t : List UInt8} (h : m.Str p (spaces ++ t))
    (hspaces : ∀ c ∈ spaces, isspace c) (ht : ∀ c ∈ t.head?, ¬ isspace c) :
    skipSpaces m p = some (t.headD 0, p + spaces.length + 1) := by
  induction spaces generalizing p with
  | nil =>
      have hhead : ¬ isspace (t.headD 0) := by
        cases t with
        | nil => decide
        | cons c t => exact ht c rfl
      rw [skipSpaces_of_load (Ram.Str.load h), List.nil_append, if_neg hhead]
      rfl
  | cons c spaces ih =>
      have hrest := ih (Ram.Str.tail h) fun d hd ↦ hspaces d (List.mem_cons_of_mem c hd)
      rw [skipSpaces_of_load h.1.1, if_pos (hspaces c List.mem_cons_self), hrest, List.length_cons]
      congr 2
      omega

theorem takeSign_eq {sign t : List UInt8} (h : m.Str p (sign ++ t))
    (hcases : sign = ['-'.toUInt8] ∨ sign = ['+'.toUInt8] ∨ sign = [])
    (hno : sign = [] → ∀ c ∈ t.head?, c ≠ '-'.toUInt8 ∧ c ≠ '+'.toUInt8) :
    takeSign m ((sign ++ t).headD 0) (p + 1) =
      some (decide (sign = ['-'.toUInt8]), t.headD 0, p + sign.length + 1) := by
  rcases hcases with rfl | rfl | rfl
  · have hload : m.load (p + 1) = some (t.headD 0) := Ram.Str.load (Ram.Str.tail h)
    simp [takeSign, hload]
  · have hload : m.load (p + 1) = some (t.headD 0) := Ram.Str.load (Ram.Str.tail h)
    have hne : '+'.toUInt8 ≠ '-'.toUInt8 := by decide
    simp [takeSign, hload, hne]
  · have hhead : t.headD 0 ≠ '-'.toUInt8 ∧ t.headD 0 ≠ '+'.toUInt8 := by
      cases t with
      | nil => decide
      | cons c t => exact hno rfl c rfl
    simp only [takeSign, List.nil_append, hhead.1, hhead.2, if_false]
    rfl

/-! ## The base -/

theorem hexAhead_hex {base : ℤ} (hbase : base = 0 ∨ base = 16) {x d : UInt8} {t : List UInt8}
    (hx : x = 'x'.toUInt8 ∨ x = 'X'.toUInt8) (h : m.Str p ('0'.toUInt8 :: x :: d :: t)) :
    hexAhead m base '0'.toUInt8 (p + 1) = some (isHexDigit d) := by
  have hloadX : m.load (p + 1) = some x := h.1.2.1
  have hloadD : m.load (p + 1 + 1) = some d := h.1.2.2.1
  simp [hexAhead, hbase, hx, hloadX, hloadD]

/-- Unless `0x` and a digit come next, no more than two bytes are looked at. -/
theorem hexAhead_eq_false (base : ℤ) {t : List UInt8} (h : m.Str p t)
    (hhex : base = 0 ∨ base = 16 → ¬ HexNumber t) :
    hexAhead m base (t.headD 0) (p + 1) = some false := by
  by_cases hbase : base = 0 ∨ base = 16
  · rcases t with _ | ⟨c, _ | ⟨x, t⟩⟩
    · have hne : (0 : UInt8) ≠ '0'.toUInt8 := by decide
      simp [hexAhead, hne]
    · have hload : m.load (p + 1) = some 0 := h.1.2.1
      have hne : ¬ ((0 : UInt8) = 'x'.toUInt8 ∨ (0 : UInt8) = 'X'.toUInt8) := by decide
      simp [hexAhead, hload, hne]
    · have hload : m.load (p + 1) = some x := h.1.2.1
      by_cases hx : c = '0'.toUInt8 ∧ (x = 'x'.toUInt8 ∨ x = 'X'.toUInt8)
      · obtain ⟨rfl, hx⟩ := hx
        have hbehind : m.load (p + 1 + 1) = some (t.headD 0) :=
          Ram.Str.load (Ram.Str.tail (Ram.Str.tail h))
        have hd : isHexDigit (t.headD 0) = false := by
          cases t with
          | nil => decide
          | cons d t =>
              by_contra hd
              exact hhex hbase ⟨x, d, t, rfl, hx, by simpa using hd⟩
        simp only [hexAhead, List.headD_cons, hbase, true_and, if_true, hload,
          Option.bind_eq_bind, Option.bind_some, hx, hbehind, hd]
        rfl
      · by_cases hc : c = '0'.toUInt8
        · have hx' : ¬ (x = 'x'.toUInt8 ∨ x = 'X'.toUInt8) := fun hx' ↦ hx ⟨hc, hx'⟩
          simp [hexAhead, hload, hx']
        · simp [hexAhead, hc]
  · simp [hexAhead, hbase]

theorem takeBase_of_not_ahead {base : ℤ} {c : UInt8} {s : ℕ}
    (h : hexAhead m base c s = some false) :
    takeBase m base c s =
      some (if base = 0 then if c = '0'.toUInt8 then 8 else 10 else base, c, s) := by
  simp only [takeBase, h, Option.bind_eq_bind, Option.bind_some]
  split
  · contradiction
  · split <;> rfl

theorem takeBase_eq {base radix : ℤ} {lead t : List UInt8} (hlead : Lead base lead t radix)
    (h : m.Str p (lead ++ t)) :
    takeBase m base ((lead ++ t).headD 0) (p + 1) =
      some (radix, t.headD 0, p + lead.length + 1) := by
  cases hlead with
  | @hex x d after hbase hx hd =>
      have hload : m.load (p + 1 + 1) = some d := h.1.2.2.1
      have hahead := hexAhead_hex hbase hx h
      simp only [takeBase, List.cons_append, List.nil_append, List.headD_cons, hahead, hd, hload,
        Option.bind_eq_bind, Option.bind_some, if_true]
      rfl
  | octal hbase hhex hzero =>
      have hahead := hexAhead_eq_false base h fun _ ↦ hhex
      have hhead : t.headD 0 = '0'.toUInt8 := by
        rw [List.headD_eq_head?_getD, hzero]
        rfl
      rw [List.nil_append] at hahead ⊢
      rw [takeBase_of_not_ahead hahead, if_pos hbase, if_pos hhead]
      rfl
  | decimal hbase hzero =>
      have hhead : t.headD 0 ≠ '0'.toUInt8 := by
        cases t with
        | nil => decide
        | cons c t => simpa using hzero
      have hhex : ¬ HexNumber t := by
        rintro ⟨x, d, rest, rfl, -⟩
        exact hzero rfl
      have hahead := hexAhead_eq_false base h fun _ ↦ hhex
      rw [List.nil_append] at hahead ⊢
      rw [takeBase_of_not_ahead hahead, if_pos hbase, if_neg hhead]
      rfl
  | given hbase hhex =>
      have hahead := hexAhead_eq_false base h fun hb ↦ hhex (hb.resolve_left hbase)
      rw [List.nil_append] at hahead ⊢
      rw [takeBase_of_not_ahead hahead, if_neg hbase]
      rfl

/-! ## The digits -/

section Accumulate

variable {w limit : ℕ} {radix : ℤ} {cutoff : ℕ} {cutlim : ℤ}

theorem unsigned_eq {v : ℤ} (hv : 0 ≤ v) (hlt : v < 2 ^ w) : unsigned w v = v.toNat := by
  rw [unsigned, Int.emod_eq_of_lt hv hlt]

theorem accumulate_stop {c : UInt8} (hc : ¬ IsDigit radix c) (acc : ℕ) (any : ℤ) :
    accumulate w m radix cutoff cutlim c p acc any = some (acc, any, p) := by
  rw [accumulate]
  cases hd : digit c with
  | none => rfl
  | some d => exact if_pos (by by_contra hlt; exact hc ⟨d, hd, by omega⟩)

theorem accumulate_digit (w cutoff : ℕ) (cutlim : ℤ) {c next : UInt8} {d : ℕ}
    (hd : digit c = some d) (hlt : (d : ℤ) < radix)
    (hload : m.load p = some next) (acc : ℕ) (any : ℤ) :
    let tooBig := any < 0 ∨ acc > cutoff ∨ acc = cutoff ∧ (d : ℤ) > cutlim
    accumulate w m radix cutoff cutlim c p acc any =
      accumulate w m radix cutoff cutlim next (p + 1)
        (if tooBig then acc else (acc * unsigned w radix % 2 ^ w + d) % 2 ^ w)
        (if tooBig then -1 else 1) := by
  intro tooBig
  rw [accumulate]
  simp only [hd, ge_iff_le, not_le.mpr hlt, if_false]
  exact Ram.match_load hload _ _

/-- Behind a number that is too big, the other digits are only skipped. -/
theorem accumulate_over {digits rest : List UInt8} (h : m.Str p (digits ++ rest))
    (hdigits : ∀ c ∈ digits, IsDigit radix c) (hrest : ¬ IsDigit radix (rest.headD 0)) (acc : ℕ) :
    accumulate w m radix cutoff cutlim ((digits ++ rest).headD 0) (p + 1) acc (-1) =
      some (acc, -1, p + digits.length + 1) := by
  induction digits generalizing p with
  | nil => exact accumulate_stop hrest acc (-1)
  | cons c digits ih =>
      obtain ⟨d, hd, hlt⟩ := hdigits c List.mem_cons_self
      have htail : m.Str (p + 1) (digits ++ rest) := Ram.Str.tail h
      have hstep := accumulate_digit w cutoff cutlim hd hlt
        (Ram.Str.load htail) acc (-1)
      have hneg : (-1 : ℤ) < 0 := by decide
      simp only [hneg, true_or, if_true] at hstep
      refine hstep.trans ((ih htail fun c hc ↦ hdigits c (List.mem_cons_of_mem _ hc)).trans ?_)
      rw [List.length_cons]
      congr 3
      omega

/-- The digits add up to their number, unless that exceeds `limit`. -/
theorem accumulate_eq (hradix : 0 < radix) (hw : radix < 2 ^ w) (hlimit : limit < 2 ^ w)
    {digits rest : List UInt8} (h : m.Str p (digits ++ rest))
    (hdigits : ∀ c ∈ digits, IsDigit radix c) (hrest : ¬ IsDigit radix (rest.headD 0))
    {acc : ℕ} {any : ℤ} (hany : 0 ≤ any) (hacc : acc ≤ limit) :
    let total := Numeral.readingFrom digitValue radix.toNat acc digits
    ∃ acc' any', accumulate w m radix (limit / radix.toNat) (limit % radix.toNat : ℕ)
        ((digits ++ rest).headD 0) (p + 1) acc any = some (acc', any', p + digits.length + 1) ∧
      if total ≤ limit then acc' = total ∧ any' = (if digits = [] then any else 1)
      else any' = -1 := by
  induction digits generalizing p acc any with
  | nil => exact ⟨acc, any, accumulate_stop hrest acc any, by simp [Numeral.readingFrom, hacc]⟩
  | cons c digits ih =>
      intro total
      obtain ⟨d, hd, hlt⟩ := hdigits c List.mem_cons_self
      have htail : m.Str (p + 1) (digits ++ rest) := Ram.Str.tail h
      have hdigits' := fun e he ↦ hdigits e (List.mem_cons_of_mem c he)
      have hlt' : d < radix.toNat := by omega
      have htotal : total =
          Numeral.readingFrom digitValue radix.toNat (radix.toNat * acc + d) digits := by
        simp [total, Numeral.readingFrom, digitValue, hd]
      have hstep := accumulate_digit w (limit / radix.toNat) (limit % radix.toNat : ℕ) hd hlt
        (Ram.Str.load htail) acc any
      have hlength : p + 1 + digits.length + 1 = p + (c :: digits).length + 1 := by
        rw [List.length_cons]
        omega
      simp only [not_lt.mpr hany, false_or, Nat.cast_lt, gt_iff_lt] at hstep
      by_cases hbig : limit < radix.toNat * acc + d
      · have hcut := (Numeral.exceeds_iff hlt').mpr hbig
        rw [if_pos hcut, if_pos hcut, accumulate_over htail hdigits' hrest] at hstep
        have hle := Numeral.le_readingFrom digitValue (b := radix.toNat) (by omega)
          (radix.toNat * acc + d) digits
        refine ⟨acc, -1, hstep.trans (by rw [hlength]), ?_⟩
        rw [if_neg (by omega)]
      · have hcut := mt (Numeral.exceeds_iff hlt').mp hbig
        have hradixNat : radix.toNat * acc + d < 2 ^ w := by omega
        have hnext : (acc * unsigned w radix % 2 ^ w + d) % 2 ^ w = radix.toNat * acc + d := by
          rw [unsigned_eq hradix.le hw, Nat.mod_add_mod, mul_comm, Nat.mod_eq_of_lt hradixNat]
        rw [if_neg hcut, if_neg hcut, hnext] at hstep
        obtain ⟨acc', any', hrun, hcases⟩ :=
          ih htail hdigits' Int.one_nonneg (show radix.toNat * acc + d ≤ limit by omega)
        rw [← htotal] at hcases
        refine ⟨acc', any', hstep.trans (hrun.trans (by rw [hlength])), ?_⟩
        simpa using hcases

end Accumulate

/-! ## The whole function -/

theorem Lead.lt_of_lt {base radix b : ℤ} {lead after : List UInt8}
    (h : Lead base lead after radix) (hbase : base < b) (hb : 16 < b) : radix < b := by
  cases h with
  | hex | octal | decimal => omega
  | given => exact hbase

variable {base : ℤ} {s : List UInt8}

theorem Subject.zero_lt_radix (u : Subject base s) (h : u.digits ≠ []) : 0 < u.radix := by
  obtain ⟨c, hc⟩ := List.exists_mem_of_ne_nil u.digits h
  obtain ⟨d, -, hlt⟩ := u.isDigit_digits c hc
  omega

theorem Subject.not_isDigit_headD (u : Subject base s) : ¬ IsDigit u.radix (u.rest.headD 0) := by
  have hnot := u.not_isDigit
  cases hrest : u.rest with
  | nil =>
      rintro ⟨d, hd, -⟩
      cases hd
  | cons c rest => exact hnot c (by rw [hrest]; rfl)

/-- The loop on the digits of a subject, with the cutoff that the functions compute. -/
theorem accumulate_subject {w limit : ℕ} (hw : 32 ≤ w) (hlimit : limit < 2 ^ w)
    (u : Subject base s) (hbase : base < 2 ^ 31) (h : m.Str p (u.digits ++ u.rest)) :
    ∃ acc any, accumulate w m u.radix (limit / unsigned w u.radix)
        (((limit % unsigned w u.radix : ℕ) : ℤ).bmod (2 ^ 32)) ((u.digits ++ u.rest).headD 0)
        (p + 1) 0 0 = some (acc, any, p + u.digits.length + 1) ∧
      (if any < 0 then limit else acc) = (if limit < u.magnitude then limit else u.magnitude) ∧
      (any < 0 ↔ limit < u.magnitude) ∧ (any = 0 ↔ u.digits = []) := by
  by_cases hnil : u.digits = []
  · have hzero : u.magnitude = 0 := by simp [Subject.magnitude, hnil, Numeral.reading]
    refine ⟨0, 0, ?_, ?_, ?_, ?_⟩
    · rw [hnil]
      exact accumulate_stop u.not_isDigit_headD 0 0
    · simp [hzero]
    · simp [hzero]
    · simp [hnil]
  · have hpos := u.zero_lt_radix hnil
    have hlt : u.radix < 2 ^ 31 := u.isLead.lt_of_lt hbase (by norm_num)
    have hpow : (2 : ℤ) ^ 31 ≤ 2 ^ w := pow_le_pow_right₀ (by norm_num) (by omega)
    have hcutlim : ((limit % u.radix.toNat : ℕ) : ℤ).bmod (2 ^ 32) =
        (limit % u.radix.toNat : ℕ) := by
      have hmod : limit % u.radix.toNat < u.radix.toNat := Nat.mod_lt _ (by omega)
      apply Int.bmod_eq_of_le_mul_two
      · push_cast
        omega
      · push_cast
        omega
    obtain ⟨acc, any, hrun, hcases⟩ := accumulate_eq hpos (hlt.trans_le hpow) hlimit h
      u.isDigit_digits u.not_isDigit_headD (le_refl 0) (Nat.zero_le limit)
    rw [← unsigned_eq hpos.le (hlt.trans_le hpow)] at hrun hcutlim
    rw [hcutlim]
    change if u.magnitude ≤ limit then acc = u.magnitude ∧ _ else _ at hcases
    refine ⟨acc, any, hrun, ?_⟩
    by_cases hle : u.magnitude ≤ limit
    · rw [if_pos hle, if_neg hnil] at hcases
      obtain ⟨rfl, rfl⟩ := hcases
      simp [not_lt.mpr hle, hnil]
    · rw [if_neg hle] at hcases
      simp [hcases, not_le.mp hle, hnil]

/-- What all four functions compute: the number with its sign, modulo `2 ^ w`, or `limit`. -/
theorem body_eq {w : ℕ} {limit : Bool → ℕ} (hw : 32 ≤ w) (hlimit : ∀ neg, limit neg < 2 ^ w)
    (hbase : base < 2 ^ 31) (h : m.Str p s) (u : Subject base s) :
    body w limit m p base =
      some (if limit u.neg < u.magnitude then limit u.neg
        else if u.neg then (2 ^ w - u.magnitude) % 2 ^ w else u.magnitude, p + u.consumed) := by
  rw [← u.text] at h
  have hsign := Ram.Str.append h
  have hlead := Ram.Str.append hsign
  obtain ⟨acc, any, hrun, hacc, hover, hany⟩ :=
    accumulate_subject hw (hlimit u.neg) u hbase (Ram.Str.append hlead)
  have hspaces := skipSpaces_eq h u.isspace_spaces u.not_isspace
  have hneg : takeSign m _ _ = some (u.neg, _) := takeSign_eq hsign u.sign_cases u.no_sign
  have hradix := takeBase_eq u.isLead hlead
  simp only [body, hspaces, hneg, hradix, hrun, Option.bind_eq_bind, Option.bind_some]
  congr 2
  · by_cases hbig : limit u.neg < u.magnitude
    · rw [if_pos (hover.mpr hbig), if_pos hbig]
    · rw [if_neg (mt hover.mp hbig), if_neg hbig] at hacc
      rw [if_neg (mt hover.mp hbig), if_neg hbig, hacc]
  · unfold Subject.consumed
    by_cases hnil : u.digits = []
    · simp [hany.mpr hnil, hnil]
    · simp only [ne_eq, mt hany.mp hnil, not_false_eq_true, if_true, hnil, if_false]
      omega

/-! ## Every string has a subject -/

/-- The longest front of a list on which `P` holds. -/
theorem exists_longest {α : Type} (P : α → Prop) (l : List α) :
    ∃ front back, front ++ back = l ∧ (∀ c ∈ front, P c) ∧ ∀ c ∈ back.head?, ¬ P c := by
  induction l with
  | nil => exact ⟨[], [], rfl, by simp, by simp⟩
  | cons c l ih =>
      by_cases hc : P c
      · obtain ⟨front, back, rfl, hfront, hback⟩ := ih
        exact ⟨c :: front, back, rfl, by simpa using ⟨hc, hfront⟩, hback⟩
      · exact ⟨[], c :: l, rfl, by simp, by simpa using hc⟩

theorem exists_sign (t : List UInt8) :
    ∃ sign after, sign ++ after = t ∧
      (sign = ['-'.toUInt8] ∨ sign = ['+'.toUInt8] ∨ sign = []) ∧
      (sign = [] → ∀ c ∈ after.head?, c ≠ '-'.toUInt8 ∧ c ≠ '+'.toUInt8) := by
  cases t with
  | nil => exact ⟨[], [], rfl, .inr (.inr rfl), by simp⟩
  | cons c t =>
      by_cases hminus : c = '-'.toUInt8
      · exact ⟨[c], t, rfl, .inl (by rw [hminus]), by simp⟩
      · by_cases hplus : c = '+'.toUInt8
        · exact ⟨[c], t, rfl, .inr (.inl (by rw [hplus])), by simp⟩
        · exact ⟨[], c :: t, rfl, .inr (.inr rfl), by simpa using ⟨hminus, hplus⟩⟩

theorem exists_lead (base : ℤ) (t : List UInt8) :
    ∃ lead after radix, lead ++ after = t ∧ Lead base lead after radix := by
  by_cases hhex : (base = 0 ∨ base = 16) ∧ HexNumber t
  · obtain ⟨hbase, x, d, rest, rfl, hx, hd⟩ := hhex
    exact ⟨_, d :: rest, 16, rfl, .hex hbase hx hd⟩
  · by_cases hbase : base = 0
    · by_cases hzero : t.head? = some '0'.toUInt8
      · exact ⟨[], t, 8, rfl, .octal hbase (fun h ↦ hhex ⟨.inl hbase, h⟩) hzero⟩
      · exact ⟨[], t, 10, rfl, .decimal hbase hzero⟩
    · exact ⟨[], t, base, rfl, .given hbase fun hb h ↦ hhex ⟨.inr hb, h⟩⟩

theorem exists_subject (base : ℤ) (s : List UInt8) : Nonempty (Subject base s) := by
  obtain ⟨spaces, t, hs, hspaces, ht⟩ := exists_longest (fun c ↦ isspace c) s
  obtain ⟨sign, t', rfl, hcases, hno⟩ := exists_sign t
  obtain ⟨lead, t'', radix, rfl, hlead⟩ := exists_lead base t'
  obtain ⟨digits, rest, rfl, hdigits, hrest⟩ := exists_longest (IsDigit radix) t''
  exact ⟨⟨spaces, sign, lead, radix, digits, rest, hs, hspaces, ht, hcases, hno, hlead, hdigits,
    hrest⟩⟩

/-! ## The four functions -/

theorem bmod_neg {half n : ℕ} (hhalf : 0 < half) (hn : n ≤ half) :
    (((2 * half - n) % (2 * half) : ℕ) : ℤ).bmod (2 * half) = -n := by
  rw [Int.natCast_mod, Int.emod_bmod, Nat.cast_sub (by omega), Int.sub_bmod_left]
  apply Int.bmod_eq_of_le_mul_two <;> omega

theorem signed_eq {w : ℕ} (hw : 32 ≤ w) (hbase : base < 2 ^ 31) (h : m.Str p s)
    (u : Subject base s) :
    signed w m p base =
      some (max (-2 ^ (w - 1)) (min (2 ^ (w - 1) - 1) u.value), p + u.consumed) := by
  obtain ⟨half, hhalf⟩ : ∃ half, 2 ^ (w - 1) = half := ⟨_, rfl⟩
  have hpow : 2 ^ w = 2 * half := by
    rw [← hhalf, ← pow_succ', Nat.sub_add_cancel (by omega)]
  have hpos : 0 < half := hhalf ▸ Nat.two_pow_pos _
  have hcast : (2 : ℤ) ^ (w - 1) = half := by
    rw [← hhalf]
    push_cast
    rfl
  have hlimit : ∀ neg, signedLimit w neg < 2 ^ w := by
    intro neg
    cases neg <;> simp only [signedLimit, if_true, if_false, Bool.false_eq_true] <;> omega
  simp only [signed, body_eq hw hlimit hbase h u, Option.bind_eq_bind, Option.bind_some]
  rw [hpow, hcast]
  congr 2
  unfold Subject.value
  cases u.neg with
  | true =>
      simp only [signedLimit, if_true, hhalf]
      by_cases hbig : half < u.magnitude
      · have hmin := bmod_neg hpos (le_refl half)
        rw [show 2 * half - half = half by omega, Nat.mod_eq_of_lt (by omega)] at hmin
        rw [if_pos hbig, hmin]
        omega
      · rw [if_neg hbig, bmod_neg hpos (by omega)]
        omega
  | false =>
      simp only [signedLimit, Bool.false_eq_true, if_false, hhalf]
      rw [Int.bmod_eq_of_le_mul_two] <;> split <;> omega

theorem body_eq_value {w : ℕ} (hw : 32 ≤ w) (hbase : base < 2 ^ 31) (h : m.Str p s)
    (u : Subject base s) :
    body w (fun _ ↦ 2 ^ w - 1) m p base =
      some (if 2 ^ w ≤ u.magnitude then 2 ^ w - 1 else (u.value % 2 ^ w).toNat,
        p + u.consumed) := by
  have hpos : 0 < 2 ^ w := Nat.two_pow_pos w
  have hcast : (2 : ℤ) ^ w = (2 ^ w : ℕ) := by
    push_cast
    rfl
  rw [body_eq hw (fun _ ↦ by omega) hbase h u]
  congr 2
  by_cases hbig : 2 ^ w ≤ u.magnitude
  · rw [if_pos (by omega), if_pos hbig]
  · rw [if_neg (by omega), if_neg hbig, Subject.value, hcast]
    cases u.neg with
    | true =>
        have hsub : ((2 ^ w - u.magnitude : ℕ) : ℤ) = -u.magnitude + (2 ^ w : ℕ) := by omega
        rw [if_pos rfl, if_pos rfl, ← Int.add_emod_right, ← hsub, ← Int.natCast_mod,
          Int.toNat_natCast]
    | false =>
        simp only [Bool.false_eq_true, if_false]
        rw [← Int.natCast_mod, Int.toNat_natCast, Nat.mod_eq_of_lt (by omega)]

end BaizeBoard.Strto

namespace BaizeBoard

open Strto

variable {bits : ℕ}

/-- In every base `strtol` and `strtoll` return the number in the string, or the
nearest one of their type, and stop behind its last digit.  Nothing behind the
NUL of the string is looked at. -/
theorem strtol_clamps (longBit : ℕ) (hlong : 32 ≤ longBit) (m : Ram bits) (nptr : ℕ)
    (s : List UInt8) (hs : m.Str nptr s) (base : ℤ) (hbase : base < 2 ^ 31) :
    Nonempty (Subject base s) ∧ ∀ u : Subject base s,
      strtol longBit m nptr base = some
        (max (-2 ^ (longBit - 1)) (min (2 ^ (longBit - 1) - 1) u.value), nptr + u.consumed) ∧
      strtoll m nptr base =
        some (max (-2 ^ 63) (min (2 ^ 63 - 1) u.value), nptr + u.consumed) :=
  ⟨exists_subject base s, fun u ↦
    ⟨signed_eq hlong hbase hs u, signed_eq (w := 64) (by norm_num) hbase hs u⟩⟩

/-- `strtol(" -0x80000000000000000z", &end, 0)` on a 64-bit `long`. -/
theorem strtol_clamps_example :
    let s := ascii " -0x80000000000000000z".toList
    let m := Ram.image 64 0x100 (s ++ [0])
    Nonempty (Subject 0 s) ∧ ∀ u : Subject 0 s,
      strtol 64 m 0x100 0 = some
        (max (-2 ^ (64 - 1)) (min (2 ^ (64 - 1) - 1) u.value), 0x100 + u.consumed) ∧
      strtoll m 0x100 0 =
        some (max (-2 ^ 63) (min (2 ^ 63 - 1) u.value), 0x100 + u.consumed) :=
  strtol_clamps 64 (by decide) _ _ _ (by decide) 0 (by decide)

/-- `strtoul` and `strtoull` negate the number behind a minus sign in their type;
a number that is too big gives the greatest one, whatever its sign. -/
theorem strtoul_wraps (longBit : ℕ) (hlong : 32 ≤ longBit) (m : Ram bits) (nptr : ℕ)
    (s : List UInt8) (hs : m.Str nptr s) (base : ℤ) (hbase : base < 2 ^ 31) :
    Nonempty (Subject base s) ∧ ∀ u : Subject base s,
      strtoul longBit m nptr base = some
        (if 2 ^ longBit ≤ u.magnitude then 2 ^ longBit - 1
          else (u.value % 2 ^ longBit).toNat, nptr + u.consumed) ∧
      strtoull m nptr base = some
        (if 2 ^ 64 ≤ u.magnitude then 2 ^ 64 - 1 else (u.value % 2 ^ 64).toNat,
          nptr + u.consumed) :=
  ⟨exists_subject base s, fun u ↦
    ⟨body_eq_value hlong hbase hs u, body_eq_value (by norm_num) hbase hs u⟩⟩

/-- `strtoul("-1", &end, 10)` on a 32-bit `unsigned long`. -/
theorem strtoul_wraps_example :
    let s := ascii ['-', '1']
    let m := Ram.image 32 0x100 (s ++ [0])
    Nonempty (Subject 10 s) ∧ ∀ u : Subject 10 s,
      strtoul 32 m 0x100 10 = some
        (if 2 ^ 32 ≤ u.magnitude then 2 ^ 32 - 1 else (u.value % 2 ^ 32).toNat,
          0x100 + u.consumed) ∧
      strtoull m 0x100 10 = some
        (if 2 ^ 64 ≤ u.magnitude then 2 ^ 64 - 1 else (u.value % 2 ^ 64).toNat,
          0x100 + u.consumed) :=
  strtoul_wraps 32 (le_refl 32) _ _ _ (by decide) 10 (by decide)

end BaizeBoard
