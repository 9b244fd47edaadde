import BaizeBoard.Libc.Memory
import BaizeBoard.Library.Numeral

/-!
# The two number printers

`printf.c` and `snprintf.c` each have their own `unsigned_num_print`.  Both
fill `num_buf[20]` with the digits from the lowest one; they differ in how
they pad and in where a character goes.  The spec lemmas
`Vprintf.unsignedNumPrint_eq` and `Vsnprintf.unsignedNumPrint_eq` give what
each one emits in terms of the numeral of its argument.

The printer of `snprintf.c` adds to its width and subtracts from it, so here an
`int` that goes over its bounds wraps, as it does in two's complement.
-/

namespace BaizeBoard

/-- The character of one digit: `'0' + rem`, or counted from `ascii_a`. -/
def digitChar (asciiA : UInt8) (rem : ℕ) : UInt8 :=
  if rem < 10 then '0'.toUInt8 + UInt8.ofNat rem else asciiA + UInt8.ofNat (rem - 10)

/-- `char num_buf[20];` -/
def numBufSize : ℕ := 20

/-- The `do { … } while (unum > 0U)` loop: the characters it stores in
`num_buf[i]`, `num_buf[i + 1]`, …, when `room` elements of the array are left. -/
def fillNumBuf (asciiA : UInt8) (radix : ℕ) : (room unum : ℕ) → Except Fault (List UInt8)
  | 0, _ => .error .numBuf
  | room + 1, unum => do
      let c := digitChar asciiA (unum % radix)
      let unum := unum / radix
      if unum > 0 then
        let numBuf ← fillNumBuf asciiA radix room unum
        return c :: numBuf
      else return [c]

/-- `num_buf[i]`, which has to be one of the elements the loop above has set. -/
def readNumBuf (numBuf : List UInt8) (i : ℕ) : Except Fault UInt8 :=
  match numBuf[i]? with
  | some c => .ok c
  | none => .error .numBuf

namespace Vprintf

/-- `while (i < padn) { putchar(padc); count++; padn--; }` -/
def padLoop (padc : UInt8) (i : ℕ) : ℕ → List UInt8 × ℤ → List UInt8 × ℤ
  | 0, e => e
  | padn + 1, (out, count) =>
      if i < padn + 1 then padLoop padc i padn (out ++ [padc], count + 1) else (out, count)

/-- `while (--i >= 0) { putchar(num_buf[i]); count++; }` -/
def digitLoop (numBuf : List UInt8) : ℕ → List UInt8 × ℤ → Except Fault (List UInt8 × ℤ)
  | 0, e => .ok e
  | i + 1, (out, count) => do
      let c ← readNumBuf numBuf i
      digitLoop numBuf i (out ++ [c], count + 1)

/-- `unsigned_num_print` of `printf.c`: the console after it, and its result. -/
def unsignedNumPrint (out : List UInt8) (unum : BitVec 64) (radix : ℕ) (padc : UInt8)
    (padn : ℤ) : Except Fault (List UInt8 × ℤ) := do
  let numBuf ← fillNumBuf 'a'.toUInt8 radix numBufSize unum.toNat
  let i := numBuf.length
  let e := if padn > 0 then padLoop padc i padn.toNat (out, 0) else (out, 0)
  digitLoop numBuf i e

end Vprintf

namespace Vsnprintf

/-- The low 32 bits of `v`, as an `int` holds them. -/
def toInt32 (v : ℤ) : ℤ := (BitVec.ofInt 32 v).toInt

/-- Where `vsnprintf` stores: how far the cursor `s` has moved from the start
of the buffer, `chars_printed`, and every store made, in order. -/
structure Buf where
  s : ℕ
  charsPrinted : ℕ
  writes : List (ℕ × UInt8)
  deriving DecidableEq

/-- `*s = ch` -/
def Buf.store (b : Buf) (ch : UInt8) : Buf := { b with writes := b.writes ++ [(b.s, ch)] }

/-- `CHECK_AND_PUT_CHAR(s, n, chars_printed, ch)` -/
def checkAndPutChar (n : ℕ) (b : Buf) (ch : UInt8) : Buf :=
  let b := if b.charsPrinted < n then { b.store ch with s := b.s + 1 } else b
  { b with charsPrinted := b.charsPrinted + 1 }

def stringPrint (n : ℕ) (b : Buf) (str : List UInt8) : Buf :=
  str.foldl (checkAndPutChar n) b

def padLoop (n : ℕ) (padc : UInt8) : ℕ → Buf → Buf
  | 0, b => b
  | i + 1, b => padLoop n padc i (checkAndPutChar n b padc)

/-- `for (i = width; i > 0; i--)` over `num_buf[i - 1]`. -/
def digitLoop (n : ℕ) (numBuf : List UInt8) : ℕ → Buf → Except Fault Buf
  | 0, b => .ok b
  | i + 1, b => do
      let c ← readNumBuf numBuf i
      digitLoop n numBuf i (checkAndPutChar n b c)

/-- `unsigned_num_print` of `snprintf.c`.  `ERROR` and `plat_panic_handler`
are defined as nothing there, so only the `assert(0)` guards the radix. -/
def unsignedNumPrint (asserts : Bool) (n : ℕ) (b : Buf) (unum : BitVec 64) (radix : ℕ)
    (padc : UInt8) (padn : ℤ) (capitalise : Bool) : Except Fault Buf := do
  let asciiA := if capitalise then 'A'.toUInt8 else 'a'.toUInt8
  if radix < 10 ∧ asserts then throw .assertion
  let numBuf ← fillNumBuf asciiA radix numBufSize unum.toNat
  let width := numBuf.length
  let b := padLoop n padc (toInt32 (padn - width)).toNat b
  let b ← digitLoop n numBuf width b
  return padLoop n padc (-toInt32 (width + padn)).toNat b

end Vsnprintf

/-! ## Values of type `int` -/

/-- `INT_MAX` -/
def intMax : ℤ := 0x7fffffff

namespace Vsnprintf

theorem toInt32_bounds (v : ℤ) : -2 ^ 31 ≤ toInt32 v ∧ toInt32 v < 2 ^ 31 :=
  ⟨BitVec.le_toInt _, BitVec.toInt_lt⟩

theorem toInt32_eq_iff {v : ℤ} : toInt32 v = v ↔ -2 ^ 31 ≤ v ∧ v < 2 ^ 31 := by
  unfold toInt32
  rw [BitVec.toInt_ofInt]
  constructor
  · intro h
    have hlo := Int.le_bmod (x := v) (m := 2 ^ 32) (by decide)
    have hhi := Int.bmod_lt (x := v) (m := 2 ^ 32) (by decide)
    rw [h] at hlo hhi
    norm_num at hlo hhi ⊢
    omega
  · rintro ⟨hlo, hhi⟩
    apply Int.bmod_eq_of_le_mul_two
    · push_cast
      omega
    · push_cast
      omega

theorem toInt32_add_self (v : ℤ) : toInt32 (v + 2 ^ 32) = toInt32 v := by
  unfold toInt32
  rw [BitVec.toInt_ofInt, BitVec.toInt_ofInt]
  exact Int.add_bmod_right v (2 ^ 32)

theorem toInt32_sub_self (v : ℤ) : toInt32 (v - 2 ^ 32) = toInt32 v := by
  rw [← toInt32_add_self, sub_add_cancel]

/-- A number whose digits are read into an `int` is the same modulo 2^32. -/
theorem toInt32_digit (v d : ℤ) : toInt32 (toInt32 v * 10 + d) = toInt32 (v * 10 + d) := by
  unfold toInt32
  rw [BitVec.ofInt_add, BitVec.ofInt_mul, BitVec.ofInt_toInt, ← BitVec.ofInt_mul,
    ← BitVec.ofInt_add]

theorem toInt32_neg (v : ℤ) : toInt32 (-toInt32 v) = toInt32 (-v) := by
  unfold toInt32
  rw [BitVec.ofInt_neg, BitVec.ofInt_toInt, ← BitVec.ofInt_neg]

end Vsnprintf

/-! ## What the printers emit -/

def numeral (asciiA : UInt8) (radix unum : ℕ) : List UInt8 :=
  Numeral.numeral (digitChar asciiA) radix unum

theorem fillNumBuf_eq (asciiA : UInt8) {radix : ℕ} (hradix : 2 ≤ radix) (room unum : ℕ)
    (hroom : (Numeral.lowFirst radix unum).length ≤ room) :
    fillNumBuf asciiA radix room unum =
      .ok ((Numeral.lowFirst radix unum).map (digitChar asciiA)) := by
  induction room generalizing unum with
  | zero => exact absurd hroom (by simpa using Numeral.lowFirst_ne_nil radix unum)
  | succ room ih =>
      rw [Numeral.lowFirst_eq hradix] at hroom ⊢
      unfold fillNumBuf
      by_cases hq : 0 < unum / radix
      · simp only [hq, if_true, List.length_cons] at hroom ⊢
        rw [ih (unum / radix) (by omega)]
        rfl
      · simp only [hq, if_false]
        rfl

/-- A 64-bit number never needs more than the twenty elements of `num_buf`. -/
theorem length_lowFirst_le_numBufSize {radix : ℕ} (hradix : 10 ≤ radix) {unum : ℕ}
    (hunum : unum < 2 ^ 64) : (Numeral.lowFirst radix unum).length ≤ numBufSize := by
  refine Numeral.length_lowFirst_le (by omega) (by decide) ?_
  calc
    unum < 2 ^ 64 := hunum
    _ ≤ 10 ^ numBufSize := by decide
    _ ≤ radix ^ numBufSize := Nat.pow_le_pow_left hradix _

theorem length_numeral_le (asciiA : UInt8) {radix : ℕ} (hradix : 10 ≤ radix) {unum : ℕ}
    (hunum : unum < 2 ^ 64) : (numeral asciiA radix unum).length ≤ numBufSize := by
  rw [numeral, Numeral.length_numeral]
  exact length_lowFirst_le_numBufSize hradix hunum

theorem fillNumBuf_numeral (asciiA : UInt8) {radix : ℕ} (hradix : 10 ≤ radix) (unum : BitVec 64) :
    fillNumBuf asciiA radix numBufSize unum.toNat =
      .ok (numeral asciiA radix unum.toNat).reverse := by
  rw [fillNumBuf_eq asciiA (by omega) _ _ (length_lowFirst_le_numBufSize hradix unum.isLt)]
  simp [numeral, Numeral.numeral]

theorem readNumBuf_lt {numBuf : List UInt8} {i : ℕ} (h : i < numBuf.length) :
    readNumBuf numBuf i = .ok numBuf[i] := by
  simp [readNumBuf, h]

theorem take_succ_reverse {numBuf : List UInt8} {i : ℕ} (h : i < numBuf.length) :
    (numBuf.take (i + 1)).reverse = numBuf[i] :: (numBuf.take i).reverse := by
  rw [List.take_succ_eq_append_getElem h, List.reverse_append]
  rfl

namespace Vprintf

theorem padLoop_eq (padc : UInt8) (i padn : ℕ) (out : List UInt8) (count : ℤ) :
    padLoop padc i padn (out, count) =
      (out ++ List.replicate (padn - i) padc, count + (padn - i : ℕ)) := by
  induction padn generalizing out count with
  | zero => simp [padLoop]
  | succ padn ih =>
      unfold padLoop
      split
      · have hnext : padn + 1 - i = (padn - i) + 1 := by omega
        rw [ih, hnext, List.replicate_succ]
        simp only [List.append_assoc, List.singleton_append, Prod.mk.injEq, true_and]
        push_cast
        ring
      · have hnone : padn + 1 - i = 0 := by omega
        simp [hnone]

theorem digitLoop_eq (numBuf : List UInt8) (i : ℕ) (hi : i ≤ numBuf.length)
    (out : List UInt8) (count : ℤ) :
    digitLoop numBuf i (out, count) = .ok (out ++ (numBuf.take i).reverse, count + i) := by
  induction i generalizing out count with
  | zero => simp [digitLoop]
  | succ i ih =>
      rw [digitLoop, readNumBuf_lt (by omega), take_succ_reverse (by omega)]
      refine (ih (by omega) _ _).trans ?_
      simp only [List.append_assoc, List.singleton_append, Except.ok.injEq, Prod.mk.injEq,
        true_and]
      push_cast
      ring

/-- `printf.c` pads on the left to `padn` characters and returns how many
characters it has put. -/
theorem unsignedNumPrint_eq (out : List UInt8) (unum : BitVec 64) {radix : ℕ}
    (hradix : 10 ≤ radix) (padc : UInt8) (padn : ℤ) :
    unsignedNumPrint out unum radix padc padn =
      .ok (out ++ (numeral 'a'.toUInt8 radix unum.toNat).leftpad padn.toNat padc,
        ((numeral 'a'.toUInt8 radix unum.toNat).leftpad padn.toNat padc).length) := by
  set digits := numeral 'a'.toUInt8 radix unum.toNat with hdigits
  have hpad : (if padn > 0 then padLoop padc digits.reverse.length padn.toNat (out, 0)
      else (out, 0)) = (out ++ List.replicate (padn.toNat - digits.length) padc,
        ((padn.toNat - digits.length : ℕ) : ℤ)) := by
    split
    · rw [padLoop_eq, List.length_reverse, zero_add]
    · have hnone : padn.toNat = 0 := by omega
      simp [hnone]
  unfold unsignedNumPrint
  rw [fillNumBuf_numeral 'a'.toUInt8 hradix, ← hdigits]
  change digitLoop _ _ (if padn > 0 then _ else _) = _
  rw [hpad, digitLoop_eq _ _ (le_refl _), List.take_length]
  simp [List.leftpad]

end Vprintf

namespace Vsnprintf

def Buf.putAll (n : ℕ) (b : Buf) (text : List UInt8) : Buf := text.foldl (checkAndPutChar n) b

@[simp] theorem Buf.putAll_nil (n : ℕ) (b : Buf) : b.putAll n [] = b := rfl

theorem Buf.putAll_cons (n : ℕ) (b : Buf) (c : UInt8) (text : List UInt8) :
    b.putAll n (c :: text) = (checkAndPutChar n b c).putAll n text := rfl

theorem Buf.putAll_append (n : ℕ) (b : Buf) (s t : List UInt8) :
    b.putAll n (s ++ t) = (b.putAll n s).putAll n t := List.foldl_append

theorem padLoop_eq (n : ℕ) (padc : UInt8) (i : ℕ) (b : Buf) :
    padLoop n padc i b = b.putAll n (List.replicate i padc) := by
  induction i generalizing b with
  | zero => rfl
  | succ i ih => rw [padLoop, ih, List.replicate_succ, Buf.putAll_cons]

theorem digitLoop_eq (n : ℕ) (numBuf : List UInt8) (i : ℕ) (hi : i ≤ numBuf.length) (b : Buf) :
    digitLoop n numBuf i b = .ok (b.putAll n (numBuf.take i).reverse) := by
  induction i generalizing b with
  | zero => simp [digitLoop]
  | succ i ih =>
      rw [digitLoop, readNumBuf_lt (by omega), take_succ_reverse (by omega), Buf.putAll_cons]
      exact ih (by omega) _

/-- The field `snprintf.c` prints for the digits of a number: padding on the
left for a positive `padn`, on the right for a negative one. -/
def numField (padc : UInt8) (padn : ℤ) (digits : List UInt8) : List UInt8 :=
  List.replicate (toInt32 (padn - digits.length)).toNat padc ++ digits ++
    List.replicate (-toInt32 (digits.length + padn)).toNat padc

/-- Neither `padn - width` nor `width + padn` goes over a bound of `int`. -/
def PadFits (padn : ℤ) (width : ℕ) : Prop :=
  -0x80000000 ≤ padn - width ∧ width + padn ≤ intMax

theorem PadFits.toInt32_eq {padn : ℤ} {width : ℕ} (h : PadFits padn width) :
    toInt32 padn = padn := by
  obtain ⟨hlo, hhi⟩ := h
  simp only [intMax] at hhi
  exact toInt32_eq_iff.mpr ⟨by omega, by omega⟩

theorem numField_of_fits (padc : UInt8) {padn : ℤ} {digits : List UInt8}
    (h : PadFits padn digits.length) :
    numField padc padn digits =
      List.replicate (padn - digits.length).toNat padc ++ digits ++
        List.replicate (-(digits.length + padn)).toNat padc := by
  obtain ⟨hlo, hhi⟩ := h
  simp only [intMax] at hhi
  rw [numField, toInt32_eq_iff.mpr ⟨by omega, by omega⟩, toInt32_eq_iff.mpr ⟨by omega, by omega⟩]

theorem numField_of_nonneg (padc : UInt8) {padn : ℤ} (hpadn : 0 ≤ padn) {digits : List UInt8}
    (h : PadFits padn digits.length) :
    numField padc padn digits =
      List.replicate (padn - digits.length).toNat padc ++ digits := by
  have hbehind : (-((digits.length : ℤ) + padn)).toNat = 0 := by omega
  rw [numField_of_fits padc h, hbehind, List.replicate_zero, List.append_nil]

/-- Over a bound of `int` both loops pad, whatever the width was. -/
theorem length_numField_of_not_fits (padc : UInt8) {padn : ℤ} {digits : List UInt8}
    (hlo : -0x80000000 ≤ padn) (hhi : padn ≤ intMax) (hlength : digits.length ≤ numBufSize)
    (h : ¬ PadFits padn digits.length) :
    (numField padc padn digits).length = 2 ^ 32 - digits.length := by
  simp only [PadFits, intMax, numBufSize] at hhi hlength h
  rw [numField, List.length_append, List.length_append, List.length_replicate,
    List.length_replicate]
  rcases lt_or_ge padn 0 with hneg | hnonneg
  · have hbefore : toInt32 (padn - digits.length) = padn - digits.length + 2 ^ 32 := by
      rw [← toInt32_add_self]
      exact toInt32_eq_iff.mpr ⟨by omega, by omega⟩
    rw [hbefore, toInt32_eq_iff.mpr ⟨by omega, by omega⟩]
    omega
  · have hbehind : toInt32 (digits.length + padn) = digits.length + padn - 2 ^ 32 := by
      rw [← toInt32_sub_self]
      exact toInt32_eq_iff.mpr ⟨by omega, by omega⟩
    rw [hbehind, toInt32_eq_iff.mpr ⟨by omega, by omega⟩]
    omega

theorem unsignedNumPrint_eq (asserts : Bool) (n : ℕ) (b : Buf) (unum : BitVec 64) {radix : ℕ}
    (hradix : 10 ≤ radix) (padc : UInt8) (padn : ℤ) (capitalise : Bool) :
    unsignedNumPrint asserts n b unum radix padc padn capitalise =
      .ok (b.putAll n (numField padc padn
        (numeral (if capitalise then 'A'.toUInt8 else 'a'.toUInt8) radix unum.toNat))) := by
  unfold unsignedNumPrint
  have hguard : ¬ (radix < 10 ∧ asserts = true) := by omega
  simp only [hguard, if_false, fillNumBuf_numeral _ hradix]
  change (digitLoop n _ _ _ >>= fun b ↦ Except.ok _) = _
  rw [digitLoop_eq _ _ _ (le_refl _), List.take_length]
  simp [numField, padLoop_eq, Buf.putAll_append, bind, Except.bind]

end Vsnprintf

end BaizeBoard
