import BaizeBoard.Libc.Truncation

/-!
# Where the two number printers emit the same bytes

The printer of `printf.c` shrinks `padn` down to the number of digits, the one
of `snprintf.c` counts from `padn - width` down to zero and then, for a
negative `width + padn`, pads behind the digits.  Next to `INT_MAX` this sum
overflows.
-/

namespace BaizeBoard

namespace Vsnprintf

/-- While there is room every character is stored where the cursor stands. -/
theorem putAll_of_room {n : ℕ} {b : Buf} {text : List UInt8}
    (hroom : b.charsPrinted + text.length ≤ n) :
    b.putAll n text =
      { s := b.s + text.length
        charsPrinted := b.charsPrinted + text.length
        writes := b.writes ++ cells b.s text } := by
  induction text generalizing b with
  | nil => simp [cells]
  | cons c text ih =>
      rw [List.length_cons] at hroom
      have hlt : b.charsPrinted < n := by omega
      have hput : checkAndPutChar n b c =
          { s := b.s + 1
            charsPrinted := b.charsPrinted + 1
            writes := b.writes ++ [(b.s, c)] } := by
        unfold checkAndPutChar
        rw [if_pos hlt]
        rfl
      rw [Buf.putAll_cons, hput, ih (by simp only; omega)]
      simp only [cells, List.length_cons, List.append_assoc, List.singleton_append, Buf.mk.injEq,
        and_true]
      omega

end Vsnprintf

/-- Both printers pad the one numeral of `unum` without leading zeros to `padn` characters,
and the printer of `printf.c` counts what it has put. -/
def PrintersAgree (unum : BitVec 64) (radix : ℕ) (padc : UInt8) (padn : ℤ) : Prop :=
  ∃ digits : List UInt8,
    (∀ l, Numeral.IsNumeral (digitChar 'a'.toUInt8) radix unum.toNat l ↔ l = digits) ∧
    let text := List.replicate (max 0 (padn - digits.length)).toNat padc ++ digits
    (∀ out, Vprintf.unsignedNumPrint out unum radix padc padn =
      .ok (out ++ text, text.length)) ∧
    ∀ (asserts : Bool) (n : ℕ) (b : Vsnprintf.Buf), b.charsPrinted + text.length ≤ n →
      Vsnprintf.unsignedNumPrint asserts n b unum radix padc padn false =
        .ok { s := b.s + text.length
              charsPrinted := b.charsPrinted + text.length
              writes := b.writes ++ Vsnprintf.cells b.s text }

section PrintersAgree

variable {unum : BitVec 64} {radix : ℕ} {padc : UInt8} {padn : ℤ}

theorem printersAgree_of_fits (hradix : 10 ≤ radix) (hpadn : 0 ≤ padn)
    (hfits : Vsnprintf.PadFits padn (numeral 'a'.toUInt8 radix unum.toNat).length) :
    PrintersAgree unum radix padc padn := by
  refine ⟨numeral 'a'.toUInt8 radix unum.toNat, fun l ↦ ?_, ?_⟩
  · exact Numeral.isNumeral_iff (by omega) (digitChar 'a'.toUInt8) unum.toNat l
  · intro text
    set digits := numeral 'a'.toUInt8 radix unum.toNat with hdigits
    constructor
    · intro out
      have hpad : digits.leftpad padn.toNat padc = text := by
        have hcount : padn.toNat - digits.length = (max 0 (padn - digits.length)).toNat := by omega
        rw [List.leftpad, hcount]
      rw [Vprintf.unsignedNumPrint_eq out unum hradix padc padn, ← hdigits, hpad]
    · intro asserts n b hroom
      have hpad : Vsnprintf.numField padc padn digits = text := by
        have hcount : (padn - digits.length).toNat = (max 0 (padn - digits.length)).toNat := by
          omega
        rw [Vsnprintf.numField_of_nonneg padc hpadn hfits, hcount]
      rw [Vsnprintf.unsignedNumPrint_eq asserts n b unum hradix padc padn false]
      simp only [Bool.false_eq_true, if_false, ← hdigits, hpad, Vsnprintf.putAll_of_room hroom]

/-- The printer of `snprintf.c` counts each character that it puts. -/
theorem PrintersAgree.length (hradix : 10 ≤ radix) (h : PrintersAgree unum radix padc padn) :
    (Vsnprintf.numField padc padn (numeral 'a'.toUInt8 radix unum.toNat)).length =
      (max 0 (padn - (numeral 'a'.toUInt8 radix unum.toNat).length)).toNat +
        (numeral 'a'.toUInt8 radix unum.toNat).length := by
  obtain ⟨digits, hunique, -, hstores⟩ := h
  have hnumeral : numeral 'a'.toUInt8 radix unum.toNat = digits :=
    (hunique _).mp ((Numeral.isNumeral_iff (by omega) _ _ _).mpr rfl)
  let b : Vsnprintf.Buf := ⟨0, 0, []⟩
  have hstored := hstores true _ b (le_refl _)
  rw [Vsnprintf.unsignedNumPrint_eq true _ b unum hradix padc padn false] at hstored
  have hcount := congrArg Vsnprintf.Buf.charsPrinted (Except.ok.inj hstored)
  simp only [Bool.false_eq_true, if_false, Vsnprintf.charsPrinted_putAll, hnumeral, b,
    List.length_append, List.length_replicate, zero_add] at hcount
  rw [hnumeral]
  exact hcount

/-- Beyond `INT_MAX` the padding is 2^31 characters or more behind the digits. -/
theorem not_printersAgree (hradix : 10 ≤ radix) (hpadn : 0 ≤ padn) (hint : padn ≤ intMax)
    (h : intMax < padn + (numeral 'a'.toUInt8 radix unum.toNat).length) :
    ¬ PrintersAgree unum radix padc padn := by
  intro hagree
  have hle := length_numeral_le 'a'.toUInt8 hradix unum.isLt
  have hlong := Vsnprintf.length_numField_of_not_fits padc (by omega) hint hle
    (fun hfits ↦ by have hsum := hfits.2; omega)
  have hlength := hagree.length hradix
  rw [hlong] at hlength
  simp only [intMax, numBufSize] at hint hle
  omega

end PrintersAgree

/-- The two printers agree iff the width and the digits together are an `int`. -/
theorem printers_agree_iff (unum : BitVec 64) (radix : ℕ) (hradix : radix = 10 ∨ radix = 16)
    (padc : UInt8) (padn : ℤ) (hpadn : 0 ≤ padn) (hint : padn ≤ intMax) :
    PrintersAgree unum radix padc padn ↔
      padn + (numeral 'a'.toUInt8 radix unum.toNat).length ≤ intMax := by
  have hten : 10 ≤ radix := by omega
  constructor
  · intro hagree
    by_contra h
    exact not_printersAgree hten hpadn hint (not_le.mp h) hagree
  · intro h
    have hle := length_numeral_le 'a'.toUInt8 hten unum.isLt
    simp only [numBufSize] at hle
    exact printersAgree_of_fits hten hpadn ⟨by omega, by omega⟩

/-- `ff` of width 5 in base 16 -/
theorem printers_agree_iff_example :
    PrintersAgree 255 16 '0'.toUInt8 5 ↔
      (5 : ℤ) + (numeral 'a'.toUInt8 16 (255 : BitVec 64).toNat).length ≤ intMax :=
  printers_agree_iff 255 16 (.inr rfl) '0'.toUInt8 5 (by decide) (by decide)

/-- `%02147483647u` of 1: the sum `width + padn` is one more than `INT_MAX`. -/
theorem not_printers_agree_int_max : ¬ PrintersAgree 1 10 '0'.toUInt8 0x7fffffff := by
  apply not_printersAgree
  · decide
  · decide
  · decide
  · decide

end BaizeBoard
