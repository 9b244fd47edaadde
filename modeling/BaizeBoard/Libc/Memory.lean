import Mathlib.Computability.StateTransition
import Mathlib.Data.Int.Notation
import Mathlib.Data.Stream.Init

/-!
# Memory, C strings and variadic arguments

The C functions of `rtos/libc` read their format and their `%s` arguments
through `char` pointers.  Memory is a map from addresses to bytes that every
read succeeds on, so nothing keeps a scan inside the object it was given:
that it stays there has to be proved.

A variadic argument is one 8-byte slot, as `va_arg` fetches it on LP64; `int`
arguments occupy the low half of their slot.
-/

namespace BaizeBoard

abbrev Mem := ℕ → UInt8

/-- The bytes `s`, none of them NUL, stand at address `a` and a NUL follows. -/
def CString (mem : Mem) : ℕ → List UInt8 → Prop
  | a, [] => mem a = 0
  | a, c :: s => mem a = c ∧ c ≠ 0 ∧ CString mem (a + 1) s

instance (mem : Mem) : ∀ (s : List UInt8) (a : ℕ), Decidable (CString mem a s)
  | [], a => inferInstanceAs (Decidable (mem a = 0))
  | c :: s, a =>
      have := instDecidableCString mem s (a + 1)
      inferInstanceAs (Decidable (mem a = c ∧ c ≠ 0 ∧ CString mem (a + 1) s))

/-- What `va_arg` fetches one after the other.  It checks nothing: behind the
arguments of the call it goes on to whatever stands there. -/
abbrev VaList := Stream' (BitVec 64)

/-- What can stop a formatter before it returns: an access outside `num_buf`, a
failed `assert`. -/
inductive Fault where
  | numBuf
  | assertion
  deriving DecidableEq

/-! ## The argument macros both formatters define -/

/-- `get_num_va_args`: the conditional has type `long long int`, so the `int`
branch is sign extended. -/
def getNumVaArgs (arg : BitVec 64) (lCount : ℤ) : ℤ :=
  if lCount > 1 then arg.toInt
  else if lCount = 1 then arg.toInt
  else (arg.setWidth 32).toInt

def getUnumVaArgs (arg : BitVec 64) (lCount : ℤ) : BitVec 64 :=
  if lCount > 1 then arg
  else if lCount = 1 then arg
  else (arg.setWidth 32).setWidth 64

theorem getNumVaArgs_wide (arg : BitVec 64) {lCount : ℤ} (h : 1 ≤ lCount) :
    getNumVaArgs arg lCount = arg.toInt := by
  unfold getNumVaArgs
  split
  · rfl
  · rw [if_pos (by omega)]

theorem getNumVaArgs_zero (arg : BitVec 64) :
    getNumVaArgs arg 0 = (arg.setWidth 32).toInt := rfl

theorem getUnumVaArgs_wide (arg : BitVec 64) {lCount : ℤ} (h : 1 ≤ lCount) :
    getUnumVaArgs arg lCount = arg := by
  unfold getUnumVaArgs
  split
  · rfl
  · rw [if_pos (by omega)]

theorem getUnumVaArgs_zero (arg : BitVec 64) :
    getUnumVaArgs arg 0 = (arg.setWidth 32).setWidth 64 := rfl

/-! ## Reading a C string -/

theorem CString.unique {mem : Mem} {a : ℕ} {s t : List UInt8}
    (hs : CString mem a s) (ht : CString mem a t) : s = t := by
  induction s generalizing a t with
  | nil =>
      cases t with
      | nil => rfl
      | cons d t => exact (ht.2.1 (ht.1.symm.trans hs)).elim
  | cons c s ih =>
      cases t with
      | nil => exact (hs.2.1 (hs.1.symm.trans ht)).elim
      | cons d t =>
          have hcd : c = d := hs.1.symm.trans ht.1
          rw [hcd, ih hs.2.2 ht.2.2]

def ascii (s : List Char) : List UInt8 := s.map Char.toUInt8

/-- A memory that holds `bytes` from address `a` on, and NUL elsewhere. -/
def rodata (a : ℕ) (bytes : List UInt8) : Mem :=
  fun i ↦ if a ≤ i then bytes.getD (i - a) 0 else 0

end BaizeBoard
