import Mathlib.Data.Nat.Digits.Defs

/-!
# Little-endian numbers

The bytes of a number from the lowest one, and the number that such bytes spell.
-/

namespace LittleEndian

def bytes : (k n : ℕ) → List UInt8
  | 0, _ => []
  | k + 1, n => UInt8.ofNat n :: bytes k (n / 256)

def value (l : List UInt8) : ℕ := Nat.ofDigits 256 (l.map UInt8.toNat)

theorem length_bytes (k n : ℕ) : (bytes k n).length = k := by
  induction k generalizing n with
  | zero => rfl
  | succ k ih => rw [bytes, List.length_cons, ih]

theorem value_bytes (k n : ℕ) : value (bytes k n) = n % 256 ^ k := by
  induction k generalizing n with
  | zero => simp [bytes, value, Nat.mod_one]
  | succ k ih =>
      have hrest := ih (n / 256)
      unfold value at hrest ⊢
      rw [bytes, List.map_cons, Nat.ofDigits_cons, hrest, pow_succ', Nat.mod_mul]
      simp

/-- A 64-bit word is the value of its eight bytes. -/
theorem ofNat_value_bytes (w : BitVec 64) :
    BitVec.ofNat 64 (value (bytes 8 w.toNat)) = w := by
  rw [value_bytes, Nat.mod_eq_of_lt (w.isLt.trans_eq (by norm_num))]
  simp

end LittleEndian
