import BaizeBoard.Library.Word

/-!
# Flags, conditions and bit fields

What the A32 and the A64 instructions of the Arm architecture share.
-/

namespace Arm

structure Flags where
  n : Bool
  z : Bool
  c : Bool
  v : Bool
  deriving DecidableEq

inductive Cond where
  | eq
  | ne
  | hs
  | lo
  | mi
  | hi
  | ls
  | ge
  deriving DecidableEq

def Cond.holds (f : Flags) : Cond → Bool
  | .eq => f.z
  | .ne => !f.z
  | .hs => f.c
  | .lo => !f.c
  | .mi => f.n
  | .hi => f.c && !f.z
  | .ls => !(f.c && !f.z)
  | .ge => f.n == f.v

variable {w : ℕ}

/-- The flags of `x - y`; `c` is set where nothing is borrowed. -/
def subFlags (x y : BitVec w) : Flags where
  n := (x - y).msb
  z := x == y
  c := y.ule x
  v := x.ssubOverflow y

section SubFlags

variable (x y : BitVec w)

theorem holds_hs : Cond.hs.holds (subFlags x y) = decide (y.toNat ≤ x.toNat) := rfl

theorem holds_lo : Cond.lo.holds (subFlags x y) = decide (x.toNat < y.toNat) := by
  have hnot : Cond.lo.holds (subFlags x y) = !Cond.hs.holds (subFlags x y) := rfl
  rw [hnot, holds_hs, ← decide_not, decide_eq_decide, Nat.not_le]

theorem holds_eq : Cond.eq.holds (subFlags x y) = decide (x.toNat = y.toNat) := by
  rw [Bool.eq_iff_iff, decide_eq_true_iff, BitVec.toNat_inj]
  exact beq_iff_eq

theorem holds_hi : Cond.hi.holds (subFlags x y) = decide (y.toNat < x.toNat) := by
  have hand : Cond.hi.holds (subFlags x y) =
      (Cond.hs.holds (subFlags x y) && !Cond.eq.holds (subFlags x y)) := rfl
  rw [hand, holds_hs, holds_eq, ← decide_not, ← Bool.decide_and, decide_eq_decide]
  omega

theorem holds_ls : Cond.ls.holds (subFlags x y) = decide (x.toNat ≤ y.toNat) := by
  have hnot : Cond.ls.holds (subFlags x y) = !Cond.hi.holds (subFlags x y) := rfl
  rw [hnot, holds_hi, ← decide_not, decide_eq_decide, Nat.not_lt]

end SubFlags

/-- `dst` with its `width` bits from `lsb` on replaced by the lowest bits of `src`. -/
def bfi (dst src : BitVec w) (lsb width : ℕ) : BitVec w :=
  let mask := (BitVec.allOnes width).setWidth w <<< lsb
  (dst &&& ~~~mask) ||| ((src <<< lsb) &&& mask)

theorem getLsbD_bfi (dst src : BitVec w) {lsb width i : ℕ} (hi : i < w) :
    (bfi dst src lsb width).getLsbD i =
      if lsb ≤ i ∧ i < lsb + width then src.getLsbD (i - lsb) else dst.getLsbD i := by
  have hmask : ((BitVec.allOnes width).setWidth w <<< lsb).getLsbD i =
      decide (lsb ≤ i ∧ i < lsb + width) := by
    rw [BitVec.getLsbD_shiftLeft, BitVec.getLsbD_setWidth, BitVec.getLsbD_allOnes]
    by_cases hlow : i < lsb
    · simp [hlow]
    · rw [decide_eq_true hi, decide_eq_true (show i - lsb < w by omega), decide_eq_false hlow,
        Bool.true_and, Bool.true_and, Bool.not_false, Bool.true_and, decide_eq_decide]
      omega
  rw [bfi, BitVec.getLsbD_or, BitVec.getLsbD_and, BitVec.getLsbD_and, BitVec.getLsbD_not, hmask,
    BitVec.getLsbD_shiftLeft, decide_eq_true hi]
  by_cases hfield : lsb ≤ i ∧ i < lsb + width
  · simp [hfield, Nat.not_lt_of_le hfield.1]
  · simp [hfield]

theorem ofNat_and_eq_zero (a n : ℕ) {w : ℕ} (hn : n ≤ w) :
    BitVec.ofNat w a &&& BitVec.ofNat w (2 ^ n - 1) = 0#w ↔ 2 ^ n ∣ a := by
  rw [← BitVec.toNat_inj, BitVec.toNat_and, BitVec.toNat_ofNat, BitVec.toNat_ofNat,
    Nat.mod_eq_of_lt ((Nat.sub_lt (Nat.two_pow_pos n) Nat.one_pos).trans_le
      (Nat.pow_le_pow_right (by omega) hn)), Nat.and_two_pow_sub_one_eq_mod,
    Nat.mod_mod_of_dvd a (Nat.pow_dvd_pow 2 hn), BitVec.toNat_zero, Nat.dvd_iff_mod_eq_zero]

theorem and_not_eq (x : BitVec w) (n : ℕ) :
    x &&& ~~~BitVec.ofNat w (2 ^ n - 1) = BitVec.ofNat w (2 ^ n * (x.toNat / 2 ^ n)) := by
  apply BitVec.eq_of_getLsbD_eq
  intro i hi
  rw [BitVec.getLsbD_and, BitVec.getLsbD_not, BitVec.getLsbD_ofNat, BitVec.getLsbD_ofNat,
    Nat.testBit_two_pow_sub_one, Nat.testBit_two_pow_mul, Nat.testBit_div_two_pow,
    BitVec.testBit_toNat, decide_eq_true hi]
  by_cases hin : n ≤ i
  · simp [hin, Nat.not_lt_of_le hin]
  · simp [hin, Nat.lt_of_not_le hin]

theorem msb_shiftLeft (x : BitVec w) {a : ℕ} (ha : a < w) :
    (x <<< a).msb = x.getLsbD (w - 1 - a) := by
  rw [BitVec.msb_shiftLeft, BitVec.getMsbD_eq_getLsbD, decide_eq_true ha, Bool.true_and]

theorem shiftLeft_eq_zero (x : BitVec w) {a : ℕ} (ha : a ≤ w) :
    x <<< a = 0#w ↔ x.toNat % 2 ^ (w - a) = 0 := by
  have hpow : 2 ^ w = 2 ^ (w - a) * 2 ^ a := by rw [← pow_add, Nat.sub_add_cancel ha]
  rw [← BitVec.toNat_inj, BitVec.toNat_shiftLeft, BitVec.toNat_zero, Nat.shiftLeft_eq, hpow,
    Nat.mul_mod_mul_right, Nat.mul_eq_zero]
  exact or_iff_left (Nat.two_pow_pos a).ne'

/-- The lowest bits of a number, one more of them. -/
theorem toNat_mod_succ (x : BitVec w) (i : ℕ) :
    x.toNat % 2 ^ (i + 1) = x.toNat % 2 ^ i + (x.getLsbD i).toNat * 2 ^ i := by
  rw [Nat.mod_pow_succ, ← Nat.toNat_testBit, BitVec.testBit_toNat, Nat.mul_comm]

open LittleEndian in
theorem begins_bfi {k : ℕ} {c : UInt8} {x : BitVec w} (h : Begins k c x) (hk : 8 * (2 * k) ≤ w) :
    Begins (2 * k) c (bfi x x (8 * k) (8 * k)) := by
  apply h.double
  · intro i hi
    rw [getLsbD_bfi x x (by omega), if_neg (by omega)]
  · intro i hi
    rw [getLsbD_bfi x x (by omega), if_pos (by omega), Nat.add_sub_cancel_left]

end Arm
