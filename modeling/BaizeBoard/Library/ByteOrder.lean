import BaizeBoard.Library.LittleEndian

/-!
# The bytes of a word, and their order

A word whose bits are eight times as many as its bytes is given by its bytes.
The operations that move whole bytes are told by what they do to each of them.
-/

namespace LittleEndian

variable {w v k n i j : ℕ} {x y : BitVec w}

/-- Byte `j` of a word, from the lowest one. -/
def byte (x : BitVec w) (j : ℕ) : UInt8 := UInt8.ofBitVec (x.extractLsb' (8 * j) 8)

theorem byte_eq_iff {y : BitVec v} : byte x i = byte y j ↔
    ∀ b < 8, x.getLsbD (8 * i + b) = y.getLsbD (8 * j + b) := by
  rw [byte, byte, UInt8.ofBitVec.injEq, BitVec.eq_of_getLsbD_eq_iff]
  apply forall₂_congr
  intro b hb
  simp [hb]

theorem eq_of_byte_eq (hw : w = 8 * k) (h : ∀ j < k, byte x j = byte y j) : x = y := by
  apply BitVec.eq_of_getLsbD_eq
  intro i hi
  have hbit := byte_eq_iff.mp (h (i / 8) (by omega)) (i % 8) (by omega)
  rwa [Nat.div_add_mod] at hbit

@[simp] theorem byte_zero : byte 0#w j = 0 := by
  rw [byte, BitVec.extractLsb'_zero]
  rfl

theorem byte_of_le (h : w ≤ 8 * j) : byte x j = 0 := by
  rw [← byte_zero (w := w) (j := j), byte_eq_iff]
  intro b _
  rw [BitVec.getLsbD_of_ge x _ (by omega), BitVec.getLsbD_zero]

/-! ## Operations on all bytes -/

@[simp] theorem byte_or : byte (x ||| y) j = byte x j ||| byte y j := by
  rw [byte, BitVec.extractLsb'_or]
  rfl

@[simp] theorem byte_and : byte (x &&& y) j = byte x j &&& byte y j := by
  rw [byte, BitVec.extractLsb'_and]
  rfl

@[simp] theorem byte_xor : byte (x ^^^ y) j = byte x j ^^^ byte y j := by
  rw [byte, BitVec.extractLsb'_xor]
  rfl

/-! ## Operations that move bytes -/

theorem byte_shiftRight (hn : n % 8 = 0) : byte (x >>> n) j = byte x (j + n / 8) := by
  rw [byte_eq_iff]
  intro b _
  rw [BitVec.getLsbD_ushiftRight]
  congr 1
  omega

theorem byte_shiftLeft (hn : n % 8 = 0) (hj : 8 * (j + 1) ≤ w) :
    byte (x <<< n) j = if n / 8 ≤ j then byte x (j - n / 8) else 0 := by
  split
  · rw [byte_eq_iff]
    intro b hb
    rw [BitVec.getLsbD_shiftLeft, decide_eq_true (by omega), decide_eq_false (by omega),
      Bool.not_false, Bool.true_and, Bool.true_and]
    congr 1
    omega
  · rw [← byte_zero (w := w) (j := j), byte_eq_iff]
    intro b hb
    rw [BitVec.getLsbD_shiftLeft, decide_eq_true (show 8 * j + b < n by omega), Bool.not_true,
      Bool.and_false, Bool.false_and, BitVec.getLsbD_zero]

theorem byte_rotateRight (hw : w = 8 * k) (hn : n % 8 = 0) (hlt : n < w) (hj : j < k) :
    byte (x.rotateRight n) j = byte x ((j + n / 8) % k) := by
  rw [byte_eq_iff]
  intro b hb
  rw [BitVec.getLsbD_rotateRight_of_lt hlt]
  by_cases h : j + n / 8 < k
  · rw [Nat.mod_eq_of_lt h, decide_eq_true (show 8 * j + b < w - n by omega), cond_true]
    congr 1
    omega
  · rw [Nat.mod_eq_sub_mod (Nat.le_of_not_lt h), Nat.mod_eq_of_lt (by omega),
      decide_eq_false (show ¬ 8 * j + b < w - n by omega), cond_false,
      decide_eq_true (show 8 * j + b < w by omega), Bool.true_and]
    congr 1
    omega

theorem byte_setWidth (hj : 8 * (j + 1) ≤ v) : byte (x.setWidth v) j = byte x j := by
  rw [byte_eq_iff]
  intro b hb
  rw [BitVec.getLsbD_setWidth, decide_eq_true (by omega), Bool.true_and]

theorem byte_append {z : BitVec v} (hj : 8 * (j + 1) ≤ w) : byte (z ++ x) j = byte x j := by
  rw [byte_eq_iff]
  intro b hb
  rw [BitVec.getLsbD_append, if_pos (by omega)]

/-! ## Numbers -/

@[simp] theorem byte_toBitVec (c : UInt8) : byte c.toBitVec 0 = c := by
  rw [byte, Nat.mul_zero, BitVec.extractLsb'_eq_self]

theorem byte_ofNat (hj : 8 * (j + 1) ≤ w) :
    byte (BitVec.ofNat w n) j = UInt8.ofNat (n / 256 ^ j) := by
  rw [← byte_toBitVec (UInt8.ofNat (n / 256 ^ j)), byte_eq_iff]
  intro b hb
  have hpow : 256 ^ j = 2 ^ (8 * j) := (pow_mul 2 8 j).symm
  rw [BitVec.getLsbD_ofNat, decide_eq_true (by omega), Bool.true_and, hpow]
  change _ = (BitVec.ofNat 8 _).getLsbD _
  rw [BitVec.getLsbD_ofNat, Nat.mul_zero, Nat.zero_add, decide_eq_true hb, Bool.true_and,
    Nat.testBit_div_two_pow, Nat.add_comm]

theorem bytes_eq (k n : ℕ) : bytes k n = (List.range k).map fun j ↦ UInt8.ofNat (n / 256 ^ j) := by
  induction k generalizing n with
  | zero => rfl
  | succ k ih =>
      rw [bytes, ih, List.range_succ_eq_map, List.map_cons, List.map_map, pow_zero, Nat.div_one]
      congr 2
      funext j
      rw [Function.comp_apply, Nat.div_div_eq_div_mul, ← pow_succ']

/-- The bytes of a word are those of its number. -/
theorem bytes_toNat (hw : w = 8 * k) : bytes k x.toNat = (List.range k).map (byte x) := by
  rw [bytes_eq]
  apply List.map_congr_left
  intro j hj
  have hlt : j < k := List.mem_range.mp hj
  rw [← byte_ofNat (w := w) (by omega), BitVec.ofNat_toNat, BitVec.setWidth_eq]

theorem bytes_value (l : List UInt8) : bytes l.length (value l) = l := by
  induction l with
  | nil => rfl
  | cons c l ih =>
      have hc := c.toNat_lt
      unfold value at ih ⊢
      rw [List.length_cons, bytes, List.map_cons, Nat.ofDigits_cons, Nat.add_mul_div_left _ _
        (by omega), Nat.div_eq_of_lt hc, Nat.zero_add, ih]
      congr 1
      rw [← UInt8.toNat_inj, UInt8.toNat_ofNat']
      simp

theorem byte_value {l : List UInt8} (hw : 8 * l.length ≤ w) (hj : j < l.length) :
    byte (BitVec.ofNat w (value l)) j = l[j] := by
  have hget := congrArg (·[j]?) (bytes_value l)
  rw [byte_ofNat (by omega)]
  simpa [bytes_eq, hj] using hget

theorem ofNat_bytes (hw : w = 8 * k) : BitVec.ofNat w (value (bytes k x.toNat)) = x := by
  have hpow : 256 ^ k = 2 ^ w := by rw [hw, pow_mul]; rfl
  rw [value_bytes, hpow, Nat.mod_eq_of_lt x.isLt, BitVec.ofNat_toNat, BitVec.setWidth_eq]

theorem bytes_ofNat {l : List UInt8} (hw : w = 8 * l.length) :
    bytes l.length (BitVec.ofNat w (value l)).toNat = l := by
  rw [bytes_toNat hw]
  apply List.ext_getElem
  · simp
  · intro j _ hj
    rw [List.getElem_map, List.getElem_range, byte_value (by omega) hj]

/-! ## The other order -/

/-- The bytes of each `n` of them in the other order. -/
def rev (n : ℕ) (x : BitVec w) : BitVec w :=
  BitVec.ofNat w (value ((List.range (w / 8)).map fun j ↦ byte x (j / n * n + (n - 1 - j % n))))

theorem byte_rev (hj : 8 * (j + 1) ≤ w) :
    byte (rev n x) j = byte x (j / n * n + (n - 1 - j % n)) := by
  rw [rev, byte_value (by simp; omega) (by simp; omega)]
  simp

/-- Stored from the lowest byte on, a word in the other order is the word stored from the
highest byte on. -/
theorem bytes_rev (hw : w = 8 * k) : bytes k (rev k x).toNat = (bytes k x.toNat).reverse := by
  rw [bytes_toNat hw, bytes_toNat hw]
  apply List.ext_getElem
  · simp
  · intro j hj hj'
    have hlt : j < k := by simpa using hj
    simp only [List.getElem_map, List.getElem_range, List.getElem_reverse, List.length_map,
      List.length_range]
    rw [byte_rev (by omega), Nat.div_eq_of_lt hlt, Nat.mod_eq_of_lt hlt, Nat.zero_mul, Nat.zero_add]

theorem rev_ofNat {l : List UInt8} (hw : w = 8 * l.length) :
    rev l.length (BitVec.ofNat w (value l)) = BitVec.ofNat w (value l.reverse) := by
  rw [← ofNat_bytes (x := rev l.length (BitVec.ofNat w (value l))) hw, bytes_rev hw,
    bytes_ofNat hw]

end LittleEndian
