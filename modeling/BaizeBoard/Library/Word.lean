import BaizeBoard.Library.LittleEndian
import BaizeBoard.Library.Ram
import Mathlib.Data.Nat.Bitwise

/-!
# Words in byte memory

A word stands with its lowest byte first and at a multiple of its size: a load or
a store of a word anywhere else has no result.  A word that is one byte over and
over is made by doubling what is there, and fills memory as its bytes do.
-/

namespace LittleEndian

variable {k n : ℕ} {c : UInt8}

theorem bytes_eq_replicate_iff :
    bytes k n = List.replicate k c ↔ ∀ i < 8 * k, n.testBit i = c.toNat.testBit (i % 8) := by
  induction k generalizing n with
  | zero => simp [bytes]
  | succ k ih =>
      have hc : UInt8.ofNat n = c ↔ ∀ i < 8, n.testBit i = c.toNat.testBit i := by
        rw [← UInt8.toNat_inj, UInt8.toNat_ofNat']
        constructor
        · intro h i hi
          rw [← h, Nat.testBit_mod_two_pow, decide_eq_true hi, Bool.true_and]
        · intro h
          apply Nat.eq_of_testBit_eq
          intro i
          rw [Nat.testBit_mod_two_pow]
          by_cases hi : i < 8
          · rw [decide_eq_true hi, Bool.true_and, h i hi]
          · have hlt : c.toNat < 2 ^ i :=
              c.toNat_lt.trans_le (Nat.pow_le_pow_right (by omega) (by omega))
            rw [decide_eq_false hi, Bool.false_and, Nat.testBit_lt_two_pow hlt]
      rw [bytes, List.replicate_succ, List.cons.injEq, hc, ih]
      constructor
      · rintro ⟨hlow, hhigh⟩ i hi
        by_cases hi8 : i < 8
        · rw [hlow i hi8, Nat.mod_eq_of_lt hi8]
        · have hbit := hhigh (i - 8) (by omega)
          rw [show 256 = 2 ^ 8 from rfl, Nat.testBit_div_two_pow, Nat.add_comm,
            Nat.add_sub_cancel' (by omega)] at hbit
          rw [hbit]
          congr 1
          omega
      · intro h
        refine ⟨fun i hi ↦ ?_, fun i hi ↦ ?_⟩
        · rw [h i (by omega), Nat.mod_eq_of_lt hi]
        · rw [show 256 = 2 ^ 8 from rfl, Nat.testBit_div_two_pow, h (i + 8) (by omega),
            Nat.add_mod_right]

/-- A word that begins with `k` bytes `c`. -/
def Begins {w : ℕ} (k : ℕ) (c : UInt8) (x : BitVec w) : Prop :=
  bytes k x.toNat = List.replicate k c

variable {w : ℕ} {x : BitVec w}

theorem begins_iff :
    Begins k c x ↔ ∀ i < 8 * k, x.getLsbD i = c.toNat.testBit (i % 8) := bytes_eq_replicate_iff

theorem Begins.mono {j : ℕ} (h : Begins k c x) (hj : j ≤ k) : Begins j c x :=
  begins_iff.mpr fun i hi ↦ begins_iff.mp h i (by omega)

theorem Begins.setWidth {v : ℕ} (h : Begins k c x) (hk : 8 * k ≤ v) :
    Begins k c (x.setWidth v) := begins_iff.mpr fun i hi ↦ by
  rw [BitVec.getLsbD_setWidth, decide_eq_true (by omega), Bool.true_and, begins_iff.mp h i hi]

theorem begins_one : Begins 1 c x ↔ x.setWidth 8 = c.toBitVec := by
  rw [begins_iff, BitVec.eq_of_getLsbD_eq_iff]
  apply forall₂_congr
  intro i hi
  rw [BitVec.getLsbD_setWidth, Nat.mod_eq_of_lt (show i < 8 by omega),
    decide_eq_true (show i < 8 by omega), Bool.true_and]
  rfl

theorem begins_zero {j : ℕ} (h : Begins 1 c (0#w)) : Begins j c (0#w) :=
  begins_iff.mpr fun i _ ↦ by
    have hbit := begins_iff.mp h (i % 8) (by omega)
    rw [Nat.mod_mod, BitVec.getLsbD_zero] at hbit
    rw [BitVec.getLsbD_zero, hbit]

/-- Shifted beside itself, a word begins with twice as many bytes. -/
theorem Begins.double {y : BitVec w} (h : Begins k c x)
    (hlow : ∀ i < 8 * k, y.getLsbD i = x.getLsbD i)
    (hhigh : ∀ i < 8 * k, y.getLsbD (8 * k + i) = x.getLsbD i) : Begins (2 * k) c y := by
  rw [begins_iff] at h ⊢
  intro i hi
  by_cases hik : i < 8 * k
  · rw [hlow i hik, h i hik]
  · have hbit := hhigh (i - 8 * k) (by omega)
    rw [Nat.add_sub_cancel' (by omega)] at hbit
    rw [hbit, h _ (by omega)]
    congr 1
    omega

end LittleEndian

namespace Ram

open LittleEndian

variable {bits : ℕ}

/-- Stores the lowest `k` bytes of `v`. -/
def storeWord (m : Ram bits) (a k v : ℕ) : Option (Ram bits) :=
  if k ∣ a ∧ m.Mapped a k then some (m.write a (bytes k v)) else none

def loadBytes (m : Ram bits) (a : ℕ) : ℕ → Option (List UInt8)
  | 0 => some []
  | n + 1 => do
      let c ← m.load a
      let l ← loadBytes m (a + 1) n
      return c :: l

def loadWord (m : Ram bits) (a k : ℕ) : Option ℕ :=
  if k ∣ a then (m.loadBytes a k).map value else none

/-- The memory with `n` bytes `c` from `a` on. -/
def fill (m : Ram bits) (a n : ℕ) (c : UInt8) : Ram bits := m.write a (List.replicate n c)

variable {m : Ram bits} {a n k v : ℕ} {c : UInt8} {l : List UInt8}

theorem storeWord_eq (halign : k ∣ a) (h : m.Mapped a k) :
    m.storeWord a k v = some (m.write a (bytes k v)) := if_pos ⟨halign, h⟩

theorem Holds.loadBytes (h : m.Holds a l) : m.loadBytes a l.length = some l := by
  induction l generalizing a with
  | nil => rfl
  | cons c l ih =>
      simp only [List.length_cons, Ram.loadBytes, h.1, ih h.2, Option.bind_eq_bind,
        Option.bind_some]
      rfl

/-- What has been stored is loaded. -/
theorem Holds.loadWord (h : m.Holds a (bytes k v)) (halign : k ∣ a) :
    m.loadWord a k = some (v % 256 ^ k) := by
  have hbytes := h.loadBytes
  rw [length_bytes] at hbytes
  rw [Ram.loadWord, if_pos halign, hbytes, Option.map_some, value_bytes]

/-! ## 64-bit words in a row -/

def words (vs : List (BitVec 64)) : List UInt8 := vs.flatMap fun v ↦ bytes 8 v.toNat

theorem words_cons (x : BitVec 64) (vs : List (BitVec 64)) :
    words (x :: vs) = bytes 8 x.toNat ++ words vs := rfl

theorem words_append (vs ws : List (BitVec 64)) : words (vs ++ ws) = words vs ++ words ws :=
  List.flatMap_append

theorem length_words (vs : List (BitVec 64)) : (words vs).length = 8 * vs.length := by
  induction vs with
  | nil => rfl
  | cons x vs ih => rw [words_cons, List.length_append, length_bytes, ih, List.length_cons]; omega

theorem storeWord_words {vs : List (BitVec 64)} (halign : 8 ∣ a)
    (h : m.Mapped a (8 * (vs.length + 1))) (x : BitVec 64) :
    (m.write a (words vs)).storeWord (a + 8 * vs.length) 8 x.toNat =
      some (m.write a (words (vs ++ [x]))) := by
  rw [Nat.mul_succ] at h
  have hmapped : (m.write a (words vs)).Mapped (a + 8 * vs.length) 8 := mapped_write.mpr h.right
  rw [storeWord_eq (by omega) hmapped, words_append, ← length_words, write_append]
  simp [words]

theorem loadWord_words {vs : List (BitVec 64)} (h : m.Holds a (words vs)) (halign : 8 ∣ a) {i : ℕ}
    (hi : i < vs.length) : m.loadWord (a + 8 * i) 8 = some vs[i].toNat := by
  rw [← List.take_append_drop i vs, words_append, holds_append, length_words,
    List.length_take_of_le (by omega), List.drop_eq_getElem_cons hi, words_cons,
    holds_append] at h
  rw [h.2.1.loadWord (by omega), Nat.mod_eq_of_lt (show vs[i].toNat < 256 ^ 8 from vs[i].isLt)]

/-! ## Filling -/

@[simp] theorem fill_zero : m.fill a 0 c = m := write_nil

theorem mapped_fill {b j : ℕ} : (m.fill a n c).Mapped b j ↔ m.Mapped b j := mapped_write

theorem write_fill : (m.fill a n c).write (a + n) (List.replicate k c) = m.fill a (n + k) c := by
  have happend := write_append (m := m) (a := a) (l := List.replicate n c)
    (r := List.replicate k c)
  rwa [List.length_replicate, List.replicate_append_replicate] at happend

theorem store_fill (h : m.Mapped a (n + 1)) :
    (m.fill a n c).store (a + n) c = some (m.fill a (n + 1) c) := by
  rw [store_eq (by simpa [fill] using h n (Nat.lt_succ_self n))]
  exact congrArg some (write_fill (k := 1))

theorem storeWord_fill (hv : bytes k v = List.replicate k c) (halign : k ∣ a + n)
    (h : m.Mapped a (n + k)) :
    (m.fill a n c).storeWord (a + n) k v = some (m.fill a (n + k) c) := by
  rw [storeWord_eq halign (mapped_fill.mpr h.right), hv, write_fill]

end Ram
