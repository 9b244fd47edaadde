import BaizeBoard.Library.Word

/-!
# `memset` in C

Bytes up to a 64-bit boundary, then 64-bit words that hold the fill byte eight
times, then bytes.
-/

namespace BaizeBoard

variable {bits : ℕ}

namespace Memset

/-- The loop up to a 64-bit boundary; where the function returns in it, no count is left. -/
def first (m : Ram bits) (ptr : ℕ) (val : UInt8) : ℕ → Option (Ram bits × ℕ × ℕ)
  | 0 => some (m, ptr, 0)
  | count + 1 =>
      if ptr &&& 7 ≠ 0 then do
        let m ← m.store ptr val
        first m (ptr + 1) val count
      else some (m, ptr, count + 1)

/-- `for (; count >= 8U; count -= 8)` -/
def words (m : Ram bits) (ptr64 : ℕ) (fill : BitVec 64) (count : ℕ) :
    Option (Ram bits × ℕ × ℕ) :=
  if 8 ≤ count then do
    let m ← m.storeWord ptr64 8 fill.toNat
    words m (ptr64 + 8) fill (count - 8)
  else some (m, ptr64, count)

/-- `while (count-- > 0U)` -/
def remaining (m : Ram bits) (ptr : ℕ) (val : UInt8) : ℕ → Option (Ram bits)
  | 0 => some m
  | count + 1 => do
      let m ← m.store ptr val
      remaining m (ptr + 1) val count

/-- The three lines below "Duplicate the fill byte". -/
def duplicate (fill : BitVec 64) : BitVec 64 :=
  let fill := fill ||| fill <<< 8
  let fill := fill ||| fill <<< 16
  fill ||| fill <<< 32

end Memset

def memset (m : Ram bits) (dst : ℕ) (val : BitVec 32) (count : ℕ) : Option (Ram bits × ℕ) := do
  if count = 0 then return (m, dst)
  let (m, ptr, count) ← Memset.first m dst (Ram.lowByte val) count
  if count = 0 then return (m, dst)
  let fill := Memset.duplicate ((val.setWidth 8).setWidth 64)
  let (m, ptr, count) ← Memset.words m ptr fill count
  let m ← Memset.remaining m ptr (Ram.lowByte val) count
  return (m, dst)

namespace Memset

open LittleEndian

/-! ## The loops -/

variable {m : Ram bits} {dst n count : ℕ} {c : UInt8}

theorem first_eq (h : m.Mapped dst (n + count)) :
    ∃ k ≤ count, (k = count ∨ 8 ∣ dst + (n + k)) ∧
      first (m.fill dst n c) (dst + n) c count =
        some (m.fill dst (n + k) c, dst + (n + k), count - k) := by
  induction count generalizing n with
  | zero => exact ⟨0, le_refl 0, .inl rfl, rfl⟩
  | succ count ih =>
      have hmod : dst + n &&& 7 = (dst + n) % 8 := Nat.and_two_pow_sub_one_eq_mod (dst + n) 3
      by_cases haligned : (dst + n) % 8 = 0
      · refine ⟨0, Nat.zero_le _, .inr (Nat.dvd_of_mod_eq_zero haligned), ?_⟩
        rw [first, if_neg (by omega)]
        rfl
      · obtain ⟨k, hk, hend, hrun⟩ := ih (n := n + 1) (by rwa [Nat.add_assoc, Nat.add_comm 1])
        rw [Nat.add_right_comm n 1 k, Nat.add_assoc n k 1] at hend hrun
        refine ⟨k + 1, Nat.succ_le_succ hk, hend.imp_left (congrArg Nat.succ), ?_⟩
        rw [first, if_pos (by omega), Ram.store_fill (h.mono (by omega)), Option.bind_eq_bind,
          Option.bind_some, Nat.add_assoc, hrun, Nat.add_sub_add_right]

theorem words_eq {fill : BitVec 64} (hfill : Begins 8 c fill) (halign : 8 ∣ dst + n)
    (h : m.Mapped dst (n + count)) :
    words (m.fill dst n c) (dst + n) fill count =
      some (m.fill dst (n + count / 8 * 8) c, dst + (n + count / 8 * 8), count % 8) := by
  induction hq : count / 8 generalizing n count with
  | zero =>
      rw [words, if_neg (by omega), Nat.zero_mul, Nat.mod_eq_of_lt (by omega)]
      rfl
  | succ q ih =>
      have hcount : n + 8 + (count - 8) = n + count := by omega
      have hmapped : m.Mapped dst (n + 8 + (count - 8)) := by rwa [hcount]
      have hrest := ih (by omega) hmapped (by omega)
      have hstored : n + 8 + q * 8 = n + (q + 1) * 8 := by omega
      have hleft : (count - 8) % 8 = count % 8 := by omega
      rw [words, if_pos (by omega), Ram.storeWord_fill hfill halign (h.mono (by omega)),
        Option.bind_eq_bind, Option.bind_some, Nat.add_assoc, hrest, hstored, hleft]

theorem remaining_eq (h : m.Mapped dst (n + count)) :
    remaining (m.fill dst n c) (dst + n) c count = some (m.fill dst (n + count) c) := by
  induction count generalizing n with
  | zero => rfl
  | succ count ih =>
      rw [remaining, Ram.store_fill (h.mono (by omega)), Option.bind_eq_bind, Option.bind_some,
        Nat.add_assoc, ih (by rwa [Nat.add_assoc, Nat.add_comm 1]), Nat.add_assoc,
        Nat.add_comm 1]

/-! ## The fill word -/

/-- Doubling by a shift, where nothing else stands in the word. -/
theorem begins_or_shiftLeft {k : ℕ} {x : BitVec 64} (h : Begins k c x)
    (hzero : ∀ i, 8 * k ≤ i → x.getLsbD i = false) (hk : 8 * (2 * k) ≤ 64) :
    Begins (2 * k) c (x ||| x <<< (8 * k)) ∧
      ∀ i, 8 * (2 * k) ≤ i → (x ||| x <<< (8 * k)).getLsbD i = false := by
  refine ⟨h.double (fun i hi ↦ ?_) (fun i hi ↦ ?_), fun i hi ↦ ?_⟩
  · simp [hi]
  · rw [BitVec.getLsbD_or, hzero _ (by omega), BitVec.getLsbD_shiftLeft,
      decide_eq_true (show 8 * k + i < 64 by omega), decide_eq_false (by omega),
      Nat.add_sub_cancel_left]
    rfl
  · rw [BitVec.getLsbD_or, hzero _ (by omega), BitVec.getLsbD_shiftLeft, hzero _ (by omega),
      Bool.and_false, Bool.or_false]

theorem begins_duplicate (val : BitVec 32) :
    Begins 8 (Ram.lowByte val) (duplicate ((val.setWidth 8).setWidth 64)) := by
  have h1 : Begins 1 (Ram.lowByte val) ((val.setWidth 8).setWidth 64) := by
    rw [begins_one, BitVec.setWidth_setWidth_of_le _ (by omega), BitVec.setWidth_eq]
    rfl
  have hzero : ∀ i, 8 * 1 ≤ i → ((val.setWidth 8).setWidth 64).getLsbD i = false := by
    intro i hi
    rw [BitVec.getLsbD_setWidth, BitVec.getLsbD_of_ge _ _ hi, Bool.and_false]
  obtain ⟨h2, hzero2⟩ := begins_or_shiftLeft h1 hzero (by omega)
  obtain ⟨h4, hzero4⟩ := begins_or_shiftLeft h2 hzero2 (by omega)
  exact (begins_or_shiftLeft h4 hzero4 (by omega)).1

/-- What `memset` does wherever it may store. -/
theorem memset_eq {val : BitVec 32} (h : m.Mapped dst count) :
    memset m dst val count = some (m.fill dst count (Ram.lowByte val), dst) := by
  rw [← Nat.zero_add count] at h
  obtain ⟨k, hk, hend, hfirst⟩ := first_eq (c := Ram.lowByte val) h
  rw [Ram.fill_zero, Nat.add_zero, Nat.zero_add] at hfirst
  by_cases hcount : count = 0
  · subst hcount
    rw [Ram.fill_zero]
    rfl
  by_cases hleft : count - k = 0
  · obtain rfl : k = count := by omega
    simp only [memset, hcount, hfirst, hleft, if_false, if_true, Option.bind_eq_bind,
      Option.bind_some]
    rfl
  · have hwhole : k + (count - k) / 8 * 8 + (count - k) % 8 = count := by omega
    have hsplit : 0 + count = k + (count - k) := by omega
    have hmapped : m.Mapped dst (k + (count - k) / 8 * 8 + (count - k) % 8) := by
      rwa [hwhole, ← Nat.zero_add count]
    rw [hsplit] at h
    have halign := hend.resolve_left (by omega)
    rw [Nat.zero_add] at halign
    have hwords := words_eq (begins_duplicate val) (n := k) halign h
    have htail := remaining_eq (c := Ram.lowByte val) hmapped
    rw [hwhole] at htail
    simp only [memset, hcount, hfirst, hleft, hwords, htail, if_false, Option.bind_eq_bind,
      Option.bind_some]
    rfl

end Memset

/-- Where `count` bytes can be stored, `memset` sets them, whatever the alignment of
`dst`, and nothing else. -/
theorem memset_fills (m : Ram bits) (dst : ℕ) (val : BitVec 32) (count : ℕ)
    (h : m.Mapped dst count) :
    ∃ m', memset m dst val count = some (m', dst) ∧
      (∀ i < count, m'.load (dst + i) = some (Ram.lowByte val)) ∧
      ∀ a, a < dst ∨ dst + count ≤ a → m'.load a = m.load a := by
  refine ⟨_, Memset.memset_eq h, fun i hi ↦ ?_, fun a ha ↦ ?_⟩
  · rw [Ram.fill, Ram.load_write (by rwa [List.length_replicate])
      (by rwa [List.length_replicate]), List.getElem?_replicate_of_lt hi]
  · rcases ha with ha | ha
    · exact Ram.load_write_of_lt ha
    · exact Ram.load_write_of_ge (by rwa [List.length_replicate])

/-- `memset((void *)0x105, 0x1ab, 21)` -/
theorem memset_fills_example :
    let m := Ram.image 64 0x100 (List.replicate 32 0)
    ∃ m', memset m 0x105 0x1ab 21 = some (m', 0x105) ∧
      (∀ i < 21, m'.load (0x105 + i) = some (Ram.lowByte 0x1ab#32)) ∧
      ∀ a, a < 0x105 ∨ 0x105 + 21 ≤ a → m'.load a = m.load a :=
  memset_fills _ _ _ _ (by decide)

end BaizeBoard
