import BaizeBoard.Library.Ram

/-!
# `memcpy` and `memmove`

`memcpy` copies upwards, so where the destination begins inside the source it
copies bytes that it has stored itself.  `memmove` tells the cases apart by one
comparison modulo the size of the address space.
-/

namespace BaizeBoard

variable {bits : ℕ}

namespace Memmove

/-- `while (len--) *d++ = *s++;` -/
def forwards (m : Ram bits) (d s : ℕ) : ℕ → Option (Ram bits)
  | 0 => some m
  | len + 1 => do
      let c ← m.load s
      let m ← m.store d c
      forwards m (d + 1) (s + 1) len

/-- `while (d != end) *--d = *--s;`, when `d` is `n` bytes behind `end`. -/
def backwards (m : Ram bits) (dst src : ℕ) : ℕ → Option (Ram bits)
  | 0 => some m
  | n + 1 => do
      let c ← m.load (src + n)
      let m ← m.store (dst + n) c
      backwards m dst src n

end Memmove

def memcpy (m : Ram bits) (dst src len : ℕ) : Option (Ram bits × ℕ) := do
  let m ← Memmove.forwards m dst src len
  return (m, dst)

/-- `(size_t)dst - (size_t)src` -/
def sizeSub (bits dst src : ℕ) : ℕ := (dst + (2 ^ bits - src)) % 2 ^ bits

def memmove (m : Ram bits) (dst src len : ℕ) : Option (Ram bits × ℕ) := do
  if len ≤ sizeSub bits dst src then memcpy m dst src len
  else
    let m ← Memmove.backwards m dst src len
    return (m, dst)

namespace Memmove

/-! ## Upwards -/

/-- The bytes `l` with the first `k` of them over and over; `k = 0` stands for no repetition. -/
def smear (k : ℕ) (l : List UInt8) : List UInt8 :=
  (List.range l.length).map fun i ↦ l.getD (i % k) 0

variable {m : Ram bits} {dst src k n : ℕ} {l : List UInt8}

@[simp] theorem length_smear : (smear k l).length = l.length := by simp [smear]

theorem getElem_smear {i : ℕ} (hi : i < l.length) :
    (smear k l)[i]? = l[i % k]? := by
  have hmod : i % k < l.length := Nat.lt_of_le_of_lt (Nat.mod_le i k) hi
  rw [smear, List.getElem?_map, List.getElem?_range hi, Option.map_some,
    List.getD_eq_getElem?_getD, List.getElem?_eq_getElem hmod, Option.getD_some]

theorem smear_eq_self_iff :
    smear k l = l ↔ ∀ i, i + k < l.length → l[i + k]? = l[i]? := by
  constructor
  · intro h i hi
    have hget : ∀ j < l.length, l[j]? = l[j % k]? := fun j hj ↦ by
      rw [← getElem_smear hj, h]
    rw [hget (i + k) hi, hget i (by omega), Nat.add_mod_right]
  · intro h
    have hget : ∀ i < l.length, l[i % k]? = l[i]? := by
      intro i hi
      induction i using Nat.strongRecOn with
      | _ i ih =>
          by_cases hik : i < k ∨ k = 0
          · rcases hik with hlt | rfl
            · rw [Nat.mod_eq_of_lt hlt]
            · rw [Nat.mod_zero]
          · rw [Nat.mod_eq_sub_mod (by omega), ih (i - k) (by omega) (by omega),
              ← h (i - k) (by omega), Nat.sub_add_cancel (by omega)]
    apply List.ext_getElem?
    intro i
    by_cases hi : i < l.length
    · rw [getElem_smear hi, hget i hi]
    · rw [List.getElem?_eq_none (by simpa using hi), List.getElem?_eq_none (by simpa using hi)]

/-- What stands at the source when `i` bytes have been copied. -/
theorem load_smear (h : m.Holds src l) (hdst : m.Mapped dst l.length) {i : ℕ} (hi : i < l.length) :
    (m.write dst ((smear (dst - src) l).take i)).load (src + i) = (smear (dst - src) l)[i]? := by
  have hlength : ((smear (dst - src) l).take i).length = i := by
    rw [List.length_take_of_le]
    rw [length_smear]
    omega
  rw [getElem_smear hi]
  by_cases hstored : dst ≤ src + i ∧ src < dst
  · obtain ⟨j, hj⟩ := Nat.exists_eq_add_of_le hstored.1
    have hjlt : j < ((smear (dst - src) l).take i).length := by omega
    have hij : i = j + (dst - src) := by omega
    rw [hj, Ram.load_write (by rw [hlength]; exact hdst.mono (by omega)) hjlt,
      List.getElem?_take_of_lt (by omega), getElem_smear (by omega), hij, Nat.add_mod_right]
  · have hsame : (m.write dst ((smear (dst - src) l).take i)).load (src + i) =
        m.load (src + i) := by
      by_cases hbelow : src + i < dst
      · exact Ram.load_write_of_lt hbelow
      · exact Ram.load_write_of_ge (by omega)
    rw [hsame, Ram.holds_iff.mp h i hi]
    by_cases hik : i < dst - src
    · rw [Nat.mod_eq_of_lt hik]
    · have hbelow : dst - src = 0 := by omega
      rw [hbelow, Nat.mod_zero]

theorem forwards_eq (h : m.Holds src l) (hdst : m.Mapped dst l.length) (hn : k + n = l.length) :
    forwards (m.write dst ((smear (dst - src) l).take k)) (dst + k) (src + k) n =
      some (m.write dst (smear (dst - src) l)) := by
  induction n generalizing k with
  | zero =>
      rw [forwards, List.take_of_length_le (by rw [length_smear]; omega)]
  | succ n ih =>
      have hk : k < (smear (dst - src) l).length := by
        rw [length_smear]
        omega
      have hlength : ((smear (dst - src) l).take k).length = k :=
        List.length_take_of_le (Nat.le_of_lt hk)
      have hkl : k < l.length := by omega
      have hload := load_smear h hdst hkl
      rw [List.getElem?_eq_getElem hk] at hload
      have hstore := Ram.store_eq (m := m.write dst ((smear (dst - src) l).take k)) (a := dst + k)
        (by rw [Ram.isSome_load_write]; exact hdst k (by omega)) (smear (dst - src) l)[k]
      have hwrite : (m.write dst ((smear (dst - src) l).take k)).write (dst + k)
          [(smear (dst - src) l)[k]] = m.write dst ((smear (dst - src) l).take (k + 1)) := by
        have happend := Ram.write_append (m := m) (a := dst) (l := (smear (dst - src) l).take k)
          (r := [(smear (dst - src) l)[k]])
        rwa [hlength, List.take_append_getElem] at happend
      simp only [forwards, hload, hstore, hwrite, Option.bind_eq_bind, Option.bind_some]
      exact ih (by omega)

theorem memcpy_eq (h : m.Holds src l) (hdst : m.Mapped dst l.length) :
    memcpy m dst src l.length = some (m.write dst (smear (dst - src) l), dst) := by
  have hrun := forwards_eq h hdst (Nat.zero_add l.length)
  rw [List.take_zero, Ram.write_nil] at hrun
  rw [memcpy]
  simp only [Nat.add_zero] at hrun
  rw [hrun]
  rfl

/-! ## Downwards -/

theorem backwards_eq (h : m.Holds src l) (hdst : m.Mapped dst l.length) (hle : src ≤ dst)
    (hn : n ≤ l.length) :
    backwards (m.write (dst + n) (l.drop n)) dst src n = some (m.write dst l) := by
  induction n with
  | zero => rfl
  | succ n ih =>
      have hload : (m.write (dst + (n + 1)) (l.drop (n + 1))).load (src + n) = some l[n] := by
        rw [Ram.load_write_of_lt (by omega)]
        exact h.get hn
      have hstore := Ram.store_eq (m := m.write (dst + (n + 1)) (l.drop (n + 1))) (a := dst + n)
        (by rw [Ram.isSome_load_write]; exact hdst n hn) l[n]
      have hwrite : (m.write (dst + (n + 1)) (l.drop (n + 1))).write (dst + n) [l[n]] =
          m.write (dst + n) (l.drop n) := by
        rw [Ram.write_comm (.inr (by rw [List.length_singleton]; omega)), ← Nat.add_assoc,
          Ram.write_cons, ← List.drop_eq_getElem_cons]
      simp only [backwards, hload, hstore, hwrite, Option.bind_eq_bind, Option.bind_some]
      exact ih (by omega)

/-- The source ends inside the address space, so a destination below it is never
taken for one inside it. -/
theorem le_sizeSub_iff (hsrc : src + n ≤ 2 ^ bits) (hdst : dst < 2 ^ bits) (hn : 0 < n) :
    n ≤ sizeSub bits dst src ↔ dst < src ∨ src + n ≤ dst := by
  unfold sizeSub
  rcases Nat.lt_or_ge dst src with hlt | hge
  · rw [Nat.mod_eq_of_lt (by omega)]
    omega
  · have hwrap : dst + (2 ^ bits - src) = dst - src + 2 ^ bits := by omega
    rw [hwrap, Nat.add_mod_right, Nat.mod_eq_of_lt (by omega)]
    omega

/-- `memcpy` is called unless the destination begins inside the source. -/
theorem le_sizeSub_iff_not_inside (hsrc : m.Mapped src n) (hdst : m.Mapped dst n) :
    n ≤ sizeSub bits dst src ↔ ¬ (src ≤ dst ∧ dst < src + n) := by
  rcases Nat.eq_zero_or_pos n with rfl | hpos
  · exact iff_of_true (Nat.zero_le _) (by omega)
  · have hlast := hsrc.lt (Nat.sub_one_lt_of_lt hpos)
    have hlt : dst < 2 ^ bits := hdst.lt hpos
    rw [le_sizeSub_iff (by omega) hlt hpos]
    omega

theorem memmove_eq (h : m.Holds src l) (hdst : m.Mapped dst l.length) :
    memmove m dst src l.length = some (m.write dst l, dst) := by
  have hiff := le_sizeSub_iff_not_inside h.mapped hdst
  by_cases hcopy : l.length ≤ sizeSub bits dst src
  · have hsmear : smear (dst - src) l = l := by
      have houtside := hiff.mp hcopy
      apply smear_eq_self_iff.mpr
      intro i hi
      have hbelow : dst - src = 0 := by omega
      rw [hbelow, Nat.add_zero]
    rw [memmove, if_pos hcopy, memcpy_eq h hdst, hsmear]
  · have hinside := mt hiff.mpr hcopy
    have hle : src ≤ dst := by omega
    have hrun := backwards_eq h hdst hle (Nat.le_refl l.length)
    rw [List.drop_length, Ram.write_nil] at hrun
    rw [memmove, if_neg hcopy, hrun]
    rfl

end Memmove

/-- However the two regions overlap, `memmove` puts the source as it was before the call
at the destination, and stores nowhere else; it calls `memcpy` unless the destination
begins inside the source. -/
theorem memmove_moves (m : Ram bits) (dst src len : ℕ) (hsrc : m.Mapped src len)
    (hdst : m.Mapped dst len) :
    (∃ m', memmove m dst src len = some (m', dst) ∧
      (∀ i < len, m'.load (dst + i) = m.load (src + i)) ∧
      ∀ a, a < dst ∨ dst + len ≤ a → m'.load a = m.load a) ∧
    (len ≤ sizeSub bits dst src ↔ ¬ (src ≤ dst ∧ dst < src + len)) := by
  refine ⟨?_, Memmove.le_sizeSub_iff_not_inside hsrc hdst⟩
  obtain ⟨l, rfl, hl⟩ := Ram.exists_holds hsrc
  refine ⟨_, Memmove.memmove_eq hl hdst, fun i hi ↦ ?_, fun a ha ↦ ?_⟩
  · rw [Ram.load_write hdst hi, Ram.holds_iff.mp hl i hi]
  · rcases ha with ha | ha
    · exact Ram.load_write_of_lt ha
    · exact Ram.load_write_of_ge ha

/-- Three bytes moved up by one. -/
theorem memmove_moves_example :
    let m := Ram.image 32 0x100 [1, 2, 3, 4]
    (∃ m', memmove m 0x101 0x100 3 = some (m', 0x101) ∧
      (∀ i < 3, m'.load (0x101 + i) = m.load (0x100 + i)) ∧
      ∀ a, a < 0x101 ∨ 0x101 + 3 ≤ a → m'.load a = m.load a) ∧
    (3 ≤ sizeSub 32 0x101 0x100 ↔ ¬ (0x100 ≤ 0x101 ∧ 0x101 < 0x100 + 3)) :=
  memmove_moves _ _ _ _ (by decide) (by decide)

/-- `memcpy` does what `memmove` does exactly where the source repeats itself at the
distance by which the destination is above it; that is so for regions apart from each
other and for a destination below the source. -/
theorem memcpy_eq_memmove_iff (m : Ram bits) (dst src len : ℕ) (hsrc : m.Mapped src len)
    (hdst : m.Mapped dst len) :
    memcpy m dst src len = memmove m dst src len ↔
      ∀ i, i + (dst - src) < len → m.load (src + (i + (dst - src))) = m.load (src + i) := by
  obtain ⟨l, rfl, hl⟩ := Ram.exists_holds hsrc
  have hload : ∀ i < l.length, m.load (src + i) = l[i]? := Ram.holds_iff.mp hl
  have hsmear : memcpy m dst src l.length = memmove m dst src l.length ↔
      Memmove.smear (dst - src) l = l := by
    rw [Memmove.memcpy_eq hl hdst, Memmove.memmove_eq hl hdst]
    constructor
    · intro h
      have hwrite : m.write dst (Memmove.smear (dst - src) l) = m.write dst l := by
        injection h with h
        exact congrArg Prod.fst h
      have hholds : (m.write dst l).Holds dst (Memmove.smear (dst - src) l) :=
        hwrite ▸ Ram.holds_write (by rwa [Memmove.length_smear])
      exact hholds.eq (Ram.holds_write hdst) Memmove.length_smear
    · intro h
      rw [h]
  rw [hsmear, Memmove.smear_eq_self_iff]
  constructor
  · intro h i hi
    rw [hload _ hi, hload i (by omega), h i hi]
  · intro h i hi
    rw [← hload _ hi, ← hload i (by omega), h i hi]

/-- Three different bytes, the destination one above the source. -/
theorem memcpy_eq_memmove_iff_example :
    let m := Ram.image 32 0x100 [1, 2, 3, 4]
    memcpy m 0x101 0x100 3 = memmove m 0x101 0x100 3 ↔
      ∀ i, i + (0x101 - 0x100) < 3 →
        m.load (0x100 + (i + (0x101 - 0x100))) = m.load (0x100 + i) :=
  memcpy_eq_memmove_iff _ _ _ _ (by decide) (by decide)

end BaizeBoard
