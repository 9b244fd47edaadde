import BaizeBoard.Library.FirstDiff
import BaizeBoard.Library.Ram

/-!
# `strcmp`, `strncmp` and `memcmp`

The characters are compared as `char` and subtracted as `unsigned char`.  All three
give the difference at the first place where what they compare is not the same, and
so order strings, the first characters of strings, and blocks of bytes.
-/

namespace BaizeBoard

variable {bits : ℕ}

/-- `*(const unsigned char *)s1 - *(const unsigned char *)(s2 - 1)` -/
def charDiff (c d : UInt8) : ℤ := (c.toNat : ℤ) - d.toNat

def strcmp (m : Ram bits) (s1 s2 : ℕ) : Option ℤ :=
  match _ : m.load s1 with
  | none => none
  | some c =>
      match m.load s2 with
      | none => none
      | some d =>
          if c = d then
            if c = 0 then some 0 else strcmp m (s1 + 1) (s2 + 1)
          else some (charDiff c d)
termination_by 2 ^ bits - s1
decreasing_by exact Ram.left_lt ‹_›

def strncmp (m : Ram bits) (s1 s2 : ℕ) : ℕ → Option ℤ
  | 0 => some 0
  | n + 1 => do
      let c ← m.load s1
      let d ← m.load s2
      if c ≠ d then return charDiff c d
      if c = 0 then return 0
      strncmp m (s1 + 1) (s2 + 1) n

def memcmp (m : Ram bits) (s1 s2 : ℕ) : ℕ → Option ℤ
  | 0 => some 0
  | len + 1 => do
      let sc ← m.load s1
      let dc ← m.load s2
      if charDiff sc dc ≠ 0 then return charDiff sc dc
      memcmp m (s1 + 1) (s2 + 1) len

namespace Strcmp

open FirstDiff

variable {m : Ram bits} {s1 s2 n : ℕ} {t u : List UInt8} {c d : UInt8}

/-! ## The first difference -/

/-- What the functions return for the characters `t` and `u`. -/
abbrev diff (t u : List UInt8) : ℤ := firstDiff (fun c ↦ (c.toNat : ℤ)) 0 t u

theorem charDiff_eq_zero_iff : charDiff c d = 0 ↔ c = d := by
  rw [charDiff, ← UInt8.toNat_inj]
  omega

theorem toNat_injective : Function.Injective fun c : UInt8 ↦ (c.toNat : ℤ) := by
  intro c d h
  exact UInt8.toNat_inj.mp (Int.ofNat_inj.mp h)

theorem toNat_pos (c : UInt8) (hc : c ≠ 0) : ((0 : UInt8).toNat : ℤ) < c.toNat := by
  have hne : c.toNat ≠ (0 : UInt8).toNat := fun h ↦ hc (UInt8.toNat_inj.mp h)
  simpa [Nat.pos_iff_ne_zero] using hne

theorem diff_neg_iff (h : Comparable 0 t u) : diff t u < 0 ↔ t < u :=
  firstDiff_neg_iff (fun c d ↦ by simp [UInt8.lt_iff_toNat_lt]) toNat_pos h

theorem diff_eq_zero_iff (h : Comparable 0 t u) : diff t u = 0 ↔ t = u :=
  firstDiff_eq_zero_iff toNat_injective h

theorem diff_pos_iff (h : Comparable 0 t u) : 0 < diff t u ↔ u < t := by
  rw [← diff_neg_iff h.symm, diff, diff, firstDiff_swap (l := t)]
  omega

/-! ## The functions -/

theorem strcmp_of_load (hc : m.load s1 = some c) (hd : m.load s2 = some d) :
    strcmp m s1 s2 =
      if c = d then if c = 0 then some 0 else strcmp m (s1 + 1) (s2 + 1)
      else some (charDiff c d) := by
  rw [strcmp]
  exact (Ram.match_load hc _ _).trans (by rw [hd])

theorem strcmp_eq (ht : m.Str s1 t) (hu : m.Str s2 u) : strcmp m s1 s2 = some (diff t u) := by
  induction t generalizing s1 s2 u with
  | nil =>
      rw [strcmp_of_load ht.load hu.load]
      cases u with
      | nil => simp [diff, firstDiff]
      | cons d u => simp [hu.head_ne.symm, charDiff, diff, firstDiff]
  | cons c t ih =>
      rw [strcmp_of_load ht.load hu.load]
      cases u with
      | nil => simp [ht.head_ne, charDiff, diff, firstDiff]
      | cons d u =>
          by_cases hcd : c = d
          · simp [hcd, hu.head_ne, ih ht.tail hu.tail, diff, firstDiff_cons_self]
          · simp [hcd, charDiff, diff, firstDiff_cons_of_ne]

theorem strncmp_eq (ht : m.Field s1 n t) (hu : m.Field s2 n u) :
    strncmp m s1 s2 n = some (diff t u) := by
  induction n generalizing s1 s2 t u with
  | zero => simp [Ram.field_zero.mp ht, Ram.field_zero.mp hu, strncmp, diff, firstDiff]
  | succ n ih =>
      rw [strncmp, ht.load, hu.load]
      cases t with
      | nil =>
          cases u with
          | nil => simp [diff, firstDiff]
          | cons d u => simp [hu.2.1.symm, charDiff, diff, firstDiff]
      | cons c t =>
          cases u with
          | nil => simp [ht.2.1, charDiff, diff, firstDiff]
          | cons d u =>
              by_cases hcd : c = d
              · simp [hcd, hu.2.1, ih ht.tail hu.tail, diff, firstDiff_cons_self]
              · simp [hcd, charDiff, diff, firstDiff_cons_of_ne]

theorem memcmp_eq (ht : m.Holds s1 t) (hu : m.Holds s2 u) (h : t.length = u.length) :
    memcmp m s1 s2 t.length = some (diff t u) := by
  induction t generalizing s1 s2 u with
  | nil => simp [List.length_eq_zero_iff.mp h.symm, memcmp, diff, firstDiff]
  | cons c t ih =>
      cases u with
      | nil => cases h
      | cons d u =>
          rw [List.length_cons, memcmp, ht.1, hu.1]
          by_cases hcd : c = d
          · have hzero : charDiff d d = 0 := charDiff_eq_zero_iff.mpr rfl
            simp [hcd, hzero, ih ht.2 hu.2 (Nat.succ.inj h), diff, firstDiff_cons_self]
          · have hne : charDiff c d ≠ 0 := fun h ↦ hcd (charDiff_eq_zero_iff.mp h)
            have hdiff : diff (c :: t) (d :: u) = charDiff c d := firstDiff_cons_of_ne hcd
            simp [hne, hdiff]

/-- A string and its NUL, or less of it. -/
theorem holds_take (h : m.Str s1 t) (k : ℕ) : m.Holds s1 ((t ++ [0]).take k) := by
  have hsplit := h.1
  rw [← List.take_append_drop k (t ++ [0])] at hsplit
  exact (Ram.holds_append.mp hsplit).1

theorem memcmp_str (ht : m.Str s1 t) (hu : m.Str s2 u) :
    memcmp m s1 s2 (min t.length u.length + 1) = some (diff t u) := by
  have hmin := Nat.lt_succ_self (min t.length u.length)
  have hle : min t.length u.length + 1 ≤ (t ++ [0]).length := by
    rw [List.length_append]
    exact Nat.succ_le_succ (Nat.min_le_left _ _)
  have hcmp := memcmp_eq (holds_take ht (min t.length u.length + 1))
    (holds_take hu (min t.length u.length + 1)) (by simp)
  rwa [diff, firstDiff_take_append ht.2 hu.2 hmin, List.length_take_of_le hle] at hcmp

end Strcmp

open Strcmp

/-- `strncmp` orders the strings that the first `n` characters at its pointers show, each up
to its NUL, as lists of `unsigned char`; nothing behind a NUL need be there. -/
theorem strncmp_orders (m : Ram bits) (s1 s2 n : ℕ) (t u : List UInt8) (ht : m.Field s1 n t)
    (hu : m.Field s2 n u) :
    ∃ res, strncmp m s1 s2 n = some res ∧ (res < 0 ↔ t < u) ∧ (res = 0 ↔ t = u) ∧
      (0 < res ↔ u < t) := by
  have h : FirstDiff.Comparable 0 t u := .inr ⟨ht.nul_not_mem, hu.nul_not_mem⟩
  exact ⟨diff t u, strncmp_eq ht hu, diff_neg_iff h, diff_eq_zero_iff h, diff_pos_iff h⟩

/-- Three characters of `"abX"`, where no NUL follows, and the `"ab"` before it. -/
theorem strncmp_orders_example :
    let m := Ram.image 64 0x100 [0x61, 0x62, 0, 0x61, 0x62, 0x58]
    let t : List UInt8 := [0x61, 0x62]
    let u : List UInt8 := [0x61, 0x62, 0x58]
    ∃ res, strncmp m 0x100 0x103 3 = some res ∧ (res < 0 ↔ t < u) ∧ (res = 0 ↔ t = u) ∧
      (0 < res ↔ u < t) :=
  strncmp_orders _ 0x100 0x103 3 _ _ (by decide) (by decide)

/-- `memcmp` orders blocks of bytes. -/
theorem memcmp_orders (m : Ram bits) (s1 s2 : ℕ) (t u : List UInt8) (ht : m.Holds s1 t)
    (hu : m.Holds s2 u) (h : t.length = u.length) :
    ∃ res, memcmp m s1 s2 t.length = some res ∧ (res < 0 ↔ t < u) ∧ (res = 0 ↔ t = u) ∧
      (0 < res ↔ u < t) :=
  ⟨diff t u, memcmp_eq ht hu h, diff_neg_iff (.inl h), diff_eq_zero_iff (.inl h),
    diff_pos_iff (.inl h)⟩

/-- `strcmp` orders strings.  It returns what `strncmp` does for any count beyond the shorter
string, and what `memcmp` does for the shorter string with its NUL. -/
theorem strcmp_agrees (m : Ram bits) (s1 s2 : ℕ) (t u : List UInt8) (ht : m.Str s1 t)
    (hu : m.Str s2 u) :
    ∃ res, strcmp m s1 s2 = some res ∧ (res < 0 ↔ t < u) ∧ (res = 0 ↔ t = u) ∧
      (0 < res ↔ u < t) ∧ (∀ n, min t.length u.length < n → strncmp m s1 s2 n = some res) ∧
      memcmp m s1 s2 (min t.length u.length + 1) = some res := by
  have h : FirstDiff.Comparable 0 t u := .inr ⟨ht.2, hu.2⟩
  refine ⟨diff t u, strcmp_eq ht hu, diff_neg_iff h, diff_eq_zero_iff h, diff_pos_iff h, ?_,
    memcmp_str ht hu⟩
  intro n hn
  rw [strncmp_eq ht.field hu.field, diff, FirstDiff.firstDiff_take hn]

/-- `"a"` and a string whose second character is negative as a `char`. -/
theorem strcmp_agrees_example :
    let m := Ram.image 64 0x100 [0x61, 0, 0x61, 0xff, 0]
    let t : List UInt8 := [0x61]
    let u : List UInt8 := [0x61, 0xff]
    ∃ res, strcmp m 0x100 0x102 = some res ∧ (res < 0 ↔ t < u) ∧ (res = 0 ↔ t = u) ∧
      (0 < res ↔ u < t) ∧ (∀ n, min t.length u.length < n → strncmp m 0x100 0x102 n = some res) ∧
      memcmp m 0x100 0x102 (min t.length u.length + 1) = some res :=
  strcmp_agrees _ 0x100 0x102 _ _ (by decide) (by decide)

end BaizeBoard
