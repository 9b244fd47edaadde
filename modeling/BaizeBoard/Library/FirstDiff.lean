import Mathlib.Data.Int.Notation
import Mathlib.Data.List.Basic

/-!
# Comparing lists by their first difference

Two lists are compared at the first place where they differ, by the difference
of the numbers there; a list that has ended there counts as having `z`.  Between
lists of one length, or without `z`, the sign tells the lexicographic order.
-/

namespace FirstDiff

variable {α : Type*}

def firstDiff [DecidableEq α] (f : α → ℤ) (z : α) : List α → List α → ℤ
  | [], [] => 0
  | [], d :: _ => f z - f d
  | c :: _, [] => f c - f z
  | c :: l, d :: r => if c = d then firstDiff f z l r else f c - f d

/-- No `z` in the lists can be taken for an end. -/
def Comparable (z : α) (l r : List α) : Prop := l.length = r.length ∨ z ∉ l ∧ z ∉ r

variable {f : α → ℤ} {z c d : α} {l r : List α}

theorem Comparable.symm (h : Comparable z l r) : Comparable z r l :=
  h.imp Eq.symm And.symm

theorem Comparable.tail (h : Comparable z (c :: l) (d :: r)) : Comparable z l r := by
  rcases h with h | ⟨hl, hr⟩
  · exact .inl (by simpa using h)
  · exact .inr ⟨fun hz ↦ hl (List.mem_cons_of_mem c hz), fun hz ↦ hr (List.mem_cons_of_mem d hz)⟩

theorem Comparable.ne_of_nil (h : Comparable z [] (d :: r)) : d ≠ z := by
  rintro rfl
  simp [Comparable] at h

variable [DecidableEq α]

theorem firstDiff_cons_of_ne (h : c ≠ d) : firstDiff f z (c :: l) (d :: r) = f c - f d := if_neg h

theorem firstDiff_cons_self : firstDiff f z (c :: l) (c :: r) = firstDiff f z l r := if_pos rfl

theorem firstDiff_swap : firstDiff f z r l = -firstDiff f z l r := by
  induction l generalizing r with
  | nil =>
      cases r with
      | nil => rfl
      | cons d r => exact (Int.neg_sub (f z) (f d)).symm
  | cons c l ih =>
      cases r with
      | nil => exact (Int.neg_sub (f c) (f z)).symm
      | cons d r =>
          by_cases h : c = d
          · rw [h, firstDiff_cons_self, firstDiff_cons_self, ih]
          · rw [firstDiff_cons_of_ne h, firstDiff_cons_of_ne (Ne.symm h), Int.neg_sub]

/-! ## The parts that decide -/

/-- Behind the end of either list nothing is compared. -/
theorem firstDiff_take {n : ℕ} (h : min l.length r.length < n) :
    firstDiff f z (l.take n) (r.take n) = firstDiff f z l r := by
  obtain ⟨n, rfl⟩ := Nat.exists_eq_succ_of_ne_zero (Nat.ne_zero_of_lt h)
  induction l generalizing r n with
  | nil => cases r <;> simp [firstDiff]
  | cons c l ih =>
      cases r with
      | nil => simp [firstDiff]
      | cons d r =>
          by_cases hcd : c = d
          · have hlt : min l.length r.length < n := by simpa using h
            obtain ⟨k, rfl⟩ := Nat.exists_eq_succ_of_ne_zero (Nat.ne_zero_of_lt hlt)
            simpa [hcd, firstDiff_cons_self] using ih k hlt
          · simp [firstDiff_cons_of_ne hcd]

/-- The same where the end of each list is written as `z`. -/
theorem firstDiff_take_append {n : ℕ} (hl : z ∉ l) (hr : z ∉ r)
    (h : min l.length r.length < n) :
    firstDiff f z ((l ++ [z]).take n) ((r ++ [z]).take n) = firstDiff f z l r := by
  obtain ⟨n, rfl⟩ := Nat.exists_eq_succ_of_ne_zero (Nat.ne_zero_of_lt h)
  induction l generalizing r n with
  | nil =>
      cases r with
      | nil => simp [firstDiff]
      | cons d r => simp_all [firstDiff]
  | cons c l ih =>
      cases r with
      | nil => simp_all [firstDiff, eq_comm]
      | cons d r =>
          by_cases hcd : c = d
          · have hlt : min l.length r.length < n := by simpa using h
            obtain ⟨k, rfl⟩ := Nat.exists_eq_succ_of_ne_zero (Nat.ne_zero_of_lt hlt)
            have hrest := ih (fun h ↦ hl (List.mem_cons_of_mem c h))
              (fun h ↦ hr (List.mem_cons_of_mem d h)) k hlt
            simpa [hcd, firstDiff_cons_self] using hrest
          · simp [firstDiff_cons_of_ne hcd]

/-! ## The order -/

theorem firstDiff_neg_iff [LT α] (hf : ∀ a b, f a < f b ↔ a < b) (hz : ∀ a, a ≠ z → f z < f a)
    (h : Comparable z l r) : firstDiff f z l r < 0 ↔ l < r := by
  induction l generalizing r with
  | nil =>
      cases r with
      | nil => simp [firstDiff]
      | cons d r => simpa [firstDiff] using Int.sub_neg_of_lt (hz d h.ne_of_nil)
  | cons c l ih =>
      cases r with
      | nil =>
          have hc := hz c h.symm.ne_of_nil
          simpa [firstDiff] using Int.sub_nonneg_of_le (Int.le_of_lt hc)
      | cons d r =>
          rw [List.cons_lt_cons_iff]
          by_cases hcd : c = d
          · have hirrefl : ¬ d < d := fun h ↦ Int.lt_irrefl _ ((hf d d).mpr h)
            simpa [hcd, firstDiff_cons_self, hirrefl] using ih h.tail
          · have hsub : f c - f d < 0 ↔ f c < f d := by omega
            simp [firstDiff_cons_of_ne hcd, hcd, hsub, hf]

theorem firstDiff_eq_zero_iff (hf : Function.Injective f) (h : Comparable z l r) :
    firstDiff f z l r = 0 ↔ l = r := by
  induction l generalizing r with
  | nil =>
      cases r with
      | nil => simp [firstDiff]
      | cons d r =>
          have hd := hf.ne h.ne_of_nil
          simp only [firstDiff, reduceCtorEq, iff_false]
          omega
  | cons c l ih =>
      cases r with
      | nil =>
          have hc := hf.ne h.symm.ne_of_nil
          simp only [firstDiff, reduceCtorEq, iff_false]
          omega
      | cons d r =>
          by_cases hcd : c = d
          · simpa [hcd, firstDiff_cons_self] using ih h.tail
          · have hne := hf.ne hcd
            simp only [firstDiff_cons_of_ne hcd, List.cons.injEq, hcd, false_and, iff_false]
            omega

end FirstDiff
