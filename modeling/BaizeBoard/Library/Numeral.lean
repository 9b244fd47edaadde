import Mathlib.Data.Nat.Digits.Lemmas

/-!
# Positional numerals over an alphabet

`Nat.digits` lists the digits of a number from the least significant one and
gives zero no digit at all.  A printed numeral reads the other way round and
writes zero as one digit.  `lowFirst` and `numeral` are these two printed
forms; `reading` is the value of a string of digits, and recovers the number
from its numeral even behind any number of padding zeros.
-/

namespace Numeral

variable {α : Type*}

/-- The digits of `n` from the least significant one, at least one of them. -/
def lowFirst (b n : ℕ) : List ℕ :=
  if n = 0 then [0] else Nat.digits b n

/-- The numeral of `n` in base `b`, written with the digits `digit`. -/
def numeral (digit : ℕ → α) (b n : ℕ) : List α :=
  ((lowFirst b n).map digit).reverse

def reading (undigit : α → ℕ) (b : ℕ) (l : List α) : ℕ :=
  l.foldl (fun n c ↦ b * n + undigit c) 0

theorem lowFirst_ne_nil (b n : ℕ) : lowFirst b n ≠ [] := by
  unfold lowFirst
  split
  · simp
  · exact Nat.digits_ne_nil_iff_ne_zero.mpr ‹_›

theorem length_lowFirst_pos (b n : ℕ) : 0 < (lowFirst b n).length :=
  List.length_pos_iff.mpr (lowFirst_ne_nil b n)

theorem lowFirst_eq {b : ℕ} (hb : 2 ≤ b) (n : ℕ) :
    lowFirst b n = n % b :: if 0 < n / b then lowFirst b (n / b) else [] := by
  rcases Nat.eq_zero_or_pos n with rfl | hn
  · simp [lowFirst]
  · have hdigits := Nat.digits_of_two_le_of_pos hb hn
    by_cases hq : n / b = 0
    · simp [lowFirst, hn.ne', hdigits, hq]
    · simp [lowFirst, hn.ne', hdigits, Nat.pos_of_ne_zero hq, hq]

theorem lowFirst_lt {b : ℕ} (hb : 2 ≤ b) {n d : ℕ} (hd : d ∈ lowFirst b n) : d < b := by
  unfold lowFirst at hd
  split at hd
  · simp only [List.mem_singleton] at hd
    omega
  · exact Nat.digits_lt_base (by omega) hd

theorem length_lowFirst_le {b : ℕ} (hb : 2 ≤ b) {n k : ℕ} (hk : 0 < k) (hn : n < b ^ k) :
    (lowFirst b n).length ≤ k := by
  unfold lowFirst
  split
  · simp only [List.length_singleton]
    omega
  · exact (Nat.digits_length_le_iff (by omega) n).mpr hn

theorem length_lowFirst_mono {b m n : ℕ} (h : m ≤ n) :
    (lowFirst b m).length ≤ (lowFirst b n).length := by
  have hpos := length_lowFirst_pos b n
  by_cases hm : m = 0
  · have hone : (lowFirst b m).length = 1 := by simp [lowFirst, hm]
    omega
  · have hn : n ≠ 0 := by omega
    simpa [lowFirst, hm, hn] using Nat.le_length_digits_le b m n h

@[simp] theorem length_numeral (digit : ℕ → α) (b n : ℕ) :
    (numeral digit b n).length = (lowFirst b n).length := by
  simp [numeral]

theorem numeral_ne_nil (digit : ℕ → α) (b n : ℕ) : numeral digit b n ≠ [] := by
  simpa [numeral] using lowFirst_ne_nil b n

theorem mem_numeral {digit : ℕ → α} {b : ℕ} (hb : 2 ≤ b) {n : ℕ} {c : α}
    (hc : c ∈ numeral digit b n) : ∃ d < b, c = digit d := by
  obtain ⟨d, hd, rfl⟩ := List.mem_map.mp (List.mem_reverse.mp hc)
  exact ⟨d, lowFirst_lt hb hd, rfl⟩

theorem length_numeral_eq_one {b : ℕ} (hb : 2 ≤ b) (digit : ℕ → α) (n : ℕ) :
    (numeral digit b n).length = 1 ↔ n < b := by
  rw [length_numeral, lowFirst_eq hb]
  have hdiv : 0 < n / b ↔ b ≤ n := by
    rw [Nat.div_pos_iff]
    omega
  by_cases hn : b ≤ n
  · have hpos := length_lowFirst_pos b (n / b)
    simp only [hdiv.mpr hn, if_true, List.length_cons]
    omega
  · simp only [mt hdiv.mp hn, if_false, List.length_singleton, true_iff]
    omega

/-- A positive number does not start with the digit zero. -/
theorem head_numeral_ne {b : ℕ} (hb : 2 ≤ b) {digit : ℕ → α}
    (hdigit : ∀ d < b, digit d = digit 0 → d = 0) {n : ℕ} (hn : 0 < n) (l : List α) :
    numeral digit b n ≠ digit 0 :: l := by
  intro h
  have hn0 : n ≠ 0 := hn.ne'
  have hlast : ((Nat.digits b n).map digit).getLast? = some (digit 0) := by
    have := congrArg List.head? h
    simpa [numeral, lowFirst, hn0] using this
  have hne : Nat.digits b n ≠ [] := Nat.digits_ne_nil_iff_ne_zero.mpr hn0
  have hget : (Nat.digits b n).getLast? = some ((Nat.digits b n).getLast hne) :=
    List.getLast?_eq_some_getLast hne
  have heq : digit ((Nat.digits b n).getLast hne) = digit 0 := by
    simpa [List.getLast?_map, hget] using hlast
  exact Nat.getLast_digit_ne_zero b hn0
    (hdigit _ (Nat.digits_lt_base (by omega) (List.getLast_mem hne)) heq)

/-- `l` stands for `n`, and starts with the digit zero only when that is all of it. -/
def IsNumeral (digit : ℕ → α) (b n : ℕ) (l : List α) : Prop :=
  ∃ ds : List ℕ, l = (ds.map digit).reverse ∧ (∀ d ∈ ds, d < b) ∧ Nat.ofDigits b ds = n ∧
    ∃ h : ds ≠ [], ds.getLast h = 0 → ds = [0]

theorem ofDigits_lowFirst (b n : ℕ) : Nat.ofDigits b (lowFirst b n) = n := by
  unfold lowFirst
  split
  · simp [*]
  · exact Nat.ofDigits_digits b n

theorem getLast_lowFirst {b n : ℕ} (h : (lowFirst b n).getLast (lowFirst_ne_nil b n) = 0) :
    lowFirst b n = [0] := by
  by_cases hn : n = 0
  · simp [lowFirst, hn]
  · simp only [lowFirst, hn, if_false] at h
    exact absurd h (Nat.getLast_digit_ne_zero b hn)

theorem isNumeral_iff {b : ℕ} (hb : 2 ≤ b) (digit : ℕ → α) (n : ℕ) (l : List α) :
    IsNumeral digit b n l ↔ l = numeral digit b n := by
  constructor
  · rintro ⟨ds, rfl, hlt, rfl, hne, hlast⟩
    by_cases hzero : ds.getLast hne = 0
    · rw [hlast hzero]
      simp [numeral, lowFirst]
    · have hdigits : Nat.digits b (Nat.ofDigits b ds) = ds :=
        Nat.digits_ofDigits b (by omega) ds hlt fun _ ↦ hzero
      have hpos : Nat.ofDigits b ds ≠ 0 :=
        Nat.digits_ne_nil_iff_ne_zero.mp (hdigits.symm ▸ hne)
      rw [numeral, lowFirst, if_neg hpos, hdigits]
  · rintro rfl
    exact ⟨lowFirst b n, rfl, fun d hd ↦ lowFirst_lt hb hd, ofDigits_lowFirst b n,
      lowFirst_ne_nil b n, getLast_lowFirst⟩

section Reading

variable {undigit : α → ℕ} {digit : ℕ → α} {b : ℕ}

@[simp] theorem reading_append_singleton (l : List α) (c : α) :
    reading undigit b (l ++ [c]) = b * reading undigit b l + undigit c := by
  simp [reading]

theorem reading_numeral (hb : 2 ≤ b) (hu : ∀ d < b, undigit (digit d) = d) (n : ℕ) :
    reading undigit b (numeral digit b n) = n := by
  induction n using Nat.strong_induction_on with
  | _ n ih =>
      have hmod : n % b < b := Nat.mod_lt _ (by omega)
      rw [numeral, lowFirst_eq hb, List.map_cons, List.reverse_cons, reading_append_singleton,
        hu _ hmod]
      split
      · rename_i hq
        have hlt : n / b < n := Nat.div_lt_self (by
          by_contra h
          simp [Nat.eq_zero_of_not_pos h] at hq) (by omega)
        have hread := ih (n / b) hlt
        rw [numeral] at hread
        rw [hread, Nat.div_add_mod]
      · rename_i hq
        have hz : n / b = 0 := Nat.eq_zero_of_not_pos hq
        have hdm := Nat.div_add_mod n b
        simp only [hz, mul_zero, zero_add] at hdm
        simp [reading, hdm]

theorem reading_replicate_append (hz : undigit (digit 0) = 0) (k : ℕ) (l : List α) :
    reading undigit b (List.replicate k (digit 0) ++ l) = reading undigit b l := by
  induction k with
  | zero => simp
  | succ k ih => simpa [reading, List.replicate_succ, hz] using ih

theorem reading_leftpad (hb : 2 ≤ b) (hu : ∀ d < b, undigit (digit d) = d) (w n : ℕ) :
    reading undigit b ((numeral digit b n).leftpad w (digit 0)) = n := by
  rw [List.leftpad, reading_replicate_append (hu 0 (by omega)), reading_numeral hb hu]

/-- Every zero behind a numeral multiplies its number by the base. -/
theorem reading_append_replicate (hz : undigit (digit 0) = 0) (l : List α) (k : ℕ) :
    reading undigit b (l ++ List.replicate k (digit 0)) = reading undigit b l * b ^ k := by
  induction k with
  | zero => simp
  | succ k ih =>
      rw [List.replicate_succ', ← List.append_assoc, reading_append_singleton, ih, hz, pow_succ]
      ring

/-! ### Reading into a bounded number -/

def readingFrom (undigit : α → ℕ) (b n : ℕ) (l : List α) : ℕ :=
  l.foldl (fun n c ↦ b * n + undigit c) n

theorem le_readingFrom (undigit : α → ℕ) (hb : 0 < b) (n : ℕ) (l : List α) :
    n ≤ readingFrom undigit b n l := by
  induction l generalizing n with
  | nil => exact le_refl n
  | cons c l ih =>
      calc
        n ≤ b * n := Nat.le_mul_of_pos_left n hb
        _ ≤ b * n + undigit c := Nat.le_add_right _ _
        _ ≤ readingFrom undigit b n (c :: l) := ih _

/-- Whether one more digit takes `n` beyond `limit` can be told from the quotient
and the remainder of `limit`. -/
theorem exceeds_iff {limit n d : ℕ} (hd : d < b) :
    n > limit / b ∨ n = limit / b ∧ d > limit % b ↔ limit < b * n + d := by
  have hdiv := Nat.div_add_mod limit b
  have hmod := Nat.mod_lt limit (Nat.zero_lt_of_lt hd)
  rcases Nat.lt_trichotomy n (limit / b) with hlt | heq | hgt
  · have hmul : b * n + b ≤ b * (limit / b) := by
      rw [← Nat.mul_succ]
      exact Nat.mul_le_mul_left b hlt
    omega
  · rw [heq]
    omega
  · have hmul : b * (limit / b) + b ≤ b * n := by
      rw [← Nat.mul_succ]
      exact Nat.mul_le_mul_left b hgt
    omega

end Reading

end Numeral
