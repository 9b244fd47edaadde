import Mathlib.Data.List.Induction
import Mathlib.Data.Nat.Notation

/-!
# The first and the last occurrence in a list

The places of a list are numbered from `a` on.
-/

namespace Occurrence

variable {α : Type*} [DecidableEq α]

def first (c : α) : ℕ → List α → Option ℕ
  | _, [] => none
  | a, d :: l => if d = c then some a else first c (a + 1) l

def last (c : α) : ℕ → List α → Option ℕ
  | _, [] => none
  | a, d :: l => (last c (a + 1) l).or (if d = c then some a else none)

variable {a p : ℕ} {c d : α} {l : List α}

theorem first_cons_self : first c a (c :: l) = some a := if_pos rfl

theorem first_cons_of_ne (h : d ≠ c) : first c a (d :: l) = first c (a + 1) l := if_neg h

theorem last_append (l : List α) :
    last c a (l ++ [d]) = if d = c then some (a + l.length) else last c a l := by
  induction l generalizing a with
  | nil => simp [last]
  | cons e l ih =>
      rw [List.cons_append, last, ih, List.length_cons, Nat.add_assoc, Nat.add_comm 1]
      by_cases h : d = c <;> simp [h, last]

theorem first_eq_none_iff : first c a l = none ↔ c ∉ l := by
  induction l generalizing a with
  | nil => simp [first]
  | cons d l ih =>
      by_cases h : d = c
      · simp [h, first_cons_self]
      · simp [first_cons_of_ne h, ih, Ne.symm h]

theorem first_eq_some_iff :
    first c a l = some p ↔ ∃ pre post, l = pre ++ c :: post ∧ c ∉ pre ∧ p = a + pre.length := by
  induction l generalizing a with
  | nil => simp [first]
  | cons d l ih =>
      by_cases h : d = c
      · subst h
        rw [first_cons_self]
        constructor
        · rintro ⟨⟩
          exact ⟨[], l, by simp⟩
        · rintro ⟨pre, post, hl, hpre, rfl⟩
          cases pre with
          | nil => simp
          | cons e pre => simp_all
      · rw [first_cons_of_ne h, ih]
        constructor
        · rintro ⟨pre, post, rfl, hpre, rfl⟩
          exact ⟨d :: pre, post, rfl, by simp [hpre, Ne.symm h], by simp; omega⟩
        · rintro ⟨pre, post, hl, hpre, rfl⟩
          cases pre with
          | nil => simp_all
          | cons e pre =>
              obtain ⟨rfl, rfl⟩ := List.cons.inj hl
              exact ⟨pre, post, rfl, by simp_all, by simp; omega⟩

theorem last_eq_none_iff : last c a l = none ↔ c ∉ l := by
  induction l using List.reverseRecOn with
  | nil => simp [last]
  | append_singleton l d ih =>
      by_cases h : d = c
      · simp [last_append, h]
      · simp [last_append, h, ih, Ne.symm h]

theorem last_eq_some_iff :
    last c a l = some p ↔ ∃ pre post, l = pre ++ c :: post ∧ c ∉ post ∧ p = a + pre.length := by
  induction l using List.reverseRecOn generalizing p with
  | nil => simp [last]
  | append_singleton l d ih =>
      rw [last_append]
      by_cases h : d = c
      · subst h
        rw [if_pos rfl]
        constructor
        · rintro ⟨⟩
          exact ⟨l, [], by simp⟩
        · rintro ⟨pre, post, hl, hpost, rfl⟩
          cases post using List.reverseRecOn with
          | nil => simp_all
          | append_singleton post e =>
              rw [← List.cons_append, ← List.append_assoc] at hl
              obtain ⟨-, he⟩ := List.append_inj' hl rfl
              simp_all
      · rw [if_neg h, ih]
        constructor
        · rintro ⟨pre, post, rfl, hpost, rfl⟩
          exact ⟨pre, post ++ [d], by simp, by simp [hpost, Ne.symm h], rfl⟩
        · rintro ⟨pre, post, hl, hpost, rfl⟩
          cases post using List.reverseRecOn with
          | nil =>
              obtain ⟨-, he⟩ := List.append_inj' hl rfl
              simp_all
          | append_singleton post e =>
              rw [← List.cons_append, ← List.append_assoc] at hl
              obtain ⟨hfront, -⟩ := List.append_inj' hl rfl
              exact ⟨pre, post, hfront, by simp_all, rfl⟩

end Occurrence
