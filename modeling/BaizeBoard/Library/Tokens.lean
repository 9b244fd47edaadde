import Mathlib.Data.List.TakeWhile
import Mathlib.Data.Nat.Notation

/-!
# Taking tokens off a list

A tokenizer keeps the part of a list that it has not looked at.  Each time it is
asked, with a set of delimiters of that time, it takes off the next token and
the delimiter behind it.  Asked with one set of delimiters only, it gives the
pieces between the delimiters that are not empty.
-/

namespace Tokens

variable {α : Type*}

/-- The next token of what is left, and what is left behind it. -/
def next (p : α → Bool) : Option (List α) → Option (List α) × Option (List α)
  | none => (none, none)
  | some s =>
      match s.dropWhile p with
      | [] => (none, none)
      | c :: t => (some ((c :: t).takeWhile (!p ·)), ((c :: t).dropWhile (!p ·)).tail?)

def run : List (α → Bool) → Option (List α) → List (Option (List α))
  | [], _ => []
  | p :: ps, s => (next p s).1 :: run ps (next p s).2

theorem run_cons (p : α → Bool) (ps : List (α → Bool)) (s : Option (List α)) :
    run (p :: ps) s = (next p s).1 :: run ps (next p s).2 := rfl

/-- Where the tokens of `run` begin, the list standing at `k`. -/
def starts : List (α → Bool) → ℕ → Option (List α) → List (Option ℕ)
  | [], _, _ => []
  | _ :: ps, k, none => none :: starts ps k none
  | p :: ps, k, some s =>
      let start := k + (s.takeWhile p).length
      match next p (some s) with
      | (none, rest) => none :: starts ps k rest
      | (some tok, rest) => some start :: starts ps (start + tok.length + 1) rest

variable {p : α → Bool} {front tok rest : List α} {d : α}

theorem next_of_forall (h : ∀ c ∈ front, p c) : next p (some front) = (none, none) := by
  rw [next, List.dropWhile_eq_nil_iff.mpr h]

theorem next_eq (hfront : ∀ c ∈ front, p c) (hne : tok ≠ []) (htok : ∀ c ∈ tok, ¬ p c)
    (hrest : ∀ c ∈ rest.head?, p c) :
    next p (some (front ++ (tok ++ rest))) = (some tok, rest.tail?) := by
  have hnot : ∀ c ∈ tok, (!p c) = true := by simpa using htok
  have hfirst : rest.takeWhile (!p ·) = [] ∧ rest.dropWhile (!p ·) = rest := by
    cases rest with
    | nil => exact ⟨rfl, rfl⟩
    | cons d rest =>
        have hd := hrest d rfl
        simp [hd]
  obtain ⟨c, t, rfl⟩ := List.exists_cons_of_ne_nil hne
  have hc : ¬ p c := htok c List.mem_cons_self
  have hdrop : (front ++ (c :: t ++ rest)).dropWhile p = c :: (t ++ rest) := by
    rw [List.dropWhile_append_of_pos hfront, List.cons_append, List.dropWhile_cons_of_neg hc]
  have htake : (c :: (t ++ rest)).takeWhile (!p ·) = c :: t := by
    rw [← List.cons_append, List.takeWhile_append_of_pos hnot, hfirst.1, List.append_nil]
  have htail : (c :: (t ++ rest)).dropWhile (!p ·) = rest := by
    rw [← List.cons_append, List.dropWhile_append_of_pos hnot, hfirst.2]
  rw [next, hdrop]
  simp only [htake, htail]

theorem starts_none (ps : List (α → Bool)) (k : ℕ) :
    starts ps k none = List.replicate ps.length none := by
  induction ps with
  | nil => rfl
  | cons p ps ih => exact congrArg (none :: ·) ih

theorem starts_of_forall (h : ∀ c ∈ front, p c) (ps : List (α → Bool)) (k : ℕ) :
    starts (p :: ps) k (some front) = List.replicate (ps.length + 1) none := by
  rw [starts, next_of_forall h]
  exact congrArg (none :: ·) (starts_none ps k)

theorem starts_token (hfront : ∀ c ∈ front, p c) (hne : tok ≠ []) (htok : ∀ c ∈ tok, ¬ p c)
    (hrest : ∀ c ∈ rest.head?, p c) (ps : List (α → Bool)) (k : ℕ) :
    starts (p :: ps) k (some (front ++ (tok ++ rest))) =
      some (k + front.length) :: starts ps (k + front.length + tok.length + 1) rest.tail? := by
  have hskip : (front ++ (tok ++ rest)).takeWhile p = front := by
    obtain ⟨c, t, rfl⟩ := List.exists_cons_of_ne_nil hne
    have hc : ¬ p c := htok c List.mem_cons_self
    rw [List.takeWhile_append_of_pos hfront, List.cons_append, List.takeWhile_cons_of_neg hc,
      List.append_nil]
  rw [starts, next_eq hfront hne htok hrest, hskip]

/-- A list is delimiters only, or has a first token with a delimiter or nothing behind it. -/
theorem exists_token (p : α → Bool) (s : List α) :
    (∀ c ∈ s, p c) ∨ ∃ front tok rest, s = front ++ (tok ++ rest) ∧ (∀ c ∈ front, p c) ∧
      tok ≠ [] ∧ (∀ c ∈ tok, ¬ p c) ∧ ∀ c ∈ rest.head?, p c := by
  induction s with
  | nil => exact .inl (by simp)
  | cons c s ih =>
      by_cases hc : p c
      · rcases ih with hall | ⟨front, tok, rest, rfl, hfront, htok⟩
        · exact .inl (by simpa using ⟨hc, hall⟩)
        · exact .inr ⟨c :: front, tok, rest, rfl, by simpa using ⟨hc, hfront⟩, htok⟩
      · right
        rcases ih with hall | ⟨front, tok, rest, rfl, hfront, hne, htok, hrest⟩
        · refine ⟨[], [c], s, rfl, by simp, by simp, by simpa using hc, fun d hd ↦ ?_⟩
          exact hall d (List.mem_of_mem_head? hd)
        · cases front with
          | nil =>
              refine ⟨[], c :: tok, rest, rfl, by simp, by simp, ?_, hrest⟩
              intro d hd
              rcases List.mem_cons.mp hd with rfl | hd
              · exact hc
              · exact htok d hd
          | cons d front =>
              refine ⟨[], [c], d :: (front ++ (tok ++ rest)), rfl, by simp, by simp,
                by simpa using hc, ?_⟩
              intro e he
              cases he
              exact hfront d List.mem_cons_self

/-! ## One set of delimiters -/

/-- The pieces between delimiters that are not empty. -/
def pieces (p : α → Bool) (s : List α) : List (List α) :=
  (s.splitOnP p).filter (!·.isEmpty)

theorem pieces_append (hfront : ∀ c ∈ front, p c) (s : List α) :
    pieces p (front ++ s) = pieces p s := by
  induction front with
  | nil => rfl
  | cons c front ih =>
      have hc : p c := hfront c List.mem_cons_self
      rw [← ih fun d hd ↦ hfront d (List.mem_cons_of_mem c hd)]
      simp [pieces, List.splitOnP_cons_eq_if_modifyHead, hc]

theorem pieces_of_forall (h : ∀ c ∈ front, p c) : pieces p front = [] := by
  rw [← List.append_nil front, pieces_append h]
  rfl

theorem pieces_token (hne : tok ≠ []) (htok : ∀ c ∈ tok, ¬ p c) : pieces p tok = [tok] := by
  rw [pieces, List.splitOnP_eq_singleton (by simpa using htok)]
  simp [hne]

theorem pieces_token_cons (hne : tok ≠ []) (htok : ∀ c ∈ tok, ¬ p c) (hd : p d)
    (rest : List α) : pieces p (tok ++ d :: rest) = tok :: pieces p rest := by
  rw [pieces, List.splitOnP_append_cons_of_forall_mem (by simpa using htok) d hd]
  simp [hne, pieces]

theorem run_none (ps : List (α → Bool)) : run ps none = List.replicate ps.length none := by
  induction ps with
  | nil => rfl
  | cons p ps ih => exact congrArg (none :: ·) ih

/-- A tokenizer that keeps its delimiters gives all pieces, and then nothing more. -/
theorem run_replicate (p : α → Bool) (n : ℕ) (s : List α) :
    run (List.replicate n p) (some s) =
      ((pieces p s).map some).take n ++ List.replicate (n - (pieces p s).length) none := by
  induction n generalizing s with
  | zero => simp [run]
  | succ n ih =>
      rw [List.replicate_succ, run]
      rcases exists_token p s with hall | ⟨front, tok, rest, rfl, hfront, hne, htok, hrest⟩
      · rw [next_of_forall hall, pieces_of_forall hall, run_none]
        simp [List.replicate_succ]
      · rw [next_eq hfront hne htok hrest, pieces_append hfront]
        cases rest with
        | nil =>
            rw [List.append_nil, pieces_token hne htok]
            simp [run_none]
        | cons d rest =>
            rw [pieces_token_cons hne htok (hrest d rfl)]
            simp [ih]

end Tokens
