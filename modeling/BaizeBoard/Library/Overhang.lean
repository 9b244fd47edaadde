import Mathlib.Data.List.Basic
import Mathlib.Data.Set.Defs

/-!
# Telling two concatenations apart by their pieces

Two texts are cut into corresponding pieces.  When the pieces differ, the texts
may still agree, since one side can catch up later.  `Overhang m Z A B` bounds
how far a pair of pieces drifts apart, so that the other side never catches up:
behind a left piece that is too long only the letter `m` could still be made
good, and behind a right piece that is too long the overhang is one letter of
`Z`, which the following pieces only pass on.
-/

namespace List

variable {α : Type*} {m : α} {Z : Set α}

structure Overhang (m : α) (Z : Set α) (A B : List α) : Prop where
  nil : A = [] → B = []
  length : B.length ≤ A.length + 1
  cons : ∀ c, B = c :: A → c = m
  last : ∀ r, A = r ++ [m] → A = B
  behind : ∀ z, B = A ++ [z] → z ∈ Z
  carry : ∀ z ∈ Z, ∀ r, r ≠ [] → z :: B = A ++ r → r = [z]
  short : ∀ z ∈ Z, ∀ r, A ≠ z :: (B ++ r)

/-- A letter that is carried over a word comes out as it went in. -/
theorem eq_singleton_of_append_eq {q A r : List α} {c : α} (h : q ++ A = A ++ r)
    (hc : q = [c] ∨ r = [c]) : q = r := by
  have hperm : (A ++ q).Perm (A ++ r) := perm_append_comm.trans (h ▸ Perm.refl _)
  have hqr : q.Perm r := (perm_append_left_iff A).mp hperm
  rcases hc with rfl | rfl
  · exact (perm_singleton.mp hqr.symm).symm
  · exact perm_singleton.mp hqr

theorem Overhang.refl (A : List α) : Overhang m Z A A where
  nil := id
  length := Nat.le_succ _
  cons c h := by simpa using congrArg List.length h
  last _ _ := rfl
  behind z h := by simpa using congrArg List.length h
  carry z _ r _ h := (eq_singleton_of_append_eq (q := [z]) h (.inl rfl)).symm
  short z _ r h := by
    have hlength := congrArg List.length h
    simp only [length_cons, length_append] at hlength
    omega

theorem append_flatMap_ne {ps : List (List α × List α)} (hps : ∀ p ∈ ps, Overhang m Z p.1 p.2)
    {q : List α} (hq : q ≠ []) (hqm : q ≠ [m]) :
    q ++ ps.flatMap Prod.fst ≠ ps.flatMap Prod.snd := by
  induction ps generalizing q with
  | nil => simpa using hq
  | cons p ps ih =>
      obtain ⟨A, B⟩ := p
      have hp : Overhang m Z A B := hps _ mem_cons_self
      intro h
      simp only [flatMap_cons] at h
      rw [← append_assoc] at h
      have hqlen : 0 < q.length := length_pos_iff.mpr hq
      have hlen : B.length ≤ (q ++ A).length := by
        have hle := hp.length
        rw [length_append]
        omega
      have hfront : B <+: q ++ A :=
        prefix_of_prefix_length_le ⟨_, h.symm⟩ (prefix_append _ _) hlen
      obtain ⟨q', hq'⟩ := hfront
      rw [← hq', append_assoc, append_cancel_left_eq] at h
      refine ih (fun p hp ↦ hps p (mem_cons_of_mem _ hp)) ?_ ?_ h
      · rintro rfl
        rw [append_nil] at hq'
        have hone : q.length = 1 := by
          have hle := hp.length
          rw [hq', length_append] at hle
          omega
        obtain ⟨c, rfl⟩ := length_eq_one_iff.mp hone
        exact hqm (congrArg (fun d ↦ [d]) (hp.cons c hq'))
      · rintro rfl
        rcases eq_nil_or_concat A with rfl | ⟨r, x, rfl⟩
        · rw [hp.nil rfl] at hq'
          exact hqm (by simpa using hq'.symm)
        · have hx : m = x := by
            rw [concat_eq_append, ← append_assoc] at hq'
            simpa using (append_inj' hq' rfl).2
          have hAB := hp.last r (by rw [hx, concat_eq_append])
          rw [← hAB] at hq'
          exact hqm (eq_singleton_of_append_eq hq'.symm (.inr rfl))

/-- A right text that is one letter of `Z` longer stays so. -/
theorem flatMap_ne_cons {ps : List (List α × List α)} (hps : ∀ p ∈ ps, Overhang m Z p.1 p.2)
    {z : α} (hz : z ∈ Z) : ps.flatMap Prod.fst ≠ z :: ps.flatMap Prod.snd := by
  induction ps with
  | nil => simp
  | cons p ps ih =>
      obtain ⟨A, B⟩ := p
      have hp : Overhang m Z A B := hps _ mem_cons_self
      intro h
      simp only [flatMap_cons] at h
      rw [← cons_append] at h
      rcases append_eq_append_iff.mp h with ⟨r, hr, hrest⟩ | ⟨r, hr, -⟩
      · by_cases hnil : r = []
        · exact hp.short z hz [] (by rw [append_nil, hr, hnil, append_nil])
        · rw [hp.carry z hz r hnil hr] at hrest
          exact ih (fun p hp ↦ hps p (mem_cons_of_mem _ hp)) hrest
      · exact hp.short z hz r (by rw [hr, cons_append])

/-- Texts of such pieces agree only where all their pieces do. -/
theorem flatMap_eq_iff_of_overhang {ps : List (List α × List α)}
    (hps : ∀ p ∈ ps, Overhang m Z p.1 p.2) :
    ps.flatMap Prod.fst = ps.flatMap Prod.snd ↔ ∀ p ∈ ps, p.1 = p.2 := by
  induction ps with
  | nil => simp
  | cons p ps ih =>
      obtain ⟨A, B⟩ := p
      have hp : Overhang m Z A B := hps _ mem_cons_self
      have hrest : ∀ p ∈ ps, Overhang m Z p.1 p.2 := fun p hp ↦ hps p (mem_cons_of_mem _ hp)
      rw [forall_mem_cons, ← ih hrest]
      simp only [flatMap_cons]
      constructor
      · intro h
        rcases append_eq_append_iff.mp h with ⟨r, hr, htail⟩ | ⟨r, hr, htail⟩
        · rcases r with _ | ⟨z, _ | ⟨y, r⟩⟩
          · exact ⟨by simpa using hr.symm, by simpa using htail⟩
          · exact absurd htail (flatMap_ne_cons hrest (hp.behind z hr))
          · have hle := hp.length
            have hlen : B.length = A.length + (r.length + 2) := by simp [hr]
            omega
        · by_cases hnil : r = []
          · subst hnil
            exact ⟨by simpa using hr, by simpa using htail.symm⟩
          · refine absurd htail.symm (append_flatMap_ne hrest hnil ?_)
            rintro rfl
            have hlen : A.length = B.length + 1 := by simp [hr]
            rw [hp.last B hr] at hlen
            omega
      · rintro ⟨rfl, htail⟩
        rw [htail]

end List
