import Mathlib.Computability.StateTransition

/-!
# Runs of deterministic transition functions

Additions to Mathlib's `StateTransition.eval`: following a run one step at a
time, and the invariant rule.
-/

namespace StateTransition

variable {σ : Type*} {f : σ → Option σ}

theorem reaches_of_step {a b : σ} (h : f a = some b) : Reaches f a b :=
  Relation.ReflTransGen.single h

theorem eval_eq_of_step {a b : σ} (h : f a = some b) : eval f a = eval f b :=
  reaches_eval (reaches_of_step h)

theorem mem_eval_self {a : σ} (h : f a = none) : a ∈ eval f a :=
  mem_eval.mpr ⟨Relation.ReflTransGen.refl, h⟩

/-- What holds at the start and is kept by every step holds of every state of
the run. -/
theorem Reaches.invariant {P : σ → Prop} (hstep : ∀ s t, P s → f s = some t → P t)
    {a b : σ} (h : Reaches f a b) (ha : P a) : P b := by
  induction h with
  | refl => exact ha
  | tail _ hst ih => exact hstep _ _ ih hst

/-! ## Seeing less of the state -/

section Projection

variable {τ : Type*} {g : τ → Option τ} {φ : σ → τ}

theorem respects_of_map (h : ∀ s, (f s).map φ = g (φ s)) :
    Respects f g fun s t ↦ φ s = t := by
  rintro s t rfl
  have hs := h s
  cases hf : f s with
  | none => simpa [hf] using hs.symm
  | some u =>
      rw [hf] at hs
      exact ⟨φ u, rfl, Relation.TransGen.single hs.symm⟩

theorem dom_of_map (h : ∀ s, (f s).map φ = g (φ s)) (s : σ) :
    (eval g (φ s)).Dom ↔ (eval f s).Dom :=
  tr_eval_dom (respects_of_map h) rfl

theorem Reaches.map (h : ∀ s, (f s).map φ = g (φ s)) {s t : σ} (hreach : Reaches f s t) :
    Reaches g (φ s) (φ t) := by
  obtain ⟨u, rfl, hu⟩ := tr_reaches (respects_of_map h) rfl hreach
  exact hu

/-- Every state of the smaller run is seen in the larger one. -/
theorem Reaches.lift (h : ∀ s, (f s).map φ = g (φ s)) {s : σ} {t : τ}
    (hreach : Reaches g (φ s) t) : ∃ u, Reaches f s u ∧ φ u = t := by
  induction hreach with
  | refl => exact ⟨s, Relation.ReflTransGen.refl, rfl⟩
  | tail _ hst ih =>
      obtain ⟨u, hu, rfl⟩ := ih
      obtain ⟨v, hv, hvt⟩ := Option.map_eq_some_iff.mp ((h u).trans hst)
      exact ⟨v, hu.tail hv, hvt⟩

end Projection

/-- A run whose steps keep `P` and go down along a well-founded relation ends. -/
theorem dom_of_wellFounded {α : Type*} {r : α → α → Prop} (hr : WellFounded r) {m : σ → α}
    {P : σ → Prop} (hstep : ∀ s t, P s → f s = some t → P t ∧ r (m t) (m s)) {s : σ}
    (hs : P s) : (eval f s).Dom := by
  induction hms : m s using hr.induction generalizing s with
  | _ a ih =>
      subst hms
      cases hf : f s with
      | none => exact Part.dom_iff_mem.mpr ⟨s, mem_eval_self hf⟩
      | some t =>
          obtain ⟨ht, hlt⟩ := hstep s t hs hf
          rw [eval_eq_of_step hf]
          exact ih (m t) hlt ht rfl

end StateTransition
