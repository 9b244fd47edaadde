import BaizeBoard.Library.Transition

/-!
# Labelled code

An assembly function is a list of lines, labels and instructions.  Control is the
list of the lines that are still ahead: an instruction goes on with the next line,
with the lines behind a label, or leaves the function for an address.
-/

namespace Asm

inductive Line (L I : Type*) where
  | label (l : L)
  | op (i : I)

/-- Where control goes behind an instruction. -/
inductive Next (L A : Type*) where
  | fall
  | goto (l : L)
  | leave (target : A)

inductive Config (L I A σ : Type*) where
  | at (code : List (Line L I)) (s : σ)
  | left (target : A) (s : σ)

variable {L I A σ : Type*} [DecidableEq L]

/-- The lines behind a label. -/
def behind (l : L) : List (Line L I) → List (Line L I)
  | [] => []
  | .label k :: code => if k = l then code else behind l code
  | .op _ :: code => behind l code

variable (exec : I → σ → Option (σ × Next L A)) (function : List (Line L I))

/-- One line.  An instruction without a result and the end of the list have no step. -/
def step : Config L I A σ → Option (Config L I A σ)
  | .left _ _ => none
  | .at [] _ => none
  | .at (.label _ :: code) s => some (.at code s)
  | .at (.op i :: code) s =>
      match exec i s with
      | none => none
      | some (s, .fall) => some (.at code s)
      | some (s, .goto l) => some (.at (behind l function) s)
      | some (s, .leave target) => some (.left target s)

/-- Control that is at `code` leaves the function, for an address and in a state with `Q`. -/
def Ends (code : List (Line L I)) (s : σ) (Q : A → σ → Prop) : Prop :=
  ∃ target t, StateTransition.eval (step exec function) (.at code s) =
    Part.some (.left target t) ∧ Q target t

variable {exec function} {i : I} {code : List (Line L I)} {s t : σ} {Q : A → σ → Prop}

theorem eval_eq_some {c : Config L I A σ} {target : A}
    (h : step exec function c = some (.left target t)) :
    StateTransition.eval (step exec function) c = Part.some (.left target t) := by
  rw [StateTransition.eval_eq_of_step h]
  exact Part.eq_some_iff.mpr (StateTransition.mem_eval_self rfl)

theorem Ends.of_step {code' : List (Line L I)}
    (h : step exec function (.at code s) = some (.at code' t)) (hQ : Ends exec function code' t Q) :
    Ends exec function code s Q := by
  rw [Ends, StateTransition.eval_eq_of_step h]
  exact hQ

theorem Ends.label {l : L} (h : Ends exec function code s Q) :
    Ends exec function (.label l :: code) s Q := h.of_step rfl

theorem Ends.fall (hi : exec i s = some (t, .fall)) (h : Ends exec function code t Q) :
    Ends exec function (.op i :: code) s Q := by
  apply h.of_step
  simp only [step, hi]

theorem Ends.goto {l : L} (hi : exec i s = some (t, .goto l))
    (h : Ends exec function (behind l function) t Q) :
    Ends exec function (.op i :: code) s Q := by
  apply h.of_step
  simp only [step, hi]

theorem Ends.leave {target : A} (hi : exec i s = some (t, .leave target)) (h : Q target t) :
    Ends exec function (.op i :: code) s Q :=
  ⟨target, t, eval_eq_some (by simp only [step, hi]), h⟩

end Asm
