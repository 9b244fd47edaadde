import Mathlib.Data.List.Basic
import Mathlib.Data.Int.Notation

/-!
# Cells with dynamically checked borrows

A cell counts its shared borrows or marks its exclusive one.  `borrow` fails
iff the cell is mutably borrowed, `borrowMut` iff any borrow is live.
-/

namespace RefCell

/-- The borrows that are live: `n` shared ones, or an exclusive one. -/
inductive Borrow where
  | shared (n : ℕ)
  | exclusive
  deriving DecidableEq

end RefCell

structure RefCell (α : Type*) where
  value : α
  flag : RefCell.Borrow

namespace RefCell

variable {α : Type*}

def new (a : α) : RefCell α := { value := a, flag := .shared 0 }

def borrow (c : RefCell α) : Option (RefCell α) :=
  match c.flag with
  | .shared n => some { c with flag := .shared (n + 1) }
  | .exclusive => none

def borrowMut (c : RefCell α) : Option (RefCell α) :=
  match c.flag with
  | .shared 0 => some { c with flag := .exclusive }
  | _ => none

def release (c : RefCell α) : RefCell α :=
  match c.flag with
  | .shared n => { c with flag := .shared (n - 1) }
  | .exclusive => { c with flag := .shared 0 }

def modify (f : α → α) (c : RefCell α) : RefCell α := { c with value := f c.value }

theorem borrowMut_eq_none_iff (c : RefCell α) : c.borrowMut = none ↔ c.flag ≠ .shared 0 := by
  unfold borrowMut
  split <;> simp_all

theorem borrow_shared {c : RefCell α} {n : ℕ} (h : c.flag = .shared n) :
    c.borrow = some { c with flag := .shared (n + 1) } := by
  simp [borrow, h]

theorem borrowMut_free {c : RefCell α} (h : c.flag = .shared 0) :
    c.borrowMut = some { c with flag := .exclusive } := by
  simp [borrowMut, h]

theorem release_shared {c : RefCell α} {n : ℕ} (h : c.flag = .shared (n + 1)) :
    c.release = { c with flag := .shared n } := by
  simp [release, h]

end RefCell
